import Mathlib

/-!
# Splitting a list by key

A list is split by a function of its elements, its key, into the parts `l.filter (key · = k)`. A
list is determined by its parts up to a permutation (`perm_of_filter_perm`), the parts of the
concatenation of parts are those that went into it (`filter_flatMap`), and so a list is the
concatenation of its parts (`perm_flatMap_filter`). Parts that are ordered are the parts of one list
that is (`exists_ordered`): a stable sort of the concatenation does not change them.
-/

namespace GoLabs.Lib

variable {α κ : Type*} [DecidableEq κ] {key : α → κ}

/-- Two lists with the same parts have the same elements. -/
lemma perm_of_filter_perm (key : α → κ) {l l' : List α}
    (h : ∀ k, (l.filter fun a => key a = k).Perm (l'.filter fun a => key a = k)) : l.Perm l' := by
  classical
  rw [List.perm_iff_count]
  intro a
  have hcount := (List.perm_iff_count.mp (h (key a))) a
  rwa [List.count_filter (by simp), List.count_filter (by simp)] at hcount

/-- A part has no elements of another key. -/
lemma filter_part {part : List α} {k k' : κ} (h : ∀ a ∈ part, key a = k) :
    (part.filter fun a => key a = k') = if k = k' then part else [] := by
  split_ifs with hk
  · rw [List.filter_eq_self]
    intro a ha
    simpa [hk] using h a ha
  · rw [List.filter_eq_nil_iff]
    intro a ha
    simpa [h a ha] using hk

/-- The part of a key in the concatenation of the parts of several keys. -/
lemma filter_flatMap {parts : κ → List α} (hparts : ∀ k, ∀ a ∈ parts k, key a = k) {ks : List κ}
    (hks : ks.Nodup) (k : κ) :
    ((ks.flatMap parts).filter fun a => key a = k) = if k ∈ ks then parts k else [] := by
  induction ks with
  | nil => simp
  | cons k' ks ih =>
      obtain ⟨hnew, hks⟩ := List.nodup_cons.mp hks
      rw [List.flatMap_cons, List.filter_append, ih hks, filter_part (hparts k')]
      by_cases hk : k' = k
      · subst hk
        simp [hnew]
      · simp [hk, Ne.symm hk]

/-- **A list is what it is split into.** -/
lemma perm_flatMap_filter {l : List α} {ks : List κ} (hks : ks.Nodup)
    (hkey : ∀ a ∈ l, key a ∈ ks) : (ks.flatMap fun k => l.filter fun a => key a = k).Perm l := by
  refine perm_of_filter_perm key fun k => ?_
  rw [filter_flatMap (fun k a ha => by simpa using (List.mem_filter.mp ha).2) hks]
  split_ifs with hk
  · exact List.Perm.refl _
  · rw [List.filter_eq_nil_iff.mpr]
    intro a ha
    have hne : key a ≠ k := fun heq => hk (heq ▸ hkey a ha)
    simpa using hne

/-- **Merging ordered parts**, where the order is that of a value `point`. -/
lemma exists_ordered {τ : Type*} [LinearOrder τ] {point : α → τ} {parts : κ → List α}
    (hparts : ∀ k, ∀ a ∈ parts k, key a = k)
    (hordered : ∀ k, (parts k).Pairwise fun a b => point a ≤ point b) {ks : List κ}
    (hks : ks.Nodup) :
    ∃ l : List α, l.Pairwise (fun a b => point a ≤ point b) ∧
      ∀ k, (l.filter fun a => key a = k) = if k ∈ ks then parts k else [] := by
  let le : α → α → Bool := fun a b => point a ≤ point b
  have htrans : ∀ a b c, le a b → le b c → le a c := by
    simp only [le, decide_eq_true_eq]
    exact fun a b c => le_trans
  have htotal : ∀ a b, le a b || le b a := by
    simp only [le, Bool.or_eq_true, decide_eq_true_eq]
    exact fun a b => le_total _ _
  refine ⟨(ks.flatMap parts).mergeSort le, ?_, fun k => ?_⟩
  · simpa [le] using List.pairwise_mergeSort htrans htotal (ks.flatMap parts)
  · -- as long as the part itself, and has it as a sublist
    have hperm := (List.mergeSort_perm (ks.flatMap parts) le).filter fun a => decide (key a = k)
    rw [filter_flatMap hparts hks] at hperm
    split_ifs at hperm ⊢ with hk
    · have hsub : (parts k).Sublist ((ks.flatMap parts).mergeSort le) := by
        refine List.sublist_mergeSort htrans htotal ?_ ?_
        · simpa [le] using hordered k
        · exact List.sublist_flatten_of_mem (List.mem_map_of_mem hk)
      have hfilter := hsub.filter fun a => decide (key a = k)
      rw [filter_part (hparts k), if_pos rfl] at hfilter
      exact (hfilter.eq_of_length hperm.length_eq.symm).symm
    · exact List.perm_nil.mp hperm

end GoLabs.Lib
