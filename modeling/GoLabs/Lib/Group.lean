import Mathlib
import GoLabs.Lib.Partition

/-!
# Grouping a list by key

`Grouped key value l gs` says that `gs` lists every key of `l` once, in ascending order, together
with the values that `l` pairs with it.

* `Grouped.cons` — cutting off the first run of equal keys of a list that is ordered by key takes
  off exactly one group. It is the step of any loop that groups an ordered list run by run.
* `Grouped.map_perm` — what is computed from the groups, by a function that does not care for the
  order of the values, depends on the list only up to a permutation.
* `Grouped.partition_perm` — **grouping the parts of a partition by key is grouping the whole**: if
  a list is split into parts by a function of the key, the groups of all parts together are the
  groups of the list.
-/

namespace GoLabs.Lib

variable {α κ ν γ : Type*} [LinearOrder κ] [DecidableEq κ] {key : α → κ} {value : α → ν}

/-- The values that `l` pairs with the key `k`. -/
def valuesOf (key : α → κ) (value : α → ν) (l : List α) (k : κ) : List ν :=
  (l.filter fun a => key a = k).map value

/-- `gs` lists the keys of `l` in ascending order, each with its values. -/
structure Grouped (key : α → κ) (value : α → ν) (l : List α) (gs : List (κ × List ν)) : Prop where
  ascending : (gs.map Prod.fst).Pairwise (· < ·)
  mem_keys : ∀ k, k ∈ gs.map Prod.fst ↔ k ∈ l.map key
  values : ∀ g ∈ gs, g.2 = valuesOf key value l g.1

namespace Grouped

/-- Nothing is grouped into nothing. -/
lemma nil : Grouped key value [] [] := ⟨List.Pairwise.nil, by simp, by simp⟩

/-- In a list that is ordered by key, the keys behind the first run are greater than those in it. -/
lemma lt_of_mem_dropWhile {k : κ} {l : List α} (hk : ∀ a ∈ l, k ≤ key a)
    (hl : l.Pairwise fun a b => key a ≤ key b) {x : α} (hx : x ∈ l.dropWhile fun a => key a = k) :
    k < key x := by
  induction l with
  | nil => exact absurd hx List.not_mem_nil
  | cons a l ih =>
      obtain ⟨ha, hl⟩ := List.pairwise_cons.mp hl
      by_cases heq : key a = k
      · rw [List.dropWhile_cons_of_pos (by simpa using heq)] at hx
        exact ih (fun b hb => hk b (List.mem_cons_of_mem _ hb)) hl hx
      · rw [List.dropWhile_cons_of_neg (by simpa using heq)] at hx
        have hlt : k < key a := lt_of_le_of_ne (hk a List.mem_cons_self) (Ne.symm heq)
        rcases List.mem_cons.mp hx with rfl | hx
        · exact hlt
        · exact hlt.trans_le (ha x hx)

/-- **The first run of equal keys is the first group.** -/
theorem cons {a : α} {l : List α} {gs : List (κ × List ν)}
    (hl : (a :: l).Pairwise fun a b => key a ≤ key b)
    (h : Grouped key value (l.dropWhile fun b => key b = key a) gs) :
    Grouped key value (a :: l)
      ((key a, (a :: l.takeWhile fun b => key b = key a).map value) :: gs) := by
  obtain ⟨ha, hl⟩ := List.pairwise_cons.mp hl
  have hgt : ∀ x ∈ l.dropWhile fun b => key b = key a, key a < key x :=
    fun x hx => lt_of_mem_dropWhile ha hl hx
  have hrun : ∀ x ∈ l.takeWhile fun b => key b = key a, key x = key a := by
    intro x hx
    simpa using List.mem_takeWhile_imp hx
  have hsplit := List.takeWhile_append_dropWhile (p := fun b => key b = key a) (l := l)
  have hkey : ∀ k ∈ gs.map Prod.fst, key a < k := by
    intro k hk
    obtain ⟨x, hx, rfl⟩ := List.mem_map.mp ((h.mem_keys k).mp hk)
    exact hgt x hx
  refine ⟨?_, ?_, ?_⟩
  · exact List.pairwise_cons.mpr ⟨hkey, h.ascending⟩
  · intro k
    simp only [List.map_cons, List.mem_cons, h.mem_keys]
    conv_rhs => rw [← hsplit, List.map_append, List.mem_append]
    refine or_congr_right' fun hk => (or_iff_right ?_).symm
    intro hmem
    obtain ⟨x, hx, rfl⟩ := List.mem_map.mp hmem
    exact hk (hrun x hx)
  · intro g hg
    unfold valuesOf
    rcases List.mem_cons.mp hg with rfl | hg
    · -- behind the run no key is that of the run
      have hnone : (l.dropWhile fun b => key b = key a).filter (fun b => key b = key a) = [] := by
        rw [List.filter_eq_nil_iff]
        intro x hx
        simpa using (hgt x hx).ne'
      have hall : (l.takeWhile fun b => key b = key a).filter (fun b => key b = key a) =
          l.takeWhile fun b => key b = key a := by
        rw [List.filter_eq_self]
        intro x hx
        simpa using hrun x hx
      conv_rhs => rw [List.filter_cons_of_pos (by simp), ← hsplit, List.filter_append, hnone, hall]
      rw [List.append_nil]
    · -- the run holds none of the later keys
      have hne : key a < g.1 := hkey g.1 (List.mem_map_of_mem hg)
      have hnone : (l.takeWhile fun b => key b = key a).filter (fun b => key b = g.1) = [] := by
        rw [List.filter_eq_nil_iff]
        intro x hx
        simpa [hrun x hx] using hne.ne
      rw [h.values g hg, valuesOf]
      conv_rhs => rw [List.filter_cons_of_neg (by simpa using hne.ne), ← hsplit,
        List.filter_append, hnone, List.nil_append]

/-! ## Groups up to the order of the list -/

/-- The groups are the distinct keys of the list, each with its values. -/
lemma perm {l : List α} {gs : List (κ × List ν)} (h : Grouped key value l gs) :
    gs.Perm ((l.map key).dedup.map fun k => (k, valuesOf key value l k)) := by
  have hkeys : (gs.map Prod.fst).Perm (l.map key).dedup := by
    refine (List.perm_ext_iff_of_nodup (h.ascending.imp ne_of_lt) (List.nodup_dedup _)).mpr ?_
    intro k
    rw [h.mem_keys, List.mem_dedup]
  have hgs : gs = (gs.map Prod.fst).map fun k => (k, valuesOf key value l k) := by
    rw [List.map_map]
    conv_lhs => rw [← List.map_id gs]
    refine List.map_congr_left fun g hg => ?_
    exact Prod.ext rfl (h.values g hg)
  rw [hgs]
  exact hkeys.map _

/-- **What is computed from the groups** depends on the list only up to a permutation. -/
theorem map_perm {l l' : List α} {gs : List (κ × List ν)} (h : Grouped key value l gs)
    (hl : l.Perm l') {f : κ → List ν → γ} (hf : ∀ k vs vs', vs.Perm vs' → f k vs = f k vs') :
    (gs.map fun g => f g.1 g.2).Perm
      ((l'.map key).dedup.map fun k => f k (valuesOf key value l' k)) := by
  have hvalues : ∀ k, f k (valuesOf key value l k) = f k (valuesOf key value l' k) :=
    fun k => hf k _ _ ((hl.filter _).map _)
  have hgs := h.perm.map fun g => f g.1 g.2
  rw [List.map_map] at hgs
  refine hgs.trans ((List.Perm.of_eq (List.map_congr_left fun k _ => hvalues k)).trans ?_)
  exact (hl.map key).dedup.map _

end Grouped

/-! ## Partitions -/

variable {n : ℕ} {l : List α} {part : κ → ℕ}

omit [LinearOrder κ] in
/-- The values of a key are all in its part. -/
lemma valuesOf_filter (k : κ) :
    valuesOf key value (l.filter fun a => part (key a) = part k) k = valuesOf key value l k := by
  unfold valuesOf
  rw [List.filter_filter]
  refine congrArg (List.map value) (List.filter_congr fun a _ => ?_)
  by_cases hk : key a = k <;> simp [hk]

omit [LinearOrder κ] in
/-- The keys of a part are the keys that belong to it. -/
lemma dedup_map_filter (r : ℕ) :
    ((l.filter fun a => part (key a) = r).map key).dedup.Perm
      ((l.map key).dedup.filter fun k => part k = r) := by
  refine (List.perm_ext_iff_of_nodup (List.nodup_dedup _) ((List.nodup_dedup _).filter _)).mpr ?_
  intro k
  simp only [List.mem_dedup, List.mem_map, List.mem_filter, decide_eq_true_eq]
  constructor
  · rintro ⟨a, ⟨ha, hr⟩, rfl⟩
    exact ⟨⟨a, ha, rfl⟩, hr⟩
  · rintro ⟨⟨a, ha, rfl⟩, hr⟩
    exact ⟨a, ⟨ha, hr⟩, rfl⟩

/-- **Grouping the parts of a partition by key is grouping the whole**, up to the order of the
groups and of the values in them. -/
theorem Grouped.partition_perm {part : κ → ℕ} (hpart : ∀ k, part k < n) {parts : ℕ → List α}
    (hparts : ∀ r < n, (parts r).Perm (l.filter fun a => part (key a) = r))
    {gs : ℕ → List (κ × List ν)} (h : ∀ r < n, Grouped key value (parts r) (gs r))
    {f : κ → List ν → γ} (hf : ∀ k vs vs', vs.Perm vs' → f k vs = f k vs') :
    ((List.range n).flatMap fun r => (gs r).map fun g => f g.1 g.2).Perm
      ((l.map key).dedup.map fun k => f k (valuesOf key value l k)) := by
  have hone : ∀ r ∈ List.range n, ((gs r).map fun g => f g.1 g.2).Perm
      (((l.map key).dedup.filter fun k => part k = r).map
        fun k => f k (valuesOf key value l k)) := by
    intro r hr
    have hr := List.mem_range.mp hr
    refine ((h r hr).map_perm (hparts r hr) hf).trans ?_
    refine ((dedup_map_filter r).map _).trans (List.Perm.of_eq (List.map_congr_left ?_))
    intro k hk
    have hk : part k = r := by simpa using (List.mem_filter.mp hk).2
    rw [← hk, valuesOf_filter]
  refine (List.Perm.flatMap_left _ hone).trans ?_
  rw [← List.map_flatMap]
  exact (perm_flatMap_filter List.nodup_range fun k _ => List.mem_range.mpr (hpart k)).map _

end GoLabs.Lib
