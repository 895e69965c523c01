import Mathlib

/-!
# First positions in a list with keys

`positions key l k` is the set of the indices of `l` whose element has the key `k`, and its least
element is the first such index. The rules say how the first positions change when an element is
appended.
-/

namespace GoLabs.Lib

variable {α κ : Type*} {key : α → κ} {l : List α} {a : α} {k : κ} {i : ℕ}

/-- The indices with the key `k`. -/
def positions (key : α → κ) (l : List α) (k : κ) : Set ℕ := {i | ∃ a, l[i]? = some a ∧ key a = k}

/-- A key has no position iff no element has it. -/
lemma positions_eq_empty_iff : positions key l k = ∅ ↔ ∀ a ∈ l, key a ≠ k := by
  constructor
  · intro h a ha hk
    obtain ⟨i, hi⟩ := List.mem_iff_getElem?.mp ha
    have hmem : i ∈ positions key l k := ⟨a, hi, hk⟩
    rw [h] at hmem
    exact hmem
  · intro h
    rw [Set.eq_empty_iff_forall_notMem]
    rintro i ⟨a, hi, hk⟩
    exact h a (List.mem_of_getElem? hi) hk

/-- A key that occurs has a first position. -/
lemma exists_isLeast_positions (h : (positions key l k).Nonempty) :
    ∃ i, IsLeast (positions key l k) i :=
  ⟨sInf (positions key l k), Nat.sInf_mem h, fun _ hj => Nat.sInf_le hj⟩

/-! ## Appending -/

/-- The positions in a longer list: those before, and the new one if it has the key. -/
lemma mem_positions_append :
    i ∈ positions key (l ++ [a]) k ↔ i ∈ positions key l k ∨ (i = l.length ∧ key a = k) := by
  constructor
  · rintro ⟨b, hb, hk⟩
    rw [List.getElem?_append] at hb
    split_ifs at hb with hi
    · exact Or.inl ⟨b, hb, hk⟩
    · rw [List.getElem?_singleton] at hb
      split_ifs at hb with h0
      cases hb
      exact Or.inr ⟨by omega, hk⟩
  · rintro (⟨b, hb, hk⟩ | ⟨rfl, hk⟩)
    · have hi := (List.getElem?_eq_some_iff.mp hb).1
      exact ⟨b, by rw [List.getElem?_append_left hi, hb], hk⟩
    · exact ⟨a, by simp, hk⟩

/-- An element with another key changes no position. -/
lemma positions_append_of_ne (h : key a ≠ k) :
    positions key (l ++ [a]) k = positions key l k := by
  ext i
  rw [mem_positions_append]
  exact or_iff_left fun hi => h hi.2

/-- The first position of a key stays the first one. -/
lemma isLeast_positions_of_append (h : (positions key l k).Nonempty)
    (hi : IsLeast (positions key (l ++ [a]) k) i) : IsLeast (positions key l k) i := by
  obtain ⟨j, hj⟩ := h
  have hlower : ∀ j ∈ positions key l k, i ≤ j :=
    fun j hj => hi.2 (mem_positions_append.mpr (Or.inl hj))
  refine ⟨?_, hlower⟩
  rcases mem_positions_append.mp hi.1 with hmem | ⟨hlen, -⟩
  · exact hmem
  · -- an old position comes before the end of the list
    have hle := hlower j hj
    obtain ⟨b, hb, -⟩ := hj
    have hlt := (List.getElem?_eq_some_iff.mp hb).1
    omega

/-- The first position of a key that is new is the end of the list. -/
lemma eq_length_of_isLeast_append (h : positions key l k = ∅)
    (hi : IsLeast (positions key (l ++ [a]) k) i) : i = l.length := by
  rcases mem_positions_append.mp hi.1 with hmem | ⟨hlen, -⟩
  · rw [h] at hmem
    exact absurd hmem (Set.notMem_empty i)
  · exact hlen

end GoLabs.Lib
