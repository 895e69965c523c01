import Mathlib.Data.Int.Notation
import Mathlib.Data.List.Basic
import Mathlib.Tactic.SplitIfs

/-!
# Slices indexed by integers

The indexing operations of a slice in a language whose indices are signed: reading, storing and
cutting with an index that may be negative or past the end. Such an access stops the program;
here it is `none`.
-/

namespace GoLabs.Lib.Slice

variable {α : Type*}

/-- `xs[i]`. -/
def get? (xs : List α) (i : ℤ) : Option α := if i < 0 then none else xs[i.toNat]?

/-- `xs[i] = v`. -/
def set? (xs : List α) (i : ℤ) (v : α) : Option (List α) :=
  if 0 ≤ i ∧ i < xs.length then some (xs.set i.toNat v) else none

/-- `xs[i:]`. -/
def from? (xs : List α) (i : ℤ) : Option (List α) :=
  if 0 ≤ i ∧ i ≤ xs.length then some (xs.drop i.toNat) else none

/-- `xs[i]` is the element at an index that is not negative. -/
theorem get?_eq_some_iff {xs : List α} {i : ℤ} {x : α} :
    get? xs i = some x ↔ 0 ≤ i ∧ xs[i.toNat]? = some x := by
  unfold get?
  split_ifs with h
  · simp only [false_iff, not_and]
    omega
  · simp only [iff_and_self]
    omega

/-- `xs[i]` does not panic iff the index is in range. -/
theorem isSome_get?_iff {xs : List α} {i : ℤ} :
    (get? xs i).isSome ↔ 0 ≤ i ∧ i < xs.length := by
  unfold get?
  split_ifs with h
  · simp; omega
  · simp; omega

/-- `xs[i] = v` replaces the element at an index in range. -/
theorem set?_eq_some_iff {xs ys : List α} {i : ℤ} {v : α} :
    set? xs i v = some ys ↔ (0 ≤ i ∧ i < xs.length) ∧ xs.set i.toNat v = ys := by
  unfold set?
  split_ifs with h
  · simp [h]
  · simp [h]

/-- Storing keeps the length of a slice and adds only the stored value. -/
lemma of_set?_eq_some {xs ys : List α} {i : ℤ} {v : α} (h : set? xs i v = some ys) :
    ys.length = xs.length ∧ ∀ y ∈ ys, y ∈ xs ∨ y = v := by
  obtain ⟨-, rfl⟩ := set?_eq_some_iff.mp h
  exact ⟨List.length_set, fun y hy => List.mem_or_eq_of_mem_set hy⟩

/-- What a slice holds after storing. -/
lemma getElem?_of_set? {xs ys : List α} {i j : ℕ} {v : α} (h : set? xs i v = some ys) :
    ys[j]? = if i = j then some v else xs[j]? := by
  obtain ⟨⟨-, hlt⟩, rfl⟩ := set?_eq_some_iff.mp h
  have hi : i < xs.length := by omega
  rw [Int.toNat_natCast, List.getElem?_set, if_pos hi]

/-- Storing in range succeeds, and changes nothing exactly when the value is there already. -/
lemma exists_set? {xs : List α} {i : ℕ} (hi : i < xs.length) (v : α) :
    ∃ ys, set? xs i v = some ys ∧ (ys = xs ↔ xs[i]? = some v) := by
  refine ⟨xs.set i v, set?_eq_some_iff.mpr ⟨by omega, by simp⟩, ?_, ?_⟩
  · intro heq
    rw [← heq, List.getElem?_set_self hi]
  · intro heq
    obtain ⟨_, rfl⟩ := List.getElem?_eq_some_iff.mp heq
    exact List.set_getElem_self hi

/-- `xs[i:]` is what is left behind an index in range, the length included. -/
theorem from?_eq_some_iff {xs ys : List α} {i : ℤ} :
    from? xs i = some ys ↔ (0 ≤ i ∧ i ≤ xs.length) ∧ xs.drop i.toNat = ys := by
  unfold from?
  split_ifs with h
  · simp [h]
  · simp [h]

end GoLabs.Lib.Slice
