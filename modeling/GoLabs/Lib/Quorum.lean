import Mathlib.Data.Finset.Card
import Mathlib.Data.Fintype.Card

/-!
# Majorities

A majority of a finite set of voters is a set of more than half of them. Two majorities meet
(`Majority.exists_mem_inter`), which is the only property of majorities a consensus protocol
needs.
-/

namespace GoLabs.Lib

variable {ι : Type*} [Fintype ι]

/-- Strictly more than half of all voters. -/
def Majority (Q : Finset ι) : Prop := Fintype.card ι < 2 * Q.card

instance (Q : Finset ι) : Decidable (Majority Q) := inferInstanceAs (Decidable (_ < _))

/-- More than a majority is a majority. -/
lemma Majority.mono {Q Q' : Finset ι} (h : Majority Q) (hQ : Q ⊆ Q') : Majority Q' :=
  lt_of_lt_of_le h (Nat.mul_le_mul_left 2 (Finset.card_le_card hQ))

/-- **Two majorities have a voter in common.** -/
theorem Majority.exists_mem_inter [DecidableEq ι] {Q Q' : Finset ι} (h : Majority Q)
    (h' : Majority Q') : ∃ v, v ∈ Q ∧ v ∈ Q' := by
  unfold Majority at h h'
  have hcard : (Finset.univ : Finset ι).card < Q.card + Q'.card := by
    rw [Finset.card_univ]
    omega
  obtain ⟨v, hv⟩ := Finset.inter_nonempty_of_card_lt_card_add_card
    (Finset.subset_univ Q) (Finset.subset_univ Q') hcard
  exact ⟨v, Finset.mem_inter.mp hv⟩

end GoLabs.Lib
