import Mathlib
import GoLabs.Lib.Run

/-!
# What a system can still do

`S.Possible D Q x` says that some steps lead from `x` to a state in which `Q` holds, none of them
one of `D`. A system in which this holds of every state of every run has no dead end on its way to
`Q`.

* `Possible.bind` — one stage after the other.
* `Possible.of_measure` — a stage that is repeated until a measure is used up.
* `Possible.of_finset` — a stage for each element of a finite set.
* `Run.continue` — a run can be continued to the goal.
-/

namespace GoLabs.Lib

namespace System

variable {σ α : Type*} {S : System σ α} {D : σ → α → Prop} {P Q : σ → Prop}

/-- Steps outside `D` lead to a state in which `Q` holds. -/
inductive Possible (S : System σ α) (D : σ → α → Prop) (Q : σ → Prop) : σ → Prop
  | now {x : σ} (h : Q x) : Possible S D Q x
  | step {x y : σ} {a : α} (ha : ¬ D x a) (hs : S.step x a = some y) (h : Possible S D Q y) :
      Possible S D Q x

namespace Possible

/-- **One stage after the other.** -/
theorem bind {x : σ} (h : S.Possible D P x) (hP : ∀ y, P y → S.Possible D Q y) :
    S.Possible D Q x := by
  induction h with
  | now hx => exact hP _ hx
  | step ha hs _ ih => exact .step ha hs ih

/-- **A stage that is repeated.** If from wherever `P` holds the goal can be reached, or `P` again
with a smaller measure, then the goal can be reached. -/
theorem of_measure (m : σ → ℕ)
    (hstage : ∀ x, P x → S.Possible D (fun y => Q y ∨ P y ∧ m y < m x) x) {x : σ} (hx : P x) :
    S.Possible D Q x := by
  induction hm : m x using Nat.strong_induction_on generalizing x with
  | _ k ih =>
      subst hm
      apply (hstage x hx).bind
      rintro y (hy | ⟨hy, hlt⟩)
      · exact .now hy
      · exact ih (m y) hlt hy rfl

/-- **A stage for each element of a finite set**, in any order. -/
theorem of_finset {ι : Type*} [DecidableEq ι] {R : Finset ι → σ → Prop} {A : Finset ι}
    (hstage : ∀ B i x, i ∈ A → i ∉ B → R B x → S.Possible D (R (insert i B)) x) {x : σ}
    (hx : R ∅ x) : S.Possible D (R A) x := by
  suffices h : ∀ B ⊆ A, S.Possible D (R B) x from h A (Finset.Subset.refl A)
  intro B
  induction B using Finset.induction_on with
  | empty => exact fun _ => .now hx
  | insert i B hi ih =>
      intro hsub
      obtain ⟨hiA, hB⟩ := Finset.insert_subset_iff.mp hsub
      exact (ih hB).bind fun y hy => hstage B i y hiA hi hy

end Possible

/-- **A run can be continued to the goal.** -/
theorem Run.continue {tr : List (σ × α)} {x : σ} (h : S.Run tr x) (hQ : S.Possible D Q x) :
    ∃ tr' y, S.Run (tr' ++ tr) y ∧ Avoids D tr' ∧ Q y := by
  induction hQ generalizing tr with
  | now hx => exact ⟨[], _, h, Avoids.nil, hx⟩
  | @step x y a ha hs _ ih =>
      obtain ⟨tr', z, hrun, hD, hz⟩ := ih (h.step hs)
      refine ⟨tr' ++ [(x, a)], z, ?_, hD.append (Avoids.nil.cons ha), hz⟩
      rwa [List.append_assoc, List.singleton_append]

end System

end GoLabs.Lib
