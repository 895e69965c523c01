import Mathlib.Data.List.Basic
import Mathlib.Logic.Relation
import Mathlib.Order.Basic

/-!
# Runs of a labelled transition system

A `System` is an initial state and a partial step function on actions: every choice a run makes
(which message is delivered, which goroutine gets the lock next) is in the action, so a run is
determined by the list of its actions. `step x a = none` says that `a` cannot happen in `x`.

* `System.Run tr st` — `st` is reached along the trace `tr`, which lists every step taken together
  with the state it was taken in, **the latest step first**. History ("at some earlier moment of
  the run") is therefore membership in the trace, and needs no extra state.
* `Visited tr st x` — `x` is the state `st` reached or one it was reached through.
* `Avoids D tr` — no step of the trace is one of the steps `D`.
* `System.exec` runs a list of actions, for concrete runs (`exists_run_of_exec`).

The rules used everywhere else are `Run.induction_avoiding` (an invariant that one step keeps
holds along every run, where the steps of the run may be restricted), `Run.rel_of_visited` and
`Run.rel_or_rel` (what every step keeps relates any two states of a run), `Run.of_mem` (every step
of a trace is taken at the end of a shorter run) and `Run.visited_or_rel` (every state of the run is
one of that shorter run or comes after the step). Two systems are compared by `Run.simulate`: a
relation that every step of the one keeps when the other answers with some steps of its own, or with
none, holds between the ends of matching runs.
-/

namespace GoLabs.Lib

variable {σ α : Type*}

/-- A labelled transition system whose steps are determined by their action. -/
structure System (σ α : Type*) where
  /-- The state every run starts in. -/
  init : σ
  /-- What an action does, `none` where it cannot happen. -/
  step : σ → α → Option σ

/-- `x` is the reached state `st`, or a state the trace went through on the way. -/
def Visited (tr : List (σ × α)) (st x : σ) : Prop := x = st ∨ ∃ a, (x, a) ∈ tr

/-- No step of the trace is one of `D`. -/
def Avoids (D : σ → α → Prop) (tr : List (σ × α)) : Prop := ∀ q ∈ tr, ¬ D q.1 q.2

instance (D : σ → α → Prop) [∀ x a, Decidable (D x a)] (tr : List (σ × α)) :
    Decidable (Avoids D tr) := inferInstanceAs (Decidable (∀ q ∈ tr, ¬ D q.1 q.2))

/-- The last state of a run is one of its states. -/
lemma Visited.now (tr : List (σ × α)) (st : σ) : Visited tr st st := Or.inl rfl

/-- A state of a run is one of the run that goes on. -/
lemma Visited.cons {tr : List (σ × α)} {x y z : σ} {a : α} (h : Visited tr x z) :
    Visited ((x, a) :: tr) y z := by
  rcases h with rfl | ⟨b, hb⟩
  · exact Or.inr ⟨a, List.mem_cons_self⟩
  · exact Or.inr ⟨b, List.mem_cons_of_mem _ hb⟩

/-- A state in which some step of the trace was taken was visited before the last step. -/
lemma Visited.of_cons {tr : List (σ × α)} {x y : σ} {a b : α} (h : (y, b) ∈ (x, a) :: tr) :
    Visited tr x y := by
  rcases List.mem_cons.mp h with heq | h
  · exact Or.inl (Prod.mk.inj heq).1
  · exact Or.inr ⟨b, h⟩

/-- The states of a run are states of a longer one that visits its end. -/
lemma Visited.mono {tr tr' : List (σ × α)} {st st' x : σ} (h : Visited tr st x)
    (htr : tr ⊆ tr') (hst : Visited tr' st' st) : Visited tr' st' x := by
  rcases h with rfl | ⟨a, ha⟩
  · exact hst
  · exact Or.inr ⟨a, htr ha⟩

/-- A trace that avoids some steps avoided them before its last step. -/
lemma Avoids.tail {D : σ → α → Prop} {tr : List (σ × α)} {p : σ × α} (h : Avoids D (p :: tr)) :
    Avoids D tr := fun q hq => h q (List.mem_cons_of_mem _ hq)

/-- The last step of a trace that avoids some steps is none of them. -/
lemma Avoids.head {D : σ → α → Prop} {tr : List (σ × α)} {x : σ} {a : α}
    (h : Avoids D ((x, a) :: tr)) : ¬ D x a := h (x, a) List.mem_cons_self

/-- A run without a step avoids everything. -/
lemma Avoids.nil {D : σ → α → Prop} : Avoids D [] := fun _ hq => absurd hq List.not_mem_nil

/-- A trace avoids what its last step and the earlier ones avoid. -/
lemma Avoids.cons {D : σ → α → Prop} {tr : List (σ × α)} {x : σ} {a : α} (h : Avoids D tr)
    (ha : ¬ D x a) : Avoids D ((x, a) :: tr) := by
  intro q hq
  rcases List.mem_cons.mp hq with rfl | hq
  · exact ha
  · exact h q hq

/-- A trace avoids what its two parts avoid. -/
lemma Avoids.append {D : σ → α → Prop} {tr₁ tr₂ : List (σ × α)} (h₁ : Avoids D tr₁)
    (h₂ : Avoids D tr₂) : Avoids D (tr₁ ++ tr₂) := by
  intro q hq
  rcases List.mem_append.mp hq with hq | hq
  · exact h₁ q hq
  · exact h₂ q hq

/-- A trace that avoids some steps avoids any of them. -/
lemma Avoids.mono {D E : σ → α → Prop} {tr : List (σ × α)} (hDE : ∀ x a, E x a → D x a)
    (h : Avoids D tr) : Avoids E tr := fun q hq hE => h q hq (hDE q.1 q.2 hE)

namespace System

variable (S : System σ α)

/-- `st` is reached from the initial state along the trace, the latest step first. -/
inductive Run : List (σ × α) → σ → Prop
  | init : Run [] S.init
  | step {tr : List (σ × α)} {x y : σ} {a : α} (h : Run tr x) (hs : S.step x a = some y) :
      Run ((x, a) :: tr) y

/-- Run the actions one after the other, on top of a trace already made. -/
def execFrom (tr : List (σ × α)) (st : σ) : List α → Option (List (σ × α) × σ)
  | [] => some (tr, st)
  | a :: as => (S.step st a).bind fun st' => execFrom ((st, a) :: tr) st' as

/-- Run the actions from the initial state. -/
def exec (as : List α) : Option (List (σ × α) × σ) := S.execFrom [] S.init as

variable {S}

/-- Executing actions continues a run. -/
lemma Run.of_execFrom {tr tr' : List (σ × α)} {st st' : σ} {as : List α} (h : S.Run tr st)
    (he : S.execFrom tr st as = some (tr', st')) : S.Run tr' st' := by
  induction as generalizing tr st with
  | nil =>
      simp only [execFrom, Option.some.injEq, Prod.mk.injEq] at he
      obtain ⟨rfl, rfl⟩ := he
      exact h
  | cons a as ih =>
      rw [execFrom, Option.bind_eq_some_iff] at he
      obtain ⟨x, hx, he⟩ := he
      exact ih (h.step hx) he

/-- A concrete run: what the executed actions end in is reached. -/
theorem exists_run_of_exec (S : System σ α) (as : List α) (P : List (σ × α) → σ → Prop)
    [∀ tr st, Decidable (P tr st)] (h : (S.exec as).any (fun r => decide (P r.1 r.2)) = true) :
    ∃ tr st, S.Run tr st ∧ P tr st := by
  rw [Option.any_eq_true] at h
  obtain ⟨⟨tr, st⟩, he, hP⟩ := h
  exact ⟨tr, st, Run.init.of_execFrom he, of_decide_eq_true hP⟩

/-! ## The induction rules -/

/-- **Invariants along restricted runs.** What holds initially and is kept by every step outside
`D` holds at the end of every run that avoids `D`. -/
theorem Run.induction_avoiding {D : σ → α → Prop} {P : List (σ × α) → σ → Prop}
    (h0 : P [] S.init)
    (hs : ∀ {tr x a y}, S.Run tr x → Avoids D tr → P tr x → ¬ D x a → S.step x a = some y →
      P ((x, a) :: tr) y)
    {tr : List (σ × α)} {st : σ} (h : S.Run tr st) (hD : Avoids D tr) : P tr st := by
  induction h with
  | init => exact h0
  | step h hstep ih => exact hs h hD.tail (ih hD.tail) hD.head hstep

/-- A trace determines the state it ends in. -/
theorem Run.unique {tr : List (σ × α)} {x y : σ} (hx : S.Run tr x) (hy : S.Run tr y) : x = y := by
  cases hx with
  | init =>
      cases hy
      rfl
  | step _ hx =>
      cases hy with
      | step _ hy => exact Option.some.inj (hx.symm.trans hy)

/-- The earlier part of a trace is the trace of a run. -/
theorem Run.of_append {tr₁ tr₂ : List (σ × α)} {st : σ} (h : S.Run (tr₁ ++ tr₂) st) :
    ∃ x, S.Run tr₂ x := by
  induction tr₁ generalizing st with
  | nil => exact ⟨st, h⟩
  | cons q tr₁ ih =>
      cases h with
      | step h _ => exact ih h

/-- Every step of a trace was taken at the end of a shorter run. -/
theorem Run.of_mem {tr : List (σ × α)} {st x : σ} {a : α} (h : S.Run tr st) (hx : (x, a) ∈ tr) :
    ∃ tr₁ tr₂ y, tr = tr₁ ++ (x, a) :: tr₂ ∧ S.Run tr₂ x ∧ S.step x a = some y := by
  induction h with
  | init => exact absurd hx List.not_mem_nil
  | @step tr z y b h hstep ih =>
      rcases List.mem_cons.mp hx with heq | hx
      · obtain ⟨rfl, rfl⟩ := Prod.mk.inj heq
        exact ⟨[], tr, y, rfl, h, hstep⟩
      · obtain ⟨tr₁, tr₂, w, rfl, hr, hw⟩ := ih hx
        exact ⟨(z, b) :: tr₁, tr₂, w, rfl, hr, hw⟩

/-- The state that a step of the trace leads to has been visited too. -/
theorem Run.visited_next {tr : List (σ × α)} {st x y : σ} {a : α} (h : S.Run tr st)
    (hx : (x, a) ∈ tr) (hy : S.step x a = some y) : Visited tr st y := by
  induction h with
  | init => exact absurd hx List.not_mem_nil
  | step h hstep ih =>
      rcases List.mem_cons.mp hx with heq | hx
      · obtain ⟨rfl, rfl⟩ := Prod.mk.inj heq
        rw [hstep, Option.some.injEq] at hy
        exact hy ▸ Visited.now _ _
      · exact (ih hx).cons

/-- Every visited state ends a shorter run, whose trace is part of the longer one. -/
theorem Run.of_visited {tr : List (σ × α)} {st x : σ} (h : S.Run tr st) (hx : Visited tr st x) :
    ∃ tr₂, tr₂ <:+ tr ∧ S.Run tr₂ x := by
  rcases hx with rfl | ⟨a, ha⟩
  · exact ⟨tr, List.suffix_rfl, h⟩
  · obtain ⟨tr₁, tr₂, -, rfl, hr, -⟩ := h.of_mem ha
    exact ⟨tr₂, ⟨tr₁ ++ [(x, a)], by simp⟩, hr⟩

/-- **What every step keeps.** A preorder that every step goes up in relates every visited state
to the one reached. -/
theorem Run.rel_of_visited {R : σ → σ → Prop} (hrefl : ∀ x, R x x)
    (htrans : ∀ {x y z}, R x y → R y z → R x z) (hR : ∀ {x a y}, S.step x a = some y → R x y)
    {tr : List (σ × α)} {st x : σ} (h : S.Run tr st) (hx : Visited tr st x) : R x st := by
  induction h with
  | init =>
      rcases hx with rfl | ⟨a, ha⟩
      · exact hrefl _
      · exact absurd ha List.not_mem_nil
  | step h hstep ih =>
      rcases hx with rfl | ⟨a, ha⟩
      · exact hrefl _
      · rcases List.mem_cons.mp ha with heq | ha
        · obtain ⟨rfl, -⟩ := Prod.mk.inj heq
          exact hR hstep
        · exact htrans (ih (Or.inr ⟨a, ha⟩)) (hR hstep)

/-- Two visited states are related one way or the other: one of them came first. -/
theorem Run.rel_or_rel {R : σ → σ → Prop} (hrefl : ∀ x, R x x)
    (htrans : ∀ {x y z}, R x y → R y z → R x z) (hR : ∀ {x a y}, S.step x a = some y → R x y)
    {tr : List (σ × α)} {st x y : σ} (h : S.Run tr st) (hx : Visited tr st x)
    (hy : Visited tr st y) : R x y ∨ R y x := by
  induction h with
  | init =>
      rcases hx with rfl | ⟨a, ha⟩
      · exact Or.inr (Run.rel_of_visited hrefl htrans hR Run.init hy)
      · exact absurd ha List.not_mem_nil
  | step h hstep ih =>
      have hrun := h.step hstep
      rcases hx with rfl | ⟨a, ha⟩
      · exact Or.inr (Run.rel_of_visited hrefl htrans hR hrun hy)
      · rcases hy with rfl | ⟨b, hb⟩
        · exact Or.inl (Run.rel_of_visited hrefl htrans hR hrun (Or.inr ⟨a, ha⟩))
        · exact ih (Visited.of_cons ha) (Visited.of_cons hb)

/-- A visited state came before a given step of the trace, or after it. -/
theorem Run.visited_or_rel {R : σ → σ → Prop} (hrefl : ∀ x, R x x)
    (htrans : ∀ {x y z}, R x y → R y z → R x z) (hR : ∀ {x a y}, S.step x a = some y → R x y)
    {tr₁ tr₂ : List (σ × α)} {st x y z : σ} {a : α} (h : S.Run (tr₁ ++ (x, a) :: tr₂) st)
    (hy : S.step x a = some y) (hz : Visited (tr₁ ++ (x, a) :: tr₂) st z) :
    Visited tr₂ x z ∨ R y z := by
  induction tr₁ generalizing st with
  | nil =>
      rcases hz with rfl | ⟨b, hb⟩
      · cases h with
        | step h hstep =>
            rw [hstep, Option.some.injEq] at hy
            exact Or.inr (hy ▸ hrefl _)
      · exact Or.inl (Visited.of_cons hb)
  | cons q tr₁ ih =>
      rcases hz with rfl | ⟨b, hb⟩
      · have hmem : (x, a) ∈ q :: tr₁ ++ (x, a) :: tr₂ := by simp
        exact Or.inr (Run.rel_of_visited hrefl htrans hR h (h.visited_next hmem hy))
      · cases h with
        | step h hstep => exact ih h (Visited.of_cons hb)

/-! ## Simulation -/

/-- Some action leads from `x` to `y`. -/
def Next (S : System σ α) (x y : σ) : Prop := ∃ a, S.step x a = some y

/-- A run can be continued to what its end leads to. -/
lemma Run.extend {tr : List (σ × α)} {x y : σ} (h : S.Run tr x)
    (hxy : Relation.ReflTransGen S.Next x y) : ∃ tr', S.Run tr' y := by
  induction hxy with
  | refl => exact ⟨tr, h⟩
  | tail _ hnext ih =>
      obtain ⟨tr', hrun⟩ := ih
      obtain ⟨a, ha⟩ := hnext
      exact ⟨_, hrun.step ha⟩

/-- **Simulation.** If `T` can answer every step of `S` so that `R` holds again, every run of `S`
is matched by one of `T`. -/
theorem Run.simulate {τ β : Type*} {T : System τ β} {R : σ → τ → Prop}
    (h0 : ∃ u, Relation.ReflTransGen T.Next T.init u ∧ R S.init u)
    (hs : ∀ {x a y u}, S.step x a = some y → R x u →
      ∃ v, Relation.ReflTransGen T.Next u v ∧ R y v)
    {tr : List (σ × α)} {st : σ} (h : S.Run tr st) : ∃ tr' u, T.Run tr' u ∧ R st u := by
  induction h with
  | init =>
      obtain ⟨u, hu, hR⟩ := h0
      obtain ⟨tr', hrun⟩ := (Run.init (S := T)).extend hu
      exact ⟨tr', u, hrun, hR⟩
  | step h hstep ih =>
      obtain ⟨tr', u, hrun, hR⟩ := ih
      obtain ⟨v, huv, hR'⟩ := hs hstep hR
      obtain ⟨tr'', hrun'⟩ := hrun.extend huv
      exact ⟨tr'', v, hrun', hR'⟩

end System

end GoLabs.Lib
