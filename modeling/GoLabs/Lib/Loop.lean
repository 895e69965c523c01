import Mathlib

/-!
# Loops

A loop whose body either goes on with a new state or leaves with a result. `loop` runs it with a
bound on the number of iterations; `Goes` says that iterations lead from one state to another, and
`EndsIn` that the loop leaves after so many of them. A loop that gets to a state in which it leaves
ends from every state on the way (`EndsIn.of_goes`), with the same result, and `loop` has this
result with every bound that is large enough. `Goes.simulate` carries a whole computation over to a
loop that follows each of its steps. `exists_mapM` is about loops over a list.
-/

namespace GoLabs.Lib

variable {σ τ β γ : Type*} {body : σ → Option (σ ⊕ β)} {x y z : σ} {b b' : β} {k : ℕ}

/-- Repeat the body until it leaves. `none` is a body that stops the program, or the end of the
bound. -/
def loop (body : σ → Option (σ ⊕ β)) : (fuel : ℕ) → σ → Option β
  | 0, _ => none
  | fuel + 1, x =>
      match body x with
      | none => none
      | some (.inl y) => loop body fuel y
      | some (.inr b) => some b

/-- Iterations lead from `x` to `y`. -/
def Goes (body : σ → Option (σ ⊕ β)) : σ → σ → Prop :=
  Relation.ReflTransGen fun x y => body x = some (.inl y)

/-- Iterations can be put together. -/
lemma Goes.trans (h : Goes body x y) (h' : Goes body y z) : Goes body x z :=
  Relation.ReflTransGen.trans h h'

/-- One iteration and some more. -/
lemma Goes.head (h : body x = some (.inl y)) (h' : Goes body y z) : Goes body x z :=
  Relation.ReflTransGen.head h h'

/-- Some iterations and one more. -/
lemma Goes.tail (h : Goes body x y) (h' : body y = some (.inl z)) : Goes body x z :=
  Relation.ReflTransGen.tail h h'

/-- The loop goes on for `k` iterations and leaves in the next one, with the result `b`. -/
inductive EndsIn (body : σ → Option (σ ⊕ β)) : ℕ → σ → β → Prop
  | leave {x : σ} {b : β} (h : body x = some (.inr b)) : EndsIn body 0 x b
  | go {k : ℕ} {x y : σ} {b : β} (h : body x = some (.inl y)) (h' : EndsIn body k y b) :
      EndsIn body (k + 1) x b

/-- A loop that gets to a state in which it ends, ends. -/
lemma Goes.endsIn (h : Goes body x y) (hy : body y = some (.inr b)) : ∃ k, EndsIn body k x b := by
  induction h using Relation.ReflTransGen.head_induction_on with
  | refl => exact ⟨0, EndsIn.leave hy⟩
  | head hstep _ ih =>
      obtain ⟨k, hk⟩ := ih
      exact ⟨k + 1, EndsIn.go hstep hk⟩

/-- One iteration later one iteration less is left. -/
lemma EndsIn.next (h : EndsIn body k x b) (hxy : body x = some (.inl y)) :
    ∃ j, k = j + 1 ∧ EndsIn body j y b := by
  cases h with
  | leave hx =>
      rw [hxy] at hx
      cases hx
  | @go j _ w _ hx hw =>
      rw [hxy] at hx
      obtain rfl := Sum.inl.inj (Option.some.inj hx)
      exact ⟨j, rfl, hw⟩

/-- A state in which the loop ends gives the result of the loop. -/
lemma EndsIn.result (h : EndsIn body k x b) (hx : body x = some (.inr b')) : b' = b := by
  cases h with
  | leave hx' =>
      rw [hx] at hx'
      exact Sum.inr.inj (Option.some.inj hx')
  | go hx' _ =>
      rw [hx] at hx'
      cases hx'

/-- A loop that ends does not panic where it is. -/
lemma EndsIn.ne_none (h : EndsIn body k x b) : body x ≠ none := by
  cases h with
  | leave hx => simp [hx]
  | go hx _ => simp [hx]

/-- The number of iterations that are left is determined. -/
lemma EndsIn.unique {j : ℕ} (h : EndsIn body k x b) (h' : EndsIn body j x b') : k = j := by
  induction h generalizing j with
  | leave hx =>
      cases h' with
      | leave _ => rfl
      | go hx' _ =>
          rw [hx] at hx'
          cases hx'
  | go hx _ ih =>
      obtain ⟨i, rfl, hi⟩ := h'.next hx
      rw [ih hi]

/-- A loop that ends does so from every state on the way. -/
lemma EndsIn.of_goes (h : EndsIn body k x b) (hxy : Goes body x y) :
    ∃ j, EndsIn body j y b := by
  induction hxy with
  | refl => exact ⟨k, h⟩
  | tail _ hstep ih =>
      obtain ⟨j, hj⟩ := ih
      obtain ⟨j', -, hj'⟩ := hj.next hstep
      exact ⟨j', hj'⟩

/-- **A loop that ends has a result.** -/
theorem EndsIn.loop_eq (h : EndsIn body k x b) {fuel : ℕ} (hfuel : k < fuel) :
    loop body fuel x = some b := by
  induction h generalizing fuel with
  | leave hx =>
      obtain ⟨fuel, rfl⟩ := Nat.exists_eq_add_of_le' (Nat.one_le_of_lt hfuel)
      unfold loop
      rw [hx]
  | go hx _ ih =>
      obtain ⟨fuel, rfl⟩ := Nat.exists_eq_add_of_le' (Nat.one_le_of_lt hfuel)
      unfold loop
      rw [hx]
      exact ih (Nat.succ_lt_succ_iff.mp hfuel)

/-- **Simulation.** A loop that can follow every iteration of another one follows all of them. -/
theorem Goes.simulate {body' : τ → Option (τ ⊕ γ)} {R : σ → τ → Prop}
    (hstep : ∀ {x y u}, R x u → body x = some (.inl y) → ∃ v, body' u = some (.inl v) ∧ R y v)
    {u : τ} (hu : R x u) (h : Goes body x y) : ∃ v, Goes body' u v ∧ R y v := by
  induction h with
  | refl => exact ⟨u, Relation.ReflTransGen.refl, hu⟩
  | tail _ hbody ih =>
      obtain ⟨v, hv, hR⟩ := ih
      obtain ⟨w, hw, hR'⟩ := hstep hR hbody
      exact ⟨w, hv.tail hw, hR'⟩

/-- A loop over a list whose body never fails. -/
lemma exists_mapM {α : Type*} {f : α → Option β} {l : List α} (h : ∀ a ∈ l, f a ≠ none) :
    ∃ bs, l.mapM f = some bs ∧ bs.length = l.length ∧ ∀ i : ℕ, bs[i]? = l[i]?.bind f := by
  induction l with
  | nil => exact ⟨[], rfl, rfl, fun i => by simp⟩
  | cons a l ih =>
      obtain ⟨bs, hbs, hlength, hget⟩ := ih fun a ha => h a (List.mem_cons_of_mem _ ha)
      obtain ⟨b, hb⟩ := Option.ne_none_iff_exists'.mp (h a List.mem_cons_self)
      refine ⟨b :: bs, ?_, by simp [hlength], fun i => ?_⟩
      · rw [List.mapM_cons, hb, hbs]
        rfl
      · cases i with
        | zero => simp [hb]
        | succ i => simpa using hget i

end GoLabs.Lib
