import Mathlib

/-!
# Trying again until it works

`retry attempt` repeats an attempt until one succeeds, and keeps the states in which it failed.
`exists_retry` is its rule: if every attempt leads somewhere, and a failed one keeps an invariant
and goes down in a measure, then some attempt succeeds, after no more failures than the measure
says. A second quantity that goes down with every failure goes down along the whole list. Where a
transition relation can follow each attempt it can follow the whole (`exists_path_of_retry`).
-/

namespace GoLabs.Lib

variable {σ β : Type*} {attempt : σ → Option (σ × Bool)}

/-- Repeat until an attempt succeeds. The result is the list of the states in which the attempt
failed, the state in which it succeeded and the one after it; `none` is an attempt that stops the
program, or the end of the bound. -/
def retry (attempt : σ → Option (σ × Bool)) : (fuel : ℕ) → σ → Option (List σ × σ × σ)
  | 0, _ => none
  | fuel + 1, x =>
      match attempt x with
      | none => none
      | some (y, true) => some ([], x, y)
      | some (y, false) => (retry attempt fuel y).map fun r => (x :: r.1, r.2)

/-- The last attempt of a retry is one that succeeds. -/
lemma attempt_of_retry {fuel : ℕ} {x last y : σ} {failed : List σ}
    (h : retry attempt fuel x = some (failed, last, y)) : attempt last = some (y, true) := by
  induction fuel generalizing x failed with
  | zero => cases h
  | succ fuel ih =>
      unfold retry at h
      split at h
      · cases h
      · rename_i z hz
        cases h
        exact hz
      · obtain ⟨⟨rest, r⟩, hr, heq⟩ := Option.map_eq_some_iff.mp h
        cases heq
        exact ih hr

/-- **Enough attempts succeed.** -/
theorem exists_retry [Preorder β] {Inv : σ → Prop} {measure : σ → ℕ} {f : σ → β}
    (hstep : ∀ x, Inv x → ∃ y ok, attempt x = some (y, ok) ∧
      (ok = false → Inv y ∧ measure y < measure x ∧ f y < f x))
    {x : σ} (hx : Inv x) {fuel : ℕ} (hfuel : measure x < fuel) :
    ∃ failed last y, retry attempt fuel x = some (failed, last, y) ∧
      failed.length ≤ measure x ∧ (∀ z ∈ failed ++ [last], Inv z ∧ f z ≤ f x) ∧
      ((failed ++ [last]).map f).Pairwise (· > ·) := by
  induction fuel generalizing x with
  | zero => exact absurd hfuel (Nat.not_lt_zero _)
  | succ fuel ih =>
      obtain ⟨y, ok, hy, hfail⟩ := hstep x hx
      unfold retry
      cases ok with
      | true =>
          rw [hy]
          refine ⟨[], x, y, rfl, Nat.zero_le _, fun z hz => ?_, List.pairwise_singleton _ _⟩
          rw [List.nil_append, List.mem_singleton] at hz
          subst hz
          exact ⟨hx, le_refl _⟩
      | false =>
          obtain ⟨hinv, hlt, hf⟩ := hfail rfl
          obtain ⟨failed, last, w, hretry, hlen, hall, hdown⟩ := ih hinv (by omega)
          rw [hy]
          dsimp only
          rw [hretry]
          refine ⟨x :: failed, last, w, rfl, ?_, fun z hz => ?_, ?_⟩
          · rw [List.length_cons]
            omega
          · rcases List.mem_cons.mp hz with rfl | hz
            · exact ⟨hx, le_refl _⟩
            · exact ⟨(hall z hz).1, (hall z hz).2.trans hf.le⟩
          · refine List.pairwise_cons.mpr ⟨fun v hv => ?_, hdown⟩
            obtain ⟨z, hz, rfl⟩ := List.mem_map.mp hv
            exact (hall z hz).2.trans_lt hf

/-- A relation that can follow every attempt made can follow the retry. -/
theorem exists_path_of_retry {τ : Type*} {next : τ → τ → Prop} {R : σ → τ → Prop}
    {P : σ → Prop} (hstep : ∀ {z w ok u}, P z → attempt z = some (w, ok) → R z u →
      ∃ v, Relation.ReflTransGen next u v ∧ R w v)
    {fuel : ℕ} {x last y : σ} {failed : List σ} {u : τ} (hu : R x u)
    (h : retry attempt fuel x = some (failed, last, y)) (hP : ∀ z ∈ failed ++ [last], P z) :
    ∃ v, Relation.ReflTransGen next u v ∧ R y v := by
  induction fuel generalizing x failed u with
  | zero => cases h
  | succ fuel ih =>
      unfold retry at h
      split at h
      · cases h
      · rename_i z hz
        cases h
        exact hstep (hP last (by simp)) hz hu
      · rename_i z hz
        obtain ⟨⟨rest, r⟩, hr, heq⟩ := Option.map_eq_some_iff.mp h
        cases heq
        obtain ⟨v, huv, hv⟩ := hstep (hP x (by simp)) hz hu
        obtain ⟨w, hvw, hw⟩ := ih hv hr fun z hz => hP z (List.mem_cons_of_mem _ hz)
        exact ⟨w, huv.trans hvw, hw⟩

end GoLabs.Lib
