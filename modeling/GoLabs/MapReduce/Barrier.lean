import GoLabs.MapReduce.Server

/-!
# The barrier between the two phases

The coordinator's status words are read one by one, stored without a test by `HandleWorker` and
swapped without the mutex by the timers and by `HandleFinish`. The package comment says that a data
race may be reported and will not happen in fact; `barrier` is what does hold, in every interleaving
of the single reads, stores and swaps.

Status 2 is permanent (`ServerStep.finished`), so whatever `ServerOk` says about finished tasks at
one moment is true for ever. The only way into status 2 is the swap of a report
(`ServerStep.finished_cases`), and a report finds the task that was handed out (`lookup_reply`).
-/

namespace GoLabs.MapReduce

open GoLabs.Lib

variable {V : Type} {c : Coordinator} {sv sv' : Server V} {a : Event V} {t : Task}

/-! ## Finished tasks -/

/-- Status 2 is never left. -/
lemma ServerStep.finished (hst : ServerStep c sv a sv') (hok : ServerOk c sv)
    (ht : sv.status t = .finished) : sv'.status t = .finished := by
  cases hst with
  | store hcall hn => exact update_finished ((hok.scanning _ _ hcall).store hn).1 ht
  | finish hmem hu => exact (onlyRunning_cas _ _ _).finished ht
  | timer hk => exact (onlyRunning_cas _ _ _).finished ht
  | _ => exact ht

/-- Status 2 is reached from status 1 only, by a report. -/
lemma ServerStep.finished_cases (hst : ServerStep c sv a sv') (ht : sv'.status t = .finished) :
    sv.status t = .finished ∨ ∃ v u, a = .finish v u ∧ (v, u) ∈ sv.assigned ∧
      c.lookup (c.reply u).taskType (c.reply u).taskId = some t ∧ sv.status t = .running := by
  -- a store or a swap of another value is not the cause
  have hupdate : ∀ {u : Task} {s : TaskStatus}, s ≠ .finished →
      Function.update sv.status u s t = .finished → sv.status t = .finished := by
    intro u s hs hfin
    by_cases htu : t = u
    · subst htu
      rw [Function.update_self] at hfin
      exact absurd hfin hs
    · rwa [Function.update_of_ne htu] at hfin
  cases hst with
  | store hcall hn => exact Or.inl (hupdate (by decide) ht)
  | timer hk =>
      unfold Server.expire cas at ht
      dsimp only at ht
      split_ifs at ht
      · exact Or.inl (hupdate (by decide) ht)
      · exact Or.inl ht
  | @finish v w u hmem hu =>
      change cas sv.status u .running .finished t = .finished at ht
      unfold cas at ht
      split_ifs at ht with hrun
      · by_cases htu : t = u
        · subst htu
          exact Or.inr ⟨v, w, rfl, hmem, hu, hrun⟩
        · rw [Function.update_of_ne htu] at ht
          exact Or.inl ht
      · exact Or.inl ht
  | _ => exact Or.inl ht

/-- In some step of the trace `HandleFinish` found `t` in status 1, called by a worker that `t` had
been handed out to. -/
def Reported (tr : List (Server V × Event V)) (t : Task) : Prop :=
  ∃ x v, (x, .finish v t) ∈ tr ∧ (v, t) ∈ x.assigned ∧ x.status t = .running

section Runs

variable [DecidableEq V] {files : List Str} {nReduce : ℕ} {tr : List (Server V × Event V)}

/-- A task that was finished at some moment of a run is finished in the end. -/
lemma finished_of_visited (h : (server V files nReduce).Run tr sv) {x : Server V}
    (hx : Visited tr sv x) (ht : x.status t = .finished) : sv.status t = .finished := by
  induction h with
  | init =>
      rcases hx with rfl | ⟨a, ha⟩
      · exact ht
      · exact absurd ha List.not_mem_nil
  | step h hs ih =>
      rcases hx with rfl | ⟨a, ha⟩
      · exact ht
      · exact (ServerStep.of_step hs).finished (serverOk_of_run h) (ih (Visited.of_cons ha))

/-- **A finished task has been reported** by a worker that it was handed out to. -/
lemma reported_of_run (h : (server V files nReduce).Run tr sv) (ht : sv.status t = .finished) :
    Reported tr t := by
  induction h with
  | init => cases ht
  | @step tr x y a h hs ih =>
      rcases (ServerStep.of_step hs).finished_cases ht with hold | ⟨v, u, rfl, hmem, hu, hrun⟩
      · obtain ⟨z, v, hz, hreport⟩ := ih hold
        exact ⟨z, v, List.mem_cons_of_mem _ hz, hreport⟩
      · rw [lookup_reply ((serverOk_of_run h).assigned v u hmem).1] at hu
        cases hu
        exact ⟨x, v, List.mem_cons_self, hmem, hrun⟩

/-- When `Done` has returned true all reduce tasks are finished, and with them all map tasks. -/
lemma finished_of_done (h : (server V files nReduce).Run tr sv) (hdone : sv.done)
    (ht : t.Valid (makeCoordinator files nReduce)) (hmap : ∀ i, t = .map i → 1 ≤ nReduce) :
    sv.status t = .finished := by
  have hok := serverOk_of_run h
  cases t with
  | reduce i => exact hok.done hdone i ht
  | map i =>
      have hpos : (0 : ℕ) < (makeCoordinator files nReduce).activeReduceTasks.length :=
        valid_reduce.mpr (hmap i rfl)
      exact hok.phase 0 (by rw [hok.done hdone 0 hpos]; decide) i ht

/-- **The phase barrier and the permanence of status 2**, in every run of the coordinator.

1. A task in status 2 stays there, and the plain store of `HandleWorker` only ever overwrites a 0.
2. `HandleWorker` stores into a reduce task only when all map tasks are in status 2, and no reduce
   task has been handed out or has left status 0 unless they are.
3. The second call of `getReduceTask` never returns nil.
4. Where `Done` has returned true, all reduce tasks, and all map tasks if there is a reduce task,
   are in status 2, they stay there, and each of them was reported by a worker that it had been
   handed out to. -/
theorem barrier (h : (server V files nReduce).Run tr sv) :
    ((∀ x t, Visited tr sv x → x.status t = .finished → sv.status t = .finished) ∧
      ∀ v pc t, sv.call = some (v, .scanning pc) →
        pc.next (makeCoordinator files nReduce) sv.status = some (.store t) →
        sv.status t = .notRun) ∧
    ((∀ v pc i, sv.call = some (v, .scanning pc) →
        pc.next (makeCoordinator files nReduce) sv.status = some (.store (.reduce i)) →
        MapsFinished (makeCoordinator files nReduce) sv.status) ∧
      ∀ i, (∃ v, (v, .reduce i) ∈ sv.assigned) ∨ sv.status (.reduce i) ≠ .notRun →
        MapsFinished (makeCoordinator files nReduce) sv.status) ∧
    (∀ v, sv.call ≠ some (v, .scanning .nilTask)) ∧
    ∀ x t, Visited tr sv x → x.done → t.Valid (makeCoordinator files nReduce) →
      (∀ i, t = .map i → 1 ≤ nReduce) →
      x.status t = .finished ∧ sv.status t = .finished ∧ Reported tr t := by
  have hok := serverOk_of_run h
  refine ⟨⟨fun x t => finished_of_visited h, ?_⟩, ⟨?_, ?_⟩, ?_, ?_⟩
  · intro v pc t hcall hn
    exact ((hok.scanning v pc hcall).store hn).1
  · intro v pc i hcall hn
    exact ((hok.scanning v pc hcall).store hn).2.2 i rfl
  · rintro i (⟨v, hmem⟩ | hs)
    · exact (hok.assigned v _ hmem).2 i rfl
    · exact hok.phase i hs
  · intro v hcall
    exact hok.scanning v _ hcall
  · intro x t hx hdone hvalid hmap
    obtain ⟨tr₂, -, hrun⟩ := h.of_visited hx
    have hfin := finished_of_done hrun hdone hvalid hmap
    have hnow := finished_of_visited h hx hfin
    exact ⟨hfin, hnow, reported_of_run h hnow⟩

/-- One map task and one reduce task. Worker 0 is slow with the map task, its timer hands the task
on to worker 1, and worker 0 reports it first; worker 1 gets the reduce task after both scans. -/
theorem barrier_run : ∃ tr sv, (server (Fin 2) [ascii "b"] 1).Run tr sv ∧ sv.done ∧
    sv.handOuts (.map 0) = 2 ∧
    (sv.status (.map 0) = .finished ∧ Reported tr (.map 0)) ∧
    sv.status (.reduce 0) = .finished ∧ Reported tr (.reduce 0) := by
  obtain ⟨tr, sv, h, hdone, htwice⟩ := (server (Fin 2) [ascii "b"] 1).exists_run_of_exec
    (List.flatten [[.lock 0, .handler, .handler, .handler, .timer 0],
      [.lock 1, .handler, .handler, .handler, .finish 0 (.map 0), .finish 1 (.map 0)],
      .lock 1 :: List.replicate 10 .handler, [.finish 1 (.reduce 0), .done, .scan 0, .scan 0]])
    (fun _ sv => sv.done ∧ sv.handOuts (.map 0) = 2) (by decide)
  obtain ⟨-, -, -, hall⟩ := barrier h
  have hmap := hall sv (.map 0) (Visited.now _ _) hdone (valid_map.mpr ⟨_, rfl⟩) (by simp)
  have hreduce :=
    hall sv (.reduce 0) (Visited.now _ _) hdone (valid_reduce.mpr (by decide)) (by simp)
  exact ⟨tr, sv, h, hdone, htwice, hmap.2, hreduce.2⟩

end Runs

end GoLabs.MapReduce
