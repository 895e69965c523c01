import GoLabs.MapReduce.Server

/-!
# What the coordinator keeps in a job

`JobStep` lists everything one step of a job can do; every invariant of the modules that follow is a
case distinction on it.

A job is a run of `server` with the workers of `worker.go` for its callers: `Serves` relates the two
states, and `serves_of_run` finds the run. The two steps of `HandleWorker` after its scans are one
step of the job, and so are the return of `Done` and its next call; a step of a worker on its files
is no step of the coordinator at all. What the coordinator keeps (`CoordinatorOk`) therefore needs
no proof of its own.
-/

namespace GoLabs.MapReduce

open GoLabs.Lib

variable {W : ℕ}

/-! ## Steps -/

/-- **Everything a step of a job can do.** -/
inductive JobStep (E : Env) (c : Coordinator) (st : Job W) : Action W → Job W → Prop
  | call {w : Fin W} (ha : (st.workers w).alive) (hpc : (st.workers w).pc = .idle) :
      JobStep E c st (.call w) (st.setPc w .calling)
  | lock {w : Fin W} (hh : st.handler = none) (hpc : (st.workers w).pc = .calling) :
      JobStep E c st (.lock w) { st with handler := some (w, .getMapTask 0) }
  | goto {w : Fin W} {pc pc' : HandlerPc} (hh : st.handler = some (w, pc))
      (hn : pc.next c st.status = some (.goto pc')) :
      JobStep E c st .handler { st with handler := some (w, pc') }
  | unlock {w : Fin W} {pc : HandlerPc} (hh : st.handler = some (w, pc))
      (hn : pc.next c st.status = some .unlock) :
      JobStep E c st .handler { st.setPc w .idle with handler := none }
  | store {w : Fin W} {pc : HandlerPc} {t : Task} (hh : st.handler = some (w, pc))
      (hn : pc.next c st.status = some (.store t)) : JobStep E c st .handler (st.assign w t)
  | fatal {w : Fin W} {fs : Files} (ha : (st.workers w).alive)
      (hw : work E c st.fs (st.workers w).pc = some (none, fs)) :
      JobStep E c st (.work w) { st.kill w with fs := fs }
  | work {w : Fin W} {pc : Pc} {fs : Files} (ha : (st.workers w).alive)
      (hw : work E c st.fs (st.workers w).pc = some (some pc, fs)) :
      JobStep E c st (.work w) { st.setPc w pc with fs := fs }
  | finish {w : Fin W} {t u : Task} (hpc : (st.workers w).pc = .finishing t)
      (hu : c.lookup (c.reply t).taskType (c.reply t).taskId = some u) :
      JobStep E c st (.finish w)
        (Job.setPc { st with status := cas st.status u .running .finished } w .idle)
  | timer {k : ℕ} {t : Task} (hk : st.timers[k]? = some t) :
      JobStep E c st (.timer k)
        { st with status := cas st.status t .running .notRun, timers := st.timers.eraseIdx k }
  | crash {w : Fin W} : JobStep E c st (.crash w) (st.kill w)
  | scanBusy (hlt : st.scan < c.activeReduceTasks.length)
      (hs : st.status (.reduce st.scan) ≠ .finished) : JobStep E c st .done { st with scan := 0 }
  | scanNext (hlt : st.scan < c.activeReduceTasks.length)
      (hs : st.status (.reduce st.scan) = .finished) :
      JobStep E c st .done { st with scan := st.scan + 1 }
  | scanEnd (hge : c.activeReduceTasks.length ≤ st.scan) :
      JobStep E c st .done { st with scan := 0, done := true }

/-- **Inversion of `Job.step`.** -/
theorem JobStep.of_step {E : Env} {c : Coordinator} {st st' : Job W} {a : Action W}
    (h : st.step E c a = some st') : JobStep E c st a st' := by
  cases a with
  | call w =>
      simp only [Job.step] at h
      split at h
      · rename_i hw
        cases h
        exact .call (by rw [hw]) (by rw [hw])
      · cases h
  | lock w =>
      simp only [Job.step] at h
      split at h
      · rename_i hh hpc
        cases h
        exact .lock hh hpc
      · cases h
  | handler =>
      simp only [Job.step] at h
      split at h
      · cases h
      · rename_i w pc hh
        obtain ⟨r, hr, rfl⟩ := Option.map_eq_some_iff.mp h
        cases r with
        | goto pc' => exact .goto hh hr
        | unlock => exact .unlock hh hr
        | store t => exact .store hh hr
  | work w =>
      simp only [Job.step] at h
      split_ifs at h with ha
      obtain ⟨⟨pc, fs⟩, hw, rfl⟩ := Option.map_eq_some_iff.mp h
      cases pc with
      | none => exact .fatal ha hw
      | some pc => exact .work ha hw
  | finish w =>
      simp only [Job.step] at h
      split at h
      · rename_i t hpc
        simp only [Job.handleFinish, Option.map_map, Option.map_eq_some_iff] at h
        obtain ⟨u, hu, rfl⟩ := h
        exact .finish hpc hu
      · cases h
  | timer k =>
      obtain ⟨t, ht, rfl⟩ := Option.map_eq_some_iff.mp h
      exact .timer ht
  | crash w =>
      cases h
      exact .crash
  | done =>
      simp only [Job.step] at h
      split_ifs at h with hlt hs
      · cases h
        exact .scanBusy hlt hs
      · cases h
        exact .scanNext hlt (not_not.mp hs)
      · cases h
        exact .scanEnd (not_lt.mp hlt)

/-! ## The task of a worker -/

variable {E : Env} {c : Coordinator} {st st' : Job W} {a : Action W} {w : Fin W} {t : Task}

/-- A step of `doMap` or `doReduce` does not change the task. -/
lemma work_task? {fs fs' : Files} {pc pc' : Pc} (hw : work E c fs pc = some (some pc', fs')) :
    pc'.task? = pc.task? := by
  cases pc with
  | idle => cases hw
  | calling => cases hw
  | assigned t =>
      cases t with
      | map i =>
          simp only [work] at hw
          split at hw
          · cases hw
          · cases hw
            rfl
      | reduce i =>
          cases hw
          rfl
  | reading i file rest kvs =>
      cases rest with
      | cons name rest =>
          cases hw
          rfl
      | nil =>
          simp only [work, Option.map_eq_some_iff] at hw
          obtain ⟨output, -, heq⟩ := hw
          cases heq
          rfl
  | writing t file ops =>
      cases ops with
      | cons op ops =>
          cases hw
          rfl
      | nil =>
          cases hw
          rfl
  | finishing t => cases hw

/-- A task that a worker is at after another step was its own before, or is the new one. -/
lemma task?_setPc {v : Fin W} {pc : Pc} (h : ((st.setPc v pc).workers w).pc.task? = some t) :
    w = v ∧ pc.task? = some t ∨ (st.workers w).pc.task? = some t := by
  by_cases hwv : w = v
  · subst hwv
    rw [Job.setPc_self] at h
    exact Or.inl ⟨rfl, h⟩
  · rw [Job.setPc_of_ne st pc hwv] at h
    exact Or.inr h

/-- A worker that has come out of a task without another one. -/
lemma task?_setPc_of_none {v : Fin W} {pc : Pc} (hpc : pc.task? = none)
    (h : ((st.setPc v pc).workers w).pc.task? = some t) : (st.workers w).pc.task? = some t := by
  rcases task?_setPc h with ⟨-, hnew⟩ | hold
  · rw [hpc] at hnew
    cases hnew
  · exact hold

/-- A crash leaves every worker where it was. -/
lemma pc_kill (st : Job W) (v w : Fin W) : ((st.kill v).workers w).pc = (st.workers w).pc := by
  by_cases hwv : w = v
  · subst hwv
    rw [Job.kill_self]
  · rw [Job.kill_of_ne st hwv]

/-! ## A job is a run of the server -/

/-- The server's state is that of the job's coordinator, and every task that a worker has was handed
out to it. -/
structure Serves (st : Job W) (sv : Server (Fin W)) : Prop where
  status : sv.status = st.status
  call : sv.call = st.handler.map fun q => (q.1, .scanning q.2)
  timers : sv.timers.map Timer.task = st.timers
  scans : sv.scans = [st.scan]
  done : sv.done = st.done
  assigned : ∀ w t, (st.workers w).pc.task? = some t → (w, t) ∈ sv.assigned

/-- The server does not notice what happens at the workers. -/
lemma Serves.of_workers {sv : Server (Fin W)} (h : Serves st sv)
    (hs : st'.status = st.status) (hh : st'.handler = st.handler) (ht : st'.timers = st.timers)
    (hscan : st'.scan = st.scan) (hd : st'.done = st.done)
    (hpc : ∀ w t, (st'.workers w).pc.task? = some t → (st.workers w).pc.task? = some t) :
    Serves st' sv where
  status := h.status.trans hs.symm
  call := by rw [h.call, hh]
  timers := h.timers.trans ht.symm
  scans := by rw [h.scans, hscan]
  done := h.done.trans hd.symm
  assigned w t hw := h.assigned w t (hpc w t hw)

section Runs

variable {files : List Str} {nReduce : ℕ} {fs : Files} {tr : List (Job W × Action W)}

/-- The server starts as the coordinator of the job does. -/
lemma serves_init (fs : Files) :
    ∃ sv, Relation.ReflTransGen (server (Fin W) files nReduce).Next Server.init sv ∧
      Serves (Job.init fs) sv := by
  -- the first call of `Done`
  refine ⟨_, .single ⟨.done, rfl⟩, rfl, rfl, rfl, rfl, rfl, ?_⟩
  intro w t ht
  cases ht

/-- **The server answers every step of the job.** -/
theorem JobStep.serves (hst : JobStep E (makeCoordinator files nReduce) st a st')
    {sv : Server (Fin W)} (h : Serves st sv) :
    ∃ sv', Relation.ReflTransGen (server (Fin W) files nReduce).Next sv sv' ∧ Serves st' sv' := by
  -- one step of the server, given by its case of `ServerStep`
  have hone : ∀ {x y : Server (Fin W)} {e : Event (Fin W)},
      ServerStep (makeCoordinator files nReduce) x e y →
        (server (Fin W) files nReduce).Next x y := fun hstep => ⟨_, hstep.to_step⟩
  have hcall : ∀ {w pc}, st.handler = some (w, pc) → sv.call = some (w, .scanning pc) := by
    intro w pc hh
    rw [h.call, hh, Option.map_some]
  have hscan : sv.scans[0]? = some st.scan := by rw [h.scans, List.getElem?_cons_zero]
  cases hst with
  | @call w ha hpc =>
      exact ⟨sv, .refl, h.of_workers rfl rfl rfl rfl rfl fun v t => task?_setPc_of_none rfl⟩
  | @lock w hh hpc =>
      have hfree : sv.call = none := by rw [h.call, hh, Option.map_none]
      exact ⟨_, .single (hone (.lock hfree)), { h with call := rfl }⟩
  | goto hh hn =>
      rw [← h.status] at hn
      exact ⟨_, .single (hone (.goto (hcall hh) hn)), { h with call := rfl }⟩
  | unlock hh hn =>
      rw [← h.status] at hn
      exact ⟨_, .single (hone (.unlock (hcall hh) hn)), { h with
        call := rfl
        assigned := fun v t ht => h.assigned v t (task?_setPc_of_none rfl ht) }⟩
  | @store w pc t hh hn =>
      rw [← h.status] at hn
      refine ⟨(sv.store w t).handOut w t, .tail (.single (hone (.store (hcall hh) hn)))
        (hone (.handOut rfl)), ?_⟩
      refine ⟨?_, rfl, ?_, h.scans, h.done, fun v u hu => ?_⟩
      · change Function.update sv.status t .running = Function.update st.status t .running
        rw [h.status]
      · change (sv.timers ++ [_]).map Timer.task = st.timers ++ [t]
        rw [List.map_append, h.timers, List.map_singleton]
      · rcases task?_setPc hu with ⟨rfl, hnew⟩ | hold
        · cases hnew
          exact List.mem_cons_self
        · exact List.mem_cons_of_mem _ (h.assigned v u hold)
  | fatal ha hw =>
      refine ⟨sv, .refl, h.of_workers rfl rfl rfl rfl rfl fun v t ht => ?_⟩
      rwa [← pc_kill st _ v]
  | work ha hw =>
      refine ⟨sv, .refl, h.of_workers rfl rfl rfl rfl rfl fun v t ht => ?_⟩
      rcases task?_setPc ht with ⟨rfl, hnew⟩ | hold
      · rw [← work_task? hw, hnew]
      · exact hold
  | @finish w t u hpc hu =>
      have hmem := h.assigned w t (by rw [hpc]; rfl)
      refine ⟨_, .single (hone (.finish hmem hu)), { h with
        status := ?_
        assigned := fun v t ht => h.assigned v t (task?_setPc_of_none rfl ht) }⟩
      change cas sv.status u _ _ = cas st.status u _ _
      rw [h.status]
  | @timer k t hk =>
      rw [← h.timers, List.getElem?_map, Option.map_eq_some_iff] at hk
      obtain ⟨timer, hk, rfl⟩ := hk
      refine ⟨_, .single (hone (.timer hk)), { h with status := ?_, timers := ?_ }⟩
      · change cas sv.status _ _ _ = cas st.status _ _ _
        rw [h.status]
      · change (sv.timers.eraseIdx k).map Timer.task = st.timers.eraseIdx k
        rw [← h.timers, List.eraseIdx_map]
  | crash =>
      refine ⟨sv, .refl, h.of_workers rfl rfl rfl rfl rfl fun v t ht => ?_⟩
      rwa [← pc_kill st _ v]
  | scanBusy hlt hs =>
      rw [← h.status] at hs
      refine ⟨_, .tail (.single (hone (.scanBusy hscan hlt hs))) (hone .done),
        { h with scans := ?_ }⟩
      change sv.scans.eraseIdx 0 ++ [0] = [0]
      rw [h.scans]
      rfl
  | scanNext hlt hs =>
      rw [← h.status] at hs
      refine ⟨_, .single (hone (.scanNext hscan hlt hs)), { h with scans := ?_ }⟩
      change sv.scans.set 0 _ = [st.scan + 1]
      rw [h.scans]
      rfl
  | scanEnd hge =>
      refine ⟨_, .tail (.single (hone (.scanEnd hscan hge))) (hone .done),
        { h with scans := ?_, done := rfl }⟩
      change sv.scans.eraseIdx 0 ++ [0] = [0]
      rw [h.scans]
      rfl

/-- **Every run of a job is one of the server.** -/
theorem serves_of_run (h : (job E W files nReduce fs).Run tr st) :
    ∃ tr' sv, (server (Fin W) files nReduce).Run tr' sv ∧ Serves st sv :=
  h.simulate (R := Serves) (serves_init fs) fun hs hR => (JobStep.of_step hs).serves hR

/-! ## The coordinator of a job -/

/-- What the coordinator keeps. -/
structure CoordinatorOk (c : Coordinator) (st : Job W) : Prop where
  handler : ∀ w pc, st.handler = some (w, pc) → HandlerOk c st.status pc
  valid : ∀ t, st.status t ≠ .notRun → t.Valid c
  /-- No reduce task is handed out before all map tasks are finished. -/
  phase : ∀ i, st.status (.reduce i) ≠ .notRun → MapsFinished c st.status
  scan : ∀ i < st.scan, st.status (.reduce i) = .finished
  done : st.done → ∀ i < c.activeReduceTasks.length, st.status (.reduce i) = .finished

/-- What the server keeps holds of the job's coordinator. -/
lemma ServerOk.coordinatorOk {sv : Server (Fin W)} (h : ServerOk c sv) (hs : Serves st sv) :
    CoordinatorOk c st := by
  refine ⟨fun w pc hh => ?_, ?_, ?_, ?_, ?_⟩
  · rw [← hs.status]
    exact h.scanning w pc (by rw [hs.call, hh, Option.map_some])
  · exact hs.status ▸ h.valid
  · exact hs.status ▸ h.phase
  · rw [← hs.status]
    exact h.scans st.scan (by rw [hs.scans]; exact List.mem_singleton_self _)
  · exact hs.status ▸ hs.done ▸ h.done

/-- **The coordinator in every run of a job.** -/
theorem coordinatorOk_of_run (h : (job E W files nReduce fs).Run tr st) :
    CoordinatorOk (makeCoordinator files nReduce) st := by
  obtain ⟨tr', sv, hrun, hserves⟩ := serves_of_run h
  exact (serverOk_of_run hrun).coordinatorOk hserves

end Runs

end GoLabs.MapReduce
