import GoLabs.Lib.Possible
import GoLabs.MapReduce.Recovery
import GoLabs.MapReduce.Timers

/-!
# A job can always be completed

`output_of_done` says what the output is when `Done` has returned true, and not that it ever does.
It may not: every worker may crash. But a job has no dead end as long as one worker is alive. From
every state of every run in which no worker has lost its task, that worker can complete the job,
even if all others crash at once, and without losing a task itself (`job_completes`).

The way there has stages. The other workers crash, and the reports that are on their way arrive
(`Alone`). The call that holds the mutex ends. If the worker has a task then, it does it and reports
it, so there is one task less to do. If it has none, the timers wake up and nobody is hurt; since a
running task has a timer, no task is running afterwards, so the next call finds a task if one is
unfinished (`Finds`). When all tasks are finished `Done` finds out.
-/

namespace GoLabs.MapReduce

open GoLabs.Lib

variable {W : ℕ} {E : Env} {c : Coordinator}

/-! ## The call that holds the mutex -/

/-- No more steps than this are left until a call of `HandleWorker` hands out a task or returns. -/
def HandlerPc.left (c : Coordinator) : HandlerPc → ℕ
  | getMapTask i => c.activeMapTasks.length - i + 2 * c.activeMapTasks.length +
      2 * c.activeReduceTasks.length + 5
  | mapFinished false i => c.activeMapTasks.length - i + c.activeMapTasks.length +
      2 * c.activeReduceTasks.length + 4
  | getReduceTask false i => c.activeReduceTasks.length - i + c.activeMapTasks.length +
      c.activeReduceTasks.length + 3
  | mapFinished true i => c.activeMapTasks.length - i + c.activeReduceTasks.length + 2
  | getReduceTask true i => c.activeReduceTasks.length - i + 1
  | storeMap _ | storeReduce _ | nilTask => 0

section Handler

variable {status : Task → TaskStatus} {pc pc' : HandlerPc}

/-- A step of the scan brings the call nearer to its end. -/
lemma HandlerPc.left_lt (hn : pc.next c status = some (.goto pc')) : pc'.left c < pc.left c := by
  rcases pc with i | i | ⟨second, i⟩ | ⟨second, i⟩ | i | _
  · simp only [HandlerPc.next] at hn
    split_ifs at hn <;> cases hn <;> simp only [HandlerPc.left] <;> omega
  · cases hn
  · cases second <;> simp only [HandlerPc.next, Handled.noReduceTask] at hn <;>
      split_ifs at hn <;> cases hn <;> simp only [HandlerPc.left] <;> omega
  · cases second <;> simp only [HandlerPc.next, Handled.noReduceTask] at hn <;>
      split_ifs at hn <;> cases hn <;> simp only [HandlerPc.left] <;> omega
  · cases hn
  · cases hn

/-- A call of `HandleWorker` is never stuck. -/
lemma HandlerOk.exists_next (h : HandlerOk c status pc) : ∃ r, pc.next c status = some r := by
  rcases pc with i | i | ⟨second, i⟩ | ⟨second, i⟩ | i | _
  · simp only [HandlerPc.next]
    split_ifs <;> exact ⟨_, rfl⟩
  · exact ⟨_, rfl⟩
  · simp only [HandlerPc.next]
    split_ifs <;> exact ⟨_, rfl⟩
  · simp only [HandlerPc.next]
    split_ifs <;> exact ⟨_, rfl⟩
  · exact ⟨_, rfl⟩
  · exact h.elim

/-- What is known of a call that will hand out a task, when no task is running. -/
def Finds (c : Coordinator) (status : Task → TaskStatus) : HandlerPc → Prop
  | .getMapTask i => (∀ j < i, status (.map j) ≠ .notRun) ∧
      ∃ t : Task, t.Valid c ∧ status t = .notRun
  | .mapFinished _ _ => MapsFinished c status ∧
      ∃ r < c.activeReduceTasks.length, status (.reduce r) = .notRun
  | .getReduceTask _ i => MapsFinished c status ∧
      ∃ r < c.activeReduceTasks.length, i ≤ r ∧ status (.reduce r) = .notRun
  | .storeMap _ | .storeReduce _ => True
  | .nilTask => False

/-- A call that has passed all map tasks knows that they are finished. -/
lemma Finds.mapsFinished {i : ℕ} (hidle : ∀ t, status t ≠ .running)
    (h : Finds c status (.getMapTask i)) (hi : c.activeMapTasks.length ≤ i) :
    MapsFinished c status ∧ ∃ r < c.activeReduceTasks.length, status (.reduce r) = .notRun := by
  have hmaps : MapsFinished c status := by
    intro j hj
    have hne := h.1 j (lt_of_lt_of_le hj hi)
    cases hs : status (.map j) with
    | notRun => exact absurd hs hne
    | running => exact absurd hs (hidle _)
    | finished => rfl
  refine ⟨hmaps, ?_⟩
  obtain ⟨t, hvalid, hnot⟩ := h.2
  cases t with
  | map j =>
      rw [hmaps j hvalid] at hnot
      cases hnot
  | reduce r => exact ⟨r, hvalid, hnot⟩

/-- A step of the scan does not pass over the task that it is going to find. -/
lemma Finds.goto (hidle : ∀ t, status t ≠ .running) (h : Finds c status pc)
    (hn : pc.next c status = some (.goto pc')) : Finds c status pc' := by
  rcases pc with i | i | ⟨second, i⟩ | ⟨second, i⟩ | i | _
  · simp only [HandlerPc.next] at hn
    split_ifs at hn with hlt hs
    · cases hn
      trivial
    · cases hn
      refine ⟨fun j hj => ?_, h.2⟩
      rcases Nat.lt_succ_iff_lt_or_eq.mp hj with hj | rfl
      · exact h.1 j hj
      · exact hs
    · cases hn
      exact h.mapsFinished hidle (not_lt.mp hlt)
  · cases hn
  · simp only [HandlerPc.next] at hn
    split_ifs at hn with hlt hs
    · exact absurd (h.1 i hlt) hs
    · cases hn
      exact h
    · cases hn
      obtain ⟨hmaps, r, hr, hnot⟩ := h
      exact ⟨hmaps, r, hr, Nat.zero_le r, hnot⟩
  · obtain ⟨hmaps, r, hr, hle, hnot⟩ := h
    simp only [HandlerPc.next] at hn
    split_ifs at hn with hlt hs hsecond
    · cases hn
      trivial
    · cases hn
      exact ⟨hmaps, r, hr, hnot⟩
    · cases hn
      refine ⟨hmaps, r, hr, Nat.succ_le_of_lt (lt_of_le_of_ne hle ?_), hnot⟩
      rintro rfl
      exact hs hnot
    · omega
  · cases hn
  · exact h.elim

/-- A call that finds a task does not return without one. -/
lemma Finds.ne_unlock (h : Finds c status pc) : pc.next c status ≠ some .unlock := by
  intro hn
  rcases pc with i | i | ⟨second, i⟩ | ⟨second, i⟩ | i | _
  · simp only [HandlerPc.next] at hn
    split_ifs at hn <;> cases hn
  · cases hn
  · simp only [HandlerPc.next] at hn
    split_ifs at hn with hlt hs
    · exact hs (h.1 i hlt)
    · cases hn
    · cases hn
  · obtain ⟨-, r, hr, hle, -⟩ := h
    have hlt : i < c.activeReduceTasks.length := lt_of_le_of_lt hle hr
    simp only [HandlerPc.next, if_pos hlt] at hn
    split_ifs at hn <;> cases hn
  · cases hn
  · exact h.elim

end Handler

/-! ## Steps -/

variable {st st' x x₀ y : Job W} {a : Action W} {w : Fin W} {t : Task}

/-- What the relation allows is a step of the job. -/
lemma JobStep.to_step (h : JobStep E c st a st') : st.step E c a = some st' := by
  cases h with
  | @call w ha hpc =>
      have hw : st.workers w = ⟨true, .idle⟩ := by
        rw [← ha, ← hpc]
      simp [Job.step, hw]
  | lock hh hpc => simp [Job.step, hh, hpc]
  | goto hh hn => simp [Job.step, hh, hn]
  | unlock hh hn => simp [Job.step, hh, hn]
  | store hh hn => simp [Job.step, hh, hn]
  | fatal ha hw => simp [Job.step, ha, hw]
  | work ha hw => simp [Job.step, ha, hw]
  | finish hpc hu => simp [Job.step, hpc, Job.handleFinish, hu]
  | timer hk => simp [Job.step, hk]
  | crash => rfl
  | scanBusy hlt hs => simp [Job.step, hlt, hs]
  | scanNext hlt hs => simp [Job.step, hlt, hs]
  | scanEnd hge => simp [Job.step, not_lt.mpr hge]

/-- Moving a worker on neither kills nor revives anyone. -/
lemma alive_setPc (st : Job W) (w v : Fin W) (pc : Pc) :
    ((st.setPc w pc).workers v).alive = (st.workers v).alive := by
  by_cases hv : v = w
  · subst hv
    rw [Job.setPc_self]
  · rw [Job.setPc_of_ne st pc hv]

/-- Who is alive after a crash is another worker, which was alive before. -/
lemma alive_kill {v : Fin W} (h : ((st.kill w).workers v).alive = true) :
    v ≠ w ∧ (st.workers v).alive = true := by
  have hv : v ≠ w := by
    rintro rfl
    rw [Job.kill_self] at h
    cases h
  rw [Job.kill_of_ne st hv] at h
  exact ⟨hv, h⟩

/-- The dead stay dead. -/
lemma JobStep.alive (h : JobStep E c st a st') {v : Fin W} (hv : (st'.workers v).alive = true) :
    (st.workers v).alive = true := by
  cases h with
  | call ha hpc => exact (alive_setPc _ _ v _).symm.trans hv
  | unlock hh hn => exact (alive_setPc _ _ v _).symm.trans hv
  | store hh hn => exact (alive_setPc _ _ v _).symm.trans hv
  | fatal ha hw => exact (alive_kill hv).2
  | work ha hw => exact (alive_setPc _ _ v _).symm.trans hv
  | finish hpc hu => exact (alive_setPc _ _ v _).symm.trans hv
  | crash => exact (alive_kill hv).2
  | _ => exact hv

/-- Moving a worker on, to something other than a report, puts no report on its way. -/
lemma finishing_setPc {v : Fin W} {pc : Pc}
    (h : ((st.setPc w pc).workers v).pc = .finishing t) (hpc : pc ≠ .finishing t) :
    (st.workers v).pc = .finishing t := by
  have hv : v ≠ w := by
    rintro rfl
    rw [Job.setPc_self] at h
    exact hpc h
  rwa [Job.setPc_of_ne st pc hv] at h

/-- A report is sent by the worker itself. -/
lemma JobStep.finishing (h : JobStep E c st a st') {v : Fin W}
    (hv : (st'.workers v).pc = .finishing t) : (st.workers v).pc = .finishing t ∨ a = .work v := by
  cases h with
  | call ha hpc => exact Or.inl (finishing_setPc hv (by simp))
  | unlock hh hn => exact Or.inl (finishing_setPc hv (by simp))
  | store hh hn => exact Or.inl (finishing_setPc hv (by simp))
  | fatal ha hw => exact Or.inl ((pc_kill st _ v).symm.trans hv)
  | @work w pc fs ha hw =>
      by_cases hvw : v = w
      · exact Or.inr (by rw [hvw])
      · exact Or.inl (by rwa [← Job.setPc_of_ne st pc hvw])
  | finish hpc hu => exact Or.inl (finishing_setPc hv (by simp))
  | crash => exact Or.inl ((pc_kill st _ v).symm.trans hv)
  | _ => exact Or.inl hv

/-- What is finished stays finished. -/
lemma JobStep.finished (h : JobStep E c st a st') (hc : CoordinatorOk c st)
    (ht : st.status t = .finished) : st'.status t = .finished := by
  cases h with
  | store hh hn => exact update_finished ((hc.handler _ _ hh).store hn).1 ht
  | finish hpc hu => exact (onlyRunning_cas _ _ _).finished ht
  | timer hk => exact (onlyRunning_cas _ _ _).finished ht
  | _ => exact ht

/-! ## Tasks still to do -/

/-- The tasks of the coordinator. -/
def Coordinator.tasks (c : Coordinator) : Finset Task :=
  (Finset.range c.activeMapTasks.length).image .map ∪
    (Finset.range c.activeReduceTasks.length).image .reduce

/-- The list has exactly the tasks of the job. -/
lemma mem_tasks : t ∈ c.tasks ↔ t.Valid c := by
  cases t <;> simp [Coordinator.tasks, Task.Valid]

/-- The tasks that are not finished. -/
def unfinished (c : Coordinator) (st : Job W) : Finset Task :=
  c.tasks.filter fun t => st.status t ≠ .finished

/-- A task more is finished. -/
lemma card_unfinished_lt (hkeep : ∀ t, x.status t = .finished → y.status t = .finished)
    (hvalid : t.Valid c) (hx : x.status t ≠ .finished) (hy : y.status t = .finished) :
    (unfinished c y).card < (unfinished c x).card := by
  have hsub : unfinished c y ⊆ unfinished c x := by
    intro u hu
    obtain ⟨hu, hne⟩ := Finset.mem_filter.mp hu
    exact Finset.mem_filter.mpr ⟨hu, fun hfin => hne (hkeep u hfin)⟩
  refine Finset.card_lt_card ((Finset.ssubset_iff_of_subset hsub).mpr ⟨t, ?_, ?_⟩)
  · exact Finset.mem_filter.mpr ⟨mem_tasks.mpr hvalid, hx⟩
  · intro hmem
    exact (Finset.mem_filter.mp hmem).2 hy

/-! ## One worker is left -/

section Runs

variable {files : List Str} {nReduce : ℕ} {start : Files}

variable (E files nReduce start) in
/-- The states of the runs in which no worker loses its task. -/
def Reached (st : Job W) : Prop :=
  ∃ tr, (job E W files nReduce start).Run tr st ∧ Avoids (fun x a => resetsHeld x a) tr

/-- What the coordinator keeps in every run. -/
lemma Reached.coordinatorOk (h : Reached E files nReduce start x) :
    CoordinatorOk (makeCoordinator files nReduce) x := by
  obtain ⟨tr, hrun, -⟩ := h
  exact coordinatorOk_of_run hrun

/-- What the executions keep as long as no worker loses its task. -/
lemma Reached.execOk (hname : ∀ f ∈ files, ¬ Reserved f) (h : Reached E files nReduce start x) :
    ExecOk E (makeCoordinator files nReduce) start x := by
  obtain ⟨tr, hrun, hD⟩ := h
  exact execOk_of_run hname hrun hD

/-- One more step that takes no task from its worker. -/
lemma Reached.step (h : Reached E files nReduce start x)
    (hst : JobStep E (makeCoordinator files nReduce) x a y) (ha : ¬ resetsHeld x a) :
    Reached E files nReduce start y := by
  obtain ⟨tr, hrun, hD⟩ := h
  refine ⟨(x, a) :: tr, hrun.step hst.to_step, fun q hq => ?_⟩
  rcases List.mem_cons.mp hq with rfl | hq
  · exact ha
  · exact hD q hq

/-- A running task has a timer. -/
lemma Reached.mem_timers (h : Reached E files nReduce start x) (ht : x.status t = .running) :
    t ∈ x.timers := by
  obtain ⟨tr, hrun, -⟩ := h
  obtain ⟨tr', sv, hsv, hserves⟩ := serves_of_run hrun
  have hcall : ∀ v, sv.call ≠ some (v, .stored t) := by
    intro v hv
    rw [hserves.call, Option.map_eq_some_iff] at hv
    obtain ⟨q, -, heq⟩ := hv
    cases heq
  have hpending := (timersOk_of_run hsv).running t (by rw [hserves.status, ht]) hcall
  have hmem : (⟨t, sv.handOuts t⟩ : Timer) ∈ sv.pending t := by
    rw [hpending]
    exact List.mem_singleton_self _
  rw [← hserves.timers]
  exact List.mem_map.mpr ⟨_, List.mem_of_mem_filter hmem, rfl⟩

/-- What must not happen on the way: that a worker loses its task, or that another worker than `w`
does anything but crash. -/
def disturbs (w : Fin W) (st : Job W) (a : Action W) : Prop :=
  resetsHeld st a ∨ ∃ v, v ≠ w ∧ (a = .call v ∨ a = .work v)

/-- A worker is dead, and no report of it is on its way. -/
def Worker.Gone (wk : Worker) : Prop := wk.alive = false ∧ ∀ t, wk.pc ≠ .finishing t

/-- A worker that is gone has no task. -/
lemma Worker.Gone.held? {wk : Worker} (h : wk.Gone) : wk.held? = none := by
  unfold Worker.held?
  split
  · rename_i t hpc
    exact absurd hpc (h.2 t)
  · rw [h.1]
    rfl

/-- A worker that is gone stays gone. -/
lemma JobStep.gone {v : Fin W} (hst : JobStep E c x a y) (ha : a ≠ .work v)
    (h : (x.workers v).Gone) : (y.workers v).Gone := by
  constructor
  · rw [← Bool.not_eq_true]
    intro hvy
    have hvx := hst.alive hvy
    rw [h.1] at hvx
    cases hvx
  · intro t ht
    rcases hst.finishing ht with hold | hwork
    · exact h.2 t hold
    · exact ha hwork

variable (E files nReduce start) in
/-- All workers but `w` are gone. -/
structure Alone (w : Fin W) (st : Job W) : Prop where
  reached : Reached E files nReduce start st
  alive : (st.workers w).alive = true
  gone : ∀ v, v ≠ w → (st.workers v).Gone

/-- A worker that is alone stays alone, as long as nothing disturbs it and it lives. -/
lemma Alone.step (h : Alone E files nReduce start w x)
    (hst : JobStep E (makeCoordinator files nReduce) x a y) (ha : ¬ disturbs w x a)
    (halive : (y.workers w).alive = true) : Alone E files nReduce start w y := by
  refine ⟨h.reached.step hst fun hr => ha (Or.inl hr), halive, fun v hv => ?_⟩
  refine hst.gone ?_ (h.gone v hv)
  rintro rfl
  exact ha (Or.inr ⟨v, hv, Or.inr rfl⟩)

variable (E files nReduce start) in
/-- Where the way from `x₀` has come to. -/
structure After (w : Fin W) (x₀ st : Job W) : Prop extends Alone E files nReduce start w st where
  keeps : ∀ t, x₀.status t = .finished → st.status t = .finished

/-- The way begins where it begins. -/
lemma After.refl (h : Alone E files nReduce start w x) : After E files nReduce start w x x :=
  ⟨h, fun _ ht => ht⟩

/-- The goal of a stage. -/
abbrev Can (E : Env) (files : List Str) (nReduce : ℕ) (start : Files) (w : Fin W)
    (Q : Job W → Prop) : Job W → Prop :=
  (job E W files nReduce start).Possible (disturbs w) Q

/-- **One step on the way.** -/
lemma After.can {Q : Job W → Prop} (h : After E files nReduce start w x₀ x)
    (hst : JobStep E (makeCoordinator files nReduce) x a y) (ha : ¬ disturbs w x a)
    (halive : (y.workers w).alive = true)
    (hy : After E files nReduce start w x₀ y → Can E files nReduce start w Q y) :
    Can E files nReduce start w Q x := by
  refine .step ha hst.to_step (hy ⟨h.toAlone.step hst ha halive, fun t ht => ?_⟩)
  exact hst.finished h.reached.coordinatorOk (h.keeps t ht)

/-- The steps of the coordinator, of `Done` and of `w` itself disturb nobody. -/
lemma not_disturbs (hr : resetsHeld x a = false) (hcall : ∀ v, a = .call v → v = w)
    (hwork : ∀ v, a = .work v → v = w) : ¬ disturbs w x a := by
  rintro (h | ⟨v, hv, h | h⟩)
  · rw [hr] at h
    cases h
  · exact hv (hcall v h)
  · exact hv (hwork v h)

/-! ## The others crash -/

/-- A worker crashes, and if its report is on its way it arrives. -/
lemma can_gone (hname : ∀ f ∈ files, ¬ Reserved f) (h : Reached E files nReduce start x)
    (w v : Fin W) :
    Can E files nReduce start w (fun y => Reached E files nReduce start y ∧
      (y.workers v).Gone ∧ ∀ u, u ≠ v → y.workers u = x.workers u) x := by
  have hcrash : JobStep E (makeCoordinator files nReduce) x (.crash v) (x.kill v) := .crash
  refine .step (a := .crash v) (not_disturbs rfl (by simp) (by simp)) hcrash.to_step ?_
  have hreached := h.step hcrash (by simp [resetsHeld])
  by_cases hreport : ∃ t, (x.workers v).pc = .finishing t
  · obtain ⟨t, hpc⟩ := hreport
    have hpc' : ((x.kill v).workers v).pc = .finishing t := (pc_kill x v v).trans hpc
    have hvalid := (hreached.execOk hname).valid hreached.coordinatorOk
      (Worker.held?_of_finishing hpc')
    have hfinish := JobStep.finish (E := E) hpc' (lookup_reply hvalid)
    refine .step (a := .finish v) (not_disturbs rfl (by simp) (by simp)) hfinish.to_step
      (.now ⟨hreached.step hfinish (by simp [resetsHeld]), ?_, fun u hu => ?_⟩)
    · rw [Job.setPc_self]
      exact ⟨congrArg Worker.alive (x.kill_self v), by simp⟩
    · rw [Job.setPc_of_ne _ _ hu]
      exact x.kill_of_ne hu
  · refine .now ⟨hreached, ⟨congrArg Worker.alive (x.kill_self v), fun t ht => ?_⟩, fun u hu => ?_⟩
    · exact hreport ⟨t, (pc_kill x v v).symm.trans ht⟩
    · exact x.kill_of_ne hu

/-- **The others crash**, one after the other. -/
lemma can_alone (hname : ∀ f ∈ files, ¬ Reserved f) (h : Reached E files nReduce start st)
    (hw : (st.workers w).alive = true) :
    Can E files nReduce start w (Alone E files nReduce start w) st := by
  suffices hall : ∀ vs : List (Fin W), Can E files nReduce start w
      (fun y => Reached E files nReduce start y ∧ (y.workers w).alive = true ∧
        ∀ v ∈ vs, v ≠ w → (y.workers v).Gone) st by
    refine (hall (List.finRange W)).bind fun y hy => .now ⟨hy.1, hy.2.1, fun v hv => ?_⟩
    exact hy.2.2 v (List.mem_finRange v) hv
  intro vs
  induction vs with
  | nil => exact .now ⟨h, hw, by simp⟩
  | cons v vs ih =>
      apply ih.bind
      rintro y ⟨hy, hyw, hgone⟩
      by_cases hv : v = w
      · refine .now ⟨hy, hyw, fun u hu huw => ?_⟩
        rcases List.mem_cons.mp hu with rfl | hu
        · exact absurd hv huw
        · exact hgone u hu huw
      · apply (can_gone hname hy w v).bind
        rintro z ⟨hz, hzv, hother⟩
        refine .now ⟨hz, by rw [hother w (Ne.symm hv), hyw], fun u hu huw => ?_⟩
        by_cases huv : u = v
        · rw [huv]
          exact hzv
        · rw [hother u huv]
          exact hgone u ((List.mem_cons.mp hu).resolve_left huv) huw

/-! ## The task of the worker -/

section Work

variable (hname : ∀ f ∈ files, ¬ Reserved f) (hinput : ∀ f ∈ files, (start f).isSome)

variable (E files nReduce start) in
/-- The worker has done a task: there is one less to do. -/
def OneLess (w : Fin W) (x₀ y : Job W) : Prop :=
  Alone E files nReduce start w y ∧
    (unfinished (makeCoordinator files nReduce) y).card <
      (unfinished (makeCoordinator files nReduce) x₀).card

include hname

/-- The report arrives. -/
lemma After.can_finish (h : After E files nReduce start w x₀ x)
    (hpc : (x.workers w).pc = .finishing t) :
    Can E files nReduce start w (OneLess E files nReduce start w x₀) x := by
  have hok := h.reached.execOk hname
  have hheld := Worker.held?_of_finishing hpc
  have hrun := hok.running w t hheld
  have hvalid := hok.valid h.reached.coordinatorOk hheld
  refine h.can (.finish hpc (lookup_reply hvalid)) (not_disturbs rfl (by simp) (by simp)) ?_
    fun hy => .now ⟨hy.toAlone, card_unfinished_lt hy.keeps hvalid ?_ ?_⟩
  · rw [alive_setPc]
    exact h.alive
  · intro hfin
    rw [h.keeps t hfin] at hrun
    cases hrun
  · show cas x.status t .running .finished t = .finished
    rw [cas_apply, if_pos ⟨rfl, hrun⟩]

/-- The worker does what it has still to write. -/
lemma After.can_write {file : Option (OpenFile Str)} {ops : List Op}
    (h : After E files nReduce start w x₀ x) (hpc : (x.workers w).pc = .writing t file ops) :
    Can E files nReduce start w (OneLess E files nReduce start w x₀) x := by
  induction ops generalizing x file with
  | nil =>
      have hw : work E (makeCoordinator files nReduce) x.fs (x.workers w).pc =
          some (some (.finishing t), x.fs) := by rw [hpc]; rfl
      refine h.can (.work h.alive hw) (not_disturbs rfl (by simp) (by simp)) ?_ fun hy => ?_
      · exact (alive_setPc x w w _).trans h.alive
      · exact hy.can_finish hname (congrArg Worker.pc (x.setPc_self w _))
  | cons op ops ih =>
      have hw : work E (makeCoordinator files nReduce) x.fs (x.workers w).pc =
          some (some (.writing t (FileOp.exec (x.fs, file) op).2 ops),
            (FileOp.exec (x.fs, file) op).1) := by rw [hpc]; rfl
      refine h.can (.work h.alive hw) (not_disturbs rfl (by simp) (by simp)) ?_ fun hy => ?_
      · exact (alive_setPc x w w _).trans h.alive
      · exact ih hy (congrArg Worker.pc (x.setPc_self w _))

/-- The worker reads its intermediate files and groups the records. -/
lemma After.can_read {file : Option (OpenFile Str)} {i : ℕ} {rest : List Str}
    {kvs : List KeyValue} (h : After E files nReduce start w x₀ x)
    (hpc : (x.workers w).pc = .reading i file rest kvs) :
    Can E files nReduce start w (OneLess E files nReduce start w x₀) x := by
  induction rest generalizing x kvs with
  | nil =>
      -- the loop that groups the records ends
      obtain ⟨gs, hgs, -⟩ := groups_eq (E.sort_ordered kvs)
      have hw : work E (makeCoordinator files nReduce) x.fs (x.workers w).pc =
          some (some (.writing (.reduce i) file ((gs.map E.outputLine).map .write)), x.fs) := by
        rw [hpc]
        simp [work, reduceOutput, hgs]
      refine h.can (.work h.alive hw) (not_disturbs rfl (by simp) (by simp)) ?_ fun hy => ?_
      · exact (alive_setPc x w w _).trans h.alive
      · exact hy.can_write hname (congrArg Worker.pc (x.setPc_self w _))
  | cons name rest ih =>
      have hw : work E (makeCoordinator files nReduce) x.fs (x.workers w).pc =
          some (some (.reading i file rest (kvs ++ E.decode ((x.fs name).getD []))), x.fs) := by
        rw [hpc]
        rfl
      refine h.can (.work h.alive hw) (not_disturbs rfl (by simp) (by simp)) ?_ fun hy => ?_
      · exact (alive_setPc x w w _).trans h.alive
      · exact ih hy (congrArg Worker.pc (x.setPc_self w _))

include hinput

/-- **A worker that has a task can do it and report it.** -/
lemma After.can_work (h : After E files nReduce start w x₀ x)
    (htask : (x.workers w).pc.task? = some t) :
    Can E files nReduce start w (OneLess E files nReduce start w x₀) x := by
  have hok := h.reached.execOk hname
  have hvalid := hok.valid h.reached.coordinatorOk
    ((Worker.held?_of_alive _ h.alive).trans htask)
  cases hpc : (x.workers w).pc with
  | idle => simp [hpc, Pc.task?] at htask
  | calling => simp [hpc, Pc.task?] at htask
  | reading i file rest kvs => exact h.can_read hname hpc
  | writing u file ops => exact h.can_write hname hpc
  | finishing u => exact h.can_finish hname hpc
  | assigned u =>
      obtain rfl : u = t := by simpa [hpc, Pc.task?] using htask
      cases u with
      | map i =>
          -- the input is there, since nobody writes to it
          obtain ⟨f, hf⟩ := valid_map.mp hvalid
          have hmem := List.mem_of_getElem? hf
          have hread : readInputs E x.fs [f] = some ([f].flatMap (emitted E x.fs)) := by
            refine (readInputs_eq_some_iff E).mpr ⟨fun g hg => ?_, rfl⟩
            rw [List.mem_singleton.mp hg, hok.input f (hname f hmem)]
            exact hinput f hmem
          have hw : work E (makeCoordinator files nReduce) x.fs (x.workers w).pc =
              some (some (.writing (.map i) none (mapOps E (i + 1) nReduce
                ([f].flatMap (emitted E x.fs)))), x.fs) := by
            rw [hpc]
            simp only [work, reply_map hf, hread]
          refine h.can (.work h.alive hw) (not_disturbs rfl (by simp) (by simp)) ?_ fun hy => ?_
          · exact (alive_setPc x w w _).trans h.alive
          · exact hy.can_write hname (congrArg Worker.pc (x.setPc_self w _))
      | reduce i =>
          have hw : work E (makeCoordinator files nReduce) x.fs (x.workers w).pc =
              some (some (.reading i (some ⟨mrOut (i + 1), 0⟩) (intermediateNames files i) []),
                (FileOp.exec (x.fs, none) (.create (mrOut (i + 1)))).1) := by
            rw [hpc]
            simp only [work, reply_reduce (valid_reduce.mp hvalid)]
            rfl
          refine h.can (.work h.alive hw) (not_disturbs rfl (by simp) (by simp)) ?_ fun hy => ?_
          · exact (alive_setPc x w w _).trans h.alive
          · exact hy.can_read hname (congrArg Worker.pc (x.setPc_self w _))

end Work

/-! ## The coordinator -/

/-- **The call that holds the mutex can end.** -/
lemma After.can_release (h : After E files nReduce start w x₀ x) :
    Can E files nReduce start w
      (fun y => After E files nReduce start w x₀ y ∧ y.handler = none) x := by
  refine System.Possible.of_measure (P := fun x => After E files nReduce start w x₀ x)
    (fun x => (x.handler.map fun q => q.2.left (makeCoordinator files nReduce) + 1).getD 0)
    (fun x h => ?_) h
  rcases hh : x.handler with _ | ⟨v, pc⟩
  · exact .now (Or.inl ⟨h, hh⟩)
  · obtain ⟨r, hr⟩ := (h.reached.coordinatorOk.handler v pc hh).exists_next
    have hD : ¬ disturbs w x .handler := not_disturbs rfl (by simp) (by simp)
    rcases r with pc' | _ | t
    · refine h.can (.goto hh hr) hD h.alive fun hy => .now (Or.inr ⟨hy, ?_⟩)
      have hlt := HandlerPc.left_lt hr
      simpa using hlt
    · refine h.can (.unlock hh hr) hD ?_ fun hy => .now (Or.inl ⟨hy, rfl⟩)
      exact (alive_setPc x v w _).trans h.alive
    · refine h.can (.store hh hr) hD ?_ fun hy => .now (Or.inl ⟨hy, rfl⟩)
      exact (alive_setPc x v w _).trans h.alive

/-- **All timers can wake up** while nobody has a task. -/
lemma After.can_expire (h : After E files nReduce start w x₀ x) (hfree : x.handler = none)
    (htask : (x.workers w).pc.task? = none) :
    Can E files nReduce start w (fun y => After E files nReduce start w x₀ y ∧
      y.handler = none ∧ (y.workers w).pc.task? = none ∧ y.timers = []) x := by
  refine System.Possible.of_measure (P := fun x => After E files nReduce start w x₀ x ∧
    x.handler = none ∧ (x.workers w).pc.task? = none) (fun x => x.timers.length) ?_
    ⟨h, hfree, htask⟩
  rintro x ⟨h, hfree, htask⟩
  rcases htimers : x.timers with _ | ⟨t, ts⟩
  · exact .now (Or.inl ⟨h, hfree, htask, htimers⟩)
  · have hk : x.timers[0]? = some t := by rw [htimers]; rfl
    have hheld : ∀ v, (x.workers v).held? = none := by
      intro v
      by_cases hv : v = w
      · rw [hv, Worker.held?_of_task?_none htask]
      · exact (h.gone v hv).held?
    have hD : ¬ disturbs w x (.timer 0) :=
      not_disturbs (by simp [resetsHeld, hheld]) (by simp) (by simp)
    refine h.can (.timer hk) hD h.alive fun hy => .now (Or.inr ⟨⟨hy, hfree, htask⟩, ?_⟩)
    show (x.timers.eraseIdx 0).length < _
    rw [htimers]
    simp

/-- When no task is running and one is not finished, the call gets one. -/
lemma After.can_scan (hname : ∀ f ∈ files, ¬ Reserved f) (hinput : ∀ f ∈ files, (start f).isSome)
    (h : After E files nReduce start w x₀ x) {pc : HandlerPc} (hh : x.handler = some (w, pc))
    (hidle : ∀ t, x.status t ≠ .running)
    (hfinds : Finds (makeCoordinator files nReduce) x.status pc) :
    Can E files nReduce start w (OneLess E files nReduce start w x₀) x := by
  induction hm : pc.left (makeCoordinator files nReduce) using Nat.strong_induction_on
    generalizing x pc with
  | _ m ih =>
      obtain ⟨r, hr⟩ := (h.reached.coordinatorOk.handler w pc hh).exists_next
      have hD : ¬ disturbs w x .handler := not_disturbs rfl (by simp) (by simp)
      rcases r with pc' | _ | t
      · refine h.can (.goto hh hr) hD h.alive fun hy => ?_
        exact ih _ (hm ▸ HandlerPc.left_lt hr) hy rfl hidle (hfinds.goto hidle hr) rfl
      · exact absurd hr hfinds.ne_unlock
      · refine h.can (.store hh hr) hD ?_ fun hy => hy.can_work hname hinput (t := t) ?_
        · exact (alive_setPc x w w _).trans h.alive
        · exact congrArg (fun wk => wk.pc.task?) (x.setPc_self w (.assigned t))

/-- **A worker that has no task can get one**, if there is one to do. -/
lemma After.can_call (hname : ∀ f ∈ files, ¬ Reserved f) (hinput : ∀ f ∈ files, (start f).isSome)
    (h : After E files nReduce start w x₀ x) (hfree : x.handler = none)
    (htask : (x.workers w).pc.task? = none) (htimers : x.timers = [])
    (hleft : ∃ t : Task, t.Valid (makeCoordinator files nReduce) ∧ x.status t ≠ .finished) :
    Can E files nReduce start w (OneLess E files nReduce start w x₀) x := by
  have hidle : ∀ t, x.status t ≠ .running := by
    intro t ht
    have hmem := h.reached.mem_timers ht
    rw [htimers] at hmem
    exact List.not_mem_nil hmem
  have hfinds : Finds (makeCoordinator files nReduce) x.status (.getMapTask 0) := by
    obtain ⟨t, hvalid, hne⟩ := hleft
    refine ⟨fun j hj => absurd hj (Nat.not_lt_zero j), t, hvalid, ?_⟩
    cases hs : x.status t with
    | notRun => rfl
    | running => exact absurd hs (hidle t)
    | finished => exact absurd hs hne
  -- the worker waits for the mutex
  have hlock : ∀ {y}, After E files nReduce start w x₀ y → y.handler = none →
      (y.workers w).pc = .calling → y.status = x.status →
      Can E files nReduce start w (OneLess E files nReduce start w x₀) y := by
    intro y hy hfree hpc hstatus
    refine hy.can (.lock hfree hpc) (not_disturbs rfl (by simp) (by simp)) hy.alive fun hz => ?_
    refine hz.can_scan hname hinput rfl ?_ ?_
    · exact fun t => hstatus ▸ hidle t
    · exact hstatus ▸ hfinds
  cases hpc : (x.workers w).pc with
  | idle =>
      refine h.can (.call h.alive hpc) (not_disturbs rfl (by simp) (by simp)) ?_ fun hy => ?_
      · exact (alive_setPc x w w _).trans h.alive
      · exact hlock hy hfree (congrArg Worker.pc (x.setPc_self w _)) rfl
  | calling => exact hlock h hfree hpc rfl
  | _ => simp [hpc, Pc.task?] at htask

/-- **`Done` finds out** that all tasks are finished. -/
lemma After.can_done (h : After E files nReduce start w x₀ x)
    (hall : ∀ i < nReduce, x₀.status (.reduce i) = .finished) :
    Can E files nReduce start w
      (fun y => Reached E files nReduce start y ∧ y.done = true) x := by
  have hlength : (makeCoordinator files nReduce).activeReduceTasks.length = nReduce := by
    simp [makeCoordinator]
  refine System.Possible.of_measure (P := fun x => After E files nReduce start w x₀ x)
    (fun x => nReduce - x.scan) (fun x h => ?_) h
  have hD : ¬ disturbs w x .done := not_disturbs rfl (by simp) (by simp)
  by_cases hlt : x.scan < nReduce
  · refine h.can (.scanNext (hlength.symm ▸ hlt) (h.keeps _ (hall x.scan hlt))) hD h.alive
      fun hy => .now (Or.inr ⟨hy, ?_⟩)
    show nReduce - (x.scan + 1) < nReduce - x.scan
    omega
  · refine h.can (.scanEnd (hlength.symm ▸ not_lt.mp hlt)) hD h.alive fun hy => ?_
    exact .now (Or.inl ⟨hy.reached, rfl⟩)

/-! ## The whole way -/

/-- **One task after the other.** -/
lemma Alone.can_done (hname : ∀ f ∈ files, ¬ Reserved f) (hinput : ∀ f ∈ files, (start f).isSome)
    (h : Alone E files nReduce start w x) :
    Can E files nReduce start w
      (fun y => Reached E files nReduce start y ∧ y.done = true) x := by
  refine System.Possible.of_measure (P := fun x => Alone E files nReduce start w x)
    (fun x => (unfinished (makeCoordinator files nReduce) x).card) (fun x₀ h => ?_) h
  by_cases hleft : ∃ t : Task, t.Valid (makeCoordinator files nReduce) ∧ x₀.status t ≠ .finished
  · obtain ⟨t, hvalid, hne⟩ := hleft
    suffices hless : Can E files nReduce start w (OneLess E files nReduce start w x₀) x₀ from
      hless.bind fun y hy => .now (Or.inr hy)
    apply (After.refl h).can_release.bind
    rintro y ⟨hy, hfree⟩
    cases htask : (y.workers w).pc.task? with
    | some u => exact hy.can_work hname hinput htask
    | none =>
        apply (hy.can_expire hfree htask).bind
        rintro z ⟨hz, hfree, htask, htimers⟩
        by_cases hfin : z.status t = .finished
        · exact .now ⟨hz.toAlone, card_unfinished_lt hz.keeps hvalid hne hfin⟩
        · exact hz.can_call hname hinput hfree htask htimers ⟨t, hvalid, hfin⟩
  · refine ((After.refl h).can_done fun i hi => ?_).bind fun y hy => .now (Or.inl hy)
    by_contra hne
    exact hleft ⟨.reduce i, valid_reduce.mpr hi, hne⟩

/-- **A live worker can complete the job.** -/
lemma Reached.can_done (hname : ∀ f ∈ files, ¬ Reserved f)
    (hinput : ∀ f ∈ files, (start f).isSome) (h : Reached E files nReduce start st)
    (hw : (st.workers w).alive = true) :
    Can E files nReduce start w
      (fun y => Reached E files nReduce start y ∧ y.done = true) st :=
  (can_alone hname h hw).bind fun _ hy => hy.can_done hname hinput

/-- The files of a job whose `Done` has returned true. -/
lemma Reached.jobDone (hn : 0 < nReduce) (hname : ∀ f ∈ files, ¬ Reserved f)
    (h : Reached E files nReduce start st) (hdone : st.done = true) :
    JobDone E st.fs files nReduce ∧ ∀ f ∈ files, st.fs f = start f :=
  (h.execOk hname).jobDone h.coordinatorOk hn hname hdone

/-- **A job has no dead end as long as a worker is alive.** Every run in which no worker has lost
its task can be continued until `Done` returns true, by a live worker alone: all others may crash at
once, and none of them takes another step. The worker does not lose a task on the way, and the
output is that of the sequential program. -/
theorem job_completes (hn : 0 < nReduce) (hname : ∀ f ∈ files, ¬ Reserved f)
    (hinput : ∀ f ∈ files, (start f).isSome) {tr : List (Job W × Action W)}
    (h : (job E W files nReduce start).Run tr st) (hD : Avoids (fun x a => resetsHeld x a) tr)
    (hw : (st.workers w).alive = true) :
    ∃ tr' st', (job E W files nReduce start).Run (tr' ++ tr) st' ∧ Avoids (disturbs w) tr' ∧
      st'.done = true ∧ (outputLines st'.fs nReduce).Perm (sequentialLines E start files) := by
  have hstart : Reached E files nReduce start st := ⟨tr, h, hD⟩
  obtain ⟨tr', st', hrun, hD', hreached, hdone⟩ := h.continue (hstart.can_done hname hinput hw)
  obtain ⟨hjob, hsame⟩ := hreached.jobDone hn hname hdone
  exact ⟨tr', st', hrun, hD', hdone, hjob.perm_sequential hn hsame⟩

/-- Worker 0 has the map task and has created its file; worker 1 has done nothing so far, and
completes the job. -/
theorem job_completes_run : ∃ tr st tr' st', (job wc 2 [ascii "b"] 1 sampleFiles).Run tr st ∧
    (st.workers 0).held? = some (.map 0) ∧
    (job wc 2 [ascii "b"] 1 sampleFiles).Run (tr' ++ tr) st' ∧ Avoids (disturbs 1) tr' ∧
    st'.done = true ∧ (outputLines st'.fs 1).Perm [ascii "y 1"] := by
  have hname : ∀ f ∈ [ascii "b"], ¬ Reserved f := by
    intro f hf
    rw [List.mem_singleton.mp hf]
    exact not_reserved_of_length (by decide)
  obtain ⟨tr, st, h, hD, hheld, hw⟩ := (job wc 2 [ascii "b"] 1 sampleFiles).exists_run_of_exec
    [.call 0, .lock 0, .handler, .handler, .work 0, .work 0]
    (fun tr st => Avoids (fun x a => resetsHeld x a) tr ∧
      (st.workers 0).held? = some (.map 0) ∧ (st.workers 1).alive = true) (by decide)
  obtain ⟨tr', st', hrun, hD', hdone, hperm⟩ :=
    job_completes (by decide) hname (by decide) h hD hw
  exact ⟨tr, st, tr', st', h, hheld, hrun, hD', hdone, hperm⟩

end Runs

end GoLabs.MapReduce
