import GoLabs.MapReduce.Output
import GoLabs.MapReduce.Schedule

/-!
# Re-execution

When a worker does not report within ten seconds, its timer resets the task and another worker gets
it. `Done` returns true when every reduce task has been reported once. From then on the output files
should be those of the sequential program.

They need not be (`output_fails`): the worker that lost its task may be slow and not dead, and both
executions write the files of the task in place. The second one is reported, `Done` returns true,
and then the first one truncates the output file. `resetsHeld` is the step that lets this happen,
the reset of a running task that a live worker still has, or whose report is on its way. The crash
of a worker at any point does no harm: without `resetsHeld` the output is right in every state from
the first moment on at which `Done` has returned true (`output_of_done`).

The proof follows the files of each task. A task that is being executed has one worker (`ExecOk`),
and the operations that this worker has still to do complete its files, whatever a dead worker left
there (`Progress`); the other workers do not touch them, since tasks that run at the same time have
different files (`Separate`).
-/

namespace GoLabs.MapReduce

open GoLabs.Lib

variable {W : ℕ} {E : Env} {c : Coordinator} {fs fs' : Files} {t u : Task}

/-! ## The files of a task -/

/-- The files that a task writes. -/
def Task.writes (c : Coordinator) : Task → Set Str
  | map i => mrFiles (c.reply (map i)).taskId
  | reduce i => {mrOut (c.reply (reduce i)).taskId}

/-- The files that the outcome of a task depends on. -/
def Task.reads (c : Coordinator) (t : Task) : Set Str :=
  {f | f ∈ (c.reply t).fileName} ∪ t.writes c

variable (E c) in
/-- The files that a task writes are those of a complete execution. -/
def TaskDone (fs : Files) : Task → Prop
  | .map i => MapDone E fs (c.reply (.map i)).fileName (c.reply (.map i)).taskId
      (c.reply (.map i)).reduceN
  | .reduce i => ReduceDone E fs (c.reply (.reduce i)).fileName (c.reply (.reduce i)).taskId

/-- That a task is done depends on the files that it reads and writes only. -/
lemma TaskDone.congr (h : TaskDone E c fs t) (hfs : ∀ x ∈ t.reads c, fs' x = fs x) :
    TaskDone E c fs' t := by
  cases t with
  | map i => exact MapDone.congr h (fun f hf => hfs f (Or.inl hf)) fun y => hfs _ (Or.inr ⟨y, rfl⟩)
  | reduce i => exact ReduceDone.congr h (fun f hf => hfs f (Or.inl hf)) (hfs _ (Or.inr rfl))

/-- A task writes only to files with reserved names. -/
lemma reserved_of_mem_writes {x : Str} (h : x ∈ t.writes c) : Reserved x := by
  cases t with
  | map i =>
      obtain ⟨y, rfl⟩ := h
      exact Or.inl ⟨_, y, rfl⟩
  | reduce i => exact Or.inr ⟨_, h⟩

/-- What the names of the files and the ids of the tasks have to give. -/
structure Separate (c : Coordinator) : Prop where
  /-- A report finds the task that was handed out. -/
  lookup : ∀ t : Task, t.Valid c → c.lookup (c.reply t).taskType (c.reply t).taskId = some t
  /-- A task does not write what it reads. -/
  own : ∀ t : Task, t.Valid c → ∀ f ∈ (c.reply t).fileName, f ∉ t.writes c
  /-- A task does not write what another one depends on, except for the map tasks, whose files the
  reduce tasks read. -/
  apart : ∀ t u : Task, t.Valid c → u.Valid c → t ≠ u → (∀ i j, t = .reduce i → u ≠ .map j) →
    Disjoint (t.reads c) (u.writes c)

section Names

variable {files : List Str} {nReduce : ℕ}

/-- **The tasks of `MakeCoordinator` are separate**, if no input is named like one of their
files. -/
theorem separate_makeCoordinator (hname : ∀ f ∈ files, ¬ Reserved f) :
    Separate (makeCoordinator files nReduce) where
  lookup t ht := lookup_reply ht
  own t ht f hf hw := by
    cases t with
    | map i =>
        obtain ⟨g, hg⟩ := valid_map.mp ht
        rw [reply_map hg] at hf
        rw [List.mem_singleton.mp hf] at hw
        exact hname g (List.mem_of_getElem? hg) (reserved_of_mem_writes hw)
    | reduce i =>
        rw [reply_reduce (valid_reduce.mp ht)] at hf
        rw [show f = mrOut _ from hw] at hf
        exact mrOut_notMem_intermediateNames files i _ hf
  apart t u ht hu hne hphase := by
    rw [Set.disjoint_left]
    cases t with
    | map i =>
        obtain ⟨f, hf⟩ := valid_map.mp ht
        rintro x (hx | hx) hxu
        · rw [reply_map hf] at hx
          rw [List.mem_singleton.mp hx] at hxu
          exact hname f (List.mem_of_getElem? hf) (reserved_of_mem_writes hxu)
        · rw [Task.writes, reply_map hf] at hx
          obtain ⟨y, rfl⟩ := hx
          cases u with
          | map j =>
              obtain ⟨g, hg⟩ := valid_map.mp hu
              rw [Task.writes, reply_map hg] at hxu
              obtain ⟨y', hy⟩ := hxu
              have hij : j + 1 = i + 1 := (mr_inj.mp hy).1
              exact hne (congrArg Task.map (by omega))
          | reduce j => exact mr_ne_mrOut _ _ _ hxu
    | reduce i =>
        have hi := valid_reduce.mp ht
        cases u with
        | map j => exact absurd rfl (hphase i j rfl)
        | reduce j =>
            rw [Task.writes, reply_reduce (valid_reduce.mp hu)]
            rintro x (hx | hx) rfl
            · rw [reply_reduce hi] at hx
              exact mrOut_notMem_intermediateNames files i _ hx
            · rw [Task.writes, reply_reduce hi] at hx
              have hij : j + 1 = i + 1 := mrOut_inj.mp hx
              exact hne (congrArg Task.reduce (by omega))

end Names

/-! ## One worker -/

variable (E c) in
/-- What a worker has achieved so far: what it has still to do completes its task. -/
def Progress (fs : Files) : Pc → Prop
  | .idle => True
  | .calling => True
  | .assigned _ => True
  | .reading i file rest kvs =>
      file = some ⟨mrOut (c.reply (.reduce i)).taskId, 0⟩ ∧
        fs (mrOut (c.reply (.reduce i)).taskId) = some [] ∧
        ∃ read, (c.reply (.reduce i)).fileName = read ++ rest ∧ kvs = readRecords E fs read
  | .writing t file ops => FileOp.Within (t.writes c) file ops ∧
      TaskDone E c (FileOp.run (fs, file) ops).1 t
  | .finishing t => TaskDone E c fs t

/-- Changes to other files do not matter to a worker. -/
lemma Progress.congr {pc : Pc} (h : Progress E c fs pc) (ht : pc.task? = some t)
    (hfs : ∀ x ∈ t.reads c, fs' x = fs x) : Progress E c fs' pc := by
  cases pc with
  | reading i file rest kvs =>
      cases ht
      obtain ⟨hfile, hempty, read, hread, hkvs⟩ := h
      refine ⟨hfile, (hfs _ (Or.inr rfl)).trans hempty, read, hread, ?_⟩
      rw [hkvs]
      refine (readRecords_congr E fun f hf => hfs f (Or.inl ?_)).symm
      show f ∈ (c.reply (.reduce i)).fileName
      rw [hread]
      exact List.mem_append_left _ hf
  | writing v file ops =>
      cases ht
      obtain ⟨hwithin, hdone⟩ := h
      have hwithin' : FileOp.Within (t.reads c) file ops :=
        ⟨fun f hf => Or.inr (hwithin.1 f hf), fun name hname => Or.inr (hwithin.2 name hname)⟩
      exact ⟨hwithin, hdone.congr fun x hx => FileOp.run_congr hwithin' hfs hx⟩
  | finishing v =>
      cases ht
      exact TaskDone.congr h hfs
  | _ => trivial

/-- **One step of a worker** keeps its task and its progress, and touches only the files of the
task. -/
theorem work_spec (hsep : Separate c) {pc pc' : Pc} (hw : work E c fs pc = some (some pc', fs'))
    (hvalid : ∀ t, pc.task? = some t → t.Valid c) (h : Progress E c fs pc) :
    ∃ t, pc.task? = some t ∧ pc'.task? = some t ∧ Progress E c fs' pc' ∧
      ∀ x, x ∉ t.writes c → fs' x = fs x := by
  cases pc with
  | idle => cases hw
  | calling => cases hw
  | assigned t =>
      have hown := hsep.own t (hvalid t rfl)
      refine ⟨t, rfl, ?_⟩
      cases t with
      | map i =>
          simp only [work] at hw
          split at hw
          · cases hw
          · rename_i kvs hkvs
            cases hw
            exact ⟨rfl, ⟨mapOps_within _ _ _, mapDone_run hkvs hown⟩, fun x _ => rfl⟩
      | reduce i =>
          cases hw
          refine ⟨rfl, ⟨rfl, Function.update_self _ _ _, [], rfl, rfl⟩, fun x hx => ?_⟩
          exact Function.update_of_ne hx _ _
  | reading i file rest kvs =>
      obtain ⟨rfl, hempty, read, hread, rfl⟩ := h
      refine ⟨.reduce i, rfl, ?_⟩
      cases rest with
      | cons name rest =>
          cases hw
          refine ⟨rfl, ⟨rfl, hempty, read ++ [name], by simpa using hread, ?_⟩, fun x _ => rfl⟩
          simp [readRecords]
      | nil =>
          simp only [work, Option.map_eq_some_iff] at hw
          obtain ⟨output, houtput, heq⟩ := hw
          cases heq
          rw [List.append_nil] at hread
          rw [← hread] at houtput
          have hout := fun hmem => hsep.own (.reduce i) (hvalid _ rfl) _ hmem rfl
          exact ⟨rfl, ⟨writes_within _ _ _, reduceDone_run hout hempty houtput⟩, fun x _ => rfl⟩
  | writing t file ops =>
      obtain ⟨hwithin, hdone⟩ := h
      refine ⟨t, rfl, ?_⟩
      cases ops with
      | cons op ops =>
          cases hw
          refine ⟨rfl, ⟨FileOp.Within.exec (s := (fs, file)) hwithin, hdone⟩, fun x hx => ?_⟩
          exact FileOp.exec_eq_of_notMem (s := (fs, file)) hwithin hx
      | nil =>
          cases hw
          exact ⟨rfl, hdone, fun x _ => rfl⟩
  | finishing t => cases hw

/-- `log.Fatalf` leaves the files alone. -/
lemma work_fatal {pc : Pc} (hw : work E c fs pc = some (none, fs')) : fs' = fs := by
  cases pc with
  | assigned t =>
      cases t with
      | map i =>
          simp only [work] at hw
          split at hw
          · cases hw
            rfl
          · cases hw
      | reduce i => cases hw
  | reading i file rest kvs =>
      cases rest with
      | cons name rest => cases hw
      | nil =>
          simp only [work, Option.map_eq_some_iff] at hw
          obtain ⟨output, -, heq⟩ := hw
          cases heq
  | writing t file ops => cases ops <;> cases hw
  | _ => cases hw

/-! ## Who has a task -/

/-- The task that a worker may still write files for or report: a dead worker has none, unless its
report is on its way. -/
def Worker.held? (wk : Worker) : Option Task :=
  match wk.pc with
  | .finishing t => some t
  | pc => if wk.alive then pc.task? else none

/-- A worker that has a task is at it. -/
lemma Worker.task?_of_held? {wk : Worker} (h : wk.held? = some t) : wk.pc.task? = some t := by
  unfold Worker.held? at h
  split at h
  · rename_i hpc
    rw [hpc]
    exact h
  · split_ifs at h
    exact h

/-- A live worker has the task that it is at. -/
lemma Worker.held?_of_alive (wk : Worker) (h : wk.alive) : wk.held? = wk.pc.task? := by
  unfold Worker.held?
  split
  · rename_i hpc
    rw [hpc]
    rfl
  · rw [if_pos h]

/-- A task whose report is on its way is held, also by a dead worker. -/
lemma Worker.held?_of_finishing {wk : Worker} (h : wk.pc = .finishing t) : wk.held? = some t := by
  unfold Worker.held?
  rw [h]

/-- A worker that is at no task holds none. -/
lemma Worker.held?_of_task?_none {wk : Worker} (h : wk.pc.task? = none) : wk.held? = none := by
  cases hwk : wk.held? with
  | none => rfl
  | some t => exact absurd (h.symm.trans (Worker.task?_of_held? hwk)) (by simp)

/-- The step that goes wrong: a timer resets a running task that a worker still has.
Source: `coordinator.go` `HandleWorker` -/
def resetsHeld (st : Job W) : Action W → Bool
  | .timer k => (st.timers[k]?).any fun t =>
      st.status t = .running ∧ ∃ w, (st.workers w).held? = some t
  | _ => false

variable (E c) in
/-- What holds of the executions as long as no worker loses its task. -/
structure ExecOk (start : Files) (st : Job W) : Prop where
  /-- The inputs do not change. -/
  input : ∀ f, ¬ Reserved f → st.fs f = start f
  running : ∀ w t, (st.workers w).held? = some t → st.status t = .running
  unique : ∀ w w' t, (st.workers w).held? = some t → (st.workers w').held? = some t → w = w'
  progress : ∀ w t, (st.workers w).held? = some t → Progress E c st.fs (st.workers w).pc
  finished : ∀ t, st.status t = .finished → TaskDone E c st.fs t

/-- At first nothing is executed. -/
lemma execOk_init (start : Files) : ExecOk E c start (Job.init start : Job W) where
  input f _ := rfl
  running w t h := by cases h
  unique w w' t h := by cases h
  progress w t h := by cases h
  finished t h := by cases h

variable {start : Files} {st st' : Job W}

/-- A worker only ever has tasks of the job. -/
lemma ExecOk.valid (h : ExecOk E c start st) (hc : CoordinatorOk c st) {w : Fin W}
    (hw : (st.workers w).held? = some t) : t.Valid c :=
  hc.valid t (by rw [h.running w t hw]; decide)

/-- A step that gives nobody a task and changes neither the files nor the status of a task that
someone has keeps `ExecOk`. -/
lemma ExecOk.of_held (h : ExecOk E c start st) (hfs : st'.fs = st.fs)
    (hheld : ∀ w t, (st'.workers w).held? = some t →
      (st.workers w).held? = some t ∧ (st'.workers w).pc = (st.workers w).pc ∧
        st'.status t = st.status t)
    (hfin : ∀ t, st'.status t = .finished → TaskDone E c st.fs t) : ExecOk E c start st' where
  input f hf := hfs ▸ h.input f hf
  running w t ht := by
    obtain ⟨hold, -, hs⟩ := hheld w t ht
    rw [hs, h.running w t hold]
  unique w w' t ht ht' := h.unique w w' t (hheld w t ht).1 (hheld w' t ht').1
  progress w t ht := by
    obtain ⟨hold, hpc, -⟩ := hheld w t ht
    rw [hfs, hpc]
    exact h.progress w t hold
  finished t ht := hfs ▸ hfin t ht

/-- A worker moves to a point without a task: it has none then, and nobody else moves. -/
lemma held?_setPc_of_none {w : Fin W} {pc : Pc} (hpc : pc.task? = none) {v : Fin W}
    (hv : ((st.setPc w pc).workers v).held? = some t) :
    v ≠ w ∧ (st.setPc w pc).workers v = st.workers v := by
  have hne : v ≠ w := by
    rintro rfl
    rw [st.setPc_self, Worker.held?_of_task?_none hpc] at hv
    cases hv
  exact ⟨hne, st.setPc_of_ne pc hne⟩

/-- A worker that lets go of its task without touching a file keeps the invariant. -/
lemma ExecOk.release (h : ExecOk E c start st) (w : Fin W) {pc : Pc} (hpc : pc.task? = none)
    (hworkers : st'.workers = (st.setPc w pc).workers) (hfs : st'.fs = st.fs)
    (hstatus : st'.status = st.status) : ExecOk E c start st' := by
  refine h.of_held hfs (fun v u hv => ?_) fun u hu => h.finished u (hstatus ▸ hu)
  rw [hworkers] at hv ⊢
  obtain ⟨-, hworker⟩ := held?_setPc_of_none hpc hv
  rw [hworker] at hv ⊢
  exact ⟨hv, rfl, by rw [hstatus]⟩

/-- The end of a process can only take a task away. -/
lemma ExecOk.kill (h : ExecOk E c start st) (w : Fin W)
    (hworkers : st'.workers = (st.kill w).workers) (hfs : st'.fs = st.fs)
    (hstatus : st'.status = st.status) : ExecOk E c start st' := by
  refine h.of_held hfs (fun v u hv => ?_) fun u hu => h.finished u (hstatus ▸ hu)
  rw [hworkers] at hv ⊢
  by_cases hvw : v = w
  · subst hvw
    rw [st.kill_self] at hv ⊢
    refine ⟨?_, rfl, by rw [hstatus]⟩
    unfold Worker.held? at hv ⊢
    split at hv
    · rename_i hpc
      rw [hpc]
      exact hv
    · cases hv
  · rw [st.kill_of_ne hvw] at hv ⊢
    exact ⟨hv, rfl, by rw [hstatus]⟩

/-- **Tasks that are under way or finished are left alone** by the execution of another one. -/
lemma disjoint_of_running (hsep : Separate c) (hc : CoordinatorOk c st)
    (ht : st.status t = .running) (hu : st.status u ≠ .notRun) (hne : u ≠ t) :
    Disjoint (u.reads c) (t.writes c) := by
  have hvalid : t.Valid c := hc.valid t (by rw [ht]; decide)
  refine hsep.apart u t (hc.valid u hu) hvalid hne ?_
  -- a reduce task waits until the map tasks are finished
  rintro i j rfl rfl
  have hfin := hc.phase i hu j hvalid
  rw [ht] at hfin
  cases hfin

/-! ## Steps of the executions -/

/-- A worker does the next operation of its task. -/
lemma ExecOk.work (h : ExecOk E c start st) (hsep : Separate c) (hc : CoordinatorOk c st)
    {w : Fin W} {pc : Pc} (ha : (st.workers w).alive)
    (hw : work E c st.fs (st.workers w).pc = some (some pc, fs)) :
    ExecOk E c start { st.setPc w pc with fs := fs } := by
  have hheld : ∀ t, (st.workers w).pc.task? = some t → (st.workers w).held? = some t :=
    fun t ht => (Worker.held?_of_alive _ ha).trans ht
  have hvalid : ∀ t, (st.workers w).pc.task? = some t → t.Valid c :=
    fun t ht => h.valid hc (hheld t ht)
  have hprogress : Progress E c st.fs (st.workers w).pc := by
    cases htask : (st.workers w).pc.task? with
    | some t => exact h.progress w t (hheld t htask)
    | none => cases hpc : (st.workers w).pc <;> simp_all [Pc.task?, Progress]
  obtain ⟨t, ht, ht', hp, hother⟩ := work_spec hsep hw hvalid hprogress
  have hrun := h.running w t (hheld t ht)
  -- everybody has the task that they had before
  have hsame : ∀ v, ((st.setPc w pc).workers v).held? = (st.workers v).held? := by
    intro v
    by_cases hv : v = w
    · subst hv
      rw [st.setPc_self]
      exact (Worker.held?_of_alive ⟨_, pc⟩ ha).trans (ht'.trans (hheld t ht).symm)
    · rw [st.setPc_of_ne pc hv]
  have hframe : ∀ u, u ≠ t → st.status u ≠ .notRun → ∀ x ∈ u.reads c, fs x = st.fs x := by
    intro u hut hu x hx
    exact hother x (Set.disjoint_left.mp (disjoint_of_running hsep hc hrun hu hut) hx)
  refine ⟨fun f hf => ?_, fun v u hv => ?_, fun v v' u hv hv' => ?_, fun v u hv => ?_,
    fun u hu => ?_⟩
  · rw [← h.input f hf]
    exact hother f fun hmem => hf (reserved_of_mem_writes hmem)
  · exact h.running v u ((hsame v).symm.trans hv)
  · exact h.unique v v' u ((hsame v).symm.trans hv) ((hsame v').symm.trans hv')
  · have hold := (hsame v).symm.trans hv
    by_cases hvw : v = w
    · subst hvw
      show Progress E c fs ((st.setPc v pc).workers v).pc
      rw [st.setPc_self]
      exact hp
    · have hut : u ≠ t := by
        rintro rfl
        exact hvw (h.unique v w u hold (hheld u ht))
      show Progress E c fs ((st.setPc w pc).workers v).pc
      rw [st.setPc_of_ne pc hvw]
      refine (h.progress v u hold).congr (Worker.task?_of_held? hold) (hframe u hut ?_)
      rw [h.running v u hold]
      decide
  · have hu : st.status u = .finished := hu
    have hut : u ≠ t := by
      rintro rfl
      rw [hrun] at hu
      cases hu
    exact (h.finished u hu).congr (hframe u hut (by rw [hu]; decide))

/-- A worker gets a task that nobody has. -/
lemma ExecOk.assign (h : ExecOk E c start st) (w : Fin W) (ht : st.status t = .notRun) :
    ExecOk E c start (st.assign w t) := by
  have hself : (st.assign w t).workers w = ⟨(st.workers w).alive, .assigned t⟩ :=
    st.setPc_self w _
  have hne : ∀ v, v ≠ w → (st.assign w t).workers v = st.workers v :=
    fun v hv => st.setPc_of_ne _ hv
  have hnobody : ∀ v, (st.workers v).held? ≠ some t := by
    intro v hv
    rw [h.running v t hv] at ht
    cases ht
  have hnew : ∀ u, ((st.assign w t).workers w).held? = some u → u = t := by
    intro u hu
    have := Worker.task?_of_held? hu
    rw [hself] at this
    exact (Option.some.inj this).symm
  refine ⟨h.input, fun v u hv => ?_, fun v v' u hv hv' => ?_, fun v u hv => ?_, fun u hu => ?_⟩
  · show Function.update st.status t .running u = .running
    by_cases hut : u = t
    · rw [hut, Function.update_self]
    · rw [Function.update_of_ne hut]
      have hvw : v ≠ w := by
        rintro rfl
        exact hut (hnew u hv)
      rw [hne v hvw] at hv
      exact h.running v u hv
  · by_cases hvw : v = w <;> by_cases hvw' : v' = w
    · rw [hvw, hvw']
    · subst hvw
      rw [hne v' hvw', hnew u hv] at hv'
      exact absurd hv' (hnobody v')
    · subst hvw'
      rw [hne v hvw, hnew u hv'] at hv
      exact absurd hv (hnobody v)
    · rw [hne v hvw] at hv
      rw [hne v' hvw'] at hv'
      exact h.unique v v' u hv hv'
  · by_cases hvw : v = w
    · subst hvw
      rw [hself]
      trivial
    · rw [hne v hvw] at hv ⊢
      exact h.progress v u hv
  · have hut : u ≠ t := by
      rintro rfl
      rw [show (st.assign w u).status u = .running from Function.update_self _ _ _] at hu
      cases hu
    exact h.finished u ((Function.update_of_ne hut _ _).symm.trans hu)

/-- A report arrives. -/
lemma ExecOk.finish (h : ExecOk E c start st) {w : Fin W} (hpc : (st.workers w).pc = .finishing t) :
    ExecOk E c start
      (Job.setPc { st with status := cas st.status t .running .finished } w .idle) := by
  have hheld := Worker.held?_of_finishing hpc
  have hcas : cas st.status t .running .finished = Function.update st.status t .finished :=
    if_pos (h.running w t hheld)
  refine h.of_held rfl (fun v u hv => ?_) fun u hu => ?_
  · obtain ⟨hvw, hworker⟩ := held?_setPc_of_none rfl hv
    rw [hworker] at hv ⊢
    refine ⟨hv, rfl, ?_⟩
    show cas st.status t .running .finished u = st.status u
    rw [hcas, Function.update_of_ne]
    rintro rfl
    exact hvw (h.unique v w u hv hheld)
  · have hu : cas st.status t .running .finished u = .finished := hu
    by_cases hut : u = t
    · subst hut
      have := h.progress w u hheld
      rw [hpc] at this
      exact this
    · rw [hcas, Function.update_of_ne hut] at hu
      exact h.finished u hu

/-- A timer resets a task that nobody has, or does nothing. -/
lemma ExecOk.timer (h : ExecOk E c start st) {k : ℕ} (hk : st.timers[k]? = some t)
    (hnot : ¬ resetsHeld st (.timer k)) :
    ExecOk E c start
      { st with status := cas st.status t .running .notRun, timers := st.timers.eraseIdx k } := by
  refine h.of_held rfl (fun v u hv => ⟨hv, rfl, ?_⟩) fun u hu => ?_
  · show cas st.status t .running .notRun u = st.status u
    unfold cas
    split_ifs with hrun
    · refine Function.update_of_ne ?_ _ _
      rintro rfl
      refine hnot ?_
      simp only [resetsHeld, hk, Option.any_some, decide_eq_true_eq]
      exact ⟨hrun, v, hv⟩
    · rfl
  · have hu : cas st.status t .running .notRun u = .finished := hu
    unfold cas at hu
    split_ifs at hu
    · by_cases hut : u = t
      · rw [hut, Function.update_self] at hu
        cases hu
      · rw [Function.update_of_ne hut] at hu
        exact h.finished u hu
    · exact h.finished u hu

/-- **One step keeps `ExecOk`**, unless it takes a task from a worker. -/
theorem JobStep.execOk {a : Action W} (hst : JobStep E c st a st') (hsep : Separate c)
    (hc : CoordinatorOk c st) (hnot : ¬ resetsHeld st a) (h : ExecOk E c start st) :
    ExecOk E c start st' := by
  cases hst with
  | @call w ha hpc => exact h.release w rfl rfl rfl rfl
  | @unlock w pc hh hn => exact h.release w rfl rfl rfl rfl
  | store hh hn => exact h.assign _ ((hc.handler _ _ hh).store hn).1
  | @fatal w fs ha hw => exact h.kill w rfl (work_fatal hw) rfl
  | work ha hw => exact h.work hsep hc ha hw
  | @finish w t u hpc hu =>
      rw [hsep.lookup t (h.valid hc (Worker.held?_of_finishing hpc))] at hu
      cases hu
      exact h.finish hpc
  | timer hk => exact h.timer hk hnot
  | @crash w => exact h.kill w rfl rfl rfl
  | _ => exact h.of_held rfl (fun v u hv => ⟨hv, rfl, rfl⟩) h.finished

/-! ## The output -/

section Runs

variable {files : List Str} {nReduce : ℕ} {tr : List (Job W × Action W)}

/-- The executions of a run in which no worker loses its task. -/
lemma execOk_of_run (hname : ∀ f ∈ files, ¬ Reserved f)
    (h : (job E W files nReduce start).Run tr st) (hD : Avoids (fun x a => resetsHeld x a) tr) :
    ExecOk E (makeCoordinator files nReduce) start st := by
  refine System.Run.induction_avoiding
    (P := fun _ st => ExecOk E (makeCoordinator files nReduce) start st) (execOk_init start) ?_ h hD
  intro tr x a y hx _ hok hnot hs
  exact (JobStep.of_step hs).execOk (separate_makeCoordinator hname) (coordinatorOk_of_run hx) hnot
    hok

/-- The files of a job whose `Done` has returned true: those of all tasks are there, and the inputs
are as they were. -/
lemma ExecOk.jobDone (hok : ExecOk E (makeCoordinator files nReduce) start st)
    (hc : CoordinatorOk (makeCoordinator files nReduce) st) (hn : 0 < nReduce)
    (hname : ∀ f ∈ files, ¬ Reserved f) (hdone : st.done) :
    JobDone E st.fs files nReduce ∧ ∀ f ∈ files, st.fs f = start f := by
  have hreduce : ∀ r < nReduce, st.status (.reduce r) = .finished :=
    fun r hr => hc.done hdone r (by simpa [makeCoordinator] using hr)
  have hmaps := hc.phase 0 (by rw [hreduce 0 hn]; decide)
  refine ⟨⟨fun i f hf => ?_, fun r hr => ?_⟩, fun f hf => hok.input f (hname f hf)⟩
  · have hi := (List.getElem?_eq_some_iff.mp hf).1
    have hmap := hok.finished (.map i) (hmaps i (by simpa [makeCoordinator] using hi))
    rwa [TaskDone, reply_map hf] at hmap
  · have hred := hok.finished (.reduce r) (hreduce r hr)
    rwa [TaskDone, reply_reduce hr] at hred

/-- **The output is that of the sequential program** in every state of a run from the moment on at
which `Done` has returned true, if no timer resets a running task that a live worker still has or
whose report is on its way. Workers may crash at any point. -/
theorem output_of_done (hn : 0 < nReduce) (hname : ∀ f ∈ files, ¬ Reserved f)
    (h : (job E W files nReduce start).Run tr st) (hD : Avoids (fun x a => resetsHeld x a) tr)
    (hdone : st.done) :
    (outputLines st.fs nReduce).Perm (sequentialLines E start files) := by
  obtain ⟨hjob, hinput⟩ :=
    (execOk_of_run hname h hD).jobDone (coordinatorOk_of_run h) hn hname hdone
  exact hjob.perm_sequential hn hinput

/-- The steps of a call of `HandleWorker` that gets the first reduce task of a job with one map
task: both scans of `getReduceTask`. -/
def handReduce (w : Fin W) : List (Action W) := [.call w, .lock w] ++ List.replicate 9 .handler

/-- A run with two crashes: the first worker dies in `doMap` with its file created and not written,
the second one in `doReduce` in the same way, and the third one finishes the job. -/
theorem output_of_done_run : ∃ tr st, (job wc 3 [ascii "b"] 1 sampleFiles).Run tr st ∧
    Avoids (fun x a => resetsHeld x a) tr ∧ st.done ∧
    (outputLines st.fs 1).Perm (sequentialLines wc sampleFiles [ascii "b"]) ∧
    sequentialLines wc sampleFiles [ascii "b"] = [ascii "y 1"] := by
  have hname : ∀ f ∈ [ascii "b"], ¬ Reserved f := by
    intro f hf
    rw [List.mem_singleton.mp hf]
    exact not_reserved_of_length (by decide)
  obtain ⟨tr, st, h, hD, hdone⟩ := (job wc 3 [ascii "b"] 1 sampleFiles).exists_run_of_exec
    (List.flatten [[.call 0, .lock 0, .handler, .handler, .work 0, .work 0, .crash 0, .timer 0],
      [.call 1, .lock 1, .handler, .handler, .work 1, .work 1, .work 1, .work 1, .finish 1],
      handReduce 1, [.work 1, .crash 1, .timer 1],
      handReduce 2, [.work 2, .work 2, .work 2, .work 2, .work 2, .finish 2, .done, .done]])
    (fun tr st => Avoids (fun x a => resetsHeld x a) tr ∧ st.done) (by decide)
  exact ⟨tr, st, h, hD, hdone, output_of_done (by decide) hname h hD hdone, rfl⟩

/-- A run that ends with an empty output file after `Done` has returned true. Worker 0 has the
reduce task and is slow; its timer resets the task, worker 1 executes and reports it, `Done` returns
true, and then worker 0 creates the output file once more. -/
theorem output_fails : ∃ tr st, (job wc 2 [ascii "b"] 1 sampleFiles).Run tr st ∧ st.done ∧
    outputLines st.fs 1 = [] ∧
    sequentialLines wc sampleFiles [ascii "b"] = [ascii "y 1"] :=
  (job wc 2 [ascii "b"] 1 sampleFiles).exists_run_of_exec
    (List.flatten
      [[.call 0, .lock 0, .handler, .handler, .work 0, .work 0, .work 0, .work 0, .finish 0],
        handReduce 0, [.timer 1],
        handReduce 1, [.work 1, .work 1, .work 1, .work 1, .work 1, .finish 1, .done, .done],
        [.work 0]])
    (fun _ st => st.done ∧ outputLines st.fs 1 = [] ∧
      sequentialLines wc sampleFiles [ascii "b"] = [ascii "y 1"]) (by decide)

end Runs

end GoLabs.MapReduce
