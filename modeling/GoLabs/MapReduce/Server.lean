import GoLabs.MapReduce.Job

/-!
# The coordinator as a server

`server` is `coordinator.go` for callers of any kind. Any number of workers call `HandleWorker` at
any time, a worker may report any task it was once given, as often as it likes and as late as it
likes, and any number of calls of `Done` are under way. A worker that has crashed is one that makes
no more calls. Every read, store and swap of a status word is a step of its own; the reply, the
start of the timer and the unlock come in one step after the store.

`ServerOk` holds in every run. The status words are read one by one and swapped without the lock,
yet a status that `HandleWorker` has read as 0 stays 0 until it is stored, since only `HandleWorker`
itself takes a task out of that status, and a status that was read as 2 stays 2, since nobody takes
a task out of that one. So a task is handed out only when it is not running, and no reduce task
before all map tasks are finished.
-/

namespace GoLabs.MapReduce

open GoLabs.Lib

/-! ## The server -/

/-- Where the call of `HandleWorker` that holds the mutex is. -/
inductive CallPc
  /-- In the scans or before the store. -/
  | scanning (pc : HandlerPc)
  /-- Between the store and the unlock. -/
  | stored (t : Task)

/-- A timer goroutine. It knows its task only; no step reads `serial`, the number of the hand-out
that started it. -/
structure Timer where
  task : Task
  serial : ℕ
  deriving DecidableEq

/-- The state of the coordinator for workers `V`. -/
structure Server (V : Type) where
  status : Task → TaskStatus
  /-- The call of `HandleWorker` that holds the mutex. -/
  call : Option (V × CallPc)
  /-- What has been handed out, and to whom, the latest hand-out first. -/
  assigned : List (V × Task)
  /-- The timer goroutines that have not woken up yet. -/
  timers : List Timer
  /-- The calls of `Done` under way; each reads the status of this reduce task next. -/
  scans : List ℕ
  /-- A call of `Done` has returned true. -/
  done : Bool

/-- What can happen next. -/
inductive Event (V : Type)
  /-- A call of `HandleWorker` gets the mutex. -/
  | lock (v : V)
  /-- The next step of the call that holds the mutex. -/
  | handler
  /-- `HandleFinish` runs for a worker and a task that it was given. -/
  | finish (v : V) (t : Task)
  /-- A timer wakes up. -/
  | timer (k : ℕ)
  /-- `Done` is called. -/
  | done
  /-- The next step of a call of `Done`. -/
  | scan (k : ℕ)
  deriving DecidableEq

variable {V : Type}

namespace Server

/-- How often a task has been handed out. -/
def handOuts (sv : Server V) (t : Task) : ℕ := sv.assigned.countP fun q => q.2 = t

/-- The store `Status = 1` of a call of `HandleWorker`.
Source: `coordinator.go` `HandleWorker` -/
def store (sv : Server V) (v : V) (t : Task) : Server V :=
  { sv with status := Function.update sv.status t .running, call := some (v, .stored t) }

/-- What `HandleWorker` does after the store: the reply, the timer and the unlock.
Source: `coordinator.go` `HandleWorker` -/
def handOut (sv : Server V) (v : V) (t : Task) : Server V :=
  { sv with
    call := none
    assigned := (v, t) :: sv.assigned
    timers := sv.timers ++ [⟨t, sv.handOuts t + 1⟩] }

/-- A timer wakes up.
Source: `coordinator.go` `HandleWorker` -/
def expire (sv : Server V) (k : ℕ) (t : Task) : Server V :=
  { sv with status := cas sv.status t .running .notRun, timers := sv.timers.eraseIdx k }

/-- One step of the coordinator. -/
def step [DecidableEq V] (c : Coordinator) (sv : Server V) : Event V → Option (Server V)
  | .lock v =>
      match sv.call with
      | none => some { sv with call := some (v, .scanning (.getMapTask 0)) }
      | some _ => none
  | .handler =>
      match sv.call with
      | none => none
      | some (v, .scanning pc) =>
          (pc.next c sv.status).map fun
            | .goto pc' => { sv with call := some (v, .scanning pc') }
            | .unlock => { sv with call := none }
            | .store t => sv.store v t
      | some (v, .stored t) => some (sv.handOut v t)
  | .finish v t =>
      if (v, t) ∈ sv.assigned then
        (c.lookup (c.reply t).taskType (c.reply t).taskId).map fun u =>
          { sv with status := cas sv.status u .running .finished }
      else none
  | .timer k => (sv.timers[k]?).map fun timer => sv.expire k timer.task
  | .done => some { sv with scans := sv.scans ++ [0] }
  | .scan k =>
      (sv.scans[k]?).map fun i =>
        if i < c.activeReduceTasks.length then
          if sv.status (.reduce i) ≠ .finished then { sv with scans := sv.scans.eraseIdx k }
          else { sv with scans := sv.scans.set k (i + 1) }
        else { sv with scans := sv.scans.eraseIdx k, done := true }

/-- The state after `MakeCoordinator`. -/
def init : Server V where
  status := fun _ => .notRun
  call := none
  assigned := []
  timers := []
  scans := []
  done := false

end Server

/-- **The coordinator** of the tasks of `MakeCoordinator`, for workers `V`. -/
def server (V : Type) [DecidableEq V] (files : List Str) (nReduce : ℕ) :
    System (Server V) (Event V) where
  init := Server.init
  step := Server.step (makeCoordinator files nReduce)

/-! ## Steps -/

/-- **Everything a step of the coordinator can do.** -/
inductive ServerStep (c : Coordinator) (sv : Server V) : Event V → Server V → Prop
  | lock {v : V} (hcall : sv.call = none) :
      ServerStep c sv (.lock v) { sv with call := some (v, .scanning (.getMapTask 0)) }
  | goto {v : V} {pc pc' : HandlerPc} (hcall : sv.call = some (v, .scanning pc))
      (hn : pc.next c sv.status = some (.goto pc')) :
      ServerStep c sv .handler { sv with call := some (v, .scanning pc') }
  | unlock {v : V} {pc : HandlerPc} (hcall : sv.call = some (v, .scanning pc))
      (hn : pc.next c sv.status = some .unlock) :
      ServerStep c sv .handler { sv with call := none }
  | store {v : V} {pc : HandlerPc} {t : Task} (hcall : sv.call = some (v, .scanning pc))
      (hn : pc.next c sv.status = some (.store t)) : ServerStep c sv .handler (sv.store v t)
  | handOut {v : V} {t : Task} (hcall : sv.call = some (v, .stored t)) :
      ServerStep c sv .handler (sv.handOut v t)
  | finish {v : V} {t u : Task} (hmem : (v, t) ∈ sv.assigned)
      (hu : c.lookup (c.reply t).taskType (c.reply t).taskId = some u) :
      ServerStep c sv (.finish v t) { sv with status := cas sv.status u .running .finished }
  | timer {k : ℕ} {timer : Timer} (hk : sv.timers[k]? = some timer) :
      ServerStep c sv (.timer k) (sv.expire k timer.task)
  | done : ServerStep c sv .done { sv with scans := sv.scans ++ [0] }
  | scanBusy {k i : ℕ} (hk : sv.scans[k]? = some i) (hlt : i < c.activeReduceTasks.length)
      (hs : sv.status (.reduce i) ≠ .finished) :
      ServerStep c sv (.scan k) { sv with scans := sv.scans.eraseIdx k }
  | scanNext {k i : ℕ} (hk : sv.scans[k]? = some i) (hlt : i < c.activeReduceTasks.length)
      (hs : sv.status (.reduce i) = .finished) :
      ServerStep c sv (.scan k) { sv with scans := sv.scans.set k (i + 1) }
  | scanEnd {k i : ℕ} (hk : sv.scans[k]? = some i) (hge : c.activeReduceTasks.length ≤ i) :
      ServerStep c sv (.scan k) { sv with scans := sv.scans.eraseIdx k, done := true }

/-- **Inversion of `Server.step`.** -/
theorem ServerStep.of_step [DecidableEq V] {c : Coordinator} {sv sv' : Server V} {a : Event V}
    (h : sv.step c a = some sv') : ServerStep c sv a sv' := by
  cases a with
  | lock v =>
      simp only [Server.step] at h
      split at h
      · rename_i hcall
        cases h
        exact .lock hcall
      · cases h
  | handler =>
      simp only [Server.step] at h
      split at h
      · cases h
      · rename_i v pc hcall
        obtain ⟨r, hr, rfl⟩ := Option.map_eq_some_iff.mp h
        cases r with
        | goto pc' => exact .goto hcall hr
        | unlock => exact .unlock hcall hr
        | store t => exact .store hcall hr
      · rename_i v t hcall
        cases h
        exact .handOut hcall
  | finish v t =>
      simp only [Server.step] at h
      split_ifs at h with hmem
      obtain ⟨u, hu, rfl⟩ := Option.map_eq_some_iff.mp h
      exact .finish hmem hu
  | timer k =>
      obtain ⟨timer, hk, rfl⟩ := Option.map_eq_some_iff.mp h
      exact .timer hk
  | done =>
      cases h
      exact .done
  | scan k =>
      obtain ⟨i, hk, rfl⟩ := Option.map_eq_some_iff.mp h
      split_ifs with hlt hs
      · exact .scanBusy hk hlt hs
      · exact .scanNext hk hlt (not_not.mp hs)
      · exact .scanEnd hk (not_lt.mp hlt)

/-- What the relation allows is a step of the coordinator. -/
lemma ServerStep.to_step [DecidableEq V] {c : Coordinator} {sv sv' : Server V} {a : Event V}
    (h : ServerStep c sv a sv') : sv.step c a = some sv' := by
  cases h with
  | lock hcall => simp [Server.step, hcall]
  | goto hcall hn => simp [Server.step, hcall, hn]
  | unlock hcall hn => simp [Server.step, hcall, hn]
  | store hcall hn => simp [Server.step, hcall, hn]
  | handOut hcall => simp [Server.step, hcall]
  | finish hmem hu => simp [Server.step, hmem, hu]
  | timer hk => simp [Server.step, hk]
  | done => rfl
  | scanBusy hk hlt hs => simp [Server.step, hk, hlt, hs]
  | scanNext hk hlt hs => simp [Server.step, hk, hlt, hs]
  | scanEnd hk hge => simp [Server.step, hk, not_lt.mpr hge]

/-! ## Status words -/

variable {c : Coordinator} {status status' : Task → TaskStatus} {t u : Task}

/-- A step of a goroutine that does not hold the mutex: only a running task changes. -/
def OnlyRunning (status status' : Task → TaskStatus) : Prop :=
  ∀ t, status t ≠ .running → status' t = status t

/-- A compare-and-swap that expects a running task changes nothing else. -/
lemma onlyRunning_cas (status : Task → TaskStatus) (t : Task) (new : TaskStatus) :
    OnlyRunning status (cas status t .running new) := by
  intro u hu
  unfold cas
  split_ifs with ht
  · have hne : u ≠ t := by
      rintro rfl
      exact hu ht
    exact Function.update_of_ne hne _ _
  · rfl

/-- A task that has not been handed out stays so. -/
lemma OnlyRunning.notRun (h : OnlyRunning status status') (ht : status t = .notRun) :
    status' t = .notRun := (h t (by rw [ht]; decide)).trans ht

/-- A finished task stays finished. -/
lemma OnlyRunning.finished (h : OnlyRunning status status') (ht : status t = .finished) :
    status' t = .finished := (h t (by rw [ht]; decide)).trans ht

/-- Handing out a task leaves the finished ones alone. -/
lemma update_finished (ht : status t = .notRun) (hu : status u = .finished) :
    Function.update status t .running u = .finished := by
  have hne : u ≠ t := by
    rintro rfl
    rw [hu] at ht
    cases ht
  rw [Function.update_of_ne hne, hu]

/-- The pointer points to a task of the coordinator. -/
def Task.Valid (c : Coordinator) : Task → Prop
  | map i => i < c.activeMapTasks.length
  | reduce i => i < c.activeReduceTasks.length

/-- All map tasks are finished. -/
def MapsFinished (c : Coordinator) (status : Task → TaskStatus) : Prop :=
  ∀ i < c.activeMapTasks.length, status (.map i) = .finished

/-- `t` may be handed out: if it is a reduce task, all map tasks are finished. -/
def Ready (c : Coordinator) (status : Task → TaskStatus) (t : Task) : Prop :=
  t.Valid c ∧ ∀ i, t = .reduce i → MapsFinished c status

/-- A task that may be handed out may be handed out later. -/
lemma Ready.mono (h : Ready c status t)
    (hfin : ∀ u, status u = .finished → status' u = .finished) : Ready c status' t :=
  ⟨h.1, fun i hi j hj => hfin _ (h.2 i hi j hj)⟩

/-! ## The call that holds the mutex -/

/-- What `HandleWorker` knows at each point. -/
def HandlerOk (c : Coordinator) (status : Task → TaskStatus) : HandlerPc → Prop
  | .getMapTask _ => True
  | .storeMap i => i < c.activeMapTasks.length ∧ status (.map i) = .notRun
  | .mapFinished second i => (∀ j < i, status (.map j) = .finished) ∧
      (second → MapsFinished c status ∧
        ∃ r < c.activeReduceTasks.length, status (.reduce r) = .notRun)
  | .getReduceTask second i => MapsFinished c status ∧
      (second → ∃ r < c.activeReduceTasks.length, i ≤ r ∧ status (.reduce r) = .notRun)
  | .storeReduce i => MapsFinished c status ∧ i < c.activeReduceTasks.length ∧
      status (.reduce i) = .notRun
  | .nilTask => False

/-- Timers and finish reports do not touch what `HandleWorker` relies on. -/
lemma HandlerOk.onlyRunning {pc : HandlerPc} (h : HandlerOk c status pc)
    (ho : OnlyRunning status status') : HandlerOk c status' pc := by
  have hmaps : MapsFinished c status → MapsFinished c status' :=
    fun h i hi => ho.finished (h i hi)
  cases pc with
  | getMapTask i => trivial
  | storeMap i => exact ⟨h.1, ho.notRun h.2⟩
  | mapFinished second i =>
      refine ⟨fun j hj => ho.finished (h.1 j hj), fun hsecond => ?_⟩
      obtain ⟨hm, r, hr, hnot⟩ := h.2 hsecond
      exact ⟨hmaps hm, r, hr, ho.notRun hnot⟩
  | getReduceTask second i =>
      refine ⟨hmaps h.1, fun hsecond => ?_⟩
      obtain ⟨r, hr, hle, hnot⟩ := h.2 hsecond
      exact ⟨r, hr, hle, ho.notRun hnot⟩
  | storeReduce i => exact ⟨hmaps h.1, h.2.1, ho.notRun h.2.2⟩
  | nilTask => exact h

/-- The scans establish what the stores rely on, and the second scan finds a task again. -/
lemma HandlerOk.goto {pc pc' : HandlerPc} (h : HandlerOk c status pc)
    (hn : pc.next c status = some (.goto pc')) : HandlerOk c status pc' := by
  cases pc with
  | getMapTask i =>
      simp only [HandlerPc.next] at hn
      split_ifs at hn with hlt hs
      · cases hn
        exact ⟨hlt, hs⟩
      · cases hn
        trivial
      · cases hn
        exact ⟨fun j hj => absurd hj (Nat.not_lt_zero j), fun h => by cases h⟩
  | mapFinished second i =>
      simp only [HandlerPc.next] at hn
      split_ifs at hn with hlt hs
      · cases second with
        | false => cases hn
        | true => exact absurd ((h.2 rfl).1 i hlt) hs
      · cases hn
        refine ⟨fun j hj => ?_, h.2⟩
        rcases Nat.lt_succ_iff_lt_or_eq.mp hj with hj | rfl
        · exact h.1 j hj
        · exact not_not.mp hs
      · cases hn
        refine ⟨fun j hj => h.1 j (by omega), fun hsecond => ?_⟩
        obtain ⟨-, r, hr, hnot⟩ := h.2 hsecond
        exact ⟨r, hr, Nat.zero_le r, hnot⟩
  | getReduceTask second i =>
      simp only [HandlerPc.next] at hn
      split_ifs at hn with hlt hs hsecond
      · cases hn
        exact ⟨h.1, hlt, hs⟩
      · cases hn
        exact ⟨fun j hj => absurd hj (Nat.not_lt_zero j), fun _ => ⟨h.1, i, hlt, hs⟩⟩
      · cases hn
        refine ⟨h.1, fun hsecond => ?_⟩
        obtain ⟨r, hr, hle, hnot⟩ := h.2 hsecond
        refine ⟨r, hr, Nat.succ_le_of_lt (lt_of_le_of_ne hle ?_), hnot⟩
        rintro rfl
        exact hs hnot
      · cases second with
        | false => cases hn
        | true =>
            obtain ⟨r, hr, hle, -⟩ := h.2 rfl
            omega
  | _ => cases hn

/-- A task is handed out only when it is not running, and a reduce task only when all map tasks are
finished. -/
lemma HandlerOk.store {pc : HandlerPc} (h : HandlerOk c status pc)
    (hn : pc.next c status = some (.store t)) :
    status t = .notRun ∧ Ready c status t := by
  cases pc with
  | storeMap i =>
      cases hn
      exact ⟨h.2, h.1, by simp⟩
  | storeReduce i =>
      cases hn
      exact ⟨h.2.2, h.2.1, fun _ _ => h.1⟩
  | getMapTask i =>
      simp only [HandlerPc.next] at hn
      split_ifs at hn <;> cases hn
  | mapFinished second i =>
      simp only [HandlerPc.next, Handled.noReduceTask] at hn
      split_ifs at hn <;> cases hn
  | getReduceTask second i =>
      simp only [HandlerPc.next, Handled.noReduceTask] at hn
      split_ifs at hn <;> cases hn
  | nilTask => cases hn

/-! ## The tables of `MakeCoordinator` -/

section Tables

variable {files : List Str} {nReduce : ℕ}

/-- The reply that hands out a map task of a job. -/
lemma reply_map {i : ℕ} {f : Str} (h : files[i]? = some f) :
    (makeCoordinator files nReduce).reply (.map i) = ⟨[f], some .map, i + 1, nReduce⟩ := by
  simp [makeCoordinator, Coordinator.reply, h]

/-- The reply that hands out a reduce task of a job. -/
lemma reply_reduce {i : ℕ} (h : i < nReduce) :
    (makeCoordinator files nReduce).reply (.reduce i) =
      ⟨intermediateNames files i, some .reduce, i + 1, nReduce⟩ := by
  simp [makeCoordinator, Coordinator.reply, h]

/-- The map tasks of a job are those of its input files. -/
lemma valid_map {i : ℕ} :
    (Task.map i).Valid (makeCoordinator files nReduce) ↔ ∃ f, files[i]? = some f := by
  simp [Task.Valid, makeCoordinator, ← Option.isSome_iff_exists]

/-- The reduce tasks of a job are numbered below `nReduce`. -/
lemma valid_reduce {i : ℕ} :
    (Task.reduce i).Valid (makeCoordinator files nReduce) ↔ i < nReduce := by
  simp [Task.Valid, makeCoordinator]

/-- In a list whose elements are numbered from 1 on, a number finds its element. -/
lemma findIdx?_of_numbered {α : Type*} {l : List α} {num : α → ℕ}
    (hnum : ∀ j (hj : j < l.length), num l[j] = j + 1) {i : ℕ} (hi : i < l.length) :
    (l.findIdx? fun a => num a = i + 1) = some i := by
  refine List.findIdx?_eq_some_iff_getElem.mpr ⟨hi, by simp [hnum i hi], fun j hj => ?_⟩
  simp [hnum j (hj.trans hi)]
  omega

/-- A report of a task finds the task. -/
lemma lookup_reply {t : Task} (ht : t.Valid (makeCoordinator files nReduce)) :
    (makeCoordinator files nReduce).lookup ((makeCoordinator files nReduce).reply t).taskType
      ((makeCoordinator files nReduce).reply t).taskId = some t := by
  cases t with
  | map i =>
      obtain ⟨f, hf⟩ := valid_map.mp ht
      rw [reply_map hf, Coordinator.lookup,
        findIdx?_of_numbered (fun j hj => by simp [makeCoordinator]) ht, Option.map_some]
  | reduce i =>
      rw [reply_reduce (valid_reduce.mp ht), Coordinator.lookup,
        findIdx?_of_numbered (fun j hj => by simp [makeCoordinator]) ht, Option.map_some]

end Tables

/-! ## The coordinator in every run -/

/-- What the coordinator keeps. -/
structure ServerOk (c : Coordinator) (sv : Server V) : Prop where
  scanning : ∀ v pc, sv.call = some (v, .scanning pc) → HandlerOk c sv.status pc
  stored : ∀ v t, sv.call = some (v, .stored t) → Ready c sv.status t
  assigned : ∀ v t, (v, t) ∈ sv.assigned → Ready c sv.status t
  valid : ∀ t, sv.status t ≠ .notRun → t.Valid c
  /-- No reduce task is handed out before all map tasks are finished. -/
  phase : ∀ i, sv.status (.reduce i) ≠ .notRun → MapsFinished c sv.status
  scans : ∀ i ∈ sv.scans, ∀ j < i, sv.status (.reduce j) = .finished
  done : sv.done → ∀ i < c.activeReduceTasks.length, sv.status (.reduce i) = .finished

/-- At first no call holds the mutex. -/
lemma serverOk_init (c : Coordinator) : ServerOk c (Server.init : Server V) where
  scanning v pc h := by cases h
  stored v t h := by cases h
  assigned v t h := absurd h List.not_mem_nil
  valid t h := absurd rfl h
  phase i h := absurd rfl h
  scans i h := absurd h List.not_mem_nil
  done h := by cases h

/-- A swap of a running task keeps everything. -/
lemma ServerOk.onlyRunning {sv : Server V} (h : ServerOk c sv)
    (ho : OnlyRunning sv.status status') (timers : List Timer) :
    ServerOk c { sv with status := status', timers := timers } := by
  have hne : ∀ t, status' t ≠ .notRun → sv.status t ≠ .notRun :=
    fun t ht heq => ht (ho.notRun heq)
  exact
    { scanning := fun v pc hcall => (h.scanning v pc hcall).onlyRunning ho
      stored := fun v t hcall => (h.stored v t hcall).mono fun _ => ho.finished
      assigned := fun v t hmem => (h.assigned v t hmem).mono fun _ => ho.finished
      valid := fun t ht => h.valid t (hne t ht)
      phase := fun i hi j hj => ho.finished (h.phase i (hne _ hi) j hj)
      scans := fun i hi j hj => ho.finished (h.scans i hi j hj)
      done := fun hd i hi => ho.finished (h.done hd i hi) }

/-- A task that a call stores as running may be handed out. -/
lemma ServerOk.store {sv : Server V} (h : ServerOk c sv) {v : V} {pc : HandlerPc}
    (hcall : sv.call = some (v, .scanning pc)) (hn : pc.next c sv.status = some (.store t)) :
    ServerOk c (sv.store v t) := by
  obtain ⟨hnot, hready⟩ := (h.scanning v pc hcall).store hn
  have hfin : ∀ u, sv.status u = .finished → (sv.store v t).status u = .finished :=
    fun u => update_finished hnot
  refine ⟨?_, ?_, fun w u hmem => (h.assigned w u hmem).mono hfin, ?_, ?_, ?_, ?_⟩
  · intro w pc' h'
    cases h'
  · intro w u h'
    cases h'
    exact hready.mono hfin
  · intro u hu
    by_cases hut : u = t
    · exact hut ▸ hready.1
    · exact h.valid u fun heq => hu ((Function.update_of_ne hut _ _).trans heq)
  · intro i hi j hj
    refine hfin _ ?_
    by_cases hit : Task.reduce i = t
    · exact hready.2 i hit.symm j hj
    · exact h.phase i (fun heq => hi ((Function.update_of_ne hit _ _).trans heq)) j hj
  · exact fun i hi j hj => hfin _ (h.scans i hi j hj)
  · exact fun hd i hi => hfin _ (h.done hd i hi)

/-- **One step keeps what the coordinator keeps.** -/
theorem ServerStep.serverOk {sv sv' : Server V} {a : Event V} (hst : ServerStep c sv a sv')
    (h : ServerOk c sv) : ServerOk c sv' := by
  have herase : ∀ k, ∀ i ∈ sv.scans.eraseIdx k, ∀ j < i, sv.status (.reduce j) = .finished :=
    fun k i hi => h.scans i (List.mem_of_mem_eraseIdx hi)
  cases hst with
  | lock hcall =>
      refine { h with scanning := fun v pc hpc => ?_, stored := fun v t hpc => by cases hpc }
      cases hpc
      trivial
  | goto hcall hn =>
      refine { h with scanning := fun v pc hpc => ?_, stored := fun v t hpc => by cases hpc }
      cases hpc
      exact (h.scanning _ _ hcall).goto hn
  | unlock hcall hn =>
      exact { h with
        scanning := fun v pc hpc => by cases hpc
        stored := fun v t hpc => by cases hpc }
  | store hcall hn => exact h.store hcall hn
  | @handOut v t hcall =>
      refine { h with
        scanning := fun v pc hpc => by cases hpc
        stored := fun v t hpc => by cases hpc
        assigned := fun w u hmem => ?_ }
      rcases List.mem_cons.mp hmem with heq | hmem
      · cases heq
        exact h.stored v t hcall
      · exact h.assigned w u hmem
  | finish hmem hu => exact h.onlyRunning (onlyRunning_cas _ _ _) sv.timers
  | timer hk => exact h.onlyRunning (onlyRunning_cas _ _ _) _
  | done =>
      refine { h with scans := fun i hi j hj => ?_ }
      rcases List.mem_append.mp hi with hi | hi
      · exact h.scans i hi j hj
      · rw [List.mem_singleton.mp hi] at hj
        exact absurd hj (Nat.not_lt_zero j)
  | @scanBusy k i hk hlt hs => exact { h with scans := herase k }
  | @scanNext k i hk hlt hs =>
      refine { h with scans := fun i' hi' j hj => ?_ }
      rcases List.mem_or_eq_of_mem_set hi' with hi' | rfl
      · exact h.scans i' hi' j hj
      · rcases Nat.lt_succ_iff_lt_or_eq.mp hj with hj | rfl
        · exact h.scans i (List.mem_of_getElem? hk) j hj
        · exact hs
  | @scanEnd k i hk hge =>
      exact { h with
        scans := herase k
        done := fun _ j hj => h.scans i (List.mem_of_getElem? hk) j (lt_of_lt_of_le hj hge) }

/-- **The coordinator in every run.** -/
theorem serverOk_of_run [DecidableEq V] {files : List Str} {nReduce : ℕ}
    {tr : List (Server V × Event V)} {sv : Server V} (h : (server V files nReduce).Run tr sv) :
    ServerOk (makeCoordinator files nReduce) sv := by
  induction h with
  | init => exact serverOk_init _
  | step _ hs ih => exact (ServerStep.of_step hs).serverOk ih

end GoLabs.MapReduce
