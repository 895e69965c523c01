import GoLabs.Lib.Run
import GoLabs.MapReduce.Worker

/-!
# A job with its coordinator and workers

The state of a job is what its processes share and where each of them is: the status words of the
tasks, the files, the workers, the `HandleWorker` call that holds the coordinator's mutex, the timer
goroutines and the scan of `Done`. A step of `job` is one read, store or compare-and-swap of a
status word, one operation on the files, or the sending or the end of a remote call; everything else
that the source does between two of these is local to one goroutine.

* `HandleWorker` runs under the mutex, so at most one of its calls is under way (`handler`). The
  words it reads one by one may be swapped meanwhile by timers and by `HandleFinish`, which take no
  lock. The store `Status = 1`, the reply, the start of the timer and the unlock are one step.
* A worker may stop for ever at any point (`crash`). A call that it has sent is still served.
* A timer may wake up at any time. There is no clock: a worker is as slow as the run makes it.
-/

namespace GoLabs.MapReduce

open GoLabs.Lib

/-! ## The coordinator's tables -/

/-- Source: `coordinator.go` `TaskStatus` -/
inductive TaskStatus
  | notRun
  | running
  | finished
  deriving DecidableEq

/-- A pointer to a task: its kind and its place in the coordinator's list. -/
inductive Task
  | map (i : ℕ)
  | reduce (i : ℕ)
  deriving DecidableEq

/-- The values of the `TaskType` field of a reply that stand for a task. -/
inductive TaskType
  | map
  | reduce
  deriving DecidableEq

/-- The fields of a reply that names no task keep their zero values.
Source: `rpc.go` `CoordinatorReply` -/
structure CoordinatorReply where
  fileName : List Str := []
  taskType : Option TaskType := none
  taskId : ℕ := 0
  reduceN : ℕ := 0

/-- What `HandleWorker` writes into the reply for a task.
Source: `coordinator.go` `HandleWorker` -/
def Coordinator.reply (c : Coordinator) : Task → CoordinatorReply
  | .map i =>
      match c.activeMapTasks[i]? with
      | some task => ⟨[task.fileName], some .map, task.taskId, c.reduceN⟩
      | none => {}
  | .reduce i =>
      match c.activeReduceTasks[i]? with
      | some task => ⟨task.fileName, some .reduce, task.taskId, c.reduceN⟩
      | none => {}

/-- `MapTaskMap[id]` or `ReduceTaskMap[id]`.
Source: `coordinator.go` `HandleFinish` -/
def Coordinator.lookup (c : Coordinator) : Option TaskType → ℕ → Option Task
  | some .map, id => (c.activeMapTasks.findIdx? fun task => task.taskId = id).map .map
  | some .reduce, id => (c.activeReduceTasks.findIdx? fun task => task.taskId = id).map .reduce
  | none, _ => none

/-- `atomic.CompareAndSwapInt32(&task.Status, old, new)` -/
def cas (status : Task → TaskStatus) (t : Task) (old new : TaskStatus) : Task → TaskStatus :=
  if status t = old then Function.update status t new else status

/-! ## State -/

/-- Where a worker is. -/
inductive Pc
  /-- Before the next call of `HandleWorker`. -/
  | idle
  /-- `HandleWorker` has been called and has not returned. -/
  | calling
  /-- The reply names a task. -/
  | assigned (t : Task)
  /-- `doReduce` has created its output file and has these files still to read. -/
  | reading (i : ℕ) (file : Option (OpenFile Str)) (rest : List Str) (kvs : List KeyValue)
  /-- These operations are still to be done. -/
  | writing (t : Task) (file : Option (OpenFile Str)) (ops : List Op)
  /-- `HandleFinish` has been called and has not returned. -/
  | finishing (t : Task)

/-- A worker process. -/
structure Worker where
  alive : Bool
  pc : Pc

/-- Where a call of `HandleWorker` that holds the mutex is. `getReduceTask` is called a second time
when its first call has found a task. -/
inductive HandlerPc
  /-- `getMapTask` reads the status of map task `i` next. -/
  | getMapTask (i : ℕ)
  /-- `mapTask.Status = 1` -/
  | storeMap (i : ℕ)
  /-- `getReduceTask` reads the status of map task `i` next. -/
  | mapFinished (second : Bool) (i : ℕ)
  /-- `getReduceTask` reads the status of reduce task `i` next. -/
  | getReduceTask (second : Bool) (i : ℕ)
  /-- `reduceTask.Status = 1` -/
  | storeReduce (i : ℕ)
  /-- The store through the nil pointer that the second call returned: the coordinator is gone. -/
  | nilTask

/-- The state of a job with `W` workers. -/
structure Job (W : ℕ) where
  status : Task → TaskStatus
  fs : Files
  workers : Fin W → Worker
  handler : Option (Fin W × HandlerPc)
  /-- The timer goroutines that have not woken up yet, one for each entry. -/
  timers : List Task
  /-- `Done` reads the status of this reduce task next. -/
  scan : ℕ
  /-- `Done` has returned true. -/
  done : Bool

/-- What can happen next. -/
inductive Action (W : ℕ)
  /-- A worker wakes up and calls `HandleWorker`. -/
  | call (w : Fin W)
  /-- The call of a worker gets the mutex. -/
  | lock (w : Fin W)
  /-- The next step of the call that holds the mutex. -/
  | handler
  /-- The next step of a worker in `doMap` or `doReduce`, or the call of `HandleFinish`. -/
  | work (w : Fin W)
  /-- `HandleFinish` runs for a worker. -/
  | finish (w : Fin W)
  /-- A timer wakes up. -/
  | timer (k : ℕ)
  | crash (w : Fin W)
  /-- The next step of `Done`. -/
  | done
  deriving DecidableEq

/-! ## The worker -/

/-- The task a worker has. -/
def Pc.task? : Pc → Option Task
  | .idle => none
  | .calling => none
  | .assigned t => some t
  | .reading i _ _ _ => some (.reduce i)
  | .writing t _ _ => some t
  | .finishing t => some t

/-- The next step of a worker: where it is then (`none` after `log.Fatalf`) and the files.
Source: `worker.go` `Worker`, `doMap`, `doReduce` -/
def work (E : Env) (c : Coordinator) (fs : Files) : Pc → Option (Option Pc × Files)
  | .assigned (.map i) =>
      let reply := c.reply (.map i)
      match readInputs E fs reply.fileName with
      | none => some (none, fs)
      | some kvs =>
          some (some (.writing (.map i) none (mapOps E reply.taskId reply.reduceN kvs)), fs)
  | .assigned (.reduce i) =>
      let reply := c.reply (.reduce i)
      let s := FileOp.exec (fs, none) (.create (mrOut reply.taskId))
      some (some (.reading i s.2 reply.fileName []), s.1)
  | .reading i file (name :: rest) kvs =>
      some (some (.reading i file rest (kvs ++ E.decode ((fs name).getD []))), fs)
  | .reading i file [] kvs =>
      (reduceOutput E kvs).map fun output =>
        (some (.writing (.reduce i) file (output.map .write)), fs)
  | .writing t file (op :: ops) =>
      let s := FileOp.exec (fs, file) op
      some (some (.writing t s.2 ops), s.1)
  | .writing t _ [] => some (some (.finishing t), fs)
  | _ => none

/-! ## The coordinator -/

/-- What one step of `HandleWorker` does. -/
inductive Handled
  | goto (pc : HandlerPc)
  /-- Return without a task. -/
  | unlock
  /-- Hand out a task. -/
  | store (t : Task)

/-- `getReduceTask` returns nil. -/
def Handled.noReduceTask (second : Bool) : Handled := if second then goto .nilTask else unlock

/-- The next step of `HandleWorker` under the mutex.
Source: `coordinator.go` `HandleWorker`, `getMapTask`, `getReduceTask` -/
def HandlerPc.next (c : Coordinator) (status : Task → TaskStatus) : HandlerPc → Option Handled
  | getMapTask i =>
      if i < c.activeMapTasks.length then
        if status (.map i) = .notRun then some (.goto (storeMap i))
        else some (.goto (getMapTask (i + 1)))
      else some (.goto (mapFinished false 0))
  | storeMap i => some (.store (.map i))
  | mapFinished second i =>
      if i < c.activeMapTasks.length then
        if status (.map i) ≠ .finished then some (.noReduceTask second)
        else some (.goto (mapFinished second (i + 1)))
      else some (.goto (getReduceTask second 0))
  | getReduceTask second i =>
      if i < c.activeReduceTasks.length then
        if status (.reduce i) = .notRun then
          some (.goto (if second then storeReduce i else mapFinished true 0))
        else some (.goto (getReduceTask second (i + 1)))
      else some (.noReduceTask second)
  | storeReduce i => some (.store (.reduce i))
  | nilTask => none

variable {W : ℕ}

namespace Job

/-- Move a worker on. -/
def setPc (st : Job W) (w : Fin W) (pc : Pc) : Job W :=
  { st with workers := Function.update st.workers w { st.workers w with pc := pc } }

/-- The worker that is moved on. -/
lemma setPc_self (st : Job W) (w : Fin W) (pc : Pc) :
    (st.setPc w pc).workers w = ⟨(st.workers w).alive, pc⟩ := Function.update_self _ _ _

/-- The other workers are not moved on. -/
lemma setPc_of_ne (st : Job W) {v w : Fin W} (pc : Pc) (h : v ≠ w) :
    (st.setPc w pc).workers v = st.workers v := Function.update_of_ne h _ _

/-- Hand out a task: the store, the reply, the timer and the unlock. -/
def assign (st : Job W) (w : Fin W) (t : Task) : Job W :=
  { st.setPc w (.assigned t) with
    status := Function.update st.status t .running
    timers := st.timers ++ [t]
    handler := none }

/-- The process of a worker ends. -/
def kill (st : Job W) (w : Fin W) : Job W :=
  { st with workers := Function.update st.workers w { st.workers w with alive := false } }

/-- The worker that crashes stays where it was. -/
lemma kill_self (st : Job W) (w : Fin W) :
    (st.kill w).workers w = ⟨false, (st.workers w).pc⟩ := Function.update_self _ _ _

/-- The other workers do not crash. -/
lemma kill_of_ne (st : Job W) {v w : Fin W} (h : v ≠ w) :
    (st.kill w).workers v = st.workers v := Function.update_of_ne h _ _

/-- Source: `coordinator.go` `HandleFinish` -/
def handleFinish (c : Coordinator) (st : Job W) (reply : CoordinatorReply) : Option (Job W) :=
  (c.lookup reply.taskType reply.taskId).map fun t =>
    { st with status := cas st.status t .running .finished }

/-- One step of a job. -/
def step (E : Env) (c : Coordinator) (st : Job W) : Action W → Option (Job W)
  | .call w =>
      match st.workers w with
      | ⟨true, .idle⟩ => some (st.setPc w .calling)
      | _ => none
  | .lock w =>
      match st.handler, (st.workers w).pc with
      | none, .calling => some { st with handler := some (w, .getMapTask 0) }
      | _, _ => none
  | .handler =>
      match st.handler with
      | none => none
      | some (w, pc) =>
          (pc.next c st.status).map fun
            | .goto pc' => { st with handler := some (w, pc') }
            | .unlock => { st.setPc w .idle with handler := none }
            | .store t => st.assign w t
  | .work w =>
      if (st.workers w).alive then
        (work E c st.fs (st.workers w).pc).map fun
          | (none, fs) => { st.kill w with fs := fs }
          | (some pc, fs) => { st.setPc w pc with fs := fs }
      else none
  | .finish w =>
      match (st.workers w).pc with
      | .finishing t => (handleFinish c st (c.reply t)).map (setPc · w .idle)
      | _ => none
  | .timer k =>
      (st.timers[k]?).map fun t =>
        { st with status := cas st.status t .running .notRun, timers := st.timers.eraseIdx k }
  | .crash w => some (st.kill w)
  | .done =>
      if st.scan < c.activeReduceTasks.length then
        if st.status (.reduce st.scan) ≠ .finished then some { st with scan := 0 }
        else some { st with scan := st.scan + 1 }
      else some { st with scan := 0, done := true }

/-- The start of a job. -/
def init (fs : Files) : Job W where
  status := fun _ => .notRun
  fs := fs
  workers := fun _ => ⟨true, .idle⟩
  handler := none
  timers := []
  scan := 0
  done := false

end Job

/-- **The job**: `W` workers on the tasks of `MakeCoordinator`, in a directory with the files
`fs`. -/
def job (E : Env) (W : ℕ) (files : List Str) (nReduce : ℕ) (fs : Files) :
    System (Job W) (Action W) where
  init := Job.init fs
  step := Job.step E (makeCoordinator files nReduce)

end GoLabs.MapReduce
