import GoLabs.Lib.Bytes
import GoLabs.Lib.File

/-!
# Tasks and the names of their files

`MakeCoordinator` cuts a job into map tasks, one for each input file, and `nReduce` reduce tasks.
Map task `x` leaves one file for each reduce task `y`, `mr-x-y`, and reduce task `y` leaves
`mr-out-y`. That a reduce task finds what the map tasks left for it, and that two tasks never write
to the same file, rests on nothing but these names; the lemmas here say that they are all different.
-/

namespace GoLabs.MapReduce

open GoLabs.Lib

/-- The files of the directory the job runs in. -/
abbrev Files := FileSystem Str (Fin 256)

/-- An operation of a worker on its files. -/
abbrev Op := FileOp Str (Fin 256)

/-! ## File names -/

/-- The name of the file that map task `x` writes for reduce task `y`.
Source: `worker.go` `doMap`, `coordinator.go` `MakeCoordinator` -/
def mr (x y : ℕ) : Str := ascii "mr-" ++ decimal x ++ ascii "-" ++ decimal y

/-- The name of the output file of reduce task `y`.
Source: `worker.go` `doReduce` -/
def mrOut (y : ℕ) : Str := ascii "mr-out-" ++ decimal y

/-- A name that is that of an intermediate or an output file. -/
def Reserved (name : Str) : Prop := (∃ x y, name = mr x y) ∨ ∃ y, name = mrOut y

/-- A short name is not reserved. -/
lemma not_reserved_of_length {name : Str} (h : name.length < 3) : ¬ Reserved name := by
  rintro (⟨x, y, rfl⟩ | ⟨y, rfl⟩)
  · simp [mr, ascii] at h
    omega
  · simp [mrOut, ascii] at h
    omega

/-- The name of an intermediate file says which map task and which reduce task it is for. -/
theorem mr_inj {x y x' y' : ℕ} : mr x y = mr x' y' ↔ x = x' ∧ y = y' := by
  refine ⟨fun h => ?_, fun ⟨hx, hy⟩ => by rw [hx, hy]⟩
  have hdash : ∀ n, (45 : Fin 256) ∉ decimal n := by
    intro n h
    have := (digit_of_mem_decimal h).1
    omega
  have h' : ascii "mr-" ++ (decimal x ++ 45 :: decimal y) =
      ascii "mr-" ++ (decimal x' ++ 45 :: decimal y') := by
    simpa [mr, ascii] using h
  -- a number has no dash, so both names are cut at the same place
  obtain ⟨hx, -, hy⟩ := (List.append_cons_inj_of_notMem (hdash x) (hdash y)).mp
    (List.append_cancel_left h')
  exact ⟨decimal_injective hx, decimal_injective hy⟩

/-- The name of an output file says which reduce task wrote it. -/
theorem mrOut_inj {y y' : ℕ} : mrOut y = mrOut y' ↔ y = y' :=
  ⟨fun h => decimal_injective (List.append_cancel_left h), fun h => h ▸ rfl⟩

/-- The byte after `mr-` is a digit in one name and an `o` in the other. -/
theorem mr_ne_mrOut (x y y' : ℕ) : mr x y ≠ mrOut y' := by
  intro h
  have hne : decimal x ≠ [] := by
    unfold decimal
    split_ifs with hx
    · simp
    · simp [Nat.digits_ne_nil_iff_ne_zero.mpr hx]
  obtain ⟨b, l, hb⟩ := List.exists_cons_of_ne_nil hne
  have hdigit := digit_of_mem_decimal (hb ▸ List.mem_cons_self : b ∈ decimal x)
  have ho : b = 111 := by
    have := congrArg (fun s : Str => s[3]?) h
    simpa [mr, mrOut, ascii, hb] using this
  rw [ho] at hdigit
  exact absurd hdigit.2 (by decide)

/-! ## Tasks -/

/-- A map task. Its `Status` word, which several goroutines share, is kept with the state of the
job.
Source: `coordinator.go` `MapTask` -/
structure MapTask where
  taskId : ℕ
  fileName : Str

/-- A reduce task.
Source: `coordinator.go` `ReduceTask` -/
structure ReduceTask where
  taskId : ℕ
  fileName : List Str

/-- What the coordinator never changes. `MapTaskMap` and `ReduceTaskMap` hold the tasks of the two
lists by their id.
Source: `coordinator.go` `Coordinator` -/
structure Coordinator where
  activeMapTasks : List MapTask
  activeReduceTasks : List ReduceTask
  reduceN : ℕ

/-- The names of the files that reduce task `i` of `MakeCoordinator` reads. -/
def intermediateNames (files : List Str) (i : ℕ) : List Str :=
  (List.range files.length).map fun j => mr (j + 1) (i + 1)

/-- Cut a job into tasks.
Source: `coordinator.go` `MakeCoordinator` -/
def makeCoordinator (files : List Str) (nReduce : ℕ) : Coordinator where
  activeMapTasks := files.mapIdx fun index f => ⟨index + 1, f⟩
  activeReduceTasks := (List.range nReduce).map fun i => ⟨i + 1, intermediateNames files i⟩
  reduceN := nReduce

/-- There is one map task for each input file, numbered from 1 on. -/
lemma mem_activeMapTasks {files : List Str} {nReduce : ℕ} {t : MapTask} :
    t ∈ (makeCoordinator files nReduce).activeMapTasks ↔
      ∃ i f, files[i]? = some f ∧ t = ⟨i + 1, f⟩ := by
  unfold makeCoordinator
  rw [List.mem_mapIdx]
  constructor
  · rintro ⟨i, hi, rfl⟩
    exact ⟨i, files[i], List.getElem?_eq_getElem hi, rfl⟩
  · rintro ⟨i, f, hf, rfl⟩
    obtain ⟨hi, rfl⟩ := List.getElem?_eq_some_iff.mp hf
    exact ⟨i, hi, rfl⟩

/-- There is one reduce task for each number from 1 to `nReduce`. -/
lemma mem_activeReduceTasks {files : List Str} {nReduce : ℕ} {t : ReduceTask} :
    t ∈ (makeCoordinator files nReduce).activeReduceTasks ↔
      ∃ i < nReduce, t = ⟨i + 1, intermediateNames files i⟩ := by
  simp [makeCoordinator, eq_comm]

/-- Numbers that count from 1 on are all different. -/
lemma nodup_map_succ_range (n : ℕ) : ((List.range n).map (· + 1)).Nodup :=
  List.Nodup.map (add_left_injective 1) List.nodup_range

/-- The ids of the map tasks are all different. -/
lemma nodup_mapIds (files : List Str) (nReduce : ℕ) :
    ((makeCoordinator files nReduce).activeMapTasks.map MapTask.taskId).Nodup := by
  have hids : (makeCoordinator files nReduce).activeMapTasks.map MapTask.taskId =
      (List.range files.length).map (· + 1) := by
    refine List.ext_getElem (by simp [makeCoordinator]) fun i _ _ => ?_
    simp [makeCoordinator]
  rw [hids]
  exact nodup_map_succ_range _

/-- The ids of the reduce tasks are all different. -/
lemma nodup_reduceIds (files : List Str) (nReduce : ℕ) :
    ((makeCoordinator files nReduce).activeReduceTasks.map ReduceTask.taskId).Nodup := by
  unfold makeCoordinator
  rw [List.map_map]
  exact nodup_map_succ_range _

/-- No output file is read as an intermediate file. -/
lemma mrOut_notMem_intermediateNames (files : List Str) (i y : ℕ) :
    mrOut y ∉ intermediateNames files i := by
  intro h
  obtain ⟨j, -, hj⟩ := List.mem_map.mp h
  exact mr_ne_mrOut _ _ _ hj

end GoLabs.MapReduce
