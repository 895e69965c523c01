import GoLabs.MapReduce.Worker

/-!
# The output of a distributed job

What a finished task leaves is described by the files alone: `MapDone` and `ReduceDone` say that the
files of a task are those of one complete execution. They hold after `doMap` and `doReduce`
(`doMap_spec`, `doReduce_spec`) and depend on nothing but the files of the task, so tasks that run
before or after, or at the same time, do not disturb them.

Where all tasks of a job are done, the output files together hold what the sequential program writes
(`JobDone.output_perm`): the hash function splits the records by key, so grouping what each reduce
task reads is grouping everything that the map tasks emitted (`Grouped.partition_perm`). Hence the
map tasks in any order and then the reduce tasks in any order give the output of the sequential
program (`distributed_perm_sequential`).
-/

namespace GoLabs.MapReduce

open GoLabs.Lib

variable {E : Env}

/-! ## Finished tasks -/

variable (E) in
/-- The files that a map task writes are those of a complete execution of `doMap`. -/
def MapDone (fs : Files) (fileNames : List Str) (taskId reduceN : ℕ) : Prop :=
  ∃ kvs, readInputs E fs fileNames = some kvs ∧
    ∀ r < reduceN, fs (mr taskId (r + 1)) = some ((bulk E reduceN kvs r).flatMap E.encode)

variable (E) in
/-- The file that a reduce task writes is that of a complete execution of `doReduce`. -/
def ReduceDone (fs : Files) (fileNames : List Str) (taskId : ℕ) : Prop :=
  ∃ output, reduceOutput E (readRecords E fs fileNames) = some output ∧
    fs (mrOut taskId) = some output.flatten

/-- That a map task is done depends on its input and on its own files only. -/
lemma MapDone.congr {fs fs' : Files} {names : List Str} {taskId reduceN : ℕ}
    (h : MapDone E fs names taskId reduceN) (hnames : ∀ f ∈ names, fs' f = fs f)
    (hmr : ∀ y, fs' (mr taskId y) = fs (mr taskId y)) : MapDone E fs' names taskId reduceN := by
  obtain ⟨kvs, hkvs, hfiles⟩ := h
  refine ⟨kvs, ?_, fun r hr => (hmr (r + 1)).trans (hfiles r hr)⟩
  rw [readInputs_congr E hnames, hkvs]

/-- That a reduce task is done depends on what it reads and on its output file only. -/
lemma ReduceDone.congr {fs fs' : Files} {names : List Str} {taskId : ℕ}
    (h : ReduceDone E fs names taskId) (hnames : ∀ f ∈ names, fs' f = fs f)
    (hout : fs' (mrOut taskId) = fs (mrOut taskId)) : ReduceDone E fs' names taskId := by
  obtain ⟨output, houtput, hfile⟩ := h
  refine ⟨output, ?_, hout.trans hfile⟩
  rw [readRecords_congr E hnames, houtput]

/-- The intermediate files that map task `x` writes. -/
def mrFiles (x : ℕ) : Set Str := Set.range (mr x)

/-- A map task writes to its own files only. -/
lemma mapOps_within (taskId reduceN : ℕ) (kvs : List KeyValue) :
    FileOp.Within (mrFiles taskId) none (mapOps E taskId reduceN kvs) := by
  refine ⟨by simp, fun name hname => ?_⟩
  unfold mapOps FileOp.segment at hname
  obtain ⟨r, -, hr⟩ := List.mem_flatMap.mp hname
  rcases List.mem_cons.mp hr with heq | hmem
  · exact ⟨r + 1, (FileOp.create.inj heq).symm⟩
  · obtain ⟨data, -, heq⟩ := List.mem_map.mp hmem
    cases heq

/-- A complete execution leaves every bulk in its file, whatever was there before. -/
lemma run_mapOps (s : Files × Option (OpenFile Str)) (taskId reduceN : ℕ) (kvs : List KeyValue)
    {r : ℕ} (hr : r < reduceN) :
    (FileOp.run s (mapOps E taskId reduceN kvs)).1 (mr taskId (r + 1)) =
      some ((bulk E reduceN kvs r).flatMap E.encode) := by
  have hinj : Function.Injective fun r => mr taskId (r + 1) := by
    intro r r' h
    have := (mr_inj.mp h).2
    omega
  unfold mapOps
  rw [FileOp.run_segments, FileOp.foldl_update_of_mem _ _ _ _ hinj (List.mem_range.mpr hr),
    List.flatMap_def]

/-- **The operations of `doMap` finish its task**, from any state of its files. -/
lemma mapDone_run {fs : Files} {names : List Str} {taskId reduceN : ℕ} {kvs : List KeyValue}
    (hread : readInputs E fs names = some kvs) (hname : ∀ f ∈ names, f ∉ mrFiles taskId) :
    MapDone E (FileOp.run (fs, none) (mapOps E taskId reduceN kvs)).1 names taskId reduceN := by
  refine ⟨kvs, ?_, fun r hr => run_mapOps _ _ _ _ hr⟩
  rw [← hread]
  exact readInputs_congr E fun f hf =>
    FileOp.run_eq_of_notMem (mapOps_within taskId reduceN kvs) (hname f hf)

/-- A name that is not reserved is not one of the files of a map task. -/
lemma notMem_mrFiles {name : Str} (h : ¬ Reserved name) (x : ℕ) : name ∉ mrFiles x := by
  rintro ⟨y, rfl⟩
  exact h (Or.inl ⟨x, y, rfl⟩)

/-- **`doMap` finishes its task** and touches no other file. -/
theorem doMap_spec {fs : Files} (names : List Str) (taskId reduceN : ℕ)
    (hin : ∀ f ∈ names, (fs f).isSome) (hname : ∀ f ∈ names, ¬ Reserved f) :
    ∃ fs', doMap E fs names taskId reduceN = some fs' ∧ MapDone E fs' names taskId reduceN ∧
      ∀ name, name ∉ mrFiles taskId → fs' name = fs name := by
  have hread := (readInputs_eq_some_iff E).mpr ⟨hin, rfl⟩
  refine ⟨_, by rw [doMap, hread, Option.map_some], ?_, fun name h => ?_⟩
  · exact mapDone_run hread fun f hf => notMem_mrFiles (hname f hf) taskId
  · exact FileOp.run_eq_of_notMem (mapOps_within taskId reduceN _) h

/-- Writes go to the file that is open. -/
lemma writes_within (name : Str) (offset : ℕ) (output : List Str) :
    FileOp.Within {name} (some ⟨name, offset⟩) (output.map FileOp.write) := by
  simp [FileOp.Within]

/-- **Writing the output finishes the reduce task**, once the output file is empty. -/
lemma reduceDone_run {fs : Files} {names output : List Str} {taskId : ℕ}
    (hout : mrOut taskId ∉ names) (hempty : fs (mrOut taskId) = some [])
    (houtput : reduceOutput E (readRecords E fs names) = some output) :
    ReduceDone E (FileOp.run (fs, some ⟨mrOut taskId, 0⟩) (output.map .write)).1 names taskId := by
  have hrun := FileOp.run_writes fs (mrOut taskId) [] output hempty
  rw [List.length_nil, List.nil_append] at hrun
  rw [hrun]
  refine ⟨output, ?_, Function.update_self _ _ _⟩
  rw [← houtput]
  refine congrArg _ (readRecords_congr E fun f hf => Function.update_of_ne ?_ _ _)
  rintro rfl
  exact hout hf

/-- **`doReduce` finishes its task** and touches no other file. -/
theorem doReduce_spec (fs : Files) {names : List Str} {taskId : ℕ} (hout : mrOut taskId ∉ names) :
    ∃ fs', doReduce E fs names taskId = some fs' ∧ ReduceDone E fs' names taskId ∧
      ∀ name, name ≠ mrOut taskId → fs' name = fs name := by
  set created := Function.update fs (mrOut taskId) (some [])
  obtain ⟨gs, hgs, -⟩ := groups_eq (E.sort_ordered (readRecords E created names))
  have houtput : reduceOutput E (readRecords E created names) = some (gs.map E.outputLine) := by
    rw [reduceOutput, hgs, Option.map_some]
  have hrun : doReduce E fs names taskId =
      some (FileOp.run (created, some ⟨mrOut taskId, 0⟩) ((gs.map E.outputLine).map .write)).1 := by
    rw [doReduce]
    exact congrArg (Option.map _) houtput
  refine ⟨_, hrun, reduceDone_run hout (Function.update_self _ _ _) houtput, fun name hne => ?_⟩
  have hnot : name ∉ ({mrOut taskId} : Set Str) := hne
  rw [FileOp.run_eq_of_notMem (writes_within _ _ _) hnot]
  exact Function.update_of_ne hne _ _

/-! ## Finished jobs -/

variable (E) in
/-- The files of every task are those of a complete execution. -/
structure JobDone (fs : Files) (files : List Str) (nReduce : ℕ) : Prop where
  map : ∀ i f, files[i]? = some f → MapDone E fs [f] (i + 1) nReduce
  reduce : ∀ r < nReduce, ReduceDone E fs (intermediateNames files r) (r + 1)

variable {fs : Files} {files : List Str} {nReduce : ℕ}

/-- Going through a list by index is going through its elements. -/
lemma range_flatMap_getElem? {α β : Type*} (l : List α) (f : α → List β) :
    ((List.range l.length).flatMap fun i => (l[i]?).elim [] f) = l.flatMap f := by
  induction l with
  | nil => rfl
  | cons a l ih =>
      rw [List.length_cons, List.range_succ_eq_map, List.flatMap_cons, List.flatMap_map,
        List.flatMap_cons, ← ih]
      rfl

/-- **A reduce task reads the records whose key hashes to it**, no others and each of them as often
as it was emitted. -/
lemma JobDone.records_perm (h : JobDone E fs files nReduce) {r : ℕ} (hr : r < nReduce) :
    (readRecords E fs (intermediateNames files r)).Perm
      ((files.flatMap (emitted E fs)).filter fun kv => E.ihash kv.key % nReduce = r) := by
  have hfile : ∀ i ∈ List.range files.length,
      (E.decode ((fs (mr (i + 1) (r + 1))).getD [])).Perm
        ((files[i]?).elim [] fun f =>
          (emitted E fs f).filter fun kv => E.ihash kv.key % nReduce = r) := by
    intro i hi
    obtain ⟨f, hf⟩ : ∃ f, files[i]? = some f :=
      ⟨_, List.getElem?_eq_getElem (List.mem_range.mp hi)⟩
    obtain ⟨kvs, hkvs, hfiles⟩ := h.map i f hf
    obtain ⟨-, rfl⟩ := (readInputs_eq_some_iff E).mp hkvs
    rw [List.flatMap_singleton] at hfiles
    have hbulk := bulk_perm E nReduce (emitted E fs f) r
    -- the records of a bulk were emitted, so JSON gives them back
    have hvalid : ∀ kv ∈ bulk E nReduce (emitted E fs f) r, E.Valid kv.key ∧ E.Valid kv.value := by
      intro kv hkv
      exact E.mapf_valid _ _ kv (List.mem_of_mem_filter (hbulk.mem_iff.mp hkv))
    rw [hf, hfiles r hr, Option.getD_some, E.decode_encode _ hvalid]
    exact hbulk
  unfold readRecords intermediateNames
  rw [List.flatMap_map]
  refine (List.Perm.flatMap_left _ hfile).trans ?_
  rw [range_flatMap_getElem?, List.filter_flatMap]

/-- Each output file is the lines of the groups of what its task reads. -/
lemma JobDone.exists_groups (h : JobDone E fs files nReduce) :
    ∃ gs : ℕ → List (Str × List Str), ∀ r < nReduce,
      fs (mrOut (r + 1)) = some ((gs r).map E.outputLine).flatten ∧
        Grouped KeyValue.key KeyValue.value
          (E.sort (readRecords E fs (intermediateNames files r))) (gs r) := by
  have hone : ∀ r, ∃ gs, r < nReduce →
      fs (mrOut (r + 1)) = some (gs.map E.outputLine).flatten ∧
        Grouped KeyValue.key KeyValue.value
          (E.sort (readRecords E fs (intermediateNames files r))) gs := by
    intro r
    obtain ⟨gs, hgs, hgrouped⟩ :=
      groups_eq (E.sort_ordered (readRecords E fs (intermediateNames files r)))
    refine ⟨gs, fun hr => ⟨?_, hgrouped⟩⟩
    obtain ⟨output, houtput, hfile⟩ := h.reduce r hr
    rw [reduceOutput, hgs, Option.map_some, Option.some.injEq] at houtput
    rw [hfile, ← houtput]
  choose gs hgs using hone
  exact ⟨gs, hgs⟩

variable (E) in
/-- The output there has to be, in some order: one line for each key. -/
def keyLines (kvs : List KeyValue) : List Str :=
  (kvs.map KeyValue.key).dedup.map fun k =>
    E.outputLine (k, valuesOf KeyValue.key KeyValue.value kvs k)

/-- The line of a key does not depend on the order of its values. -/
lemma outputLine_perm (k : Str) (vs vs' : List Str) (h : vs.Perm vs') :
    E.outputLine (k, vs) = E.outputLine (k, vs') := by
  unfold Env.outputLine
  rw [E.reducef_perm k vs vs' h]

/-- **The output files of a finished job**: each of them holds one line for each of some keys, and
every key that was emitted is in one of them, once. -/
theorem JobDone.output (h : JobDone E fs files nReduce) (hn : 0 < nReduce) :
    ∃ gs : ℕ → List (Str × List Str),
      (∀ r < nReduce, fs (mrOut (r + 1)) = some ((gs r).map E.outputLine).flatten) ∧
      ((List.range nReduce).flatMap fun r => (gs r).map E.outputLine).Perm
        (keyLines E (files.flatMap (emitted E fs))) ∧
      ((List.range nReduce).flatMap fun r => (gs r).map Prod.fst).Perm
        ((files.flatMap (emitted E fs)).map KeyValue.key).dedup := by
  obtain ⟨gs, hgs⟩ := h.exists_groups
  have hpart : ∀ k, E.ihash k % nReduce < nReduce := fun k => Nat.mod_lt _ hn
  have hparts := fun r hr => (E.sort_perm _).trans (h.records_perm (r := r) hr)
  have hgrouped := fun r hr => (hgs r hr).2
  refine ⟨gs, fun r hr => (hgs r hr).1, ?_, ?_⟩
  · exact Grouped.partition_perm hpart hparts hgrouped (f := fun k vs => E.outputLine (k, vs))
      outputLine_perm
  · have hkeys := Grouped.partition_perm hpart hparts hgrouped (f := fun k _ => k)
      fun _ _ _ _ => rfl
    rwa [List.map_id'] at hkeys

/-- The lines of the output files of a finished job. -/
lemma JobDone.outputLines_perm (h : JobDone E fs files nReduce) (hn : 0 < nReduce) :
    (outputLines fs nReduce).Perm
      ((keyLines E (files.flatMap (emitted E fs))).flatMap lines) := by
  obtain ⟨gs, hfile, hperm, -⟩ := h.output hn
  have hlines : outputLines fs nReduce =
      ((List.range nReduce).flatMap fun r => (gs r).map E.outputLine).flatMap lines := by
    unfold outputLines
    rw [List.flatMap_assoc]
    refine List.flatMap_congr fun r hr => ?_
    rw [hfile r (List.mem_range.mp hr), Option.getD_some, lines_flatten_outputLine]
  rw [hlines]
  exact hperm.flatMap_right _

/-- The lines of the sequential program. -/
lemma sequentialLines_perm (hin : ∀ f ∈ files, (fs f).isSome) :
    (files ≠ [] → (mrsequential E fs files).isSome) ∧ (sequentialLines E fs files).Perm
      ((keyLines E (files.flatMap (emitted E fs))).flatMap lines) := by
  by_cases hfiles : files = []
  · subst hfiles
    exact ⟨fun h => absurd rfl h, List.Perm.refl _⟩
  · have hread := (readInputs_eq_some_iff E).mpr ⟨hin, rfl⟩
    set kvs := files.flatMap (emitted E fs) with hkvs
    obtain ⟨gs, hgs, hgrouped⟩ := groups_eq (E.sort_ordered kvs)
    have hseq : mrsequential E fs files =
        some (Function.update fs (ascii "mr-out-0") (some (gs.map E.outputLine).flatten)) := by
      rw [mrsequential, if_neg hfiles, hread]
      dsimp only
      rw [reduceOutput, hgs, Option.map_some, Option.map_some, FileOp.run_segment]
    refine ⟨fun _ => by rw [hseq]; rfl, ?_⟩
    rw [sequentialLines, hseq]
    dsimp only
    rw [Function.update_self, Option.getD_some, lines_flatten_outputLine]
    exact (hgrouped.map_perm (E.sort_perm kvs) (f := fun k vs => E.outputLine (k, vs))
      outputLine_perm).flatMap_right _

/-- The inputs of a finished job are there. -/
lemma JobDone.isSome_of_mem (h : JobDone E fs files nReduce) {f : Str} (hf : f ∈ files) :
    (fs f).isSome := by
  obtain ⟨i, hi⟩ := List.mem_iff_getElem?.mp hf
  obtain ⟨kvs, hkvs, -⟩ := h.map i f hi
  exact ((readInputs_eq_some_iff E).mp hkvs).1 f (List.mem_singleton_self f)

/-- **A finished job has the output of the sequential program**, if it has left the inputs as they
were. -/
theorem JobDone.perm_sequential (h : JobDone E fs files nReduce) (hn : 0 < nReduce) {start : Files}
    (hinput : ∀ f ∈ files, fs f = start f) :
    (outputLines fs nReduce).Perm (sequentialLines E start files) := by
  have hemitted : files.flatMap (emitted E fs) = files.flatMap (emitted E start) :=
    List.flatMap_congr fun f hf => emitted_congr E (hinput f hf)
  have hin : ∀ f ∈ files, (start f).isSome :=
    fun f hf => hinput f hf ▸ h.isSome_of_mem hf
  have hout := h.outputLines_perm hn
  rw [hemitted] at hout
  exact hout.trans (sequentialLines_perm hin).2.symm

/-! ## Running the tasks one after the other -/

variable (E) in
/-- Run the map tasks in the given order. -/
def runMaps (reduceN : ℕ) (fs : Files) (tasks : List MapTask) : Option Files :=
  tasks.foldlM (fun fs task => doMap E fs [task.fileName] task.taskId reduceN) fs

variable (E) in
/-- Run the reduce tasks in the given order. -/
def runReduces (fs : Files) (tasks : List ReduceTask) : Option Files :=
  tasks.foldlM (fun fs task => doReduce E fs task.fileName task.taskId) fs

/-- The map tasks all succeed, and none of them touches the files of another one. -/
lemma runMaps_spec (reduceN : ℕ) {fs : Files} {tasks : List MapTask}
    (hin : ∀ t ∈ tasks, (fs t.fileName).isSome ∧ ¬ Reserved t.fileName)
    (hid : (tasks.map MapTask.taskId).Nodup) :
    ∃ fs', runMaps E reduceN fs tasks = some fs' ∧ (∀ f, ¬ Reserved f → fs' f = fs f) ∧
      ∀ t ∈ tasks, MapDone E fs' [t.fileName] t.taskId reduceN := by
  have main := foldlM_of_independent (l := tasks)
    (fun fs task => doMap E fs [task.fileName] task.taskId reduceN)
    (fun fs' => ∀ f, ¬ Reserved f → fs' f = fs f)
    (fun fs' task => MapDone E fs' [task.fileName] task.taskId reduceN)
    (fun task => {f | ¬ Reserved f} ∪ mrFiles task.taskId) (fun task => mrFiles task.taskId)
  refine (main ?run ?done ?ind fs fun _ _ => rfl).imp ?main
  case main =>
    rintro fs' ⟨hrun, hinput, hdone, -⟩
    exact ⟨hrun, hinput, hdone⟩
  case run =>
    intro t ht fs₁ hinput
    have hsome : (fs₁ t.fileName).isSome := by
      rw [hinput _ (hin t ht).2]
      exact (hin t ht).1
    obtain ⟨fs', hrun, hdone, hother⟩ := doMap_spec (E := E) [t.fileName] t.taskId reduceN
      (by simpa using hsome) (by simpa using (hin t ht).2)
    refine ⟨fs', hrun, fun f hf => ?_, hdone, hother⟩
    rw [hother f (notMem_mrFiles hf _), hinput f hf]
  case done =>
    intro t ht fs₁ fs₂ hdone hreads
    refine hdone.congr (fun f hf => hreads f (Or.inl ?_)) fun y => hreads _ (Or.inr ⟨y, rfl⟩)
    rw [List.mem_singleton.mp hf]
    exact (hin t ht).2
  case ind =>
    refine (List.pairwise_map.mp hid).imp fun {t u} hne => ?_
    rw [Set.disjoint_left]
    rintro name (hname | ⟨y, rfl⟩) ⟨y', hy⟩
    · exact notMem_mrFiles hname _ ⟨y', hy⟩
    · exact hne (mr_inj.mp hy).1.symm

/-- The reduce tasks all succeed, and none of them touches the files of another one. -/
lemma runReduces_spec (fs : Files) {tasks : List ReduceTask}
    (hname : ∀ t ∈ tasks, ∀ y, mrOut y ∉ t.fileName) (hid : (tasks.map ReduceTask.taskId).Nodup) :
    ∃ fs', runReduces E fs tasks = some fs' ∧
      (∀ t ∈ tasks, ReduceDone E fs' t.fileName t.taskId) ∧
      ∀ name, (∀ y, name ≠ mrOut y) → fs' name = fs name := by
  have main := foldlM_of_independent (l := tasks)
    (fun fs task => doReduce E fs task.fileName task.taskId) (fun _ => True)
    (fun fs' task => ReduceDone E fs' task.fileName task.taskId)
    (fun task => {f | ∀ y, f ≠ mrOut y} ∪ {mrOut task.taskId}) (fun task => {mrOut task.taskId})
  refine (main ?run ?done ?ind fs trivial).imp ?main
  case main =>
    rintro fs' ⟨hrun, -, hdone, hother⟩
    exact ⟨hrun, hdone, fun name h => hother name fun t _ => h t.taskId⟩
  case run =>
    intro t ht fs₁ _
    obtain ⟨fs', hrun, hdone, hother⟩ := doReduce_spec (E := E) fs₁ (hname t ht t.taskId)
    exact ⟨fs', hrun, trivial, hdone, hother⟩
  case done =>
    intro t ht fs₁ fs₂ hdone hreads
    refine hdone.congr (fun f hf => hreads f (Or.inl fun y hy => ?_)) (hreads _ (Or.inr rfl))
    exact hname t ht y (hy ▸ hf)
  case ind =>
    refine (List.pairwise_map.mp hid).imp fun {t u} hne => ?_
    rw [Set.disjoint_left]
    rintro name (hname | hout) hu
    · exact hname _ hu
    · exact hne (mrOut_inj.mp (hout.symm.trans hu))

/-- **The tasks of `MakeCoordinator` finish the job** in any order, the map tasks first. -/
lemma jobDone_of_runs (E : Env) {fs : Files} {files : List Str} {nReduce : ℕ}
    (hin : ∀ f ∈ files, (fs f).isSome ∧ ¬ Reserved f)
    {maps : List MapTask} (hmaps : maps.Perm (makeCoordinator files nReduce).activeMapTasks)
    {reduces : List ReduceTask}
    (hreduces : reduces.Perm (makeCoordinator files nReduce).activeReduceTasks) :
    ∃ fs₁ fs₂, runMaps E nReduce fs maps = some fs₁ ∧ runReduces E fs₁ reduces = some fs₂ ∧
      JobDone E fs₂ files nReduce ∧ ∀ f ∈ files, fs₂ f = fs f := by
  have hmapin : ∀ t ∈ maps, (fs t.fileName).isSome ∧ ¬ Reserved t.fileName := by
    intro t ht
    obtain ⟨i, f, hf, rfl⟩ := mem_activeMapTasks.mp (hmaps.mem_iff.mp ht)
    exact hin f (List.mem_of_getElem? hf)
  have hnames : ∀ t ∈ reduces, ∀ y, mrOut y ∉ t.fileName := by
    intro t ht y
    obtain ⟨i, -, rfl⟩ := mem_activeReduceTasks.mp (hreduces.mem_iff.mp ht)
    exact mrOut_notMem_intermediateNames files i y
  obtain ⟨fs₁, hrun₁, hinput₁, hdone₁⟩ := runMaps_spec (E := E) nReduce hmapin
    ((hmaps.map _).nodup_iff.mpr (nodup_mapIds files nReduce))
  obtain ⟨fs₂, hrun₂, hdone₂, hother₂⟩ := runReduces_spec (E := E) fs₁ hnames
    ((hreduces.map _).nodup_iff.mpr (nodup_reduceIds files nReduce))
  -- the reduce tasks leave the inputs and the intermediate files alone
  have hinput₂ : ∀ f ∈ files, fs₂ f = fs₁ f :=
    fun f hf => hother₂ f fun y hy => (hin f hf).2 (Or.inr ⟨y, hy⟩)
  refine ⟨fs₁, fs₂, hrun₁, hrun₂, ⟨fun i f hf => ?_, fun r hr => ?_⟩, fun f hf => ?_⟩
  · have ht := hdone₁ _ (hmaps.mem_iff.mpr (mem_activeMapTasks.mpr ⟨i, f, hf, rfl⟩))
    refine ht.congr (fun g hg => ?_) fun y => hother₂ _ fun y' => mr_ne_mrOut _ _ _
    rw [List.mem_singleton.mp hg]
    exact hinput₂ f (List.mem_of_getElem? hf)
  · exact hdone₂ _ (hreduces.mem_iff.mpr (mem_activeReduceTasks.mpr ⟨r, hr, rfl⟩))
  · rw [hinput₂ f hf, hinput₁ f (hin f hf).2]

/-- **A distributed job gives the output of the sequential program.** The map tasks of
`MakeCoordinator` in any order and then its reduce tasks in any order all succeed, and leave output
files that together hold the lines which `mrsequential` writes for the same inputs. Every key is on
one line of one output file. Nothing is assumed of the hash function, of the order in which equal
keys are sorted, nor of the files that were there before. -/
theorem distributed_perm_sequential (E : Env) {fs : Files} {files : List Str} {nReduce : ℕ}
    (hn : 0 < nReduce) (hin : ∀ f ∈ files, (fs f).isSome ∧ ¬ Reserved f)
    {maps : List MapTask} (hmaps : maps.Perm (makeCoordinator files nReduce).activeMapTasks)
    {reduces : List ReduceTask}
    (hreduces : reduces.Perm (makeCoordinator files nReduce).activeReduceTasks) :
    ∃ fs₁ fs₂, runMaps E (makeCoordinator files nReduce).reduceN fs maps = some fs₁ ∧
      runReduces E fs₁ reduces = some fs₂ ∧
      (files ≠ [] → (mrsequential E fs files).isSome) ∧
      (outputLines fs₂ nReduce).Perm (sequentialLines E fs files) ∧
      ∃ outs : ℕ → List (Str × Str),
        (∀ r < nReduce, fs₂ (mrOut (r + 1)) = some ((outs r).flatMap fun o => line o.1 o.2)) ∧
        ((List.range nReduce).flatMap fun r => (outs r).map Prod.fst).Perm
          ((files.flatMap (emitted E fs)).map KeyValue.key).dedup := by
  obtain ⟨fs₁, fs₂, hrun₁, hrun₂, hdone, hinput⟩ := jobDone_of_runs E hin hmaps hreduces
  have hseq := (sequentialLines_perm (E := E) fun f hf => (hin f hf).1).1
  have hemitted : files.flatMap (emitted E fs₂) = files.flatMap (emitted E fs) :=
    List.flatMap_congr fun f hf => emitted_congr E (hinput f hf)
  obtain ⟨gs, hfile, -, hkeys⟩ := hdone.output hn
  rw [hemitted] at hkeys
  refine ⟨fs₁, fs₂, hrun₁, hrun₂, hseq, hdone.perm_sequential hn hinput,
    fun r => (gs r).map fun g => (g.1, E.reducef g.1 g.2), fun r hr => ?_, ?_⟩
  · rw [hfile r hr, List.flatMap_map, List.flatMap_def]
    rfl
  · have hfst : ∀ r, ((gs r).map fun g => (g.1, E.reducef g.1 g.2)).map Prod.fst =
        (gs r).map Prod.fst := fun r => List.map_map
    simpa only [hfst] using hkeys

/-- Two input files, and an intermediate file left by an earlier job. -/
def sampleFiles : Files := fun name =>
  if name = ascii "a" then some (ascii "x y x")
  else if name = ascii "b" then some (ascii "y")
  else if name = mr 1 1 then some (ascii "z")
  else none

/-- Word count over two files with two reduce tasks, the second task of each kind first. -/
theorem distributed_perm_sequential_wc :
    ∃ fs₁ fs₂, runMaps wc 2 sampleFiles [⟨2, ascii "b"⟩, ⟨1, ascii "a"⟩] = some fs₁ ∧
      runReduces wc fs₁ [⟨2, [mr 1 2, mr 2 2]⟩, ⟨1, [mr 1 1, mr 2 1]⟩] = some fs₂ ∧
      (outputLines fs₂ 2).Perm (sequentialLines wc sampleFiles [ascii "a", ascii "b"]) ∧
      sequentialLines wc sampleFiles [ascii "a", ascii "b"] = [ascii "x 2", ascii "y 2"] := by
  have hin : ∀ f ∈ [ascii "a", ascii "b"], (sampleFiles f).isSome ∧ ¬ Reserved f := by
    intro f hf
    have hshort : ∀ f ∈ [ascii "a", ascii "b"], (sampleFiles f).isSome ∧ f.length < 3 := by decide
    exact ⟨(hshort f hf).1, not_reserved_of_length (hshort f hf).2⟩
  have hmaps : List.Perm [⟨2, ascii "b"⟩, ⟨1, ascii "a"⟩]
      (makeCoordinator [ascii "a", ascii "b"] 2).activeMapTasks := List.Perm.swap _ _ _
  have hreduces : List.Perm [⟨2, [mr 1 2, mr 2 2]⟩, ⟨1, [mr 1 1, mr 2 1]⟩]
      (makeCoordinator [ascii "a", ascii "b"] 2).activeReduceTasks := List.Perm.swap _ _ _
  obtain ⟨fs₁, fs₂, hrun₁, hrun₂, -, hlines, -⟩ :=
    distributed_perm_sequential wc (show 0 < 2 by decide) hin hmaps hreduces
  exact ⟨fs₁, fs₂, hrun₁, hrun₂, hlines, rfl⟩

end GoLabs.MapReduce
