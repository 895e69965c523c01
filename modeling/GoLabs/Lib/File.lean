import Mathlib

/-!
# Files and the operations of a program on them

A program that writes its files in place performs a list of operations (`FileOp`): `create`
truncates a file and opens it, `write` puts data at the offset of the file opened last and moves the
offset on. Two programs may have the same file open, each with an offset of its own, so a `write`
may land before the end of a file that another program has written to, or behind the end of one
that another program has truncated (`writeAt`).

* `FileOp.run` performs a list of operations one after the other.
* `FileOp.Within S` — a list of operations touches only files of `S`. It then leaves all other
  files alone (`run_eq_of_notMem`), and what it does to the files of `S` depends on nothing but the
  files of `S` (`run_congr`).
* `FileOp.run_segments` — a program that creates one file after the other and writes each of them
  without interruption leaves in each file what it wrote to it.
* `foldlM_of_independent` — programs none of which writes what another one depends on.
-/

namespace GoLabs.Lib

variable {ν β : Type*} [DecidableEq ν] [Zero β]

/-- The contents of the files there are. -/
abbrev FileSystem (ν β : Type*) := ν → Option (List β)

/-- A file a program has open, and the offset of its next write. -/
structure OpenFile (ν : Type*) where
  name : ν
  offset : ℕ
  deriving DecidableEq

/-- One operation of a program on its files. -/
inductive FileOp (ν β : Type*)
  /-- Truncate the file, or make a new one, and open it. -/
  | create (name : ν)
  /-- Write to the file opened last. -/
  | write (data : List β)
  deriving DecidableEq

/-- Overwrite `content` with `data` from `offset` on. A gap is filled with zeros. -/
def writeAt (content : List β) (offset : ℕ) (data : List β) : List β :=
  content.take offset ++ List.replicate (offset - content.length) 0 ++ data ++
    content.drop (offset + data.length)

/-- Writing at the end of a file appends. -/
@[simp] lemma writeAt_length (content data : List β) :
    writeAt content content.length data = content ++ data := by
  simp [writeAt]

namespace FileOp

/-- Perform one operation: the files, and the file the program has open. A write without an open
file has no effect. -/
def exec (s : FileSystem ν β × Option (OpenFile ν)) :
    FileOp ν β → FileSystem ν β × Option (OpenFile ν)
  | create name => (Function.update s.1 name (some []), some ⟨name, 0⟩)
  | write data =>
      match s.2 with
      | none => s
      | some file =>
          (Function.update s.1 file.name
              (some (writeAt ((s.1 file.name).getD []) file.offset data)),
            some ⟨file.name, file.offset + data.length⟩)

/-- Perform a list of operations. -/
def run (s : FileSystem ν β × Option (OpenFile ν)) (ops : List (FileOp ν β)) :
    FileSystem ν β × Option (OpenFile ν) := ops.foldl exec s

/-- No operation leaves everything as it is. -/
@[simp] lemma run_nil (s : FileSystem ν β × Option (OpenFile ν)) : run s [] = s := rfl

/-- The first operation is executed first. -/
@[simp] lemma run_cons (s : FileSystem ν β × Option (OpenFile ν)) (op : FileOp ν β)
    (ops : List (FileOp ν β)) : run s (op :: ops) = run (exec s op) ops := rfl

/-- Operations are executed in their order. -/
lemma run_append (s : FileSystem ν β × Option (OpenFile ν)) (ops ops' : List (FileOp ν β)) :
    run s (ops ++ ops') = run (run s ops) ops' := List.foldl_append

/-! ## Operations on a set of files -/

/-- The open file and the files created are all in `S`. -/
def Within (S : Set ν) (file : Option (OpenFile ν)) (ops : List (FileOp ν β)) : Prop :=
  (∀ f ∈ file, f.name ∈ S) ∧ ∀ name, create name ∈ ops → name ∈ S

/-- What remains of operations that stay within `S` after the first one stays within `S` too. -/
lemma Within.exec {S : Set ν} {s : FileSystem ν β × Option (OpenFile ν)} {op : FileOp ν β}
    {ops : List (FileOp ν β)} (h : Within S s.2 (op :: ops)) : Within S (exec s op).2 ops := by
  refine ⟨?_, fun name hname => h.2 name (List.mem_cons_of_mem _ hname)⟩
  cases op with
  | create name =>
      intro f hf
      simp only [FileOp.exec, Option.mem_def, Option.some.injEq] at hf
      exact hf ▸ h.2 name List.mem_cons_self
  | write data =>
      intro f hf
      simp only [FileOp.exec] at hf
      split at hf
      · exact h.1 f hf
      · rename_i file hfile
        simp only [Option.mem_def, Option.some.injEq] at hf
        exact hf ▸ h.1 file hfile

/-- One operation leaves the files outside `S` alone. -/
lemma exec_eq_of_notMem {S : Set ν} {s : FileSystem ν β × Option (OpenFile ν)}
    {op : FileOp ν β} {ops : List (FileOp ν β)} (h : Within S s.2 (op :: ops)) {name : ν}
    (hname : name ∉ S) : (exec s op).1 name = s.1 name := by
  cases op with
  | create created =>
      have hne : name ≠ created := fun heq => hname (heq ▸ h.2 created List.mem_cons_self)
      simp [exec, hne]
  | write data =>
      simp only [exec]
      split
      · rfl
      · rename_i file hfile
        have hne : name ≠ file.name := fun heq => hname (heq ▸ h.1 file hfile)
        simp [hne]

/-- **A program leaves alone the files it does not touch.** -/
theorem run_eq_of_notMem {S : Set ν} {s : FileSystem ν β × Option (OpenFile ν)}
    {ops : List (FileOp ν β)} (h : Within S s.2 ops) {name : ν} (hname : name ∉ S) :
    (run s ops).1 name = s.1 name := by
  induction ops generalizing s with
  | nil => rfl
  | cons op ops ih => rw [run_cons, ih h.exec, exec_eq_of_notMem h hname]

/-- One operation depends only on the files it touches. -/
lemma exec_congr {S : Set ν} {fs fs' : FileSystem ν β} {file : Option (OpenFile ν)}
    {op : FileOp ν β} {ops : List (FileOp ν β)} (h : Within S file (op :: ops))
    (hfs : ∀ name ∈ S, fs name = fs' name) :
    (exec (fs, file) op).2 = (exec (fs', file) op).2 ∧
      ∀ name ∈ S, (exec (fs, file) op).1 name = (exec (fs', file) op).1 name := by
  cases op with
  | create created =>
      refine ⟨rfl, fun name hname => ?_⟩
      by_cases heq : name = created
      · simp [exec, heq]
      · simp [exec, heq, hfs name hname]
  | write data =>
      cases file with
      | none => exact ⟨rfl, hfs⟩
      | some file =>
          refine ⟨rfl, fun name hname => ?_⟩
          have hopen := hfs file.name (h.1 file rfl)
          by_cases heq : name = file.name
          · simp [exec, heq, hopen]
          · simp [exec, heq, hfs name hname]

/-- **What a program does to its files depends on nothing but its files.** -/
theorem run_congr {S : Set ν} {fs fs' : FileSystem ν β} {file : Option (OpenFile ν)}
    {ops : List (FileOp ν β)} (h : Within S file ops) (hfs : ∀ name ∈ S, fs name = fs' name)
    {name : ν} (hname : name ∈ S) : (run (fs, file) ops).1 name = (run (fs', file) ops).1 name := by
  induction ops generalizing fs fs' file with
  | nil => exact hfs name hname
  | cons op ops ih =>
      obtain ⟨hfile, hfiles⟩ := exec_congr h hfs
      have hstep : run (exec (fs', file) op) ops =
          run ((exec (fs', file) op).1, (exec (fs, file) op).2) ops := by rw [hfile]
      rw [run_cons, run_cons, hstep]
      exact ih (Within.exec (s := (fs, file)) h) hfiles

/-! ## Writing files from end to end -/

/-- Writes at the end of a file append to it. -/
lemma run_writes (fs : FileSystem ν β) (name : ν) (content : List β) (datas : List (List β))
    (h : fs name = some content) :
    run (fs, some ⟨name, content.length⟩) (datas.map write) =
      (Function.update fs name (some (content ++ datas.flatten)),
        some ⟨name, (content ++ datas.flatten).length⟩) := by
  induction datas generalizing fs content with
  | nil => simp [← h]
  | cons data datas ih =>
      have hstep : exec (fs, some ⟨name, content.length⟩) (write data) =
          (Function.update fs name (some (content ++ data)),
            some ⟨name, (content ++ data).length⟩) := by
        simp [exec, h]
      rw [List.map_cons, run_cons, hstep, ih _ _ (by simp)]
      simp [List.append_assoc]

/-- Create a file and write to it. -/
def segment (name : ν) (datas : List (List β)) : List (FileOp ν β) :=
  create name :: datas.map write

/-- A file that is created and written piece by piece has the pieces one after the other. -/
lemma run_segment (s : FileSystem ν β × Option (OpenFile ν)) (name : ν) (datas : List (List β)) :
    (run s (segment name datas)).1 = Function.update s.1 name (some datas.flatten) := by
  have hcreate : exec s (create name) =
      (Function.update s.1 name (some []), some ⟨name, ([] : List β).length⟩) := rfl
  rw [segment, run_cons, hcreate, run_writes _ _ _ _ (by simp)]
  simp

/-- **A program that writes one file after the other** leaves in each of them what it wrote to it,
and nothing else changes. -/
theorem run_segments {ι : Type*} (s : FileSystem ν β × Option (OpenFile ν)) (l : List ι)
    (name : ι → ν) (datas : ι → List (List β)) :
    (run s (l.flatMap fun i => segment (name i) (datas i))).1 =
      l.foldl (fun fs i => Function.update fs (name i) (some (datas i).flatten)) s.1 := by
  induction l generalizing s with
  | nil => rfl
  | cons i l ih => rw [List.flatMap_cons, run_append, ih, run_segment, List.foldl_cons]

omit [Zero β] in
/-- A loop that sets some files leaves every other file alone. -/
lemma foldl_update_of_notMem {ι : Type*} (fs : FileSystem ν β) (l : List ι) (name : ι → ν)
    (content : ι → Option (List β)) {x : ν} (hx : ∀ i ∈ l, name i ≠ x) :
    l.foldl (fun fs i => Function.update fs (name i) (content i)) fs x = fs x := by
  induction l generalizing fs with
  | nil => rfl
  | cons i l ih =>
      rw [List.foldl_cons, ih _ fun j hj => hx j (List.mem_cons_of_mem _ hj)]
      exact Function.update_of_ne (hx i List.mem_cons_self).symm _ _

omit [Zero β] in
/-- A loop that sets files of different names leaves each of them as it was set. -/
lemma foldl_update_of_mem {ι : Type*} (fs : FileSystem ν β) (l : List ι) (name : ι → ν)
    (content : ι → Option (List β)) (hname : Function.Injective name) {i : ι} (hi : i ∈ l) :
    l.foldl (fun fs i => Function.update fs (name i) (content i)) fs (name i) = content i := by
  induction l generalizing fs with
  | nil => exact absurd hi List.not_mem_nil
  | cons j l ih =>
      rw [List.foldl_cons]
      by_cases hil : i ∈ l
      · exact ih _ hil
      · obtain rfl : i = j := (List.mem_cons.mp hi).resolve_right hil
        have hrest : ∀ k ∈ l, name k ≠ name i := by
          intro k hk heq
          exact hil (hname heq ▸ hk)
        rw [foldl_update_of_notMem _ _ _ _ hrest]
        exact Function.update_self _ _ _

end FileOp

/-! ## Independent programs -/

section Independent

variable {ι : Type*} (run : FileSystem ν β → ι → Option (FileSystem ν β))
  (P : FileSystem ν β → Prop) (Done : FileSystem ν β → ι → Prop) (reads writes : ι → Set ν)

omit [DecidableEq ν] [Zero β] in
/-- **Independent programs can run in any order.** If no program writes a file that an earlier one
depends on, what each of them achieves (`Done`) still holds when all have run, and the files that
none of them writes are as before. -/
theorem foldlM_of_independent {l : List ι}
    (hrun : ∀ i ∈ l, ∀ fs, P fs → ∃ fs', run fs i = some fs' ∧ P fs' ∧ Done fs' i ∧
      ∀ x, x ∉ writes i → fs' x = fs x)
    (hdone : ∀ i ∈ l, ∀ fs fs', Done fs i → (∀ x ∈ reads i, fs' x = fs x) → Done fs' i)
    (hl : l.Pairwise fun i j => Disjoint (reads i) (writes j)) (fs : FileSystem ν β) (hP : P fs) :
    ∃ fs', l.foldlM run fs = some fs' ∧ P fs' ∧ (∀ i ∈ l, Done fs' i) ∧
      ∀ x, (∀ i ∈ l, x ∉ writes i) → fs' x = fs x := by
  induction l generalizing fs with
  | nil => exact ⟨fs, rfl, hP, by simp, fun _ _ => rfl⟩
  | cons i l ih =>
      obtain ⟨hi, hl⟩ := List.pairwise_cons.mp hl
      obtain ⟨hruni, hrun⟩ := List.forall_mem_cons.mp hrun
      obtain ⟨hdonei, hdone⟩ := List.forall_mem_cons.mp hdone
      obtain ⟨fs₁, hrun₁, hP₁, hdone₁, hother₁⟩ := hruni fs hP
      obtain ⟨fs', hrun', hP', hdone', hother'⟩ := ih hrun hdone hl fs₁ hP₁
      refine ⟨fs', ?_, hP', List.forall_mem_cons.mpr ⟨?_, hdone'⟩, ?_⟩
      · rw [List.foldlM_cons, hrun₁]
        exact hrun'
      · refine hdonei fs₁ fs' hdone₁ fun x hx => hother' x fun j hj => ?_
        exact Set.disjoint_left.mp (hi j hj) hx
      · intro x hx
        obtain ⟨hxi, hxl⟩ := List.forall_mem_cons.mp hx
        rw [hother' x hxl, hother₁ x hxi]

end Independent

end GoLabs.Lib
