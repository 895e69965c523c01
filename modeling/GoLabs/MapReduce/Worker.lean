import GoLabs.Lib.Group
import GoLabs.MapReduce.Task

/-!
# The worker's functions and the sequential program

`doMap` and `doReduce` are what a worker runs for a task, and `mrsequential` is the program whose
output they have to reproduce. What they call and do not define (the application's `mapf` and
`reducef`, `sort.Sort`, `encoding/json` and the hash function) is an `Env`, which carries what is
known of it.

The loop of `doReduce` and of `mrsequential` that finds the groups of equal keys, two indices into
the ordered slice, is `groupsFrom`. It is written with a bound on the number of iterations, and
`none` says that the bound was reached; `groups_eq` says that it never is, and that the loop finds
the groups (`Grouped`).
-/

namespace GoLabs.MapReduce

open GoLabs.Lib

/-- Source: `worker.go` `KeyValue` -/
structure KeyValue where
  key : Str
  value : Str
  deriving DecidableEq

/-- What the worker and the sequential program call. -/
structure Env where
  /-- The application's map function: file name and contents. -/
  mapf : Str → Str → List KeyValue
  /-- The application's reduce function: key and values. -/
  reducef : Str → List Str → Str
  /-- `sort.Sort(ByKey(..))` -/
  sort : List KeyValue → List KeyValue
  /-- The bytes that `enc.Encode` writes for a record. -/
  encode : KeyValue → Str
  /-- The records that `dec.Decode` finds in a file before its first error. -/
  decode : Str → List KeyValue
  /-- `ihash`, or any other hash function. -/
  ihash : Str → ℕ
  /-- The strings that JSON represents as they are: valid UTF-8. -/
  Valid : Str → Prop
  /-- `mapf` emits nothing else. -/
  mapf_valid : ∀ name content, ∀ kv ∈ mapf name content, Valid kv.key ∧ Valid kv.value
  /-- `reducef` depends only on the key and the multiset of the values. -/
  reducef_perm : ∀ k vs vs', vs.Perm vs' → reducef k vs = reducef k vs'
  /-- The sort is not known to be stable. -/
  sort_perm : ∀ kvs, (sort kvs).Perm kvs
  sort_ordered : ∀ kvs, (sort kvs).Pairwise fun a b => a.key ≤ b.key
  decode_encode : ∀ kvs, (∀ kv ∈ kvs, Valid kv.key ∧ Valid kv.value) →
    decode (kvs.flatMap encode) = kvs

variable (E : Env)

/-! ## Map -/

/-- Read the input files one after the other and collect what `mapf` emits; `none` is the end of
the process by `log.Fatalf`.
Source: `worker.go` `doMap`, `mrsequential.go` `main` -/
def readInputs (fs : Files) : List Str → Option (List KeyValue)
  | [] => some []
  | filename :: rest =>
      match fs filename with
      | none => none
      | some content => (readInputs fs rest).map (E.mapf filename content ++ ·)

/-- Put one record into its bulk.
Source: `worker.go` `doMap` -/
def addToBulk (reduceN : ℕ) (bulks : ℕ → Option (List KeyValue)) (value : KeyValue) :
    ℕ → Option (List KeyValue) :=
  let reduceNumber := E.ihash value.key % reduceN
  match bulks reduceNumber with
  | some bulk => Function.update bulks reduceNumber (some (bulk ++ [value]))
  | none => Function.update bulks reduceNumber (some [value])

/-- The split of the intermediate records into bulks.
Source: `worker.go` `doMap` -/
def bulks (reduceN : ℕ) (intermediate : List KeyValue) : ℕ → Option (List KeyValue) :=
  intermediate.foldl (addToBulk E reduceN) fun _ => none

/-- The records written for reduce task `r + 1`, in the order in which they are written.
Source: `worker.go` `doMap` -/
def bulk (reduceN : ℕ) (intermediate : List KeyValue) (r : ℕ) : List KeyValue :=
  match bulks E reduceN intermediate r with
  | some bulk => E.sort bulk
  | none => []

/-- The operations of `doMap` on its files: one file for each reduce task, one write for each
record. (`Encode` of two strings fails only if the write does.)
Source: `worker.go` `doMap` -/
def mapOps (taskId reduceN : ℕ) (intermediate : List KeyValue) : List Op :=
  (List.range reduceN).flatMap fun r =>
    FileOp.segment (mr taskId (r + 1)) ((bulk E reduceN intermediate r).map E.encode)

/-- Source: `worker.go` `doMap` -/
def doMap (fs : Files) (fileNames : List Str) (taskId reduceN : ℕ) : Option Files :=
  (readInputs E fs fileNames).map fun intermediate =>
    (FileOp.run (fs, none) (mapOps E taskId reduceN intermediate)).1

/-- What the map function emits for a file. -/
def emitted (fs : Files) (filename : Str) : List KeyValue :=
  E.mapf filename ((fs filename).getD [])

/-- What a file emits depends on its contents only. -/
lemma emitted_congr {fs fs' : Files} {f : Str} (h : fs f = fs' f) :
    emitted E fs f = emitted E fs' f := by
  unfold emitted
  rw [h]

/-- What is read from some files depends on their contents only. -/
lemma readInputs_congr {fs fs' : Files} {names : List Str} (h : ∀ f ∈ names, fs f = fs' f) :
    readInputs E fs names = readInputs E fs' names := by
  induction names with
  | nil => rfl
  | cons f names ih =>
      unfold readInputs
      rw [h f List.mem_cons_self, ih fun g hg => h g (List.mem_cons_of_mem _ hg)]

/-- `doMap` reads its files if they all exist, and gets what they emit. -/
lemma readInputs_eq_some_iff {fs : Files} {names : List Str} {kvs : List KeyValue} :
    readInputs E fs names = some kvs ↔
      (∀ f ∈ names, (fs f).isSome) ∧ kvs = names.flatMap (emitted E fs) := by
  induction names generalizing kvs with
  | nil => simp only [readInputs, Option.some.injEq, List.flatMap_nil, eq_comm, List.not_mem_nil,
      false_implies, implies_true, true_and]
  | cons f names ih =>
      unfold readInputs
      cases hf : fs f with
      | none => simp [hf]
      | some content =>
          simp only [Option.map_eq_some_iff, ih, List.forall_mem_cons, hf, Option.isSome_some,
            true_and, List.flatMap_cons]
          have hemit : emitted E fs f = E.mapf f content := by simp [emitted, hf]
          rw [hemit]
          constructor
          · rintro ⟨rest, ⟨hall, rfl⟩, rfl⟩
            exact ⟨hall, rfl⟩
          · rintro ⟨hall, rfl⟩
            exact ⟨_, ⟨hall, rfl⟩, rfl⟩

/-- A pair is added to the bulk that its key hashes to. -/
lemma addToBulk_getD (reduceN : ℕ) (bulks : ℕ → Option (List KeyValue)) (kv : KeyValue) (r : ℕ) :
    (addToBulk E reduceN bulks kv r).getD [] =
      (bulks r).getD [] ++ if E.ihash kv.key % reduceN = r then [kv] else [] := by
  unfold addToBulk
  by_cases hr : E.ihash kv.key % reduceN = r
  · subst hr
    cases bulks (E.ihash kv.key % reduceN) <;> simp
  · have hne : r ≠ E.ihash kv.key % reduceN := Ne.symm hr
    cases bulks (E.ihash kv.key % reduceN) <;> simp [hr, hne]

/-- The bulk of `r` holds the records whose key hashes to `r`, in their order. -/
lemma bulks_getD (reduceN : ℕ) (kvs : List KeyValue) (r : ℕ) :
    (bulks E reduceN kvs r).getD [] = kvs.filter fun kv => E.ihash kv.key % reduceN = r := by
  -- the bulks grow at the end, so start the loop with what is there already
  have main : ∀ start : ℕ → Option (List KeyValue),
      (kvs.foldl (addToBulk E reduceN) start r).getD [] =
        (start r).getD [] ++ kvs.filter fun kv => E.ihash kv.key % reduceN = r := by
    induction kvs with
    | nil => simp
    | cons kv kvs ih =>
        intro start
        rw [List.foldl_cons, ih, addToBulk_getD, List.append_assoc]
        by_cases hr : E.ihash kv.key % reduceN = r <;> simp [hr]
  exact main fun _ => none

/-- A bulk has the pairs whose key hashes to it. -/
lemma bulk_perm (reduceN : ℕ) (kvs : List KeyValue) (r : ℕ) :
    (bulk E reduceN kvs r).Perm (kvs.filter fun kv => E.ihash kv.key % reduceN = r) := by
  rw [← bulks_getD, bulk]
  cases bulks E reduceN kvs r with
  | none => exact List.Perm.refl _
  | some bulk => exact E.sort_perm bulk

/-! ## Grouping -/

/-- The inner loop: the first index from `j` on where the key is another one.
Source: `worker.go` `doReduce` -/
def nextKey (kvs : List KeyValue) (key : Str) : (fuel j : ℕ) → Option ℕ
  | 0, _ => none
  | fuel + 1, j =>
      match kvs[j]? with
      | some kv => if kv.key = key then nextKey kvs key fuel (j + 1) else some j
      | none => some j

/-- The outer loop from index `i` on: the calls of `reducef`, key and values.
Source: `worker.go` `doReduce`, `mrsequential.go` `main` -/
def groupsFrom (kvs : List KeyValue) : (fuel i : ℕ) → Option (List (Str × List Str))
  | 0, _ => none
  | fuel + 1, i =>
      match kvs[i]? with
      | none => some []
      | some kv =>
          match nextKey kvs kv.key (kvs.length + 1) (i + 1) with
          | none => none
          | some j =>
              let values := ((kvs.take j).drop i).map KeyValue.value
              (groupsFrom kvs fuel j).map ((kv.key, values) :: ·)

/-- The calls of `reducef` for the ordered records `kvs`. -/
def groups (kvs : List KeyValue) : Option (List (Str × List Str)) :=
  groupsFrom kvs (kvs.length + 1) 0

/-- The inner loop steps over the run of records with the key. -/
lemma nextKey_eq {kvs : List KeyValue} {key : Str} {fuel j : ℕ} (h : kvs.length - j < fuel) :
    nextKey kvs key fuel j =
      some (j + ((kvs.drop j).takeWhile fun kv => kv.key = key).length) := by
  induction fuel generalizing j with
  | zero => exact absurd h (Nat.not_lt_zero _)
  | succ fuel ih =>
      unfold nextKey
      cases hj : kvs[j]? with
      | none =>
          have hlen : kvs.length ≤ j := List.getElem?_eq_none_iff.mp hj
          simp [List.drop_eq_nil_of_le hlen]
      | some kv =>
          obtain ⟨hlt, rfl⟩ := List.getElem?_eq_some_iff.mp hj
          rw [List.drop_eq_getElem_cons hlt]
          dsimp only
          split_ifs with hkey
          · rw [ih (by omega), List.takeWhile_cons_of_pos (by simpa using hkey)]
            rw [List.length_cons]
            congr 1
            omega
          · rw [List.takeWhile_cons_of_neg (by simpa using hkey)]
            rfl

/-- The outer loop finds the groups of the records from `i` on. -/
lemma groupsFrom_eq {kvs : List KeyValue} (hs : kvs.Pairwise fun a b => a.key ≤ b.key)
    {fuel i : ℕ} (h : kvs.length - i < fuel) :
    ∃ gs, groupsFrom kvs fuel i = some gs ∧
      Grouped KeyValue.key KeyValue.value (kvs.drop i) gs := by
  induction fuel generalizing i with
  | zero => exact absurd h (Nat.not_lt_zero _)
  | succ fuel ih =>
      unfold groupsFrom
      cases hi : kvs[i]? with
      | none =>
          have hlen : kvs.length ≤ i := List.getElem?_eq_none_iff.mp hi
          rw [List.drop_eq_nil_of_le hlen]
          exact ⟨[], rfl, Grouped.nil⟩
      | some kv =>
          obtain ⟨hlt, rfl⟩ := List.getElem?_eq_some_iff.mp hi
          have hdrop := List.drop_eq_getElem_cons hlt
          set run := (kvs.drop (i + 1)).takeWhile fun b => b.key = kvs[i].key with hrun
          set rest := (kvs.drop (i + 1)).dropWhile fun b => b.key = kvs[i].key with hrest
          have hsplit : kvs.drop (i + 1) = run ++ rest := List.takeWhile_append_dropWhile.symm
          have hnext : kvs.drop (i + 1 + run.length) = rest := by
            rw [← List.drop_drop, hsplit, List.drop_left]
          have hvalues : (kvs.take (i + 1 + run.length)).drop i = kvs[i] :: run := by
            have hlen : i + 1 + run.length - i = run.length + 1 := by omega
            rw [List.drop_take, hdrop, hsplit, hlen,
              List.take_succ_cons, List.take_left]
          obtain ⟨gs, hgs, hgrouped⟩ := ih (i := i + 1 + run.length) (by omega)
          dsimp only
          rw [nextKey_eq (by omega)]
          dsimp only
          rw [hgs, hvalues, hdrop]
          rw [hnext] at hgrouped
          have hcons := Grouped.cons (hdrop ▸ hs.drop) hgrouped
          exact ⟨_, rfl, hcons⟩

/-- **The loop ends, and finds the groups.** -/
theorem groups_eq {kvs : List KeyValue} (hs : kvs.Pairwise fun a b => a.key ≤ b.key) :
    ∃ gs, groups kvs = some gs ∧ Grouped KeyValue.key KeyValue.value kvs gs := by
  obtain ⟨gs, hgs, hgrouped⟩ := groupsFrom_eq hs (Nat.lt_succ_self (kvs.length - 0))
  rw [List.drop_zero] at hgrouped
  exact ⟨gs, hgs, hgrouped⟩

/-- One line of output, `%v %v\n`. -/
def line (key output : Str) : Str := key ++ ascii " " ++ output ++ ascii "\n"

/-- The line written after a call of `reducef`. -/
def Env.outputLine (g : Str × List Str) : Str := line g.1 (E.reducef g.1 g.2)

/-! ## Reduce -/

/-- The records in the intermediate files. A file that is not there counts as an empty one: the
decoder of a file that could not be opened returns an error.
Source: `worker.go` `doReduce` -/
def readRecords (fs : Files) (fileNames : List Str) : List KeyValue :=
  fileNames.flatMap fun name => E.decode ((fs name).getD [])

/-- What `doReduce` reads depends on the contents of its files only. -/
lemma readRecords_congr {fs fs' : Files} {names : List Str} (h : ∀ f ∈ names, fs f = fs' f) :
    readRecords E fs names = readRecords E fs' names := by
  unfold readRecords
  exact List.flatMap_congr fun f hf => by rw [h f hf]

/-- What is written for the records, one write for each group.
Source: `worker.go` `doReduce`, `mrsequential.go` `main` -/
def reduceOutput (intermediate : List KeyValue) : Option (List Str) :=
  (groups (E.sort intermediate)).map (List.map E.outputLine)

/-- The output file is created before the intermediate files are read; `none` would be a loop that
does not end.
Source: `worker.go` `doReduce` -/
def doReduce (fs : Files) (fileNames : List Str) (taskId : ℕ) : Option Files :=
  let s := FileOp.exec (fs, none) (.create (mrOut taskId))
  (reduceOutput E (readRecords E s.1 fileNames)).map fun output =>
    (FileOp.run s (output.map .write)).1

/-- The sequential program; `none` is the end of the process without a file written, after the
usage message if there is no input and by `log.Fatalf` if an input cannot be opened.
Source: `mrsequential.go` `main` -/
def mrsequential (fs : Files) (files : List Str) : Option Files :=
  if files = [] then none
  else
    match readInputs E fs files with
    | none => none
    | some intermediate =>
        (reduceOutput E intermediate).map fun output =>
          (FileOp.run (fs, none) (FileOp.segment (ascii "mr-out-0") output)).1

/-! ## Lines -/

/-- The lines of a file. -/
def lines : Str → List Str
  | [] => []
  | b :: s =>
      if b = newline then [] :: lines s
      else
        match lines s with
        | [] => [[b]]
        | l :: ls => (b :: l) :: ls

/-- A text that is not empty has a line. -/
lemma lines_ne_nil (b : Fin 256) (s : Str) : lines (b :: s) ≠ [] := by
  unfold lines
  split_ifs
  · simp
  · split <;> simp

/-- What comes after the end of a line does not touch the lines before it. -/
lemma lines_append (s t : Str) : lines (s ++ newline :: t) = lines (s ++ [newline]) ++ lines t := by
  induction s with
  | nil => simp [lines]
  | cons b s ih =>
      rw [List.cons_append, List.cons_append, lines, lines, ih]
      split_ifs with hb
      · rfl
      · obtain ⟨c, r, hr⟩ := List.exists_cons_of_ne_nil (show s ++ [newline] ≠ [] by simp)
        obtain ⟨l, ls, hls⟩ := List.exists_cons_of_ne_nil (lines_ne_nil c r)
        rw [hr, hls]
        rfl

/-- The lines of what was written group by group. -/
lemma lines_flatten_outputLine (gs : List (Str × List Str)) :
    lines (gs.map E.outputLine).flatten = (gs.map E.outputLine).flatMap lines := by
  induction gs with
  | nil => rfl
  | cons g gs ih =>
      have hline : E.outputLine g = g.1 ++ ascii " " ++ E.reducef g.1 g.2 ++ [newline] := rfl
      rw [List.map_cons, List.flatten_cons, List.flatMap_cons, ← ih, hline, List.append_assoc,
        List.singleton_append, lines_append]

/-- The lines of `mr-out-1` to `mr-out-nReduce`. -/
def outputLines (fs : Files) (nReduce : ℕ) : List Str :=
  (List.range nReduce).flatMap fun r => lines ((fs (mrOut (r + 1))).getD [])

/-- The lines that the sequential program writes to `mr-out-0`. -/
def sequentialLines (fs : Files) (files : List Str) : List Str :=
  match mrsequential E fs files with
  | some fs' => lines ((fs' (ascii "mr-out-0")).getD [])
  | none => []

/-! ## Word count

An `Env` to run the model with: the word count application on ASCII text, the hash function of the
worker, JSON for strings of letters and digits, and insertion sort. -/

/-- FNV-1a, without the sign bit.
Source: `worker.go` `ihash` -/
def ihash (key : Str) : ℕ :=
  key.foldl (fun h b => (h ^^^ b.val) * 16777619 % 2 ^ 32) 2166136261 &&& 0x7fffffff

/-- `unicode.IsLetter`, for ASCII. -/
def isLetter (b : Fin 256) : Bool := 65 ≤ b.val ∧ b.val ≤ 90 ∨ 97 ≤ b.val ∧ b.val ≤ 122

/-- A letter or a digit: what JSON writes as it is. -/
def isPlain (b : Fin 256) : Bool := isLetter b || (48 ≤ b.val && b.val ≤ 57)

/-- The words of a text behind the letters `w` of the word it starts in.
Source: `wc.go` `Map` -/
def words (w : Str) : Str → List Str
  | [] => if w = [] then [] else [w]
  | b :: s =>
      if isLetter b then words (w ++ [b]) s
      else if w = [] then words [] s
      else w :: words [] s

/-- The words of a text are plain if the one that is being read is. -/
lemma isPlain_of_mem_words {w s x : Str} (hw : ∀ b ∈ w, isPlain b) (hx : x ∈ words w s) :
    ∀ b ∈ x, isPlain b := by
  induction s generalizing w with
  | nil =>
      unfold words at hx
      split_ifs at hx
      · exact absurd hx List.not_mem_nil
      · rwa [List.mem_singleton.mp hx]
  | cons b s ih =>
      unfold words at hx
      split_ifs at hx with hb hnil
      · refine ih ?_ hx
        intro c hc
        rcases List.mem_append.mp hc with hc | hc
        · exact hw c hc
        · rw [List.mem_singleton.mp hc, isPlain, hb, Bool.true_or]
      · exact ih (by simp) hx
      · rcases List.mem_cons.mp hx with rfl | hx
        · exact hw
        · exact ih (by simp) hx

/-- One record as JSON. -/
def encodeJson (kv : KeyValue) : Str :=
  ascii "\x7b\"Key\":\"" ++ kv.key ++ ascii "\",\"Value\":\"" ++ kv.value ++ ascii "\"\x7d\n"

/-- Take a fixed text off the front. -/
def expect (text s : Str) : Option Str :=
  if text.isPrefixOf s then some (s.drop text.length) else none

/-- One record, and what comes behind it. -/
def decodeRecord (s : Str) : Option (KeyValue × Str) := do
  let s ← expect (ascii "\x7b\"Key\":\"") s
  let key := s.takeWhile (· ≠ quote)
  let s ← expect (ascii "\",\"Value\":\"") (s.drop key.length)
  let value := s.takeWhile (· ≠ quote)
  let s ← expect (ascii "\"\x7d\n") (s.drop value.length)
  return (⟨key, value⟩, s)

/-- The records up to the first error. -/
def decodeRecords : (fuel : ℕ) → Str → List KeyValue
  | 0, _ => []
  | fuel + 1, s =>
      match decodeRecord s with
      | none => []
      | some (kv, s) => kv :: decodeRecords fuel s

/-- A text that begins as expected is read past its beginning. -/
lemma expect_append (text s : Str) : expect text (text ++ s) = some s := by
  simp [expect]

/-- A string of letters and digits ends at the next quote. -/
lemma takeWhile_plain {w t : Str} (hw : ∀ b ∈ w, isPlain b) (ht : t.head? = some quote) :
    (w ++ t).takeWhile (· ≠ quote) = w := by
  have hne : ∀ b ∈ w, b ≠ quote := by
    rintro b hb rfl
    exact absurd (hw quote hb) (by decide)
  obtain ⟨t', rfl⟩ := List.head?_eq_some_iff.mp ht
  rw [List.takeWhile_append_of_pos (by simpa using hne)]
  simp

/-- A plain record can be read back, whatever follows it. -/
lemma decodeRecord_encodeJson {kv : KeyValue} (hk : ∀ b ∈ kv.key, isPlain b)
    (hv : ∀ b ∈ kv.value, isPlain b) (s : Str) :
    decodeRecord (encodeJson kv ++ s) = some (kv, s) := by
  unfold decodeRecord encodeJson
  simp only [List.append_assoc, expect_append, Option.bind_eq_bind, Option.bind_some]
  rw [takeWhile_plain hk rfl, List.drop_left, expect_append]
  simp only [Option.bind_some]
  rw [takeWhile_plain hv rfl, List.drop_left, expect_append]
  rfl

/-- Plain records can be read back one after the other. -/
lemma decodeRecords_encodeJson {kvs : List KeyValue}
    (h : ∀ kv ∈ kvs, (∀ b ∈ kv.key, isPlain b) ∧ ∀ b ∈ kv.value, isPlain b) {fuel : ℕ}
    (hfuel : kvs.length ≤ fuel) : decodeRecords fuel (kvs.flatMap encodeJson) = kvs := by
  induction kvs generalizing fuel with
  | nil => cases fuel <;> rfl
  | cons kv kvs ih =>
      obtain ⟨⟨hk, hv⟩, h⟩ := List.forall_mem_cons.mp h
      obtain ⟨fuel, rfl⟩ : ∃ m, fuel = m + 1 := Nat.exists_eq_add_one.mpr (by
        rw [List.length_cons] at hfuel
        omega)
      unfold decodeRecords
      rw [List.flatMap_cons, decodeRecord_encodeJson hk hv]
      dsimp only
      rw [ih h (by simpa using hfuel)]

/-- A record is written with at least one byte, so the length of a file bounds its records. -/
lemma length_le_length_encodeJson (kvs : List KeyValue) :
    kvs.length ≤ (kvs.flatMap encodeJson).length := by
  induction kvs with
  | nil => simp
  | cons kv kvs ih =>
      have hpos : 0 < (encodeJson kv).length := by simp [encodeJson, ascii]
      rw [List.flatMap_cons, List.length_append, List.length_cons]
      omega

/-- The word count application.
Source: `wc.go` `Map`, `Reduce` -/
def wc : Env where
  mapf _ content := (words [] content).map fun w => ⟨w, ascii "1"⟩
  reducef _ values := decimal values.length
  sort := List.insertionSort fun a b => a.key ≤ b.key
  encode := encodeJson
  decode s := decodeRecords s.length s
  ihash := ihash
  Valid s := ∀ b ∈ s, isPlain b
  mapf_valid := by
    intro name content kv hkv
    obtain ⟨w, hw, rfl⟩ := List.mem_map.mp hkv
    refine ⟨isPlain_of_mem_words (by simp) hw, ?_⟩
    intro b hb
    rw [show b = 49 from List.mem_singleton.mp hb]
    rfl
  reducef_perm := fun _ _ _ h => by rw [h.length_eq]
  sort_perm := List.perm_insertionSort _
  sort_ordered := by
    have : Std.Total fun a b : KeyValue => a.key ≤ b.key := ⟨fun a b => le_total a.key b.key⟩
    have : IsTrans KeyValue fun a b => a.key ≤ b.key := ⟨fun _ _ _ => le_trans⟩
    exact List.pairwise_insertionSort _
  decode_encode := fun kvs h => decodeRecords_encodeJson h (length_le_length_encodeJson kvs)

end GoLabs.MapReduce
