import GoLabs.MapReduce.Completion

/-!
# What the word count job computes

`output_of_done` compares a job with the sequential program, whatever the application is. For `wc`
on ASCII text the output can be said outright (`wordCount`): the output files together have exactly
one line for each word of the inputs, with the number of its occurrences in all of them. A letter
outside ASCII is a separator here, and a part of a word for `unicode.IsLetter`.
-/

namespace GoLabs.MapReduce

open GoLabs.Lib

/-! ## Words -/

/-- `strings.FieldsFunc` for the separators of `wc.go`: cut the text at every byte that is not a
letter, and drop the empty pieces. -/
def fields (text : Str) : List Str :=
  (text.splitOnP fun b => !isLetter b).filter (· ≠ [])

/-- The loop of `words` cuts where `splitOnP` does. -/
lemma words_eq_fields (text : Str) : words [] text = fields text := by
  -- the letters of the current word are collected in reverse there
  have main : ∀ w s : Str, words w s =
      (s.splitOnPPrepend (fun b => !isLetter b) w.reverse).filter (· ≠ []) := by
    intro w s
    induction s generalizing w with
    | nil =>
        unfold words
        split_ifs with hw <;> simp [List.splitOnPPrepend, hw]
    | cons b s ih =>
        unfold words
        split_ifs with hb hw
        · rw [ih, List.reverse_append]
          simp [List.splitOnPPrepend, hb]
        · rw [ih]
          simp [List.splitOnPPrepend, hb, hw]
        · rw [ih]
          simp [List.splitOnPPrepend, hb, hw]
  exact main [] text

/-- The words of all inputs, one after the other. -/
def corpus (fs : Files) (files : List Str) : List Str :=
  files.flatMap fun f => fields ((fs f).getD [])

/-- The keys that are emitted are the words of the inputs. -/
lemma map_key_emitted (fs : Files) (files : List Str) :
    (files.flatMap (emitted wc fs)).map KeyValue.key = corpus fs files := by
  rw [List.map_flatMap]
  refine List.flatMap_congr fun f _ => ?_
  rw [← words_eq_fields, emitted]
  show ((words [] _).map _).map _ = _
  rw [List.map_map]
  exact List.map_id _

/-- Every occurrence of a word is a value of it. -/
lemma length_valuesOf (kvs : List KeyValue) (w : Str) :
    (valuesOf KeyValue.key KeyValue.value kvs w).length = (kvs.map KeyValue.key).count w := by
  unfold valuesOf
  rw [List.length_map, List.count, List.countP_map, List.countP_eq_length_filter]
  refine congrArg List.length (List.filter_congr fun kv _ => ?_)
  exact (beq_eq_decide kv.key w).symm

/-- The lines of the sequential run: each word with the number of its occurrences. -/
lemma keyLines_wc (fs : Files) (files : List Str) :
    keyLines wc (files.flatMap (emitted wc fs)) =
      (corpus fs files).dedup.map fun w => line w (decimal ((corpus fs files).count w)) := by
  unfold keyLines
  rw [map_key_emitted]
  refine List.map_congr_left fun w _ => ?_
  show line w (decimal _) = _
  rw [length_valuesOf, map_key_emitted]

/-! ## Lines -/

/-- A text without a line break is one line. -/
lemma lines_snoc {s : Str} (hs : newline ∉ s) : lines (s ++ [newline]) = [s] := by
  induction s with
  | nil => rfl
  | cons b s ih =>
      rw [List.mem_cons, not_or] at hs
      rw [List.cons_append, lines, if_neg (Ne.symm hs.1), ih hs.2]

/-- A word has no end of line in it. -/
lemma newline_notMem_of_mem_corpus {fs : Files} {files : List Str} {w : Str}
    (hw : w ∈ corpus fs files) : newline ∉ w := by
  obtain ⟨f, -, hw⟩ := List.mem_flatMap.mp hw
  rw [← words_eq_fields] at hw
  intro hmem
  exact absurd (isPlain_of_mem_words (by simp) hw newline hmem) (by decide)

/-- A number has no end of line in it. -/
lemma newline_notMem_decimal (n : ℕ) : newline ∉ decimal n := by
  intro h
  exact absurd (digit_of_mem_decimal h).1 (by decide)

/-- A line of the output is one line. -/
lemma lines_line {w : Str} (hw : newline ∉ w) (n : ℕ) :
    lines (line w (decimal n)) = [w ++ ascii " " ++ decimal n] := by
  apply lines_snoc
  rw [List.mem_append, List.mem_append, not_or, not_or]
  exact ⟨⟨hw, by decide⟩, newline_notMem_decimal n⟩

/-! ## The job -/

/-- **The word count job counts the words.** When `Done` has returned true, in a run in which no
worker has lost its task, the output files together have one line for each word of the inputs, with
the number of its occurrences in all of them, and no other line. -/
theorem wordCount {W : ℕ} {files : List Str} {nReduce : ℕ} {start : Files}
    {tr : List (Job W × Action W)} {st : Job W} (hn : 0 < nReduce)
    (hname : ∀ f ∈ files, ¬ Reserved f) (h : (job wc W files nReduce start).Run tr st)
    (hD : Avoids (fun x a => resetsHeld x a) tr) (hdone : st.done = true) :
    (outputLines st.fs nReduce).Perm ((corpus start files).dedup.map fun w =>
      w ++ ascii " " ++ decimal ((corpus start files).count w)) := by
  have hreached : Reached wc files nReduce start st := ⟨tr, h, hD⟩
  obtain ⟨hjob, hsame⟩ := hreached.jobDone hn hname hdone
  have hcorpus : corpus st.fs files = corpus start files :=
    List.flatMap_congr fun f hf => by rw [hsame f hf]
  have hperm := hjob.outputLines_perm hn
  rw [keyLines_wc, hcorpus, List.flatMap_map] at hperm
  refine hperm.trans (List.Perm.of_eq ?_)
  rw [List.map_eq_flatMap]
  refine List.flatMap_congr fun w hw => lines_line ?_ _
  exact newline_notMem_of_mem_corpus (List.mem_dedup.mp hw)

/-- Two inputs with a word in common, and two reduce tasks. -/
theorem wordCount_run : ∃ tr st, (job wc 3 [ascii "a", ascii "b"] 2 sampleFiles).Run tr st ∧
    Avoids (fun x a => resetsHeld x a) tr ∧ st.done = true ∧
    (outputLines st.fs 2).Perm [ascii "x 2", ascii "y 2"] := by
  have hname : ∀ f ∈ [ascii "a", ascii "b"], ¬ Reserved f := by
    intro f hf
    have hlength : ∀ f ∈ [ascii "a", ascii "b"], f.length < 3 := by decide
    exact not_reserved_of_length (hlength f hf)
  have hinit := System.Run.init (S := job wc 3 [ascii "a", ascii "b"] 2 sampleFiles)
  have hstart : Reached wc [ascii "a", ascii "b"] 2 sampleFiles (Job.init sampleFiles : Job 3) :=
    ⟨[], hinit, by simp [Avoids]⟩
  obtain ⟨-, st, -, -, ⟨tr, h, hD⟩, hdone⟩ :=
    hinit.continue (hstart.can_done (w := 0) hname (by decide) rfl)
  have hperm := wordCount (by decide) hname h hD hdone
  exact ⟨tr, st, h, hD, hdone, hperm⟩

end GoLabs.MapReduce
