import GoLabs.Porcupine.Histories
import GoLabs.Porcupine.Kv
import GoLabs.Porcupine.Returns

/-!
# `CheckOperations`

A call of `CheckOperations` partitions a history, makes the entries of each partition and checks the
partitions in parallel. What `checkSingle` says about one partition and what `checkParallel` makes
of the answers give what is meant by the result:

* `checkOperations_sound` — whether all partitions are linearizable, in every interleaving of the
  searches, with or without a timeout.
* `checkOperations_kv` — for `KvModel`, with respect to a store that has a value for every key.
* `checkOperations_returns` — the call returns, unless there is no partition and no timeout.
* `checkOperations_partials` — the partial linearizations that the verbose form returns.
-/

namespace GoLabs.Porcupine

open GoLabs.Lib

variable {ι ο σ : Type}

/-- Source: `checker.go` `checkOperations` -/
def checkOperations [DecidableEq σ] (B : ByTime ι ο) (model : Model ι ο σ)
    (history : List (Operation ι ο)) (verbose : Bool) (timeout : ℤ) :
    System (Par ι ο σ) ParAction :=
  let model := fillDefault model
  let partitions := model.partition history
  parallel model (partitions.map (makeEntries B)) verbose timeout

/-! ## One partition -/

/-- **What the searches of a partition say.** A search that is not stopped answers whether `lin`.
The sequences that `longest` points to are `Pre`, and when the search is over a longest one of them
for each operation that is in any. -/
structure Decides (model : FullModel ι ο σ) (h : List (Entry ι ο)) (lin : Prop)
    (Pre : List ℕ → Prop) : Prop where
  ends : ∀ computeInfo, ∃ b l, Answers model computeInfo h b l
  answers : ∀ {computeInfo b l}, Answers model computeInfo h b l → (b = true ↔ lin)
  sound : ∀ {kill b l}, Returned model true kill h b l → ∀ (i a : ℕ),
    l.pointers[i]? = some (some a) → ∃ q, l.seqs[a]? = some q ∧ Pre q ∧ i ∈ q
  longest : ∀ {b l}, Answers model true h b l → ∀ q, Pre q → ∀ i ∈ q, ∃ a q',
    l.pointers[i]? = some (some a) ∧ l.seqs[a]? = some q' ∧ i ∈ q' ∧ q.length ≤ q'.length

/-- The keys are the pointers that are not nil. -/
lemma Longest.mem_keys {l : Longest} {a : ℕ} :
    a ∈ l.keys ↔ ∃ i : ℕ, l.pointers[i]? = some (some a) := by
  unfold Longest.keys
  rw [List.mem_dedup, List.mem_filterMap, ← List.mem_iff_getElem?]
  simp

section Partition

variable {model : FullModel ι ο σ}

/-- A search that decides ends, whatever it is asked to keep. -/
lemma Decides.checkable {h : List (Entry ι ο)} {lin : Prop} {Pre : List ℕ → Prop}
    (hdec : Decides model h lin Pre) (computeInfo : Bool) :
    Checkable model computeInfo h := by
  refine ⟨hdec.ends computeInfo, fun hinfo kill b l hreturned k hk => ?_⟩
  subst hinfo
  obtain ⟨i, hi⟩ := Longest.mem_keys.mp hk
  obtain ⟨q, hq, -⟩ := hdec.sound hreturned i k hi
  exact (List.getElem?_eq_some_iff.mp hq).1

/-- The searches of the entries of a trace. -/
lemma Describes.decides {entries : List (Entry ι ο)} {n : ℕ} {T : Trace n} {input : ℕ → ι}
    {output : ℕ → ο} (h : Describes entries T input output) (hequal : model.EqualSound) :
    Decides model entries (∃ l, T.Linearization (model.spec input output) l)
      (T.PartialLinearization (model.spec input output)) := by
  have hends := checkSingle_ends h hequal
  constructor
  · intro computeInfo
    obtain ⟨C, x₀, k, b, l, hsetup, hloop, -, -⟩ := hends computeInfo
    exact ⟨b, l, C, x₀, k, hsetup, hloop⟩
  · intro computeInfo b l hanswers
    obtain ⟨C, x₀, k, b', l', hsetup, hloop, hanswer, -⟩ := hends computeInfo
    obtain ⟨rfl, -⟩ := hanswers.unique ⟨C, x₀, k, hsetup, hloop⟩
    exact hanswer
  · intro kill b l hreturned
    rcases hreturned with hanswers | ⟨-, -, C, x₀, w, hsetup, hgoes, rfl⟩
    · obtain ⟨C, x₀, k, b', l', hsetup, hloop, -, hlongest⟩ := hends true
      obtain ⟨-, rfl⟩ := hanswers.unique ⟨C, x₀, k, hsetup, hloop⟩
      exact (hlongest rfl).2.sound (hlongest rfl).1
    · obtain ⟨C', x, hsetup', rfl, hinfo, hC, hsim⟩ := checkSetup_spec h model true
      rw [hsetup] at hsetup'
      obtain ⟨rfl, rfl⟩ := Prod.mk.inj (Option.some.inj hsetup')
      obtain ⟨y, -, hsim⟩ := hsim.of_goes hC hgoes
      exact hsim.longest_sound hinfo
  · intro b l hanswers q hq i hi
    obtain ⟨C, x₀, k, b', l', hsetup, hloop, -, hlongest⟩ := hends true
    obtain ⟨-, rfl⟩ := hanswers.unique ⟨C, x₀, k, hsetup, hloop⟩
    rcases (hlongest rfl).2 i (hq.lt i hi) with ⟨-, hnone⟩ | ⟨a, q', ha, hq', -, hi', hle⟩
    · exact absurd hi (hnone q hq)
    · exact ⟨a, q', ha, hq', hi', hle q hq hi⟩

end Partition

/-- The numbers of operations of a history that can have taken effect before all others, in this
order. -/
def FullModel.IsPrefix (model : FullModel ι ο σ) (history : List (Operation ι ο)) (l : List ℕ) :
    Prop :=
  ∃ op, history = (List.range history.length).map op ∧
    LinearizablePrefix model history.length op l

section Operations

variable {model : FullModel ι ο σ} {part : List (Operation ι ο)}

/-- The searches of a partition without operations. -/
lemma decides_nil (B : ByTime ι ο) : Decides model (makeEntries B []) (model.IsLinearizable [])
    (model.IsPrefix []) := by
  have hanswers : ∀ computeInfo, Answers model computeInfo (makeEntries B []) true ⟨[[]], []⟩ := by
    intro computeInfo
    obtain ⟨C, x, hsetup, -, hstep⟩ := checkSetup_nil model B computeInfo
    exact ⟨C, x, 0, hsetup, EndsIn.leave (hstep false)⟩
  constructor
  · exact fun computeInfo => ⟨true, _, hanswers computeInfo⟩
  · intro computeInfo b l hb
    obtain ⟨rfl, -⟩ := hb.unique (hanswers computeInfo)
    exact ⟨fun _ => ⟨[], List.Perm.refl _, List.Pairwise.nil, rfl⟩, fun _ => rfl⟩
  · intro kill b l hreturned i a ha
    have hpointers : l.pointers = [] := by
      rcases hreturned with hb | ⟨-, -, C, x₀, w, hsetup, hgoes, rfl⟩
      · obtain ⟨-, rfl⟩ := hb.unique (hanswers true)
        rfl
      · obtain ⟨C', x, hsetup', hlongest, hstep⟩ := checkSetup_nil model B true
        rw [hsetup] at hsetup'
        obtain ⟨rfl, rfl⟩ := Prod.mk.inj (Option.some.inj hsetup')
        -- the loop is left at once
        obtain rfl | ⟨y, hy, -⟩ := Relation.ReflTransGen.cases_head hgoes
        · rw [hlongest]
        · have hy : C.checkStep false x₀ = some (.inl y) := hy
          rw [hstep] at hy
          cases hy
    rw [hpointers] at ha
    cases ha
  · rintro b l - q ⟨op, -, hq⟩ i hi
    exact absurd (hq.lt i hi) (Nat.not_lt_zero i)

/-- **The searches of the entries of a partition.** -/
lemma decides_makeEntries (hequal : model.EqualSound) (B : ByTime ι ο)
    (htime : ∀ v ∈ part, v.call ≤ v.ret) :
    Decides model (makeEntries B part) (model.IsLinearizable part) (model.IsPrefix part) := by
  rcases isEmpty_or_nonempty (Operation ι ο) with hempty | hnonempty
  · obtain rfl : part = [] := List.eq_nil_iff_forall_not_mem.mpr fun v => hempty.elim v
    exact decides_nil B
  · -- however the operations are numbered, the entries are those of a trace
    have hdec : ∀ op, part = (List.range part.length).map op →
        Decides model (makeEntries B part) (model.IsLinearizable part)
          (LinearizablePrefix model part.length op) := by
      intro op hop
      have htime' : ∀ i < part.length, (op i).call ≤ (op i).ret := by
        intro i hi
        refine htime (op i) ?_
        rw [hop]
        exact List.mem_map_of_mem (List.mem_range.mpr hi)
      have hdescribes : Describes (makeEntries B part) (traceOf op B part.length htime')
          (fun i => (op i).input) (fun i => (op i).output) := by
        conv in makeEntries B part => rw [hop]
        exact makeEntries_describes
      have hdec := hdescribes.decides hequal
      rw [← isLinearizable_iff, ← hop] at hdec
      have hpre : LinearizablePrefix model part.length op =
          (traceOf op B part.length htime').PartialLinearization
            (model.spec (fun i => (op i).input) (fun i => (op i).output)) := by
        funext l
        exact propext linearizablePrefix_iff
      rw [hpre]
      exact hdec
    obtain ⟨op, hop⟩ := exists_op part
    refine ⟨(hdec op hop).ends, (hdec op hop).answers, ?_, ?_⟩
    · intro kill b l hreturned i a ha
      obtain ⟨q, hq, hpre, hi⟩ := (hdec op hop).sound hreturned i a ha
      exact ⟨q, hq, ⟨op, hop, hpre⟩, hi⟩
    · rintro b l hanswers q ⟨op', hop', hpre⟩ i hi
      exact (hdec op' hop').longest hanswers q hpre i hi

end Operations

/-! ## All partitions -/

section Verdict

variable {α : Type} {model : FullModel ι ο σ} {parts : List α} {entries : α → List (Entry ι ο)}
  {lin : α → Prop} {Pre : α → List ℕ → Prop} {computeInfo : Bool} {timeout : ℤ}
  {tr : List (Par ι ο σ × ParAction)} {st : Par ι ο σ} {r : CheckResult}
  {info : LinearizationInfo ι ο}

/-- The searches of all partitions end. -/
lemma checkable_map
    (hdec : ∀ part ∈ parts, Decides model (entries part) (lin part) (Pre part)) :
    ∀ h ∈ parts.map entries, Checkable model computeInfo h := by
  intro h hh
  obtain ⟨part, hpart, rfl⟩ := List.mem_map.mp hh
  exact (hdec part hpart).checkable computeInfo

/-- The verdict on all partitions, in every interleaving. -/
lemma verdict_of_run
    (hdec : ∀ part ∈ parts, Decides model (entries part) (lin part) (Pre part))
    (hrun : (parallel model (parts.map entries) computeInfo timeout).Run tr st)
    (hpc : st.pc = .returned r info) :
    (r = .ok → ∀ part ∈ parts, lin part) ∧ (r = .illegal → ∃ part ∈ parts, ¬ lin part) ∧
    (r = .unknown → 0 < timeout) := by
  obtain ⟨hok, hillegal, hunknown⟩ := (Par.Inv.of_run (checkable_map hdec) hrun).meaning hpc
  refine ⟨fun hr part hpart => ?_, fun hr => ?_, hunknown⟩
  · obtain ⟨l, hl⟩ := hok hr _ (List.mem_map_of_mem hpart)
    exact ((hdec part hpart).answers hl).mp rfl
  · obtain ⟨h, hh, l, hl⟩ := hillegal hr
    obtain ⟨part, hpart, rfl⟩ := List.mem_map.mp hh
    refine ⟨part, hpart, fun hlin => ?_⟩
    cases ((hdec part hpart).answers hl).mpr hlin

/-- The partial linearizations of all partitions. -/
lemma partials_of_run
    (hdec : ∀ part ∈ parts, Decides model (entries part) (lin part) (Pre part))
    (hrun : (parallel model (parts.map entries) true timeout).Run tr st)
    (hpc : st.pc = .returned r info) {i : ℕ} {part : α} (hpart : parts[i]? = some part) :
    ∃ ps, info.partialLinearizations[i]? = some ps ∧ (∀ q ∈ ps, Pre part q) ∧
      (st.timedOut = false → ∀ q, Pre part q → ∀ j ∈ q,
        ∃ q' ∈ ps, j ∈ q' ∧ q.length ≤ q'.length) := by
  have hdec := hdec part (List.mem_of_getElem? hpart)
  have hst := Par.Inv.of_run (checkable_map ‹_›) hrun
  obtain ⟨-, hinfo⟩ := hst.result r info hpc
  obtain ⟨-, -, hparts⟩ := hinfo rfl
  have hget : (parts.map entries)[i]? = some (entries part) := by
    rw [List.getElem?_map, hpart]
    rfl
  obtain ⟨ok, l, order, hreturned, horder, hpartials⟩ := hparts i _ hget
  obtain ⟨ps, hps, hmem⟩ :=
    Longest.exists_partials horder ((hdec.checkable true).valid rfl hreturned)
  refine ⟨ps, hpartials.trans hps, fun q hq => ?_, fun hout q hq j hj => ?_⟩
  · obtain ⟨a, ha, haq⟩ := (hmem q).mp hq
    obtain ⟨i, hi⟩ := Longest.mem_keys.mp ha
    obtain ⟨q', hq', hpre, -⟩ := hdec.sound hreturned i a hi
    rw [haq] at hq'
    exact Option.some.inj hq' ▸ hpre
  · -- a search is only stopped when the time is up
    have hkill : st.kill ≠ true := fun hkill =>
      absurd (hst.kill rfl hkill) (by rw [hout]; exact Bool.false_ne_true)
    have hanswers := hreturned.resolve_right fun hstop => hkill hstop.1
    obtain ⟨a, q', ha, hq', hj', hle⟩ := hdec.longest hanswers q hq j hj
    exact ⟨q', (hmem q').mpr ⟨a, Longest.mem_keys.mpr ⟨j, ha⟩, hq'⟩, hj', hle⟩

end Verdict

/-- What has been returned. -/
def MainPc.answer : MainPc ι ο → Option (CheckResult × List (List (List ℕ)))
  | .returned r info => some (r, info.partialLinearizations)
  | _ => none

/-- What was answered was returned. -/
lemma MainPc.eq_returned {pc : MainPc ι ο} {r : CheckResult} {partials : List (List (List ℕ))}
    (h : pc.answer = some (r, partials)) :
    ∃ info, pc = .returned r info ∧ info.partialLinearizations = partials := by
  cases pc with
  | selecting => cases h
  | waiting => cases h
  | returned r' info =>
      obtain ⟨rfl, rfl⟩ := Prod.mk.inj (Option.some.inj h)
      exact ⟨info, rfl, rfl⟩

/-! ## `CheckOperations` -/

section CheckOperations

variable [DecidableEq σ] (B : ByTime ι ο) (model : Model ι ο σ) (history : List (Operation ι ο))
  (verbose : Bool) (timeout : ℤ)

variable {model history} in
/-- The searches of the partitions. -/
lemma decides_partition (hequal : (fillDefault model).EqualSound)
    (htime : ∀ part ∈ (fillDefault model).partition history, ∀ v ∈ part, v.call ≤ v.ret) :
    ∀ part ∈ (fillDefault model).partition history, Decides (fillDefault model)
      (makeEntries B part) ((fillDefault model).IsLinearizable part)
      ((fillDefault model).IsPrefix part) :=
  fun part hpart => decides_makeEntries hequal B (htime part hpart)

variable {B model history verbose timeout} in
/-- With a partition to wait for, the call returns. -/
lemma checkOperations_bounded (hequal : (fillDefault model).EqualSound)
    (htime : ∀ part ∈ (fillDefault model).partition history, ∀ v ∈ part, v.call ≤ v.ret)
    (hne : (fillDefault model).partition history ≠ []) : ∃ bound, ∀ tr st,
      (checkOperations B model history verbose timeout).Run tr st → tr.length ≤ bound ∧
        ((∃ r info, st.pc = .returned r info) ∨ ∃ a st', a ≠ ParAction.timeout ∧
          (checkOperations B model history verbose timeout).step st a = some st') := by
  refine parallel_returns (checkable_map (decides_partition B hequal htime)) ?_
  rwa [Ne, List.map_eq_nil_iff]

variable {B model history verbose timeout} in
/-- Without a partition to wait for and without a timeout, the call does not return. -/
lemma checkOperations_hangs (hnil : (fillDefault model).partition history = [])
    (htimeout : timeout ≤ 0) {tr : List (Par ι ο σ × ParAction)} {st : Par ι ο σ}
    (hrun : (checkOperations B model history verbose timeout).Run tr st) (r : CheckResult)
    (info : LinearizationInfo ι ο) : st.pc ≠ .returned r info := by
  unfold checkOperations at hrun
  simp only [hnil, List.map_nil] at hrun
  rw [parallel_stuck htimeout hrun]
  intro hpc
  cases hpc

/-- **The result of `checkOperations` is right**, in every interleaving of the searches and of the
timer. It is ok only if all partitions are linearizable and illegal only if one is not, and no
goroutine panics. -/
theorem checkOperations_sound (hequal : (fillDefault model).EqualSound)
    (htime : ∀ part ∈ (fillDefault model).partition history, ∀ v ∈ part, v.call ≤ v.ret)
    (tr : List (Par ι ο σ × ParAction)) (st : Par ι ο σ)
    (hrun : (checkOperations B model history verbose timeout).Run tr st) :
    st.crashed = false ∧ ∀ r info, st.pc = .returned r info →
      (r = .ok → ∀ part ∈ (fillDefault model).partition history,
        (fillDefault model).IsLinearizable part) ∧
      (r = .illegal → ∃ part ∈ (fillDefault model).partition history,
        ¬ (fillDefault model).IsLinearizable part) ∧
      (r = .unknown → 0 < timeout) := by
  have hdec := decides_partition B hequal htime
  exact ⟨(Par.Inv.of_run (checkable_map hdec) hrun).crashed,
    fun r info hpc => verdict_of_run hdec hrun hpc⟩

/-- **`checkOperations` returns** if there is a partition: a run has no more than a certain number
of steps, and as long as the call has not returned there is a step to take, without waiting for the
timer. If there is none and there is no timeout, then the call never returns. -/
theorem checkOperations_returns (hequal : (fillDefault model).EqualSound)
    (htime : ∀ part ∈ (fillDefault model).partition history, ∀ v ∈ part, v.call ≤ v.ret) :
    ((fillDefault model).partition history ≠ [] → ∃ bound, ∀ tr st,
      (checkOperations B model history verbose timeout).Run tr st → tr.length ≤ bound ∧
        ((∃ r info, st.pc = .returned r info) ∨ ∃ a st', a ≠ ParAction.timeout ∧
          (checkOperations B model history verbose timeout).step st a = some st')) ∧
    ((fillDefault model).partition history = [] → timeout ≤ 0 → ∀ tr st,
      (checkOperations B model history verbose timeout).Run tr st →
        ∀ r info, st.pc ≠ .returned r info) :=
  ⟨checkOperations_bounded hequal htime,
    fun hnil htimeout _ _ hrun => checkOperations_hangs hnil htimeout hrun⟩

/-- **The partial linearizations** that `CheckOperationsVerbose` returns, one list for each
partition, are linearizable prefixes. If the timer has not stopped the searches, then for each
operation that is in any linearizable prefix they have one of the longest. -/
theorem checkOperations_partials (hequal : (fillDefault model).EqualSound)
    (htime : ∀ part ∈ (fillDefault model).partition history, ∀ v ∈ part, v.call ≤ v.ret)
    (tr : List (Par ι ο σ × ParAction)) (st : Par ι ο σ)
    (hrun : (checkOperations B model history true timeout).Run tr st) (r : CheckResult)
    (info : LinearizationInfo ι ο) (hpc : st.pc = .returned r info) (i : ℕ)
    (part : List (Operation ι ο))
    (hpart : ((fillDefault model).partition history)[i]? = some part) :
    ∃ partials, info.partialLinearizations[i]? = some partials ∧
      (∀ q ∈ partials, (fillDefault model).IsPrefix part q) ∧
      (st.timedOut = false → ∀ q, (fillDefault model).IsPrefix part q → ∀ j ∈ q,
        ∃ q' ∈ partials, j ∈ q' ∧ q.length ≤ q'.length) :=
  partials_of_run (decides_partition B hequal htime) hrun hpc hpart

end CheckOperations

/-- The read that misses the write is found. -/
theorem checkOperations_sound_register :
    ∃ tr st info, (checkOperations (insertionByTime _ _) register missedWrite false 0).Run tr st ∧
      st.pc = .returned .illegal info ∧ ¬ (fillDefault register).IsLinearizable missedWrite := by
  have htime : ∀ part ∈ (fillDefault register).partition missedWrite,
      ∀ v ∈ part, v.call ≤ v.ret := by decide
  obtain ⟨tr, st, hrun, hanswer⟩ := System.exists_run_of_exec
    (checkOperations (insertionByTime _ _) register missedWrite false 0)
    (List.replicate 10 (.work 0) ++ [.receive])
    (fun _ st => st.pc.answer = some (.illegal, [])) (by decide)
  obtain ⟨info, hpc, -⟩ := MainPc.eq_returned hanswer
  obtain ⟨-, hmeaning⟩ := checkOperations_sound (insertionByTime _ _) register missedWrite false 0
    (equalSound_fillDefault rfl) htime tr st hrun
  obtain ⟨part, hpart, hnot⟩ := (hmeaning .illegal info hpc).2.1 rfl
  obtain rfl := List.mem_singleton.mp hpart
  exact ⟨tr, st, info, hrun, hpc, hnot⟩

/-- There is a bound on the runs that check it. -/
theorem checkOperations_returns_register :
    ∃ bound, ∀ tr st,
      (checkOperations (insertionByTime _ _) register missedWrite true 5).Run tr st →
      tr.length ≤ bound ∧ ((∃ r info, st.pc = .returned r info) ∨
        ∃ a st', a ≠ ParAction.timeout ∧ (checkOperations (insertionByTime _ _) register missedWrite
          true 5).step st a = some st') :=
  (checkOperations_returns (insertionByTime _ _) register missedWrite true 5
    (equalSound_fillDefault rfl) (by decide)).1 (by decide)

/-- The write and the read that overlaps it are the only partial linearization that is returned
before the time is up, so no linearizable prefix has the other read. -/
theorem checkOperations_partials_register :
    ∃ tr st info, (checkOperations (insertionByTime _ _) register missedWrite true 5).Run tr st ∧
      st.pc = .returned .illegal info ∧ info.partialLinearizations = [[[0, 1]]] ∧
      ∀ q, (fillDefault register).IsPrefix missedWrite q → 2 ∉ q := by
  have htime : ∀ part ∈ (fillDefault register).partition missedWrite,
      ∀ v ∈ part, v.call ≤ v.ret := by decide
  obtain ⟨tr, st, hrun, hanswer⟩ := System.exists_run_of_exec
    (checkOperations (insertionByTime _ _) register missedWrite true 5)
    (List.replicate 10 (.work 0) ++ [.receive, .collect [[0]]])
    (fun _ st => (if st.timedOut then none else st.pc.answer) = some (.illegal, [[[0, 1]]]))
    (by decide)
  split_ifs at hanswer with hout
  replace hout := Bool.eq_false_iff.mpr hout
  obtain ⟨info, hpc, hpartials⟩ := MainPc.eq_returned hanswer
  refine ⟨tr, st, info, hrun, hpc, hpartials, fun q hq hmem => ?_⟩
  obtain ⟨partials, hget, -, hlongest⟩ := checkOperations_partials (insertionByTime _ _) register
    missedWrite 5 (equalSound_fillDefault rfl) htime tr st hrun .illegal info hpc 0 missedWrite rfl
  rw [hpartials] at hget
  obtain rfl := Option.some.inj hget
  obtain ⟨q', hq', hmem', -⟩ := hlongest hout q hq 2 hmem
  obtain rfl := List.mem_singleton.mp hq'
  revert hmem'
  decide

/-! ## Key/value stores -/

/-- Source: `kv.go` `KvModel` -/
def KvModel.model (K : KvModel.Keys) : Model KvInput KvOutput Str where
  partition := some (KvModel.partition K)
  partitionEvent := none
  init := KvModel.init
  step := KvModel.step
  equal := none

namespace KvModel

variable (K : Keys) {history : List KvOperation}

/-- In the parts, too, no operation returns before it is called. -/
lemma time_of_mem_partition (htime : ∀ v ∈ history, v.call ≤ v.ret) :
    ∀ part ∈ (fillDefault (model K)).partition history, ∀ v ∈ part, v.call ≤ v.ret := by
  show ∀ part ∈ partition K history, _
  rw [partition_eq, List.forall_mem_map]
  exact fun k _ v hv => htime v (List.mem_filter.mp hv).1

/-- Only the empty history has no part. -/
lemma partition_eq_nil : (fillDefault (model K)).partition history = [] ↔ history = [] := by
  show partition K history = [] ↔ _
  rw [partition_eq, List.map_eq_nil_iff, List.eq_nil_iff_forall_not_mem,
    List.eq_nil_iff_forall_not_mem]
  constructor
  · exact fun h v hv => h v.key (mem_keys.mpr ⟨v, hv, rfl⟩)
  · intro h k hk
    obtain ⟨v, hv, -⟩ := mem_keys.mp hk
    exact h v hv

end KvModel

/-- **The check of a key/value store is right**: what `checkOperations` returns for `KvModel` says
whether the history is one of a linearizable store with a value for every key. It always returns,
unless the history is empty and there is no timeout: then there is no partition to wait for. -/
theorem checkOperations_kv (K : KvModel.Keys) (B : ByTime KvInput KvOutput)
    (history : List KvOperation) (htime : ∀ v ∈ history, v.call ≤ v.ret) (verbose : Bool)
    (timeout : ℤ) :
    (∀ tr st r info, (checkOperations B (KvModel.model K) history verbose timeout).Run tr st →
        st.pc = .returned r info →
      (r = .ok → IsLinearizable store history) ∧ (r = .illegal → ¬ IsLinearizable store history) ∧
      (r = .unknown → 0 < timeout)) ∧
    (history ≠ [] → ∃ bound, ∀ tr st,
        (checkOperations B (KvModel.model K) history verbose timeout).Run tr st →
      tr.length ≤ bound ∧ ((∃ r info, st.pc = .returned r info) ∨ ∃ a st', a ≠ ParAction.timeout ∧
        (checkOperations B (KvModel.model K) history verbose timeout).step st a = some st')) ∧
    (history = [] → timeout ≤ 0 → ∀ tr st,
        (checkOperations B (KvModel.model K) history verbose timeout).Run tr st →
      ∀ r info, st.pc ≠ .returned r info) := by
  have hequal : (fillDefault (KvModel.model K)).EqualSound := equalSound_fillDefault rfl
  have htime' := KvModel.time_of_mem_partition K htime
  refine ⟨fun tr st r info hrun hpc => ?_, fun hne => ?_, fun hnil htimeout tr st hrun => ?_⟩
  · have hdec := decides_partition B hequal htime'
    obtain ⟨hok, hillegal, hunknown⟩ := verdict_of_run hdec hrun hpc
    rw [KvModel.store_iff K htime]
    refine ⟨hok, fun hr hall => ?_, hunknown⟩
    obtain ⟨part, hpart, hnot⟩ := hillegal hr
    exact hnot (hall part hpart)
  · exact checkOperations_bounded hequal htime' fun hnil =>
      hne ((KvModel.partition_eq_nil K).mp hnil)
  · exact checkOperations_hangs ((KvModel.partition_eq_nil K).mpr hnil) htimeout hrun

/-- The two keys are checked one after the other, and the result is ok. -/
theorem checkOperations_kv_sample :
    (∀ v ∈ sampleHistory, v.call ≤ v.ret) ∧
    ∃ tr st info, (checkOperations (insertionByTime _ _) (KvModel.model sampleKeys)
        sampleHistory false 0).Run tr st ∧ st.pc = .returned .ok info ∧
      IsLinearizable store sampleHistory := by
  have htime : ∀ v ∈ sampleHistory, v.call ≤ v.ret := by decide
  obtain ⟨tr, st, hrun, hanswer⟩ := System.exists_run_of_exec
    (checkOperations (insertionByTime _ _) (KvModel.model sampleKeys) sampleHistory false 0)
    (List.replicate 6 (.work 0) ++ List.replicate 6 (.work 1) ++ [.receive, .receive])
    (fun _ st => st.pc.answer = some (.ok, [])) (by decide)
  obtain ⟨info, hpc, -⟩ := MainPc.eq_returned hanswer
  refine ⟨htime, tr, st, info, hrun, hpc, ?_⟩
  exact ((checkOperations_kv sampleKeys (insertionByTime _ _) sampleHistory htime false 0).1
    tr st .ok info hrun hpc).1 rfl

end GoLabs.Porcupine
