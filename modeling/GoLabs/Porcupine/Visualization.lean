import GoLabs.Porcupine.Check

/-!
# The data of a visualization

`computeVisualizationData` makes of what the verbose check returns the data that a browser displays.
For each partition it goes through the entries to put the operations together, and replays each
partial linearization to describe the states in between. It panics when the model does not accept a
step of a replay, and notes for each operation the largest partial linearization that includes it.

The loops are those of the source. `Elements.Fits` says what the first one has put together, and
`Largest.Holds` what is noted by the others. `computeVisualizationData_of_run` says that the data
can be computed from every result of `CheckOperationsVerbose`, and what it has.
-/

namespace GoLabs.Porcupine

open GoLabs.Lib

variable {ι ο σ : Type}

/-! ## The code -/

/-- The functions of a model that describe operations and states.
Source: `model.go` `Model` -/
structure Descriptions (ι ο σ : Type) where
  describeOperation : ι → ο → Str
  describeState : σ → Str

/-- Source: `visualization.go` `historyElement` -/
structure HistoryElement where
  clientId : ℤ
  start : ℤ
  stop : ℤ
  description : Str
  deriving DecidableEq

/-- Source: `visualization.go` `linearizationStep` -/
structure LinearizationStep where
  index : ℕ
  stateDescription : Str
  deriving DecidableEq

/-- Source: `visualization.go` `partitionVisualizationData` -/
structure PartitionVisualizationData where
  history : List HistoryElement
  partialLinearizations : List (List LinearizationStep)
  largest : ℕ → Option ℕ

/-- `sort.Slice(partials, …)`, the longer ones first. -/
structure ByLength where
  sort : List (List ℕ) → List (List ℕ)
  perm : ∀ partials, (sort partials).Perm partials
  ordered : ∀ partials, (sort partials).Pairwise fun p q => q.length ≤ p.length

/-- The variables of the loop over the entries. -/
structure Elements (ι ο : Type) where
  history : List HistoryElement
  callValue : ℕ → Option (ι ⊕ ο)
  returnValue : ℕ → Option (ι ⊕ ο)

/-- One iteration of the loop over the entries. An index out of range, and a value that the model
does not know what to do with, end the program. -/
def addElement (D : Descriptions ι ο σ) (x : Elements ι ο) (elem : Entry ι ο) :
    Option (Elements ι ο) :=
  match x.history[elem.id]? with
  | none => none
  | some h =>
      match elem.kind with
      | .callEntry =>
          some { x with
            history :=
              x.history.set elem.id { h with clientId := elem.clientId, start := elem.time }
            callValue := Function.update x.callValue elem.id (some elem.value) }
      | .returnEntry =>
          match x.callValue elem.id, elem.value with
          | some (.inl input), .inr output =>
              some { x with
                history := x.history.set elem.id
                  { h with stop := elem.time, description := D.describeOperation input output }
                returnValue := Function.update x.returnValue elem.id (some elem.value) }
          | _, _ => none

/-- The maps `largestIndex` and `largestSize`. -/
structure Largest where
  index : ℕ → Option ℕ
  size : ℕ → ℕ

/-- `if largestSize[histId] < len(partial) { … }` -/
def Largest.note (i len : ℕ) (L : Largest) (histId : ℕ) : Largest :=
  if L.size histId < len then
    ⟨Function.update L.index histId (some i), Function.update L.size histId len⟩
  else L

/-- The variables of the loop over a partial linearization. -/
structure Replay (σ : Type) where
  state : σ
  linearization : List LinearizationStep
  largest : Largest

/-- One iteration of the loop over the partial linearization `i`. -/
def replayStep (model : FullModel ι ο σ) (D : Descriptions ι ο σ) (x : Elements ι ο) (i len : ℕ)
    (y : Replay σ) (histId : ℕ) : Option (Replay σ) :=
  match x.callValue histId, x.returnValue histId with
  | some (.inl input), some (.inr output) =>
      let (ok, state) := model.step y.state input output
      if ok then
        some ⟨state, y.linearization ++ [⟨histId, D.describeState state⟩],
          y.largest.note i len histId⟩
      else none
  | _, _ => none

/-- The variables of the loop over the partial linearizations. -/
structure Replays where
  linearizations : List (List LinearizationStep)
  largest : Largest

/-- One iteration of the loop over the partial linearizations. -/
def replayPartial (model : FullModel ι ο σ) (D : Descriptions ι ο σ) (x : Elements ι ο)
    (y : Replays) (p : List ℕ) : Option Replays := do
  let i := y.linearizations.length
  let z ← p.foldlM (replayStep model D x i p.length) ⟨model.init, [], y.largest⟩
  return ⟨y.linearizations ++ [z.linearization], z.largest⟩

/-- The data of a partition. -/
def visualizePartition (model : FullModel ι ο σ) (D : Descriptions ι ο σ) (S : ByLength)
    (entries : List (Entry ι ο)) (partials : List (List ℕ)) :
    Option PartitionVisualizationData := do
  let n := entries.length / 2
  let x ← entries.foldlM (addElement D)
    ⟨List.replicate n ⟨0, 0, 0, []⟩, fun _ => none, fun _ => none⟩
  let y ← (S.sort partials).foldlM (replayPartial model D x) ⟨[], ⟨fun _ => none, fun _ => 0⟩⟩
  return ⟨x.history, y.linearizations, y.largest.index⟩

/-- One iteration of the loop over the partitions. -/
def visualizeAt (model : FullModel ι ο σ) (D : Descriptions ι ο σ) (S : ByLength)
    (info : LinearizationInfo ι ο) (i : ℕ) : Option PartitionVisualizationData := do
  let entries ← info.history[i]?
  let partials ← info.partialLinearizations[i]?
  visualizePartition model D S entries partials

/-- Source: `visualization.go` `computeVisualizationData` -/
def computeVisualizationData [DecidableEq σ] (model : Model ι ο σ) (D : Descriptions ι ο σ)
    (S : ByLength) (info : LinearizationInfo ι ο) : Option (List PartitionVisualizationData) :=
  (List.range info.history.length).mapM (visualizeAt (fillDefault model) D S info)

/-! ## The operations -/

section Operations

variable {D : Descriptions ι ο σ} {part : List (Operation ι ο)} {x : Elements ι ο}

/-- What is known of the operation `i` after these events. -/
def elementAt (D : Descriptions ι ο σ) (done : List Ev) (i : ℕ) (v : Operation ι ο) :
    HistoryElement where
  clientId := if .call i ∈ done then v.clientId else 0
  start := if .call i ∈ done then v.call else 0
  stop := if .ret i ∈ done then v.ret else 0
  description := if .ret i ∈ done then D.describeOperation v.input v.output else []

/-- What the loop over the entries has put together after these events. -/
structure Elements.Fits (D : Descriptions ι ο σ) (part : List (Operation ι ο)) (done : List Ev)
    (x : Elements ι ο) : Prop where
  length : x.history.length = part.length
  history : ∀ (i : ℕ) v, part[i]? = some v → x.history[i]? = some (elementAt D done i v)
  callValue : ∀ (i : ℕ) v, part[i]? = some v → .call i ∈ done →
    x.callValue i = some (.inl v.input)
  returnValue : ∀ (i : ℕ) v, part[i]? = some v → .ret i ∈ done →
    x.returnValue i = some (.inr v.output)

variable {done : List Ev} {i : ℕ} {v : Operation ι ο}

/-- An event of the operation `i` says nothing of the others. -/
lemma elementAt_append_of_ne {j : ℕ} (hj : j ≠ i) (e : Ev) (he : e.id = i) (w : Operation ι ο) :
    elementAt D (done ++ [e]) j w = elementAt D done j w := by
  have hcall : Ev.call j ≠ e := by
    rintro rfl
    exact hj he
  have hret : Ev.ret j ≠ e := by
    rintro rfl
    exact hj he
  simp [elementAt, hcall, hret]

/-- The element of the operation `i` is replaced. -/
lemma Elements.Fits.set (h : x.Fits D part done) (hv : part[i]? = some v) (e : Ev) (he : e.id = i)
    (j : ℕ) (w : Operation ι ο) (hw : part[j]? = some w) :
    (x.history.set i (elementAt D (done ++ [e]) i v))[j]? =
      some (elementAt D (done ++ [e]) j w) := by
  have hlt := (List.getElem?_eq_some_iff.mp (h.history i v hv)).1
  by_cases hj : j = i
  · subst hj
    obtain rfl := Option.some.inj (hv.symm.trans hw)
    exact List.getElem?_set_self hlt
  · rw [List.getElem?_set_ne (Ne.symm hj), h.history j w hw, elementAt_append_of_ne hj e he]

/-- The entry of a call adds an element. -/
lemma Elements.Fits.call (h : x.Fits D part done) (hv : part[i]? = some v) :
    ∃ y, addElement D x (v.callEntry i) = some y ∧ y.Fits D part (done ++ [.call i]) := by
  have hget := h.history i v hv
  have hstep : addElement D x (v.callEntry i) = some { x with
      history := x.history.set i (elementAt D (done ++ [.call i]) i v)
      callValue := Function.update x.callValue i (some (.inl v.input)) } := by
    unfold addElement Operation.callEntry
    simp [hget, elementAt]
  refine ⟨_, hstep, List.length_set.trans h.length, h.set hv (.call i) rfl, ?_, ?_⟩
  · intro j w hw hj
    show Function.update x.callValue i _ j = _
    by_cases hji : j = i
    · subst hji
      obtain rfl := Option.some.inj (hv.symm.trans hw)
      exact Function.update_self _ _ _
    · rw [Function.update_of_ne hji]
      apply h.callValue j w hw
      simpa [hji] using hj
  · intro j w hw hj
    apply h.returnValue j w hw
    simpa using hj

/-- The entry of a return completes the element of its call. -/
lemma Elements.Fits.ret (h : x.Fits D part done) (hv : part[i]? = some v)
    (hcall : .call i ∈ done) :
    ∃ y, addElement D x (v.returnEntry i) = some y ∧ y.Fits D part (done ++ [.ret i]) := by
  have hget := h.history i v hv
  have hvalue := h.callValue i v hv hcall
  have hstep : addElement D x (v.returnEntry i) = some { x with
      history := x.history.set i (elementAt D (done ++ [.ret i]) i v)
      returnValue := Function.update x.returnValue i (some (.inr v.output)) } := by
    unfold addElement Operation.returnEntry
    simp [hget, hvalue, elementAt]
  refine ⟨_, hstep, List.length_set.trans h.length, h.set hv (.ret i) rfl, ?_, ?_⟩
  · intro j w hw hj
    apply h.callValue j w hw
    simpa using hj
  · intro j w hw hj
    show Function.update x.returnValue i _ j = _
    by_cases hji : j = i
    · subst hji
      obtain rfl := Option.some.inj (hv.symm.trans hw)
      exact Function.update_self _ _ _
    · rw [Function.update_of_ne hji]
      apply h.returnValue j w hw
      simpa [hji] using hj

/-- A call stands before its return. -/
lemma call_before_ret (B : ByTime ι ο) (htime : ∀ v ∈ part, v.call ≤ v.ret)
    (hv : part[i]? = some v) {es es' : List (Entry ι ο)}
    (heq : makeEntries B part = es ++ v.returnEntry i :: es') : v.callEntry i ∈ es := by
  have hmem : v.callEntry i ∈ es ++ v.returnEntry i :: es' := by
    rw [← heq]
    refine (B.perm _).symm.subset (mem_makeEntriesFrom.mpr ⟨i, v, hv, Or.inl ?_⟩)
    rw [zero_add]
  rcases List.mem_append.mp hmem with hes | hes
  · exact hes
  · rcases List.mem_cons.mp hes with hret | hes'
    · cases congrArg Entry.kind hret
    · -- behind its return it would be less than it
      have hordered := B.ordered (makeEntriesFrom 0 part)
      have heq : B.sort (makeEntriesFrom 0 part) = es ++ v.returnEntry i :: es' := heq
      rw [heq, List.pairwise_append, List.pairwise_cons] at hordered
      have hless : byTimeLess (v.callEntry i) (v.returnEntry i) = false :=
        hordered.2.1.1 _ hes'
      have hle := htime v (List.mem_of_getElem? hv)
      unfold byTimeLess Operation.callEntry Operation.returnEntry at hless
      split_ifs at hless with hne
      · have hge : ¬ v.call < v.ret := of_decide_eq_false hless
        have hne : v.call ≠ v.ret := hne
        omega
      · simp at hless

/-- **The loop over the entries** puts the operations together. -/
lemma Elements.Fits.entries (B : ByTime ι ο) (htime : ∀ v ∈ part, v.call ≤ v.ret)
    (es : List (Entry ι ο)) {es' : List (Entry ι ο)} (heq : makeEntries B part = es ++ es')
    (h : x.Fits D part (es.map Entry.event)) :
    ∃ y, es'.foldlM (addElement D) x = some y ∧
      y.Fits D part ((makeEntries B part).map Entry.event) := by
  induction es' generalizing es x with
  | nil =>
      rw [heq, List.append_nil]
      exact ⟨x, rfl, h⟩
  | cons e es' ih =>
      have he : e ∈ makeEntriesFrom 0 part := by
        apply (B.perm _).subset
        show e ∈ makeEntries B part
        rw [heq]
        simp
      -- the step that the entry takes
      have hstep : ∃ y, addElement D x e = some y ∧
          y.Fits D part ((es ++ [e]).map Entry.event) := by
        rw [List.map_append, List.map_singleton]
        obtain ⟨i, v, hv, rfl | rfl⟩ := mem_makeEntriesFrom.mp he
        · rw [zero_add]
          exact h.call hv
        · rw [zero_add] at heq ⊢
          exact h.ret hv (List.mem_map_of_mem (call_before_ret B htime hv heq))
      obtain ⟨y, hy, hfits⟩ := hstep
      obtain ⟨z, hz, hfits'⟩ := ih (es ++ [e]) (by rw [heq, List.append_assoc]; rfl) hfits
      refine ⟨z, ?_, hfits'⟩
      rw [List.foldlM_cons, hy]
      exact hz

/-- Every operation has two entries. -/
lemma length_makeEntriesFrom (k : ℕ) (history : List (Operation ι ο)) :
    (makeEntriesFrom k history).length = 2 * history.length := by
  induction history generalizing k with
  | nil => rfl
  | cons v history ih =>
      unfold makeEntriesFrom
      rw [List.length_cons, List.length_cons, ih, List.length_cons]
      omega

/-- What the loop over the entries ends with. -/
lemma exists_elements (D : Descriptions ι ο σ) (B : ByTime ι ο)
    (htime : ∀ v ∈ part, v.call ≤ v.ret) :
    ∃ x, (makeEntries B part).foldlM (addElement D)
        ⟨List.replicate ((makeEntries B part).length / 2) ⟨0, 0, 0, []⟩, fun _ => none,
          fun _ => none⟩ = some x ∧
      x.history = part.map (fun v =>
        ⟨v.clientId, v.call, v.ret, D.describeOperation v.input v.output⟩) ∧
      ∀ (i : ℕ) v, part[i]? = some v →
        x.callValue i = some (.inl v.input) ∧ x.returnValue i = some (.inr v.output) := by
  have hlength : (makeEntries B part).length / 2 = part.length := by
    unfold makeEntries
    rw [(B.perm _).length_eq, length_makeEntriesFrom]
    omega
  have hinit : Elements.Fits D part [] ⟨List.replicate ((makeEntries B part).length / 2)
      ⟨0, 0, 0, []⟩, fun _ => none, fun _ => none⟩ := by
    refine ⟨?_, fun i v hv => ?_, fun i v _ hi => ?_, fun i v _ hi => ?_⟩
    · rw [List.length_replicate, hlength]
    · rw [hlength, List.getElem?_replicate, if_pos (List.getElem?_eq_some_iff.mp hv).1]
      simp [elementAt]
    · cases hi
    · cases hi
  obtain ⟨x, hx, hfits⟩ := Elements.Fits.entries B htime [] rfl hinit
  -- in the end all events are there
  have hevents : ∀ (i : ℕ) v, part[i]? = some v →
      .call i ∈ (makeEntries B part).map Entry.event ∧
        .ret i ∈ (makeEntries B part).map Entry.event := by
    intro i v hv
    have hmem : ∀ e, e = v.callEntry i ∨ e = v.returnEntry i → e ∈ makeEntries B part := by
      intro e he
      refine (B.perm _).symm.subset (mem_makeEntriesFrom.mpr ⟨i, v, hv, ?_⟩)
      rwa [zero_add]
    exact ⟨List.mem_map.mpr ⟨_, hmem _ (Or.inl rfl), rfl⟩,
      List.mem_map.mpr ⟨_, hmem _ (Or.inr rfl), rfl⟩⟩
  refine ⟨x, hx, ?_, fun i v hv => ?_⟩
  · refine List.ext_getElem? fun i => ?_
    rw [List.getElem?_map]
    cases hv : part[i]? with
    | none =>
        rw [Option.map_none, List.getElem?_eq_none_iff, hfits.length]
        exact List.getElem?_eq_none_iff.mp hv
    | some v =>
        obtain ⟨hcall, hret⟩ := hevents i v hv
        rw [hfits.history i v hv]
        simp [elementAt, hcall, hret]
  · obtain ⟨hcall, hret⟩ := hevents i v hv
    exact ⟨hfits.callValue i v hv hcall, hfits.returnValue i v hv hret⟩

end Operations

/-! ## The largest partial linearizations -/

/-- What is noted after these partial linearizations: for each operation the place of a longest one
that includes it. -/
def Largest.Holds (L : Largest) (ps : List (List ℕ)) : Prop :=
  ∀ j, (L.size j = 0 ∧ L.index j = none ∧ ∀ q ∈ ps, j ∉ q) ∨
    ∃ (i : ℕ) (q : List ℕ), L.index j = some i ∧ ps[i]? = some q ∧ j ∈ q ∧ L.size j = q.length ∧
      ∀ q' ∈ ps, j ∈ q' → q'.length ≤ q.length

/-- The loop over a partial linearization notes it for its operations, if it is larger. -/
lemma Largest.foldl_note (i len : ℕ) (p : List ℕ) (L : Largest) (j : ℕ) :
    (p.foldl (Largest.note i len) L).index j =
        (if j ∈ p ∧ L.size j < len then some i else L.index j) ∧
      (p.foldl (Largest.note i len) L).size j =
        if j ∈ p ∧ L.size j < len then len else L.size j := by
  induction p generalizing L with
  | nil => simp
  | cons k p ih =>
      rw [List.foldl_cons]
      obtain ⟨hindex, hsize⟩ := ih (L.note i len k)
      rw [hindex, hsize]
      unfold Largest.note
      by_cases hj : j = k
      · subst hj
        by_cases hlt : L.size j < len
        · simp [hlt]
        · simp [hlt]
      · by_cases hlt : L.size k < len
        · simp [hlt, hj]
        · simp [hlt, hj]

/-- After one more sequence, the longest ones are still noted. -/
lemma Largest.Holds.note {L : Largest} {ps : List (List ℕ)} (h : L.Holds ps) (p : List ℕ) :
    (p.foldl (Largest.note ps.length p.length) L).Holds (ps ++ [p]) := by
  intro j
  obtain ⟨hindex, hsize⟩ := Largest.foldl_note ps.length p.length p L j
  rw [hindex, hsize]
  by_cases hj : j ∈ p ∧ L.size j < p.length
  · rw [if_pos hj, if_pos hj]
    refine Or.inr ⟨ps.length, p, rfl, by simp, hj.1, rfl, fun q hq hjq => ?_⟩
    rcases List.mem_append.mp hq with hq | hq
    · rcases h j with ⟨-, -, hnone⟩ | ⟨i, q', -, -, -, hq', hle⟩
      · exact absurd hjq (hnone q hq)
      · exact (hle q hq hjq).trans (hq' ▸ hj.2.le)
    · rw [List.mem_singleton.mp hq]
  · rw [if_neg hj, if_neg hj]
    rcases h j with ⟨hzero, hnone, hnot⟩ | ⟨i, q, hi, hq, hjq, hsize', hle⟩
    · refine Or.inl ⟨hzero, hnone, fun q hq hjq => ?_⟩
      rcases List.mem_append.mp hq with hq | hq
      · exact hnot q hq hjq
      · -- a partial linearization that includes an operation is not empty
        rw [List.mem_singleton.mp hq] at hjq
        exact hj ⟨hjq, hzero ▸ List.length_pos_of_mem hjq⟩
    · refine Or.inr ⟨i, q, hi, ?_, hjq, hsize', fun q' hq' hjq' => ?_⟩
      · rw [List.getElem?_append_left (List.getElem?_eq_some_iff.mp hq).1]
        exact hq
      · rcases List.mem_append.mp hq' with hq' | hq'
        · exact hle q' hq' hjq'
        · rw [List.mem_singleton.mp hq'] at hjq' ⊢
          rw [← hsize']
          exact not_lt.mp fun hlt => hj ⟨hjq', hlt⟩

/-! ## The replays -/

section Replays

variable {model : FullModel ι ο σ} {D : Descriptions ι ο σ} {part : List (Operation ι ο)}
  {x : Elements ι ο}

/-- The steps of operations with their numbers, and the states that they lead to. -/
def replayed (model : FullModel ι ο σ) (D : Descriptions ι ο σ) :
    σ → List (ℕ × Operation ι ο) → List LinearizationStep
  | _, [] => []
  | state, (i, v) :: l =>
      let next := (model.step state v.input v.output).2
      ⟨i, D.describeState next⟩ :: replayed model D next l

/-- The replay goes through the operations in their order. -/
lemma map_index_replayed (state : σ) (l : List (ℕ × Operation ι ο)) :
    (replayed model D state l).map LinearizationStep.index = l.map Prod.fst := by
  induction l generalizing state with
  | nil => rfl
  | cons q l ih =>
      rw [replayed, List.map_cons, List.map_cons, ih]

/-- **A replay does not fail** if the model accepts the operations. -/
lemma foldlM_replayStep {l : List (ℕ × Operation ι ο)} {i len : ℕ}
    (hvalues : ∀ q ∈ l, x.callValue q.1 = some (.inl q.2.input) ∧
      x.returnValue q.1 = some (.inr q.2.output)) (y : Replay σ)
    (haccepts : model.onOps.accepts y.state (l.map Prod.snd) = true) :
    ∃ state, (l.map Prod.fst).foldlM (replayStep model D x i len) y =
      some ⟨state, y.linearization ++ replayed model D y.state l,
        (l.map Prod.fst).foldl (Largest.note i len) y.largest⟩ := by
  induction l generalizing y with
  | nil =>
      refine ⟨y.state, ?_⟩
      simp [replayed]
  | cons q l ih =>
      obtain ⟨hcall, hret⟩ := hvalues q List.mem_cons_self
      rw [List.map_cons, Spec.accepts, Bool.and_eq_true] at haccepts
      have hok : (model.step y.state q.2.input q.2.output).1 = true := haccepts.1
      have hstep : replayStep model D x i len y q.1 = some
          ⟨(model.step y.state q.2.input q.2.output).2,
            y.linearization ++
              [⟨q.1, D.describeState (model.step y.state q.2.input q.2.output).2⟩],
            y.largest.note i len q.1⟩ := by
        unfold replayStep
        simp [hcall, hret, hok]
      obtain ⟨state, hstate⟩ := ih (fun q hq => hvalues q (List.mem_cons_of_mem _ hq))
        ⟨(model.step y.state q.2.input q.2.output).2, _, y.largest.note i len q.1⟩ haccepts.2
      refine ⟨state, ?_⟩
      rw [List.map_cons, List.foldlM_cons, hstep]
      refine hstate.trans ?_
      rw [List.append_assoc]
      rfl

/-- A linearizable prefix, as operations with their numbers. -/
lemma FullModel.IsPrefix.exists_ops {p : List ℕ} (h : model.IsPrefix part p) :
    ∃ l : List (ℕ × Operation ι ο), l.map Prod.fst = p ∧ (∀ q ∈ l, part[q.1]? = some q.2) ∧
      model.onOps.accepts model.init (l.map Prod.snd) = true := by
  obtain ⟨op, hop, hp⟩ := h
  refine ⟨p.map fun i => (i, op i), ?_, ?_, ?_⟩
  · rw [List.map_map]
    exact List.map_id p
  · intro q hq
    obtain ⟨i, hi, rfl⟩ := List.mem_map.mp hq
    have hlt := hp.lt i hi
    show part[i]? = some (op i)
    rw [hop, List.getElem?_map, List.getElem?_range hlt]
    rfl
  · rw [List.map_map]
    exact hp.accepted

/-- The data of the partial linearizations `ps`, in this order. -/
structure Replays.Fits (model : FullModel ι ο σ) (D : Descriptions ι ο σ)
    (part : List (Operation ι ο)) (ps : List (List ℕ)) (y : Replays) : Prop where
  indices : y.linearizations.map (List.map LinearizationStep.index) = ps
  replayed : ∀ steps ∈ y.linearizations, ∃ l : List (ℕ × Operation ι ο),
    (∀ q ∈ l, part[q.1]? = some q.2) ∧ steps = replayed model D model.init l
  largest : y.largest.Holds ps

/-- **The loop over the partial linearizations.** -/
lemma Replays.Fits.replay {y : Replays} {ps ps' : List (List ℕ)} (h : y.Fits model D part ps)
    (hvalues : ∀ (i : ℕ) v, part[i]? = some v →
      x.callValue i = some (.inl v.input) ∧ x.returnValue i = some (.inr v.output))
    (hps : ∀ p ∈ ps', model.IsPrefix part p) :
    ∃ z, ps'.foldlM (replayPartial model D x) y = some z ∧ z.Fits model D part (ps ++ ps') := by
  induction ps' generalizing y ps with
  | nil =>
      rw [List.append_nil]
      exact ⟨y, rfl, h⟩
  | cons p ps' ih =>
      obtain ⟨l, rfl, hl, haccepts⟩ := (hps p List.mem_cons_self).exists_ops
      have hlength : y.linearizations.length = ps.length := by
        rw [← h.indices, List.length_map]
      obtain ⟨state, hstate⟩ := foldlM_replayStep (D := D) (x := x) (i := ps.length)
        (fun q hq => hvalues q.1 q.2 (hl q hq)) ⟨model.init, [], y.largest⟩ haccepts
      have hstep : replayPartial model D x y (l.map Prod.fst) = some
          ⟨y.linearizations ++ [Porcupine.replayed model D model.init l],
            (l.map Prod.fst).foldl (Largest.note ps.length (l.map Prod.fst).length) y.largest⟩ := by
        unfold replayPartial
        simp only [hlength]
        rw [hstate]
        rfl
      have hfits : Replays.Fits model D part (ps ++ [l.map Prod.fst])
          ⟨y.linearizations ++ [Porcupine.replayed model D model.init l],
            (l.map Prod.fst).foldl (Largest.note ps.length (l.map Prod.fst).length) y.largest⟩ := by
        refine ⟨?_, fun steps hsteps => ?_, h.largest.note _⟩
        · rw [List.map_append, h.indices, List.map_singleton, map_index_replayed]
        · rcases List.mem_append.mp hsteps with hsteps | hsteps
          · exact h.replayed steps hsteps
          · exact ⟨l, hl, List.mem_singleton.mp hsteps⟩
      obtain ⟨z, hz, hfits'⟩ := ih hfits fun p hp => hps p (List.mem_cons_of_mem _ hp)
      rw [List.append_assoc] at hfits'
      refine ⟨z, ?_, hfits'⟩
      rw [List.foldlM_cons, hstep]
      exact hz

end Replays

/-! ## The data of a partition -/

/-- **What the data of a partition shows**: its operations, linearizable prefixes with the states in
between, and for each operation a longest one of those shown that include it. -/
structure PartitionVisualizationData.Shows (d : PartitionVisualizationData)
    (model : FullModel ι ο σ) (D : Descriptions ι ο σ) (part : List (Operation ι ο)) : Prop where
  history : d.history = part.map fun v =>
    ⟨v.clientId, v.call, v.ret, D.describeOperation v.input v.output⟩
  prefixes : ∀ steps ∈ d.partialLinearizations,
    model.IsPrefix part (steps.map LinearizationStep.index)
  replayed : ∀ steps ∈ d.partialLinearizations, ∃ l : List (ℕ × Operation ι ο),
    (∀ q ∈ l, part[q.1]? = some q.2) ∧ steps = replayed model D model.init l
  largest : ∀ j, (d.largest j = none ∧
      ∀ steps ∈ d.partialLinearizations, j ∉ steps.map LinearizationStep.index) ∨
    ∃ (i : ℕ) (steps : List LinearizationStep), d.largest j = some i ∧
      d.partialLinearizations[i]? = some steps ∧ j ∈ steps.map LinearizationStep.index ∧
      ∀ steps' ∈ d.partialLinearizations, j ∈ steps'.map LinearizationStep.index →
        steps'.length ≤ steps.length

/-- **The data of a partition can be computed**, and shows what it is meant to show. -/
lemma exists_visualizePartition {model : FullModel ι ο σ} {part : List (Operation ι ο)}
    (D : Descriptions ι ο σ) (S : ByLength) (B : ByTime ι ο)
    (htime : ∀ v ∈ part, v.call ≤ v.ret) {partials : List (List ℕ)}
    (hpartials : ∀ p ∈ partials, model.IsPrefix part p) :
    ∃ d, visualizePartition model D S (makeEntries B part) partials = some d ∧
      d.Shows model D part ∧
      (d.partialLinearizations.map (List.map LinearizationStep.index)).Perm partials := by
  obtain ⟨x, hx, hhistory, hvalues⟩ := exists_elements D B htime
  have hinit : Replays.Fits model D part [] ⟨[], ⟨fun _ => none, fun _ => 0⟩⟩ :=
    ⟨rfl, by simp, fun j => Or.inl ⟨rfl, rfl, by simp⟩⟩
  obtain ⟨y, hy, hfits⟩ := hinit.replay hvalues fun p hp =>
    hpartials p ((S.perm partials).subset hp)
  rw [List.nil_append] at hfits
  refine ⟨⟨x.history, y.linearizations, y.largest.index⟩, ?_,
    ⟨hhistory, ?_, hfits.replayed, ?_⟩, ?_⟩
  · unfold visualizePartition
    simp only [hx, Option.bind_eq_bind, Option.bind_some, hy]
    rfl
  · intro steps hsteps
    apply hpartials
    apply (S.perm partials).subset
    rw [← hfits.indices]
    exact List.mem_map_of_mem hsteps
  · intro j
    have hholds := hfits.largest j
    rw [← hfits.indices] at hholds
    rcases hholds with ⟨-, hnone, hnot⟩ | ⟨i, q, hi, hq, hjq, -, hle⟩
    · exact Or.inl ⟨hnone, fun steps hsteps => hnot _ (List.mem_map_of_mem hsteps)⟩
    · rw [List.getElem?_map, Option.map_eq_some_iff] at hq
      obtain ⟨steps, hsteps, rfl⟩ := hq
      refine Or.inr ⟨i, steps, hi, hsteps, hjq, fun steps' hsteps' hj => ?_⟩
      have hlength := hle _ (List.mem_map_of_mem hsteps') hj
      rwa [List.length_map, List.length_map] at hlength
  · show (y.linearizations.map _).Perm partials
    rw [hfits.indices]
    exact S.perm partials

/-! ## The data of a check -/

/-- **What the check returns can be visualized.** In every run of `CheckOperationsVerbose`, nothing
panics when the data is computed from the result: the values are there, and every partial
linearization can be replayed. The data shows what it is meant to show. If the timer has not stopped
the searches, then the largest partial linearization of an operation is as long as any linearizable
prefix that includes it. -/
theorem computeVisualizationData_of_run [DecidableEq σ] (B : ByTime ι ο) (model : Model ι ο σ)
    (history : List (Operation ι ο)) (timeout : ℤ) (hequal : (fillDefault model).EqualSound)
    (htime : ∀ part ∈ (fillDefault model).partition history, ∀ v ∈ part, v.call ≤ v.ret)
    (tr : List (Par ι ο σ × ParAction)) (st : Par ι ο σ)
    (hrun : (checkOperations B model history true timeout).Run tr st) (r : CheckResult)
    (info : LinearizationInfo ι ο) (hpc : st.pc = .returned r info) (D : Descriptions ι ο σ)
    (S : ByLength) :
    ∃ data, computeVisualizationData model D S info = some data ∧
      data.length = ((fillDefault model).partition history).length ∧
      ∀ (i : ℕ) part, ((fillDefault model).partition history)[i]? = some part →
        ∃ d, data[i]? = some d ∧ d.Shows (fillDefault model) D part ∧
          (st.timedOut = false → ∀ q, (fillDefault model).IsPrefix part q → ∀ j ∈ q,
            ∃ (k : ℕ) (steps : List LinearizationStep), d.largest j = some k ∧
              d.partialLinearizations[k]? = some steps ∧
              j ∈ steps.map LinearizationStep.index ∧ q.length ≤ steps.length) := by
  have hdec := decides_partition B hequal htime
  have hst := Par.Inv.of_run (checkable_map hdec) hrun
  obtain ⟨hhistory, -, -⟩ := (hst.result r info hpc).2 rfl
  -- the data of one partition
  have hpart : ∀ (i : ℕ) part, ((fillDefault model).partition history)[i]? = some part →
      ∃ d, visualizeAt (fillDefault model) D S info i = some d ∧
        d.Shows (fillDefault model) D part ∧
        (st.timedOut = false → ∀ q, (fillDefault model).IsPrefix part q → ∀ j ∈ q,
          ∃ (k : ℕ) (steps : List LinearizationStep), d.largest j = some k ∧
            d.partialLinearizations[k]? = some steps ∧
            j ∈ steps.map LinearizationStep.index ∧ q.length ≤ steps.length) := by
    intro i part hi
    obtain ⟨partials, hget, hprefixes, hlongest⟩ := partials_of_run hdec hrun hpc hi
    obtain ⟨d, hd, hshows, hperm⟩ := exists_visualizePartition D S B
      (htime part (List.mem_of_getElem? hi)) hprefixes
    refine ⟨d, ?_, hshows, fun hout q hq j hj => ?_⟩
    · unfold visualizeAt
      rw [hhistory, List.getElem?_map, hi, hget]
      exact hd
    · obtain ⟨q', hq', hjq', hle⟩ := hlongest hout q hq j hj
      obtain ⟨steps, hsteps, rfl⟩ := List.mem_map.mp (hperm.symm.subset hq')
      rcases hshows.largest j with ⟨-, hnone⟩ | ⟨k, steps', hk, hsteps', hj', hmax⟩
      · exact absurd hjq' (hnone steps hsteps)
      · rw [List.length_map] at hle
        exact ⟨k, steps', hk, hsteps', hj', hle.trans (hmax steps hsteps hjq')⟩
  have hlength : info.history.length = ((fillDefault model).partition history).length := by
    rw [hhistory, List.length_map]
  have hsome : ∀ i ∈ List.range info.history.length,
      visualizeAt (fillDefault model) D S info i ≠ none := by
    intro i hi
    have hlt : i < ((fillDefault model).partition history).length :=
      hlength ▸ List.mem_range.mp hi
    obtain ⟨d, hd, -⟩ := hpart i _ (List.getElem?_eq_getElem hlt)
    rw [hd]
    exact Option.some_ne_none d
  obtain ⟨data, hdata, hdatalength, hget⟩ := exists_mapM hsome
  refine ⟨data, hdata, ?_, fun i part hi => ?_⟩
  · rw [hdatalength, List.length_range, hlength]
  · obtain ⟨d, hd, hshows, hlongest⟩ := hpart i part hi
    have hlt : i < info.history.length := hlength ▸ (List.getElem?_eq_some_iff.mp hi).1
    refine ⟨d, ?_, hshows, hlongest⟩
    rw [hget, List.getElem?_range hlt]
    exact hd

/-- Descriptions without a text. -/
def sampleDescriptions : Descriptions (Option ℕ) ℕ ℕ where
  describeOperation _ _ := []
  describeState _ := []

/-- The longest first, by insertion. -/
def insertionByLength : ByLength where
  sort := List.insertionSort fun p q => q.length ≤ p.length
  perm := List.perm_insertionSort _
  ordered partials := by
    have : Std.Total fun p q : List ℕ => q.length ≤ p.length := ⟨fun p q => le_total _ _⟩
    have : IsTrans (List ℕ) fun p q => q.length ≤ p.length := ⟨fun _ _ _ h h' => h'.trans h⟩
    exact List.pairwise_insertionSort _ partials

/-- The data of the check that finds the missed write. -/
theorem computeVisualizationData_of_run_register :
    ∃ tr st info, (checkOperations (insertionByTime _ _) register missedWrite true 0).Run tr st ∧
      st.pc = .returned .illegal info ∧
      ∃ data, computeVisualizationData register sampleDescriptions insertionByLength info =
        some data ∧ data.length = 1 := by
  have htime : ∀ part ∈ (fillDefault register).partition missedWrite,
      ∀ v ∈ part, v.call ≤ v.ret := by decide
  obtain ⟨tr, st, hrun, hanswer⟩ := System.exists_run_of_exec
    (checkOperations (insertionByTime _ _) register missedWrite true 0)
    (List.replicate 10 (.work 0) ++ [.receive, .collect [[0]]])
    (fun _ st => st.pc.answer = some (.illegal, [[[0, 1]]])) (by decide)
  obtain ⟨info, hpc, -⟩ := MainPc.eq_returned hanswer
  obtain ⟨data, hdata, hlength, -⟩ := computeVisualizationData_of_run (insertionByTime _ _) register
    missedWrite 0 (equalSound_fillDefault rfl) htime tr st hrun .illegal info hpc
    sampleDescriptions insertionByLength
  exact ⟨tr, st, info, hrun, hpc, data, hdata, hlength⟩

end GoLabs.Porcupine
