import GoLabs.Porcupine.CheckSingle

/-!
# What `checkSingle` says about a history

The results of `CheckSingle`, for the entries of the operations of a history.

* `checkSingle_correct` — the search ends, says yes only if the history is linearizable, and says no
  only if it is not or if it was told to stop.
* `checkSingle_longest` — a search that is not told to stop has for each operation a longest
  linearizable prefix that includes it.
-/

namespace GoLabs.Porcupine

open GoLabs.Lib

variable {ι ο σ : Type}

/-- The object of a model, for the operations of a history. -/
def FullModel.onOps (model : FullModel ι ο σ) : Spec σ (Operation ι ο) :=
  model.object.comap fun v => (v.input, v.output)

/-- The history is linearizable with respect to the model. -/
def FullModel.IsLinearizable (model : FullModel ι ο σ) (history : List (Operation ι ο)) : Prop :=
  Linearizable Operation.call Operation.ret model.onOps history

/-- A history as a function of the numbers of its operations. -/
lemma exists_op [Nonempty (Operation ι ο)] (history : List (Operation ι ο)) :
    ∃ op : ℕ → Operation ι ο, history = (List.range history.length).map op := by
  obtain ⟨v⟩ := ‹Nonempty (Operation ι ο)›
  refine ⟨fun i => history.getD i v, List.ext_getElem (by simp) fun i hi hi' => ?_⟩
  simp [hi]

section Numbered

variable {model : FullModel ι ο σ} {B : ByTime ι ο} {n : ℕ} {op : ℕ → Operation ι ο}
  {htime : ∀ i < n, (op i).call ≤ (op i).ret}

/-- The trace has a linearization iff the history is linearizable. -/
lemma isLinearizable_iff : model.IsLinearizable ((List.range n).map op) ↔
    ∃ l, (traceOf op B n htime).Linearization
      (model.spec (fun i => (op i).input) (fun i => (op i).output)) l :=
  Trace.linearizable_iff (T := traceOf op B n htime) (fun _ hi _ hj => before_iff hi hj) model.onOps

/-- Operations that can have taken effect before all others, in this order. -/
structure LinearizablePrefix (model : FullModel ι ο σ) (n : ℕ) (op : ℕ → Operation ι ο)
    (l : List ℕ) : Prop where
  nodup : l.Nodup
  lt : ∀ i ∈ l, i < n
  order : l.Pairwise fun i j => ¬ (op j).ret < (op i).call
  /-- What has returned before one of them is called is one of them. -/
  closed : ∀ i ∈ l, ∀ j < n, (op j).ret < (op i).call → j ∈ l
  accepted : model.onOps.accepts model.init (l.map op) = true

/-- The linearizable prefixes are the partial linearizations of the trace. -/
lemma linearizablePrefix_iff {l : List ℕ} : LinearizablePrefix model n op l ↔
    (traceOf op B n htime).PartialLinearization
      (model.spec (fun i => (op i).input) (fun i => (op i).output)) l := by
  have hbefore : ∀ {i j}, i < n → j < n →
      ((traceOf op B n htime).Before j i ↔ (op j).ret < (op i).call) := before_iff
  have haccepts : model.onOps.accepts model.init (l.map op) =
      (model.spec (fun i => (op i).input) (fun i => (op i).output)).accepts model.init l := by
    unfold FullModel.onOps FullModel.spec
    rw [Spec.accepts_comap, Spec.accepts_comap, List.map_map]
    rfl
  constructor
  · intro h
    refine ⟨h.nodup, h.lt, ?_, ?_, haccepts ▸ h.accepted⟩
    · exact h.order.imp_of_mem fun hi hj hij => by rwa [hbefore (h.lt _ hi) (h.lt _ hj)]
    · intro i hi j hj
      exact h.closed i hi j hj.lt.1 ((hbefore (h.lt i hi) hj.lt.1).mp hj)
  · intro h
    refine ⟨h.nodup, h.lt, ?_, ?_, haccepts.trans h.accepted⟩
    · exact h.order.imp_of_mem fun hi hj hij => by rwa [hbefore (h.lt _ hi) (h.lt _ hj)] at hij
    · intro i hi j hj hlt
      exact h.closed i hi j ((hbefore (h.lt i hi) hj).mpr hlt)

/-- The loop on the entries of a history. -/
lemma checkSingle_numbered (hequal : model.EqualSound) (htime : ∀ i < n, (op i).call ≤ (op i).ret)
    (computePartial : Bool) (kill : ℕ → Bool) :
    ∃ k b longest, (∀ fuel, k ≤ fuel →
        checkSingle model (makeEntries B ((List.range n).map op)) computePartial kill fuel =
          some (b, longest)) ∧
      (b = true → model.IsLinearizable ((List.range n).map op)) ∧
      (b = false → ¬ model.IsLinearizable ((List.range n).map op) ∨ ∃ i, kill i = true) ∧
      ((∀ i, kill i = false) → computePartial = true → longest.Correct (traceOf op B n htime)
        (model.spec (fun i => (op i).input) (fun i => (op i).output))) := by
  have hdescribes : Describes (makeEntries B ((List.range n).map op)) (traceOf op B n htime)
      (fun i => (op i).input) (fun i => (op i).output) := makeEntries_describes
  obtain ⟨C, x₀, k₀, b, longest, hsetup, hends, hanswer, hlongest⟩ :=
    checkSingle_ends hdescribes hequal computePartial
  rw [← isLinearizable_iff] at hanswer
  obtain ⟨k, r, hends', hr⟩ := Setup.endsIn_iteration kill hends 0
  have hrun : ∀ fuel, k + 1 ≤ fuel → checkSingle model (makeEntries B ((List.range n).map op))
      computePartial kill fuel = some r := by
    intro fuel hfuel
    unfold checkSingle
    rw [hsetup]
    exact hends'.loop_eq hfuel
  rcases hr with rfl | ⟨⟨i, hi⟩, w, -, rfl⟩
  · refine ⟨k + 1, b, longest, hrun, hanswer.mp, fun hb => Or.inl fun h => ?_,
      fun _ hcompute => (hlongest hcompute).2⟩
    rw [hanswer.mpr h] at hb
    cases hb
  · refine ⟨k + 1, false, w.longest, hrun, fun hb => (by cases hb), fun _ => Or.inr ⟨i, hi⟩, ?_⟩
    intro hkill
    rw [hkill i] at hi
    cases hi

end Numbered

/-- A history without operations. -/
lemma checkSetup_nil (model : FullModel ι ο σ) (B : ByTime ι ο) (computePartial : Bool) :
    ∃ C x, checkSetup model (makeEntries B []) computePartial = some (C, x) ∧
      x.longest = ⟨[], []⟩ ∧
      ∀ kill, C.checkStep kill x = some (.inr (true, ⟨[[]], []⟩)) := by
  have hnil : makeEntries B [] = [] := List.perm_nil.mp (B.perm [])
  have hlength : length (makeLinkedEntries ([] : List (Entry ι ο))).links (0 + 1) none = some 0 :=
    rfl
  refine ⟨⟨model, [], 0, computePartial⟩,
    ⟨Links.empty, none, newBitset 0, fun _ => [], [], ⟨[], []⟩, model.init⟩, ?_, rfl, fun _ => rfl⟩
  rw [hnil]
  unfold checkSetup
  show (length (makeLinkedEntries ([] : List (Entry ι ο))).links (0 + 1) none).bind _ = _
  rw [hlength]
  rfl

/-- **`checkSingle` is correct.** Whatever is read from `kill`, the loop ends, no pointer that it
follows is nil and no index is out of range. If it returns true the history is linearizable, and if
it returns false it is not, or the flag was set. -/
theorem checkSingle_correct (model : FullModel ι ο σ) (hequal : model.EqualSound) (B : ByTime ι ο)
    (history : List (Operation ι ο)) (htime : ∀ v ∈ history, v.call ≤ v.ret) (computePartial : Bool)
    (kill : ℕ → Bool) :
    ∃ k b longest, (∀ fuel, k ≤ fuel →
        checkSingle model (makeEntries B history) computePartial kill fuel = some (b, longest)) ∧
      (b = true → model.IsLinearizable history) ∧
      (b = false → ¬ model.IsLinearizable history ∨ ∃ i, kill i = true) := by
  rcases isEmpty_or_nonempty (Operation ι ο) with hempty | hnonempty
  · obtain rfl : history = [] := List.eq_nil_iff_forall_not_mem.mpr fun v => hempty.elim v
    obtain ⟨C, x, hsetup, -, hstep⟩ := checkSetup_nil model B computePartial
    refine ⟨1, true, ⟨[[]], []⟩, fun fuel hfuel => ?_, fun _ => ?_, fun hb => (by cases hb)⟩
    · have hends : EndsIn (C.iteration kill) 0 (0, x) (true, ⟨[[]], []⟩) := by
        refine EndsIn.leave ?_
        unfold Setup.iteration
        rw [hstep]
        rfl
      unfold checkSingle
      rw [hsetup]
      exact hends.loop_eq hfuel
    · exact ⟨[], List.Perm.refl _, List.Pairwise.nil, rfl⟩
  · obtain ⟨op, hop⟩ := exists_op history
    have htime' : ∀ i < history.length, (op i).call ≤ (op i).ret := by
      intro i hi
      refine htime (op i) ?_
      rw [hop]
      exact List.mem_map_of_mem (List.mem_range.mpr hi)
    obtain ⟨k, b, longest, hrun, htrue, hfalse, -⟩ :=
      checkSingle_numbered (B := B) hequal htime' computePartial kill
    rw [← hop] at hrun htrue hfalse
    exact ⟨k, b, longest, hrun, htrue, hfalse⟩

/-- **`longest` has longest linearizable prefixes.** A search that is not told to stop ends with
nothing for an operation that is in no linearizable prefix, and with one of the longest that include
it for every other. -/
theorem checkSingle_longest (model : FullModel ι ο σ) (hequal : model.EqualSound) (B : ByTime ι ο)
    (n : ℕ) (op : ℕ → Operation ι ο) (htime : ∀ i < n, (op i).call ≤ (op i).ret) :
    ∃ k b longest, (∀ fuel, k ≤ fuel →
        checkSingle model (makeEntries B ((List.range n).map op)) true (fun _ => false) fuel =
          some (b, longest)) ∧
      ∀ i < n,
        (longest.pointers[i]? = some none ∧ ∀ l, LinearizablePrefix model n op l → i ∉ l) ∨
        ∃ a q, longest.pointers[i]? = some (some a) ∧ longest.seqs[a]? = some q ∧
          LinearizablePrefix model n op q ∧ i ∈ q ∧
          ∀ l, LinearizablePrefix model n op l → i ∈ l → l.length ≤ q.length := by
  obtain ⟨k, b, longest, hrun, -, -, hlongest⟩ :=
    checkSingle_numbered (B := B) hequal htime true fun _ => false
  have hiff : ∀ l, LinearizablePrefix model n op l ↔
      (traceOf op B n htime).PartialLinearization
        (model.spec (fun i => (op i).input) (fun i => (op i).output)) l :=
    fun _ => linearizablePrefix_iff
  refine ⟨k, b, longest, hrun, fun i hi => ?_⟩
  simp only [hiff]
  exact hlongest (fun _ => rfl) rfl i hi

/-! ## A register -/

/-- Insertion sort by time. -/
def insertionByTime (ι ο : Type) : ByTime ι ο where
  sort := List.insertionSort fun a b => byTimeLess b a = false
  perm := List.perm_insertionSort _
  ordered entries := by
    have htotal : ∀ a b : Entry ι ο, byTimeLess b a = false ∨ byTimeLess a b = false := by
      intro a b
      unfold byTimeLess
      grind
    have htrans : ∀ a b c : Entry ι ο, byTimeLess b a = false → byTimeLess c b = false →
        byTimeLess c a = false := by
      intro a b c
      unfold byTimeLess
      cases hb : b.kind <;> grind
    have : Std.Total fun a b : Entry ι ο => byTimeLess b a = false := ⟨htotal⟩
    have : IsTrans (Entry ι ο) fun a b => byTimeLess b a = false := ⟨htrans⟩
    exact List.pairwise_insertionSort _ entries

/-- A register: an input is a value to write or none to read, and a read returns the value. -/
def register : Model (Option ℕ) ℕ ℕ where
  partition := none
  partitionEvent := none
  init := 0
  step value input output :=
    match input with
    | some v => (true, v)
    | none => (decide (output = value), value)
  equal := none

/-- `ShallowEqual` is sound for every model. -/
lemma equalSound_fillDefault [DecidableEq σ] {model : Model ι ο σ} (h : model.equal = none) :
    (fillDefault model).EqualSound := by
  intro s t hst l
  unfold fillDefault at hst
  rw [h] at hst
  rw [of_decide_eq_true hst]

/-- A read that overlaps a write, and one that comes after it and misses it. -/
def missedWrite : List (Operation (Option ℕ) ℕ) :=
  [⟨0, some 5, 0, 0, 10⟩, ⟨1, none, 4, 5, 12⟩, ⟨2, none, 20, 0, 30⟩]

/-- The search ends on it, also when the flag is set on the way. -/
theorem checkSingle_correct_register :
    (fillDefault register).EqualSound ∧ (∀ v ∈ missedWrite, v.call ≤ v.ret) ∧
    ∃ k b longest, (∀ fuel, k ≤ fuel →
        checkSingle (fillDefault register) (makeEntries (insertionByTime _ _) missedWrite) true
          (fun i => decide (3 ≤ i)) fuel = some (b, longest)) ∧
      (b = true → (fillDefault register).IsLinearizable missedWrite) ∧
      (b = false → ¬ (fillDefault register).IsLinearizable missedWrite ∨
        ∃ i, decide (3 ≤ i) = true) := by
  have hequal : (fillDefault register).EqualSound := equalSound_fillDefault rfl
  have htime : ∀ v ∈ missedWrite, v.call ≤ v.ret := by decide
  exact ⟨hequal, htime, checkSingle_correct (fillDefault register) hequal (insertionByTime _ _)
    missedWrite htime true fun i => decide (3 ≤ i)⟩

/-- The operations of `missedWrite` by their numbers. -/
def missedWriteOp (i : ℕ) : Operation (Option ℕ) ℕ := missedWrite.getD i ⟨2, none, 20, 0, 30⟩

/-- No linearizable prefix includes the last read, so `longest` has nothing for it. -/
theorem checkSingle_longest_register :
    ∃ k b longest, (∀ fuel, k ≤ fuel →
        checkSingle (fillDefault register)
          (makeEntries (insertionByTime _ _) ((List.range 3).map missedWriteOp)) true
          (fun _ => false) fuel = some (b, longest)) ∧
      ∀ i < 3,
        (longest.pointers[i]? = some none ∧
          ∀ l, LinearizablePrefix (fillDefault register) 3 missedWriteOp l → i ∉ l) ∨
        ∃ a q, longest.pointers[i]? = some (some a) ∧ longest.seqs[a]? = some q ∧
          LinearizablePrefix (fillDefault register) 3 missedWriteOp q ∧ i ∈ q ∧
          ∀ l, LinearizablePrefix (fillDefault register) 3 missedWriteOp l → i ∈ l →
            l.length ≤ q.length :=
  checkSingle_longest (fillDefault register) (equalSound_fillDefault rfl) (insertionByTime _ _) 3
    missedWriteOp (by decide)

/-- It is not linearizable: the write and the first read are a longest prefix. -/
example : (checkSingle (fillDefault register) (makeEntries (insertionByTime _ _) missedWrite) true
    (fun _ => false) 20).map (fun r => (r.1, r.2.seqs, r.2.pointers)) =
      some (false, [[0, 1]], [some 0, some 0, none]) := by decide

end GoLabs.Porcupine
