import GoLabs.Porcupine.Check

/-!
# `CheckEvents`

A history can also be given as the list of its events. `renumber` gives each id the number of its
first event, and `convertEntries` takes the place of an event for its time. Nothing is sorted.

If every id is called and returns once, the calls in this order (`WellFormed`), then the entries are
those that `makeEntries` makes for the operations of the events (`exists_makeEntries_eq`), so
`checkEvents` says whether these are linearizable: `checkEvents_sound`.
-/

namespace GoLabs.Porcupine

open GoLabs.Lib

variable {ι ο σ : Type}

/-- Source: `checker.go` `checkEvents` -/
def checkEvents [DecidableEq σ] (model : Model ι ο σ) (history : List (Event ℤ ι ο))
    (verbose : Bool) (timeout : ℤ) : System (Par ι ο σ) ParAction :=
  let model := fillDefault model
  let partitions := model.partitionEvent history
  parallel model (partitions.map fun subhistory => convertEntries (renumber subhistory)) verbose
    timeout

/-! ## The operations of events -/

/-- The calls, with their places. -/
def calls (events : List (Event ℤ ι ο)) : List (Event ℤ ι ο × ℕ) :=
  events.zipIdx.filter fun p => p.1.kind = .callEvent

/-- The operation that begins with a call: it ends with the return of the same id. -/
def operationOf (events : List (Event ℤ ι ο)) (p : Event ℤ ι ο × ℕ) : Option (Operation ι ο) :=
  match events.zipIdx.find? fun q => q.1.kind = .returnEvent ∧ q.1.id = p.1.id with
  | none => none
  | some q =>
      match p.1.value, q.1.value with
      | .inl input, .inr output => some ⟨p.1.clientId, input, p.2, output, q.2⟩
      | _, _ => none

/-- **The operations of the events**, in the order of their calls. The time of an event is its
place. -/
def operations (events : List (Event ℤ ι ο)) : List (Operation ι ο) :=
  (calls events).filterMap (operationOf events)

/-- Every operation is called once, and after that returns once, to the same client. -/
structure WellFormed (events : List (Event ℤ ι ο)) : Prop where
  nodup : (events.map fun v => (v.kind, v.id)).Nodup
  complete : ∀ v ∈ events, ∃ p ∈ events.zipIdx, ∃ q ∈ events.zipIdx, p.2 < q.2 ∧
    p.1.kind = .callEvent ∧ q.1.kind = .returnEvent ∧ p.1.id = v.id ∧ q.1.id = v.id ∧
    p.1.clientId = q.1.clientId
  /-- Calls have inputs and returns have outputs. -/
  value : ∀ v ∈ events, v.value.isLeft = decide (v.kind = .callEvent)

variable {events : List (Event ℤ ι ο)} {p q : Event ℤ ι ο × ℕ}

/-- An event is known by its kind and its id. -/
lemma WellFormed.unique (h : WellFormed events) (hp : p ∈ events.zipIdx) (hq : q ∈ events.zipIdx)
    (hkind : p.1.kind = q.1.kind) (hid : p.1.id = q.1.id) : p = q := by
  have hnodup : (events.zipIdx.map fun p => (p.1.kind, p.1.id)).Nodup := by
    have hmap : events.zipIdx.map (fun p => (p.1.kind, p.1.id)) =
        (events.zipIdx.map Prod.fst).map fun v => (v.kind, v.id) := by
      rw [List.map_map]
      rfl
    rw [hmap, List.zipIdx_map_fst]
    exact h.nodup
  exact List.inj_on_of_nodup_map hnodup hp hq (Prod.ext hkind hid)

/-- An event and the operation that it is of. -/
lemma WellFormed.operation (h : WellFormed events) (hp : p ∈ events.zipIdx)
    (hcall : p.1.kind = .callEvent) :
    ∃ q ∈ events.zipIdx, ∃ input output, q.1.kind = .returnEvent ∧ q.1.id = p.1.id ∧ p.2 < q.2 ∧
      p.1.value = .inl input ∧ q.1.value = .inr output ∧ p.1.clientId = q.1.clientId ∧
      operationOf events p = some ⟨p.1.clientId, input, p.2, output, q.2⟩ := by
  have hmem : ∀ {p : Event ℤ ι ο × ℕ}, p ∈ events.zipIdx → p.1 ∈ events := by
    intro p hp
    rw [← List.zipIdx_map_fst 0 events]
    exact List.mem_map_of_mem hp
  obtain ⟨p', hp', q, hq, hlt, hkind', hkind, hid', hid, hclient⟩ := h.complete p.1 (hmem hp)
  obtain rfl : p' = p := h.unique hp' hp (hkind'.trans hcall.symm) hid'
  obtain ⟨input, hinput⟩ : ∃ input, p'.1.value = .inl input := by
    rw [← Sum.isLeft_iff, h.value _ (hmem hp), hcall]
    rfl
  obtain ⟨output, houtput⟩ : ∃ output, q.1.value = .inr output := by
    rw [← Sum.isRight_iff, ← Sum.not_isLeft, h.value _ (hmem hq), hkind]
    decide
  refine ⟨q, hq, input, output, hkind, hid, hlt, hinput, houtput, hclient, ?_⟩
  have hfind : events.zipIdx.find? (fun q => q.1.kind = .returnEvent ∧ q.1.id = p'.1.id) =
      some q := by
    cases hfind : events.zipIdx.find? fun q => q.1.kind = .returnEvent ∧ q.1.id = p'.1.id with
    | none =>
        have hnone := List.find?_eq_none.mp hfind q hq
        exact absurd (decide_eq_true ⟨hkind, hid⟩) hnone
    | some q' =>
        have hq' : q'.1.kind = .returnEvent ∧ q'.1.id = p'.1.id := by
          simpa using List.find?_some hfind
        rw [h.unique (List.mem_of_find?_eq_some hfind) hq (hq'.1.trans hkind.symm)
          (hq'.2.trans hid.symm)]
  unfold operationOf
  rw [hfind]
  simp only [hinput, houtput]

/-! ## Numbers -/

/-- The ids of the calls. -/
def idsOf (events : List (Event ℤ ι ο)) : List ℤ :=
  (events.filter fun v => v.kind = .callEvent).map Event.id

/-- An event with the number of its id. -/
def numbered (ids : List ℤ) (v : Event ℤ ι ο) : Event ℕ ι ο :=
  ⟨v.clientId, v.kind, v.value, ids.idxOf v.id⟩

/-- After the ids `seen`, only calls have new ids. -/
def CallsFirst : (seen : List ℤ) → List (Event ℤ ι ο) → Prop
  | _, [] => True
  | seen, v :: events =>
      if v.kind = .callEvent then v.id ∉ seen ∧ CallsFirst (seen ++ [v.id]) events
      else v.id ∈ seen ∧ CallsFirst seen events

/-- **What the loop of `renumber` does**: the number of an id is its place among the calls. -/
lemma renumberFrom_eq {m : ℤ → Option ℕ} (seen : List ℤ) {events : List (Event ℤ ι ο)}
    (hm : ∀ k, m k = if k ∈ seen then some (seen.idxOf k) else none)
    (h : CallsFirst seen events) :
    renumberFrom m seen.length events = events.map (numbered (seen ++ idsOf events)) := by
  induction events generalizing m seen with
  | nil => rfl
  | cons v events ih =>
      unfold CallsFirst at h
      split_ifs at h with hkind
      · obtain ⟨hnew, h⟩ := h
        have hids : seen ++ idsOf (v :: events) = (seen ++ [v.id]) ++ idsOf events := by
          simp [idsOf, hkind]
        have hnumber : (seen ++ idsOf (v :: events)).idxOf v.id = seen.length := by
          rw [hids, List.append_assoc, List.idxOf_append_of_notMem hnew]
          simp
        have hm' : ∀ k, Function.update m v.id (some seen.length) k =
            if k ∈ seen ++ [v.id] then some ((seen ++ [v.id]).idxOf k) else none := by
          intro k
          by_cases hk : k = v.id
          · subst hk
            simp [List.idxOf_append_of_notMem hnew]
          · rw [Function.update_of_ne hk, hm]
            by_cases hseen : k ∈ seen
            · simp [hseen, List.idxOf_append_of_mem hseen]
            · simp [hseen, hk]
        have hlength : seen.length + 1 = (seen ++ [v.id]).length := by simp
        have hnone : m v.id = none := by rw [hm, if_neg hnew]
        unfold renumberFrom
        rw [hnone, List.map_cons]
        simp only
        rw [hlength, ih _ hm' h, hids]
        unfold numbered
        rw [← hids, hnumber]
      · obtain ⟨hold, h⟩ := h
        have hids : idsOf (v :: events) = idsOf events := by simp [idsOf, hkind]
        have hsome : m v.id = some (seen.idxOf v.id) := by rw [hm, if_pos hold]
        unfold renumberFrom
        rw [hsome, List.map_cons]
        simp only
        rw [ih _ hm h, hids]
        unfold numbered
        rw [List.idxOf_append_of_mem hold]

/-- In a well-formed history, only calls have new ids. -/
lemma WellFormed.callsFirst (h : WellFormed events) (es : List (Event ℤ ι ο))
    {es' : List (Event ℤ ι ο)} (heq : events = es ++ es') : CallsFirst (idsOf es) es' := by
  induction es' generalizing es with
  | nil => trivial
  | cons v es' ih =>
      have hv : (v, es.length) ∈ events.zipIdx := by
        rw [List.mem_zipIdx_iff_getElem?, heq]
        simp
      have hids : ∀ k, k ∈ idsOf es ↔ ∃ p ∈ events.zipIdx, p.2 < es.length ∧
          p.1.kind = .callEvent ∧ p.1.id = k := by
        intro k
        unfold idsOf
        rw [List.mem_map]
        constructor
        · rintro ⟨c, hc, rfl⟩
          obtain ⟨hc, hkind⟩ := List.mem_filter.mp hc
          obtain ⟨i, hi⟩ := List.getElem?_of_mem hc
          have hlt := (List.getElem?_eq_some_iff.mp hi).1
          refine ⟨(c, i), ?_, hlt, of_decide_eq_true hkind, rfl⟩
          rw [List.mem_zipIdx_iff_getElem?, heq, List.getElem?_append_left hlt, hi]
        · rintro ⟨p, hp, hlt, hkind, rfl⟩
          rw [List.mem_zipIdx_iff_getElem?, heq, List.getElem?_append_left hlt] at hp
          exact ⟨p.1, List.mem_filter.mpr ⟨List.mem_of_getElem? hp, decide_eq_true hkind⟩, rfl⟩
      have hnext := ih (es ++ [v]) (by rw [heq, List.append_assoc]; rfl)
      unfold CallsFirst
      split_ifs with hkind
      · have happend : idsOf (es ++ [v]) = idsOf es ++ [v.id] := by simp [idsOf, hkind]
        rw [happend] at hnext
        refine ⟨fun hmem => ?_, hnext⟩
        obtain ⟨p, hp, hlt, hcall, hid⟩ := (hids v.id).mp hmem
        obtain rfl := h.unique hp hv (hcall.trans hkind.symm) hid
        exact absurd hlt (lt_irrefl _)
      · have happend : idsOf (es ++ [v]) = idsOf es := by simp [idsOf, hkind]
        rw [happend] at hnext
        refine ⟨(hids v.id).mpr ?_, hnext⟩
        have hmem : v ∈ events := by
          rw [heq]
          simp
        obtain ⟨p, hp, q, hq, hlt, hcall, hret, hid, hid', -⟩ := h.complete v hmem
        have hkind : v.kind = .returnEvent := by
          cases hv : v.kind with
          | callEvent => exact absurd hv hkind
          | returnEvent => rfl
        obtain rfl := h.unique hq hv (hret.trans hkind.symm) hid'
        exact ⟨p, hp, hlt, hcall, hid⟩

/-! ## Entries -/

/-- The entries of the events. -/
lemma WellFormed.mem_entries (h : WellFormed events) {e : Entry ι ο} :
    e ∈ convertEntries (renumber events) ↔ ∃ p ∈ events.zipIdx,
      e = ⟨if p.1.kind = .returnEvent then .returnEntry else .callEntry, p.1.value,
        (idsOf events).idxOf p.1.id, p.2, p.1.clientId⟩ := by
  have hrenumber : renumber events = events.map (numbered (idsOf events)) :=
    renumberFrom_eq [] (fun k => by simp) (h.callsFirst [] rfl)
  unfold convertEntries
  rw [hrenumber, List.zipIdx_map, List.map_map, List.mem_map]
  constructor
  · rintro ⟨p, hp, rfl⟩
    exact ⟨p, hp, rfl⟩
  · rintro ⟨p, hp, rfl⟩
    exact ⟨p, hp, rfl⟩

/-- They come in the order of their times, which are all different. -/
lemma pairwise_convertEntries (es : List (Event ℕ ι ο)) :
    (convertEntries es).Pairwise fun a b => a.time < b.time := by
  have htimes : (convertEntries es).map Entry.time =
      (List.range es.length).map fun i : ℕ => (i : ℤ) := by
    unfold convertEntries
    rw [List.map_map, List.range_eq_range', ← List.zipIdx_map_snd 0 es, List.map_map]
    rfl
  rw [← List.pairwise_map (f := Entry.time), htimes, List.pairwise_map]
  exact List.pairwise_lt_range.imp fun hlt => Int.ofNat_lt.mpr hlt

/-- A filter that keeps everything. -/
lemma getElem?_filterMap {α β : Type} {f : α → Option β} {l : List α} (h : ∀ a ∈ l, f a ≠ none)
    (m : ℕ) : (l.filterMap f)[m]? = l[m]?.bind f := by
  induction l generalizing m with
  | nil => simp
  | cons a l ih =>
      obtain ⟨b, hb⟩ := Option.ne_none_iff_exists'.mp (h a List.mem_cons_self)
      rw [List.filterMap_cons_some hb]
      cases m with
      | zero => simp [hb]
      | succ m => simpa using ih (fun a ha => h a (List.mem_cons_of_mem _ ha)) m

/-- The calls are the events of this kind. -/
lemma mem_calls : p ∈ calls events ↔ p ∈ events.zipIdx ∧ p.1.kind = .callEvent := by
  unfold calls
  rw [List.mem_filter, decide_eq_true_eq]

/-- An operation for each call, in the order of the calls. -/
lemma WellFormed.getElem?_operations (h : WellFormed events) (m : ℕ) :
    (operations events)[m]? = (calls events)[m]?.bind (operationOf events) := by
  refine getElem?_filterMap (fun p hp => ?_) m
  obtain ⟨hp, hkind⟩ := mem_calls.mp hp
  obtain ⟨q, -, input, output, -, -, -, -, -, -, hop⟩ := h.operation hp hkind
  rw [hop]
  exact Option.some_ne_none _

/-- The ids of the calls are all different, so the number of an id is the place of its call. -/
lemma WellFormed.idxOf_eq (h : WellFormed events) {m : ℕ} (hm : (calls events)[m]? = some p) :
    (idsOf events).idxOf p.1.id = m := by
  have hids : idsOf events = (calls events).map fun p => p.1.id := by
    have hfilter : events.filter (fun v => v.kind = .callEvent) = (calls events).map Prod.fst := by
      conv_lhs => rw [← List.zipIdx_map_fst 0 events]
      rw [List.filter_map]
      rfl
    unfold idsOf
    rw [hfilter, List.map_map]
    rfl
  have hzip : events.zipIdx.Nodup := by
    refine List.Nodup.of_map Prod.snd ?_
    rw [List.zipIdx_map_snd]
    exact List.nodup_range'
  have hnodup : (idsOf events).Nodup := by
    rw [hids]
    refine (hzip.filter _).map_on fun p hp q hq hid => ?_
    obtain ⟨hp, hkind⟩ := mem_calls.mp hp
    obtain ⟨hq, hkind'⟩ := mem_calls.mp hq
    exact h.unique hp hq (hkind.trans hkind'.symm) hid
  have hget : (idsOf events)[m]? = some p.1.id := by
    rw [hids, List.getElem?_map, hm]
    rfl
  obtain ⟨hlt, hget⟩ := List.getElem?_eq_some_iff.mp hget
  rw [← hget]
  exact hnodup.idxOf_getElem m hlt

/-- **The entries of the events are those of their operations**, in another order. -/
lemma WellFormed.perm (h : WellFormed events) :
    (convertEntries (renumber events)).Perm (makeEntriesFrom 0 (operations events)) := by
  have hnodup : (convertEntries (renumber events)).Nodup :=
    (pairwise_convertEntries _).imp fun hlt heq => (ne_of_lt hlt) (congrArg Entry.time heq)
  refine (List.perm_ext_iff_of_nodup hnodup (nodup_makeEntriesFrom 0 _)).mpr fun e => ?_
  rw [h.mem_entries, mem_makeEntriesFrom]
  constructor
  · rintro ⟨p, hp, rfl⟩
    -- the operation of the event begins with the call `c` and ends with the return `q`
    have hmem : p.1 ∈ events := by
      rw [← List.zipIdx_map_fst 0 events]
      exact List.mem_map_of_mem hp
    obtain ⟨c, hc, -, -, -, hcall, -, hid, -⟩ := h.complete p.1 hmem
    obtain ⟨q, hq, input, output, hret, hid', -, hinput, houtput, hclient, hop⟩ :=
      h.operation hc hcall
    obtain ⟨m, hm⟩ := List.getElem?_of_mem (mem_calls.mpr ⟨hc, hcall⟩)
    have hidx := h.idxOf_eq hm
    refine ⟨m, ⟨c.1.clientId, input, c.2, output, q.2⟩, ?_, ?_⟩
    · rw [h.getElem?_operations, hm]
      exact hop
    · cases hkind : p.1.kind with
      | callEvent =>
          obtain rfl := h.unique hp hc (hkind.trans hcall.symm) hid.symm
          simp [Operation.callEntry, hidx, hinput]
      | returnEvent =>
          obtain rfl := h.unique hp hq (hkind.trans hret.symm) (hid.symm.trans hid'.symm)
          simp [Operation.returnEntry, hid', hidx, houtput, hclient]
  · rintro ⟨m, v, hv, he⟩
    rw [h.getElem?_operations, Option.bind_eq_some_iff] at hv
    obtain ⟨p, hm, hop⟩ := hv
    obtain ⟨hp, hkind⟩ := mem_calls.mp (List.mem_of_getElem? hm)
    obtain ⟨q, hq, input, output, hkind', hid, -, hinput, houtput, hclient, hop'⟩ :=
      h.operation hp hkind
    rw [hop'] at hop
    obtain rfl := Option.some.inj hop
    have hidx := h.idxOf_eq hm
    rcases he with rfl | rfl
    · refine ⟨p, hp, ?_⟩
      simp [Operation.callEntry, hkind, hidx, hinput]
    · refine ⟨q, hq, ?_⟩
      simp [Operation.returnEntry, hkind', hid, hidx, houtput, hclient]

/-- **The entries of the events are what `makeEntries` makes of their operations**, with some
sort. -/
lemma WellFormed.exists_makeEntries_eq (h : WellFormed events) :
    ∃ B : ByTime ι ο, makeEntries B (operations events) = convertEntries (renumber events) := by
  classical
  have hordered : (convertEntries (renumber events)).Pairwise
      fun a b => byTimeLess b a = false := by
    refine (pairwise_convertEntries _).imp fun {a b} hlt => ?_
    unfold byTimeLess
    rw [if_pos (ne_of_gt hlt)]
    exact decide_eq_false (not_lt.mpr hlt.le)
  let B := insertionByTime ι ο
  let sort := fun entries : List (Entry ι ο) =>
    if entries = makeEntriesFrom 0 (operations events) then convertEntries (renumber events)
    else B.sort entries
  refine ⟨⟨sort, fun entries => ?_, fun entries => ?_⟩, if_pos rfl⟩
  · show (if _ then _ else _ : List (Entry ι ο)).Perm _
    split_ifs with heq
    · rw [heq]
      exact h.perm
    · exact B.perm entries
  · show (if _ then _ else _ : List (Entry ι ο)).Pairwise _
    split_ifs
    · exact hordered
    · exact B.ordered entries

/-- The searches of a partition of events. -/
lemma WellFormed.decides {model : FullModel ι ο σ} (h : WellFormed events)
    (hequal : model.EqualSound) : Decides model (convertEntries (renumber events))
      (model.IsLinearizable (operations events)) (model.IsPrefix (operations events)) := by
  obtain ⟨B, hB⟩ := h.exists_makeEntries_eq
  rw [← hB]
  refine decides_makeEntries hequal B fun v hv => ?_
  obtain ⟨p, hp, hop⟩ := List.mem_filterMap.mp hv
  obtain ⟨hp, hkind⟩ := mem_calls.mp hp
  obtain ⟨q, -, input, output, -, -, hlt, -, -, -, hop'⟩ := h.operation hp hkind
  rw [hop'] at hop
  obtain rfl := Option.some.inj hop
  exact Int.ofNat_le.mpr hlt.le

/-! ## `CheckEvents` -/

section CheckEvents

variable [DecidableEq σ] (model : Model ι ο σ) (history : List (Event ℤ ι ο)) (verbose : Bool)
  (timeout : ℤ)

/-- **The result of `checkEvents` is right**, in every interleaving of the searches and of the
timer, for partitions in which every id is called once and then returns once. The operations of a
partition are ordered in real time as their events are in the list, and what is searched are the
entries that `makeEntries` makes for them. If there is a partition, the call returns. -/
theorem checkEvents_sound (hequal : (fillDefault model).EqualSound)
    (hformed : ∀ part ∈ (fillDefault model).partitionEvent history, WellFormed part) :
    (∀ part ∈ (fillDefault model).partitionEvent history, ∃ B : ByTime ι ο,
      convertEntries (renumber part) = makeEntries B (operations part)) ∧
    (∀ tr st, (checkEvents model history verbose timeout).Run tr st → st.crashed = false ∧
      ∀ r info, st.pc = .returned r info →
        (r = .ok → ∀ part ∈ (fillDefault model).partitionEvent history,
          (fillDefault model).IsLinearizable (operations part)) ∧
        (r = .illegal → ∃ part ∈ (fillDefault model).partitionEvent history,
          ¬ (fillDefault model).IsLinearizable (operations part)) ∧
        (r = .unknown → 0 < timeout)) ∧
    ((fillDefault model).partitionEvent history ≠ [] → ∃ bound, ∀ tr st,
      (checkEvents model history verbose timeout).Run tr st → tr.length ≤ bound ∧
        ((∃ r info, st.pc = .returned r info) ∨ ∃ a st', a ≠ ParAction.timeout ∧
          (checkEvents model history verbose timeout).step st a = some st')) := by
  have hdec := fun part hpart => (hformed part hpart).decides hequal
  refine ⟨fun part hpart => ?_,
    fun tr st hrun => ⟨?_, fun r info hpc => verdict_of_run hdec hrun hpc⟩, fun hne => ?_⟩
  · obtain ⟨B, hB⟩ := (hformed part hpart).exists_makeEntries_eq
    exact ⟨B, hB.symm⟩
  · exact (Par.Inv.of_run (checkable_map hdec) hrun).crashed
  · refine parallel_returns (checkable_map hdec) ?_
    rwa [Ne, List.map_eq_nil_iff]

end CheckEvents

/-- The events of `missedWrite`, with other ids. -/
def missedWriteEvents : List (Event ℤ (Option ℕ) ℕ) :=
  [⟨0, .callEvent, .inl (some 5), 70⟩, ⟨1, .callEvent, .inl none, -1⟩,
    ⟨0, .returnEvent, .inr 0, 70⟩, ⟨1, .returnEvent, .inr 5, -1⟩,
    ⟨2, .callEvent, .inl none, 3⟩, ⟨2, .returnEvent, .inr 0, 3⟩]

/-- Every id is called once and returns once. -/
lemma missedWriteEvents_wellFormed : WellFormed missedWriteEvents :=
  ⟨by decide, by decide, by decide⟩

/-- The read that misses the write is found. -/
theorem checkEvents_sound_register :
    ∃ tr st info, (checkEvents register missedWriteEvents false 0).Run tr st ∧
      st.pc = .returned .illegal info ∧
      ¬ (fillDefault register).IsLinearizable (operations missedWriteEvents) := by
  have hformed : ∀ part ∈ (fillDefault register).partitionEvent missedWriteEvents,
      WellFormed part := by
    intro part hpart
    obtain rfl := List.mem_singleton.mp hpart
    exact missedWriteEvents_wellFormed
  obtain ⟨tr, st, hrun, hanswer⟩ := System.exists_run_of_exec
    (checkEvents register missedWriteEvents false 0) (List.replicate 10 (.work 0) ++ [.receive])
    (fun _ st => st.pc.answer = some (.illegal, [])) (by decide)
  obtain ⟨info, hpc, -⟩ := MainPc.eq_returned hanswer
  obtain ⟨-, hmeaning⟩ := (checkEvents_sound register missedWriteEvents false 0
    (equalSound_fillDefault rfl) hformed).2.1 tr st hrun
  obtain ⟨part, hpart, hnot⟩ := (hmeaning .illegal info hpc).2.1 rfl
  obtain rfl := List.mem_singleton.mp hpart
  exact ⟨tr, st, info, hrun, hpc, hnot⟩

end GoLabs.Porcupine
