import GoLabs.Lib.Links
import GoLabs.Lib.Trace

/-!
# The entries of the linearizability checker

The checker turns the operations or the events of a history into entries, one for each call and one
for each return, and the entries into nodes of a doubly linked list, in which the node of a call
points to the node of its return.

* `makeEntries`, `renumber`, `convertEntries`, `insertBefore`, `makeLinkedEntries`, `length` — as in
  the source.
* `Describes` — the entries are those of a trace (`Trace`) with these inputs and outputs.
* `Layout` — the nodes are those of a trace, at these addresses.

The entries that `makeEntries` makes describe a trace in which a return comes before a call iff its
time is lower (`makeEntries_describes`, `before_iff`), provided that no operation returns before it
is called. `makeLinkedEntries` lays out the nodes of the trace that its entries describe
(`makeLinkedEntries_layout`).
-/

namespace GoLabs.Porcupine

open GoLabs.Lib

variable {ι ο σ : Type}

/-! ## Histories -/

/-- An operation of a history.
Source: `model.go` `Operation` -/
structure Operation (ι ο : Type) where
  clientId : ℤ
  input : ι
  call : ℤ
  output : ο
  ret : ℤ
  deriving DecidableEq

/-- Source: `model.go` `EventKind` -/
inductive EventKind
  | callEvent
  | returnEvent
  deriving DecidableEq

/-- An event of a history. A call has an input for its value and a return an output.
Source: `model.go` `Event` -/
structure Event (κ ι ο : Type) where
  clientId : ℤ
  kind : EventKind
  value : ι ⊕ ο
  id : κ
  deriving DecidableEq

/-! ## Entries -/

/-- Source: `checker.go` `entryKind` -/
inductive EntryKind
  | callEntry
  | returnEntry
  deriving DecidableEq

/-- Source: `checker.go` `entry` -/
structure Entry (ι ο : Type) where
  kind : EntryKind
  value : ι ⊕ ο
  id : ℕ
  time : ℤ
  clientId : ℤ
  deriving DecidableEq

/-- Calls come before returns of the same time.
Source: `checker.go` `byTime.Less` -/
def byTimeLess (a b : Entry ι ο) : Bool :=
  if a.time ≠ b.time then decide (a.time < b.time)
  else decide (a.kind = .callEntry ∧ b.kind = .returnEntry)

/-- `sort.Sort(byTime(entries))`. Entries of which none is less than the other come in any order. -/
structure ByTime (ι ο : Type) where
  sort : List (Entry ι ο) → List (Entry ι ο)
  perm : ∀ entries, (sort entries).Perm entries
  ordered : ∀ entries, (sort entries).Pairwise fun a b => byTimeLess b a = false

/-- The loop of `makeEntries`. -/
def makeEntriesFrom : (id : ℕ) → List (Operation ι ο) → List (Entry ι ο)
  | _, [] => []
  | id, elem :: history =>
      ⟨.callEntry, .inl elem.input, id, elem.call, elem.clientId⟩ ::
        ⟨.returnEntry, .inr elem.output, id, elem.ret, elem.clientId⟩ ::
          makeEntriesFrom (id + 1) history

/-- Source: `checker.go` `makeEntries` -/
def makeEntries (B : ByTime ι ο) (history : List (Operation ι ο)) : List (Entry ι ο) :=
  B.sort (makeEntriesFrom 0 history)

/-- The loop of `renumber`, with its map and its counter. -/
def renumberFrom (m : ℤ → Option ℕ) (id : ℕ) : List (Event ℤ ι ο) → List (Event ℕ ι ο)
  | [] => []
  | v :: events =>
      match m v.id with
      | some r => ⟨v.clientId, v.kind, v.value, r⟩ :: renumberFrom m id events
      | none =>
          ⟨v.clientId, v.kind, v.value, id⟩ ::
            renumberFrom (Function.update m v.id (some id)) (id + 1) events

/-- Source: `checker.go` `renumber` -/
def renumber (events : List (Event ℤ ι ο)) : List (Event ℕ ι ο) :=
  renumberFrom (fun _ => none) 0 events

/-- Source: `checker.go` `convertEntries` -/
def convertEntries (events : List (Event ℕ ι ο)) : List (Entry ι ο) :=
  events.zipIdx.map fun (elem, i) =>
    let kind := if elem.kind = .returnEvent then EntryKind.returnEntry else EntryKind.callEntry
    ⟨kind, elem.value, elem.id, i, elem.clientId⟩

/-! ## Nodes -/

/-- A node without the two pointers that make it part of a list, which are kept in `Links`. A node
is known by its address.
Source: `checker.go` `node` -/
structure Node (ι ο : Type) where
  value : ι ⊕ ο
  /-- The node of the return of a call, nil for a return. -/
  matching : Option ℕ
  id : ℕ
  deriving DecidableEq

/-- Source: `checker.go` `insertBefore` -/
def insertBefore (L : Links) (n : ℕ) (mark : Option ℕ) : Links :=
  match mark with
  | none => L
  | some mark =>
      let beforeMark := L.prev mark
      let L := (L.setPrev mark (some n)).setNext n (some mark)
      match beforeMark with
      | none => L
      | some b => (L.setPrev n (some b)).setNext b (some n)

/-- An iteration of `length`, with its variables `n` and `l`. -/
def lengthStep (L : Links) (x : Option ℕ × ℕ) : Option (Option ℕ × ℕ ⊕ ℕ) :=
  match x.1 with
  | none => some (.inr x.2)
  | some a => some (.inl (L.next a, x.2 + 1))

/-- The number of nodes from `n` on. `none` if the bound on the number of iterations is too low.
Source: `checker.go` `length` -/
def length (L : Links) (fuel : ℕ) (n : Option ℕ) : Option ℕ := loop (lengthStep L) fuel (n, 0)

/-- The variables of `makeLinkedEntries`. The nodes are in the order in which they are allocated,
and the address of a node is its place in this order. -/
structure Linking (ι ο : Type) where
  nodes : List (Node ι ο)
  links : Links
  root : Option ℕ
  /-- The map `match`. -/
  returns : ℕ → Option ℕ

/-- One iteration of `makeLinkedEntries`. -/
def linkEntry (elem : Entry ι ο) (x : Linking ι ο) : Linking ι ο :=
  let entry := x.nodes.length
  match elem.kind with
  | .returnEntry =>
      { nodes := x.nodes ++ [⟨elem.value, none, elem.id⟩]
        returns := Function.update x.returns elem.id (some entry)
        links := insertBefore x.links entry x.root
        root := some entry }
  | .callEntry =>
      { nodes := x.nodes ++ [⟨elem.value, x.returns elem.id, elem.id⟩]
        returns := x.returns
        links := insertBefore x.links entry x.root
        root := some entry }

/-- The loop goes from the last entry to the first one.
Source: `checker.go` `makeLinkedEntries` -/
def makeLinkedEntries (entries : List (Entry ι ο)) : Linking ι ο :=
  entries.foldr linkEntry ⟨[], Links.empty, none, fun _ => none⟩

/-! ## The trace of a list of entries -/

/-- The event that an entry stands for. -/
def Entry.event (e : Entry ι ο) : Ev :=
  match e.kind with
  | .callEntry => .call e.id
  | .returnEntry => .ret e.id

/-- The event of an entry has its id. -/
@[simp] lemma Entry.event_id (e : Entry ι ο) : e.event.id = e.id := by
  unfold Entry.event
  split <;> rfl

/-- What an event of the operations with these inputs and outputs has for its value. -/
def valueOf (input : ℕ → ι) (output : ℕ → ο) : Ev → ι ⊕ ο
  | .call i => .inl (input i)
  | .ret i => .inr (output i)

/-- The entries are those of the trace, with these inputs and outputs. -/
structure Describes {n : ℕ} (entries : List (Entry ι ο)) (T : Trace n) (input : ℕ → ι)
    (output : ℕ → ο) : Prop where
  events : entries.map Entry.event = T.events
  value : ∀ e ∈ entries, e.value = valueOf input output e.event

/-! ## The trace of `makeEntries` -/

/-- The entry of the call of an operation. -/
def Operation.callEntry (v : Operation ι ο) (id : ℕ) : Entry ι ο :=
  ⟨.callEntry, .inl v.input, id, v.call, v.clientId⟩

/-- The entry of the return of an operation. -/
def Operation.returnEntry (v : Operation ι ο) (id : ℕ) : Entry ι ο :=
  ⟨.returnEntry, .inr v.output, id, v.ret, v.clientId⟩

/-- The entries of the operations, before they are sorted. -/
lemma mem_makeEntriesFrom {e : Entry ι ο} {k : ℕ} {history : List (Operation ι ο)} :
    e ∈ makeEntriesFrom k history ↔ ∃ (m : ℕ) (v : Operation ι ο), history[m]? = some v ∧
      (e = v.callEntry (k + m) ∨ e = v.returnEntry (k + m)) := by
  induction history generalizing k with
  | nil => simp [makeEntriesFrom]
  | cons v history ih =>
      unfold makeEntriesFrom
      rw [List.mem_cons, List.mem_cons, ih, ← or_assoc]
      constructor
      · rintro (h | ⟨m, w, hw, h⟩)
        · exact ⟨0, v, rfl, h⟩
        · rw [add_assoc, add_comm 1 m] at h
          exact ⟨m + 1, w, hw, h⟩
      · rintro ⟨m, w, hw, h⟩
        cases m with
        | zero =>
            obtain rfl := Option.some.inj hw
            exact Or.inl h
        | succ m =>
            refine Or.inr ⟨m, w, hw, ?_⟩
            rwa [add_assoc, add_comm 1 m]

/-- No entry is made twice. -/
lemma nodup_makeEntriesFrom (k : ℕ) (history : List (Operation ι ο)) :
    (makeEntriesFrom k history).Nodup := by
  induction history generalizing k with
  | nil => exact List.nodup_nil
  | cons v history ih =>
      -- the entries that follow have higher ids
      have hnot : ∀ e : Entry ι ο, e.id = k → e ∉ makeEntriesFrom (k + 1) history := by
        intro e he hmem
        obtain ⟨m, w, -, rfl | rfl⟩ := mem_makeEntriesFrom.mp hmem
        · have he : k + 1 + m = k := he
          omega
        · have he : k + 1 + m = k := he
          omega
      unfold makeEntriesFrom
      rw [List.nodup_cons, List.nodup_cons, List.mem_cons]
      refine ⟨?_, hnot _ rfl, ih (k + 1)⟩
      rintro (heq | hmem)
      · cases heq
      · exact hnot _ rfl hmem

section Times

variable (op : ℕ → Operation ι ο)

/-- The two entries of an operation. -/
def entriesOf (i : ℕ) : List (Entry ι ο) :=
  [⟨.callEntry, .inl (op i).input, i, (op i).call, (op i).clientId⟩,
    ⟨.returnEntry, .inr (op i).output, i, (op i).ret, (op i).clientId⟩]

/-- The time of an event. -/
def timeOf : Ev → ℤ
  | .call i => (op i).call
  | .ret i => (op i).ret

/-- The loop makes the two entries of each operation. -/
lemma makeEntriesFrom_eq (k m : ℕ) :
    makeEntriesFrom k ((List.range' k m).map op) = (List.range' k m).flatMap (entriesOf op) := by
  induction m generalizing k with
  | zero => rfl
  | succ m ih =>
      rw [List.range'_succ, List.map_cons, List.flatMap_cons, ← ih]
      rfl

variable {op} {B : ByTime ι ο} {n : ℕ}

/-- The entries of the operations, before they are sorted. -/
lemma makeEntries_perm : (makeEntries B ((List.range n).map op)).Perm
    ((List.range n).flatMap (entriesOf op)) := by
  have h := B.perm (makeEntriesFrom 0 ((List.range n).map op))
  rw [List.range_eq_range', makeEntriesFrom_eq] at h
  rw [List.range_eq_range']
  unfold makeEntries
  rwa [makeEntriesFrom_eq]

/-- What every entry has. -/
lemma mem_makeEntries {e : Entry ι ο} (h : e ∈ makeEntries B ((List.range n).map op)) :
    e.id < n ∧ e.value = valueOf (fun i => (op i).input) (fun i => (op i).output) e.event ∧
      e.time = timeOf op e.event := by
  obtain ⟨i, hi, he⟩ := List.mem_flatMap.mp (makeEntries_perm.subset h)
  have hlt := List.mem_range.mp hi
  simp only [entriesOf, List.mem_cons, List.not_mem_nil, or_false] at he
  rcases he with rfl | rfl
  · exact ⟨hlt, rfl, rfl⟩
  · exact ⟨hlt, rfl, rfl⟩

/-- The events of the entries are the calls and the returns. -/
lemma map_event_makeEntries_perm : ((makeEntries B ((List.range n).map op)).map Entry.event).Perm
    ((List.range n).flatMap fun i => [Ev.call i, Ev.ret i]) := by
  have h : ((makeEntries B ((List.range n).map op)).map Entry.event).Perm
      (((List.range n).flatMap (entriesOf op)).map Entry.event) := makeEntries_perm.map _
  rwa [List.map_flatMap] at h

/-- **The order of the events** is that of their times, and calls come first. -/
lemma le_of_sublist {x y : Ev}
    (h : [x, y].Sublist ((makeEntries B ((List.range n).map op)).map Entry.event)) :
    timeOf op x < timeOf op y ∨
      timeOf op x = timeOf op y ∧ ¬ (y.isCall = true ∧ x.isCall = false) := by
  obtain ⟨l, hl, heq⟩ := List.sublist_map_iff.mp h
  obtain ⟨a, l', rfl, rfl, hl'⟩ := List.map_eq_cons_iff.mp heq.symm
  obtain ⟨b, l'', rfl, rfl, hl''⟩ := List.map_eq_cons_iff.mp hl'
  have hless : byTimeLess b a = false := by
    have hpair := (B.ordered _).sublist hl
    exact (List.pairwise_cons.mp hpair).1 b List.mem_cons_self
  have hta := (mem_makeEntries (hl.subset (by simp : a ∈ _))).2.2
  have htb := (mem_makeEntries (hl.subset (by simp : b ∈ _))).2.2
  rw [← hta, ← htb]
  unfold byTimeLess at hless
  split_ifs at hless with htime
  · left
    have hge := of_decide_eq_false hless
    omega
  · refine Or.inr ⟨(not_not.mp htime).symm, ?_⟩
    have hkind := of_decide_eq_false hless
    intro hcalls
    refine hkind ?_
    unfold Entry.event at hcalls
    cases hb : b.kind <;> cases ha : a.kind <;> simp [hb, ha] at hcalls ⊢

variable (op B n) in
/-- The trace of the operations. It is there if no operation returns before it is called. -/
def traceOf (htime : ∀ i < n, (op i).call ≤ (op i).ret) : Trace n where
  events := (makeEntries B ((List.range n).map op)).map Entry.event
  nodup := by
    refine map_event_makeEntries_perm.nodup_iff.mpr (List.nodup_flatMap.mpr ⟨?_, ?_⟩)
    · intro i _
      simp
    · refine List.nodup_range.imp fun {i j} hij => ?_
      intro e he he'
      simp only [List.mem_cons, List.not_mem_nil, or_false] at he he'
      rcases he with rfl | rfl <;> simp [hij] at he'
  id_lt := by
    intro ev hev
    obtain ⟨e, he, rfl⟩ := List.mem_map.mp hev
    rw [Entry.event_id]
    exact (mem_makeEntries he).1
  call_ret := by
    intro i hi
    have hmem : ∀ ev ∈ [Ev.call i, Ev.ret i],
        ev ∈ (makeEntries B ((List.range n).map op)).map Entry.event := by
      intro ev hev
      exact map_event_makeEntries_perm.symm.subset
        (List.mem_flatMap.mpr ⟨i, List.mem_range.mpr hi, hev⟩)
    rcases pair_sublist_or (hmem (.call i) (by simp)) (hmem (.ret i) (by simp)) (by simp) with h | h
    · exact h
    · -- the other order would need a return before the call
      have hle := htime i hi
      rcases le_of_sublist h with hlt | ⟨-, hcalls⟩
      · have hlt' : (op i).ret < (op i).call := hlt
        omega
      · exact absurd ⟨rfl, rfl⟩ hcalls

variable {htime : ∀ i < n, (op i).call ≤ (op i).ret}

/-- **The entries of `makeEntries` describe the trace.** -/
lemma makeEntries_describes : Describes (makeEntries B ((List.range n).map op))
    (traceOf op B n htime) (fun i => (op i).input) (fun i => (op i).output) where
  events := rfl
  value _ he := (mem_makeEntries he).2.1

/-- **A return comes before a call iff its time is lower.** -/
lemma before_iff {i j : ℕ} (hi : i < n) (hj : j < n) :
    (traceOf op B n htime).Before j i ↔ (op j).ret < (op i).call := by
  constructor
  · intro h
    rcases le_of_sublist h with hlt | ⟨-, hcalls⟩
    · exact hlt
    · exact absurd ⟨rfl, rfl⟩ hcalls
  · intro hlt
    have hcall : Ev.call i ∈ (traceOf op B n htime).events := Trace.call_mem hi
    have hret : Ev.ret j ∈ (traceOf op B n htime).events := Trace.ret_mem hj
    rcases pair_sublist_or hret hcall (by simp) with h | h
    · exact h
    · rcases le_of_sublist h with hlt' | ⟨heq, -⟩
      · have hlt' : (op i).call < (op j).ret := hlt'
        omega
      · have heq : (op i).call = (op j).ret := heq
        omega

end Times

/-! ## The layout of the nodes -/

/-- The address of an event: the number of events after it. -/
def address : List Ev → Ev → ℕ
  | [], _ => 0
  | e :: es, ev => if e = ev then es.length else address es ev

/-- An address is that of a node. -/
lemma address_lt {es : List Ev} {ev : Ev} (h : ev ∈ es) : address es ev < es.length := by
  induction es with
  | nil => cases h
  | cons e es ih =>
      unfold address
      split_ifs with heq
      · simp
      · rcases List.mem_cons.mp h with rfl | h
        · exact absurd rfl heq
        · exact (ih h).trans (by simp)

/-- A node that is put in front leaves the addresses of the others. -/
lemma address_cons_of_mem {es : List Ev} {e ev : Ev} (hes : (e :: es).Nodup) (h : ev ∈ es) :
    address (e :: es) ev = address es ev := by
  refine if_neg ?_
  rintro rfl
  exact (List.nodup_cons.mp hes).1 h

/-- Different events have different addresses. -/
lemma address_inj {es : List Ev} (hes : es.Nodup) {ev ev' : Ev} (h : ev ∈ es) (h' : ev' ∈ es)
    (heq : address es ev = address es ev') : ev = ev' := by
  induction es with
  | nil => cases h
  | cons e es ih =>
      have hhead : address (e :: es) e = es.length := if_pos rfl
      have hrest : ∀ {x}, x ∈ es → address (e :: es) x < es.length := by
        intro x hx
        rw [address_cons_of_mem hes hx]
        exact address_lt hx
      rcases List.mem_cons.mp h with hev | hev
      · rcases List.mem_cons.mp h' with hev' | hev'
        · rw [hev, hev']
        · have hlt := hrest hev'
          rw [hev] at heq
          omega
      · rcases List.mem_cons.mp h' with hev' | hev'
        · have hlt := hrest hev
          rw [hev'] at heq
          omega
        · rw [address_cons_of_mem hes hev, address_cons_of_mem hes hev'] at heq
          exact ih (List.nodup_cons.mp hes).2 hev hev' heq

/-- The addresses in the order of the events. -/
def addresses (es : List Ev) : List ℕ := es.map (address es)

/-- A node that is put in front has the next free address. -/
lemma addresses_cons {e : Ev} {es : List Ev} (hes : (e :: es).Nodup) :
    addresses (e :: es) = es.length :: addresses es := by
  have hhead : address (e :: es) e = es.length := if_pos rfl
  have hrest : es.map (address (e :: es)) = addresses es :=
    List.map_congr_left fun ev hev => address_cons_of_mem hes hev
  show address (e :: es) e :: es.map (address (e :: es)) = _
  rw [hhead, hrest]

/-- The addresses are below the number of nodes. -/
lemma lt_of_mem_addresses {es : List Ev} {a : ℕ} (h : a ∈ addresses es) : a < es.length := by
  obtain ⟨ev, hev, rfl⟩ := List.mem_map.mp h
  exact address_lt hev

/-- No address is used twice. -/
lemma addresses_nodup {es : List Ev} (hes : es.Nodup) : (addresses es).Nodup :=
  List.Nodup.map_on (fun _ h _ h' heq => address_inj hes h h' heq) hes

/-- What `makeLinkedEntries` has made of the entries so far. -/
structure LinkedUp (es : List Ev) (input : ℕ → ι) (output : ℕ → ο) (x : Linking ι ο) : Prop where
  length : x.nodes.length = es.length
  root : x.root = (addresses es).head?
  linked : x.links.Linked (addresses es)
  prev : ∀ a, es.length ≤ a + 1 → x.links.prev a = none
  next : ∀ a, es.length ≤ a → x.links.next a = none
  returns : ∀ i, x.returns i = if .ret i ∈ es then some (address es (.ret i)) else none
  ret_node : ∀ i, .ret i ∈ es → x.nodes[address es (.ret i)]? = some ⟨.inr (output i), none, i⟩
  call_node : ∀ i, [Ev.call i, Ev.ret i].Sublist es →
    x.nodes[address es (.call i)]? = some ⟨.inl (input i), some (address es (.ret i)), i⟩

variable {es : List Ev} {input : ℕ → ι} {output : ℕ → ο} {x : Linking ι ο}

/-- Inserting before the head of the list sets two links. -/
lemma insertBefore_eq {L : Links} {n mark : ℕ} (h : L.prev mark = none) :
    insertBefore L n (some mark) = (L.setPrev mark (some n)).setNext n (some mark) := by
  unfold insertBefore
  simp only [h]

/-- The pointers after the next node is put in front. -/
lemma LinkedUp.insertBefore (h : LinkedUp es input output x) (hes : es.Nodup) :
    (insertBefore x.links es.length x.root).Linked (es.length :: addresses es) ∧
      (∀ a, es.length + 1 ≤ a + 1 → (insertBefore x.links es.length x.root).prev a = none) ∧
      ∀ a, es.length + 1 ≤ a → (insertBefore x.links es.length x.root).next a = none := by
  rw [h.root]
  cases es with
  | nil =>
      refine ⟨h.next 0 le_rfl, fun a _ => h.prev a (by simp), fun a _ => h.next a (by simp)⟩
  | cons e es =>
      have hnodup := addresses_nodup hes
      have hlinked := h.linked
      have hlt : ∀ a ∈ addresses (e :: es), a < (e :: es).length := fun a => lt_of_mem_addresses
      rw [addresses_cons hes] at hnodup hlinked hlt ⊢
      rw [List.head?_cons, insertBefore_eq (h.prev es.length (by simp))]
      refine ⟨hlinked.push_front ?_ (List.nodup_cons.mp hnodup).1, ?_, ?_⟩
      · intro hmem
        exact absurd (hlt _ hmem) (lt_irrefl _)
      · intro a ha
        have hne : a ≠ es.length := by
          simp only [List.length_cons] at ha
          omega
        rw [Links.setNext_prev, Links.setPrev_prev, if_neg hne]
        exact h.prev a (by omega)
      · intro a ha
        rw [Links.setNext_next, if_neg (by omega), Links.setPrev_next]
        exact h.next a (by omega)

/-- A node that is there stays where it is. -/
lemma LinkedUp.getElem?_append (h : LinkedUp es input output x) {ev : Ev} (hev : ev ∈ es)
    (node : Node ι ο) : (x.nodes ++ [node])[address es ev]? = x.nodes[address es ev]? :=
  List.getElem?_append_left (h.length ▸ address_lt hev)

/-- The new node. -/
lemma LinkedUp.getElem?_length (h : LinkedUp es input output x) (node : Node ι ο) :
    (x.nodes ++ [node])[es.length]? = some node := by
  rw [← h.length]
  exact List.getElem?_concat_length

/-- **One iteration.** -/
lemma LinkedUp.cons (h : LinkedUp es input output x) {e : Entry ι ο}
    (hes : (e.event :: es).Nodup) (hvalue : e.value = valueOf input output e.event) :
    LinkedUp (e.event :: es) input output (linkEntry e x) := by
  obtain ⟨hlinked, hprev, hnext⟩ := h.insertBefore (List.nodup_cons.mp hes).2
  rw [← addresses_cons hes] at hlinked
  have hroot : some es.length = (addresses (e.event :: es)).head? := by rw [addresses_cons hes]; rfl
  have hnew := (List.nodup_cons.mp hes).1
  have hold : ∀ {ev}, ev ∈ es → address (e.event :: es) ev = address es ev :=
    fun hev => address_cons_of_mem hes hev
  -- the call and the return of one operation, when both are there already
  have hpair : ∀ {i}, [Ev.call i, Ev.ret i].Sublist es → Ev.call i ∈ es ∧ Ev.ret i ∈ es :=
    fun hi => ⟨hi.subset (by simp), hi.subset (by simp)⟩
  obtain ⟨kind, value, id, time, clientId⟩ := e
  cases kind with
  | returnEntry =>
      have hevent : Entry.event ⟨.returnEntry, value, id, time, clientId⟩ = Ev.ret id := rfl
      simp only [hevent] at hes hvalue hlinked hroot hnew hold ⊢
      obtain rfl : value = .inr (output id) := hvalue
      unfold linkEntry
      simp only [h.length]
      refine ⟨by simp [h.length], hroot, hlinked, hprev, hnext, fun i => ?_, fun i hi => ?_,
        fun i hi => ?_⟩
      · by_cases hid : i = id
        · subst hid
          simp [address]
        · have hmem : Ev.ret i ∈ Ev.ret id :: es ↔ Ev.ret i ∈ es := by simp [hid]
          show Function.update x.returns id (some es.length) i = _
          rw [Function.update_of_ne hid, h.returns]
          simp only [hmem]
          split_ifs with hi
          · rw [hold hi]
          · rfl
      · rcases List.mem_cons.mp hi with heq | hi
        · obtain rfl : i = id := Ev.ret.inj heq
          rw [show address (Ev.ret i :: es) (Ev.ret i) = es.length from if_pos rfl]
          exact h.getElem?_length _
        · rw [hold hi, h.getElem?_append hi]
          exact h.ret_node i hi
      · cases hi with
        | cons _ hi =>
            obtain ⟨hcall, hret⟩ := hpair hi
            rw [hold hcall, hold hret, h.getElem?_append hcall]
            exact h.call_node i hi
  | callEntry =>
      have hevent : Entry.event ⟨.callEntry, value, id, time, clientId⟩ = Ev.call id := rfl
      simp only [hevent] at hes hvalue hlinked hroot hnew hold ⊢
      obtain rfl : value = .inl (input id) := hvalue
      unfold linkEntry
      simp only [h.length]
      refine ⟨by simp [h.length], hroot, hlinked, hprev, hnext, fun i => ?_, fun i hi => ?_,
        fun i hi => ?_⟩
      · rw [h.returns]
        simp only [List.mem_cons, reduceCtorEq, false_or]
        split_ifs with hi
        · rw [hold hi]
        · rfl
      · have hi : Ev.ret i ∈ es := by simpa using hi
        rw [hold hi, h.getElem?_append hi]
        exact h.ret_node i hi
      · cases hi with
        | cons _ hi =>
            obtain ⟨hcall, hret⟩ := hpair hi
            rw [hold hcall, hold hret, h.getElem?_append hcall]
            exact h.call_node i hi
        | cons_cons _ hi =>
            have hret : Ev.ret id ∈ es := List.singleton_sublist.mp hi
            rw [show address (Ev.call id :: es) (Ev.call id) = es.length from if_pos rfl, hold hret,
              h.getElem?_length, h.returns, if_pos hret]

/-- **The whole loop.** -/
lemma linkedUp_makeLinkedEntries {entries : List (Entry ι ο)}
    (hnodup : (entries.map Entry.event).Nodup)
    (hvalue : ∀ e ∈ entries, e.value = valueOf input output e.event) :
    LinkedUp (entries.map Entry.event) input output (makeLinkedEntries entries) := by
  induction entries with
  | nil =>
      refine ⟨rfl, rfl, trivial, fun _ _ => rfl, fun _ _ => rfl, fun _ => rfl, ?_, ?_⟩
      · intro i hi
        cases hi
      · intro i hi
        cases hi
  | cons e entries ih =>
      have htail := ih (List.nodup_cons.mp hnodup).2 fun e he =>
        hvalue e (List.mem_cons_of_mem _ he)
      exact htail.cons hnodup (hvalue e List.mem_cons_self)

/-- `length` counts the nodes of the list. -/
lemma length_eq {L : Links} {l : List ℕ} (h : L.Linked l) {fuel : ℕ} (hfuel : l.length < fuel) :
    length L fuel l.head? = some l.length := by
  unfold length
  have hcount : ∀ (l : List ℕ) (fuel k : ℕ), L.Linked l → l.length < fuel →
      loop (lengthStep L) fuel (l.head?, k) = some (k + l.length) := by
    intro l
    induction l with
    | nil =>
        intro fuel k _ hfuel
        obtain ⟨fuel, rfl⟩ := Nat.exists_eq_add_of_lt hfuel
        rfl
    | cons a l ih =>
        intro fuel k h hfuel
        obtain ⟨fuel, rfl⟩ := Nat.exists_eq_add_of_le' (Nat.one_le_of_lt hfuel)
        have htail := ih fuel (k + 1) h.tail (Nat.succ_lt_succ_iff.mp hfuel)
        rw [← h.next_head] at htail
        unfold loop
        rw [List.length_cons, ← Nat.add_assoc, Nat.add_right_comm]
        exact htail
  rw [hcount l fuel 0 h hfuel, Nat.zero_add]

/-- The node of an event of the operations with these inputs and outputs. -/
def nodeOf (addr : Ev → ℕ) (input : ℕ → ι) (output : ℕ → ο) : Ev → Node ι ο
  | .call i => ⟨.inl (input i), some (addr (.ret i)), i⟩
  | .ret i => ⟨.inr (output i), none, i⟩

/-- The nodes are those of the events of a trace, with these inputs and outputs, at the addresses
`addr`. -/
structure Layout {n : ℕ} (T : Trace n) (input : ℕ → ι) (output : ℕ → ο) (nodes : List (Node ι ο))
    (addr : Ev → ℕ) : Prop where
  inj : ∀ {e e'}, e ∈ T.events → e' ∈ T.events → addr e = addr e' → e = e'
  lt : ∀ {e}, e ∈ T.events → addr e < nodes.length
  node : ∀ {e}, e ∈ T.events → nodes[addr e]? = some (nodeOf addr input output e)

/-- **`makeLinkedEntries` lays out the trace that its entries describe.** -/
theorem makeLinkedEntries_layout {n : ℕ} {entries : List (Entry ι ο)} {T : Trace n}
    (h : Describes entries T input output) :
    Layout T input output (makeLinkedEntries entries).nodes (address T.events) ∧
      LinkedUp T.events input output (makeLinkedEntries entries) := by
  have hnodup : (entries.map Entry.event).Nodup := h.events ▸ T.nodup
  have hup := linkedUp_makeLinkedEntries hnodup h.value
  rw [h.events] at hup
  refine ⟨⟨address_inj T.nodup, fun he => hup.length ▸ address_lt he, fun {e} he => ?_⟩, hup⟩
  cases e with
  | call i => exact hup.call_node i (T.call_ret i (T.id_lt _ he))
  | ret i => exact hup.ret_node i he

end GoLabs.Porcupine
