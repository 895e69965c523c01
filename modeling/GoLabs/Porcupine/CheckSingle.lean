import GoLabs.Porcupine.Structures

/-!
# `checkSingle` finds a linearization iff there is one

`Simulates` relates the variables of the loop of `checkSingle` to a state of the search of
`Trace.search`, which knows nothing of pointers, bitsets and hashes. An iteration of the loop does
what an iteration of the search does (`Simulates.step`, `Simulates.leaves`), so the loop ends, no
pointer that it follows is nil and no index is out of range, and what it returns is what the search
finds.
-/

namespace GoLabs.Porcupine

open GoLabs.Lib

variable {ι ο σ : Type} {n : ℕ} {T : Trace n} {input : ℕ → ι} {output : ℕ → ο}
  {C : Setup ι ο σ} {addr : Ev → ℕ}

/-- The object that a model describes. -/
def FullModel.object (model : FullModel ι ο σ) : Spec σ (ι × ο) where
  init := model.init
  step s v := model.step s v.1 v.2

/-- The object, for operations with these inputs and outputs. -/
def FullModel.spec (model : FullModel ι ο σ) (input : ℕ → ι) (output : ℕ → ο) : Spec σ ℕ :=
  model.object.comap fun i => (input i, output i)

/-- `Equal` holds of states that accept the same operations only. -/
def FullModel.EqualSound (model : FullModel ι ο σ) : Prop :=
  ∀ s t, model.equal s t = true → ∀ l, model.object.accepts s l = model.object.accepts t l

/-- The nodes of the list are laid out as the trace is, and the head comes after them. -/
structure Setup.Fits (C : Setup ι ο σ) (T : Trace n) (input : ℕ → ι) (output : ℕ → ο)
    (addr : Ev → ℕ) : Prop where
  layout : Layout T input output C.nodes addr
  head : C.headEntry = C.nodes.length

/-- The operations that can be tried from here on: those called before the next return. -/
def ahead (es : List Ev) : List ℕ := (es.takeWhile Ev.isCall).map Ev.id

/-- The operation of a call before the next return can be tried. -/
@[simp] lemma ahead_call (i : ℕ) (es : List Ev) : ahead (.call i :: es) = i :: ahead es := by
  unfold ahead
  rw [List.takeWhile_cons_of_pos (Ev.isCall_call i), List.map_cons, Ev.id_call]

/-- Nothing behind the next return can be tried. -/
@[simp] lemma ahead_ret (i : ℕ) (es : List Ev) : ahead (.ret i :: es) = [] := by
  unfold ahead
  rw [List.takeWhile_cons_of_neg (by simp), List.map_nil]

/-! ## The simulation -/

/-- The frames of the search are the calls that can be taken back, the last one first: `unlift`
gives the list as it was before the call. -/
def CanTakeBack (C : Setup ι ο σ) (T : Trace n) (addr : Ev → ℕ) :
    Links → List (Search.Frame (Trace.Config σ) ℕ) → Prop
  | _, [] => True
  | L, f :: stack => ∃ (L₀ : Links) (pre post : List Ev),
      unlift C.nodes L (addr (.call f.move)) = some L₀ ∧
      L₀.Linked (cells addr C.nodes.length (T.remaining f.config.done)) ∧
      T.remaining f.config.done = pre ++ Ev.call f.move :: post ∧ f.rest = ahead post ∧
      CanTakeBack C T addr L₀ stack

/-- The entry of `calls` for a frame. -/
def callsEntryOf (addr : Ev → ℕ) (f : Search.Frame (Trace.Config σ) ℕ) : CallsEntry σ :=
  ⟨addr (.call f.move), f.config.state⟩

/-- The search that `checkSingle` carries out. -/
def Setup.search (C : Setup ι ο σ) (T : Trace n) (input : ℕ → ι) (output : ℕ → ο) :
    Search (Trace.Config σ) ℕ := T.search (C.model.spec input output) C.model.equal

/-- Where the search begins. -/
def Setup.root (C : Setup ι ο σ) (input : ℕ → ι) (output : ℕ → ο) : Trace.Config σ :=
  Trace.root (C.model.spec input output)

/-- The variables of the loop stand for a state of the search. -/
structure Simulates (C : Setup ι ο σ) (T : Trace n) (input : ℕ → ι) (output : ℕ → ο)
    (addr : Ev → ℕ) (x : CheckState σ) (y : Search.State (Trace.Config σ) ℕ) : Prop where
  linked : x.links.Linked (cells addr C.nodes.length (T.remaining y.config.done))
  /-- The pointer is at one of the entries that are left, as long as there are any. -/
  entry : T.remaining y.config.done ≠ [] → ∃ pre e post,
    T.remaining y.config.done = pre ++ e :: post ∧ x.entry = some (addr e) ∧
      y.rest = ahead (e :: post)
  linearized : Bitset.Represents n x.linearized y.config.done
  state : x.state = y.config.state
  cache : CacheHolds n x.cache y.table
  calls : x.calls = (y.stack.map (callsEntryOf addr)).reverse
  frames : CanTakeBack C T addr x.links y.stack
  longest : C.computePartial = true → LongestOf n x.longest y.log
  inv : Search.Inv (C.search T input output) (C.root input output) y

/-- Operations of the stack are operations of the trace. -/
lemma move_lt_of_stacked {root c : Trace.Config σ} {P : Spec σ ℕ} {equal : σ → σ → Bool}
    {stack : List (Search.Frame (Trace.Config σ) ℕ)}
    (h : Search.Stacked (T.search P equal) root stack c) : ∀ f ∈ stack, f.move < n := by
  induction h with
  | nil => simp
  | cons _ hmove _ _ ih =>
      intro f hf
      rcases List.mem_cons.mp hf with rfl | hf
      · exact (Trace.mem_moves.mp hmove).1
      · exact ih f hf

namespace Simulates

variable {x : CheckState σ} {y : Search.State (Trace.Config σ) ℕ}

/-- The ids of the calls are the trail of the search. -/
lemma callIds_eq (h : Simulates C T input output addr x y) (hC : C.Fits T input output addr) :
    callIds C.nodes x.calls = some (Search.trail y.stack) := by
  have hmoves := move_lt_of_stacked h.inv.stacked
  have hid : ∀ f ∈ y.stack.reverse,
      (C.nodes[(callsEntryOf addr f).entry]?).map Node.id = some f.move := by
    intro f hf
    show (C.nodes[addr (.call f.move)]?).map Node.id = _
    rw [hC.layout.node (Trace.call_mem (hmoves f (List.mem_reverse.mp hf)))]
    rfl
  have hcalls : x.calls = y.stack.reverse.map (callsEntryOf addr) := by
    rw [h.calls, List.map_reverse]
  have hnone : ∀ v ∈ x.calls, (C.nodes[v.entry]?).map Node.id ≠ none := by
    intro v hv
    rw [hcalls] at hv
    obtain ⟨f, hf, rfl⟩ := List.mem_map.mp hv
    rw [hid f hf]
    exact Option.some_ne_none _
  obtain ⟨ids, hids, -, hget⟩ := exists_mapM hnone
  have htrail : ids = Search.trail y.stack := by
    refine List.ext_getElem? fun i => ?_
    rw [hget, hcalls, Search.trail, ← List.map_reverse, List.getElem?_map, List.getElem?_map]
    cases hf : y.stack.reverse[i]? with
    | none => rfl
    | some f => exact hid f (List.mem_of_getElem? hf)
  unfold callIds
  rw [hids, htrail]

/-- The list is empty iff the search has reached a goal. -/
lemma next_head (h : Simulates C T input output addr x y) (hC : C.Fits T input output addr) :
    x.links.next C.headEntry = ((T.remaining y.config.done).map addr).head? := by
  rw [hC.head]
  exact h.linked.next_head

/-- The pointer is at a call that the search can try. -/
lemma at_call (h : Simulates C T input output addr x y)
    (hgoal : T.remaining y.config.done ≠ []) {i : ℕ} {rest : List ℕ} (hrest : y.rest = i :: rest) :
    ∃ pre post, T.remaining y.config.done = pre ++ Ev.call i :: post ∧ rest = ahead post ∧
      x.entry = some (addr (.call i)) ∧ i < n ∧ i ∉ y.config.done ∧
      x.links.next (addr (.call i)) = (post.map addr).head? := by
  obtain ⟨pre, e, post, hsplit, hentry, hahead⟩ := h.entry hgoal
  rw [hrest] at hahead
  cases e with
  | ret j =>
      rw [ahead_ret] at hahead
      cases hahead
  | call j =>
      rw [ahead_call] at hahead
      obtain ⟨rfl, rfl⟩ := List.cons.inj hahead
      have hmem : Ev.call i ∈ T.remaining y.config.done := by
        rw [hsplit]
        simp
      obtain ⟨hevents, hdone⟩ := Trace.mem_remaining.mp hmem
      refine ⟨pre, post, hsplit, rfl, hentry, T.id_lt _ hevents, hdone, ?_⟩
      have hlinked := h.linked
      unfold cells at hlinked
      rw [hsplit, List.map_append, List.map_cons, ← List.cons_append] at hlinked
      exact hlinked.next_eq

/-- The search passes over a move, and the pointer goes to the next entry. -/
lemma skip (h : Simulates C T input output addr x y) {i : ℕ} {rest : List ℕ} {pre post : List Ev}
    (hsplit : T.remaining y.config.done = pre ++ Ev.call i :: post) (hahead : rest = ahead post)
    (hnext : x.links.next (addr (.call i)) = (post.map addr).head?)
    (hinv : Search.Inv (C.search T input output) (C.root input output) { y with rest := rest }) :
    Simulates C T input output addr { x with entry := x.links.next (addr (.call i)) }
      { y with rest := rest } := by
  refine ⟨h.linked, fun _ => ?_, h.linearized, h.state, h.cache, h.calls, h.frames, h.longest, hinv⟩
  obtain ⟨e, post', rfl⟩ := List.exists_cons_of_ne_nil
    (List.ne_nil_of_mem (ret_mem_of_remaining hsplit))
  refine ⟨pre ++ [Ev.call i], e, post', ?_, hnext, hahead⟩
  rw [hsplit, List.append_assoc]
  rfl

/-- The search enters a configuration, and the call is linearized. -/
lemma push (h : Simulates C T input output addr x y) (hC : C.Fits T input output addr) {i : ℕ}
    {rest : List ℕ} {pre post : List Ev} (hi : i < n) (hdone : i ∉ y.config.done)
    (hsplit : T.remaining y.config.done = pre ++ Ev.call i :: post) (hahead : rest = ahead post)
    {newLinearized : Bitset} {newState : σ}
    (hbits : x.linearized.set i = some newLinearized)
    (hrep : Bitset.Represents n newLinearized (insert i y.config.done))
    (hinv : Search.Inv (C.search T input output) (C.root input output)
      ⟨⟨insert i y.config.done, newState⟩, T.moves (insert i y.config.done),
        ⟨y.config, i, rest⟩ :: y.stack, y.table ++ [⟨insert i y.config.done, newState⟩], y.log⟩) :
    ∃ x', C.push x (addr (.call i)) i ⟨newLinearized, newState⟩ = some x' ∧
      Simulates C T input output addr x'
        ⟨⟨insert i y.config.done, newState⟩, T.moves (insert i y.config.done),
          ⟨y.config, i, rest⟩ :: y.stack, y.table ++ [⟨insert i y.config.done, newState⟩],
          y.log⟩ := by
  obtain ⟨L, hlift, hlinked, hunlift⟩ := hC.layout.lift_spec hi hdone h.linked
  refine ⟨{
    links := L
    entry := L.next C.headEntry
    linearized := newLinearized
    cache := Function.update x.cache newLinearized.hash
      (x.cache newLinearized.hash ++ [⟨newLinearized, newState⟩])
    calls := x.calls ++ [⟨addr (.call i), x.state⟩]
    longest := x.longest
    state := newState }, ?_, ?_⟩
  · unfold Setup.push
    show (x.linearized.set i).bind _ = _
    rw [hbits]
    show (lift C.nodes x.links (addr (.call i))).bind _ = _
    rw [hlift]
    rfl
  · have hstands : CacheEntry.Stands n (⟨newLinearized, newState⟩ : CacheEntry σ)
        ⟨insert i y.config.done, newState⟩ := ⟨hrep, rfl⟩
    refine ⟨hlinked, fun hne => ?_, hrep, rfl, h.cache.push hstands, ?_,
      ⟨x.links, pre, post, hunlift, h.linked, hsplit, hahead, h.frames⟩, h.longest, hinv⟩
    · -- the pointer is at the front again
      have hne : T.remaining (insert i y.config.done) ≠ [] := hne
      obtain ⟨e, es, hes⟩ := List.exists_cons_of_ne_nil hne
      refine ⟨[], e, es, hes, ?_, ?_⟩
      · show L.next C.headEntry = _
        rw [hC.head, hlinked.next_head, hes]
        rfl
      · show ahead (T.remaining (insert i y.config.done)) = _
        rw [hes]
    · rw [List.map_cons, List.reverse_cons, ← h.calls, h.state]
      rfl

/-- The search turns back, and the last call is taken back. -/
lemma pop (h : Simulates C T input output addr x y) (hC : C.Fits T input output addr)
    {f : Search.Frame (Trace.Config σ) ℕ} {stack : List (Search.Frame (Trace.Config σ) ℕ)}
    (hstack : y.stack = f :: stack)
    (hinv : Search.Inv (C.search T input output) (C.root input output)
      ⟨f.config, f.rest, stack, y.table, y.log ++ [Search.trail y.stack]⟩) :
    ∃ x', C.pop x (callsEntryOf addr f) = some x' ∧ Simulates C T input output addr x'
      ⟨f.config, f.rest, stack, y.table, y.log ++ [Search.trail y.stack]⟩ := by
  have hstacked := h.inv.stacked
  have hlt := move_lt_of_stacked hstacked
  have hframes := h.frames
  rw [hstack] at hstacked hframes
  have hf : f.move < n := hlt f (hstack ▸ List.mem_cons_self)
  -- what is linearized now is what was linearized then, and the call
  have hconfig : f.move ∉ f.config.done ∧ y.config.done.erase f.move = f.config.done := by
    cases hstacked with
    | cons _ hmove hnext _ =>
        have hnot := (Trace.mem_moves.mp hmove).2.1
        refine ⟨hnot, ?_⟩
        rw [(Trace.search_next.mp hnext).2]
        exact Finset.erase_insert hnot
  obtain ⟨L₀, pre, post, hunlift, hlinked, hsplit, hahead, hbelow⟩ := hframes
  obtain ⟨bits, hbits, hrep⟩ := h.linearized.clear hf
  rw [hconfig.2] at hrep
  -- the longest sequences are noted only if they are asked for
  obtain ⟨longest, hnote, hlongest⟩ : ∃ longest, C.noteCalls x = some longest ∧
      (C.computePartial = true →
        LongestOf n longest (y.log ++ [Search.trail y.stack])) := by
    unfold Setup.noteCalls
    split_ifs with hcompute
    · rw [h.callIds_eq hC]
      have hids : ∀ i ∈ Search.trail y.stack, i < n := by
        intro i hi
        obtain ⟨g, hg, rfl⟩ := List.mem_map.mp (List.mem_reverse.mp hi)
        exact hlt g hg
      obtain ⟨z, hz, hzlong⟩ := (h.longest hcompute).noteAll hids
      exact ⟨z, hz, fun _ => hzlong⟩
    · exact ⟨x.longest, rfl, fun hp => absurd hp hcompute⟩
  refine ⟨{ x with
    links := L₀
    entry := L₀.next (addr (.call f.move))
    linearized := bits
    calls := x.calls.dropLast
    longest := longest
    state := f.config.state }, ?_, ?_⟩
  · unfold Setup.pop
    show (C.noteCalls x).bind _ = _
    rw [hnote]
    show (C.nodes[addr (.call f.move)]?).bind _ = _
    rw [hC.layout.node (Trace.call_mem hf)]
    show (x.linearized.clear f.move).bind _ = _
    rw [hbits]
    show (unlift C.nodes x.links (addr (.call f.move))).bind _ = _
    rw [hunlift]
    rfl
  · refine ⟨hlinked, fun _ => ?_, hrep, rfl, h.cache, ?_, hbelow, hlongest, hinv⟩
    · obtain ⟨e, post', rfl⟩ := List.exists_cons_of_ne_nil
        (List.ne_nil_of_mem (ret_mem_of_remaining hsplit))
      refine ⟨pre ++ [Ev.call f.move], e, post', ?_, ?_, hahead⟩
      · rw [hsplit, List.append_assoc]
        rfl
      · show L₀.next (addr (.call f.move)) = _
        unfold cells at hlinked
        rw [hsplit, List.map_append, List.map_cons, ← List.cons_append] at hlinked
        rw [hlinked.next_eq]
        rfl
    · show x.calls.dropLast = _
      rw [h.calls, hstack, List.map_cons, List.reverse_cons, List.dropLast_concat]

/-- The iteration at a call, when the object does not accept the operation now. -/
lemma onCall_refused (h : Simulates C T input output addr x y) (hC : C.Fits T input output addr)
    {i : ℕ} (hi : i < n) (hstep : ((C.model.spec input output).step y.config.state i).1 = false) :
    C.onCall x (addr (.call i)) (nodeOf addr input output (.call i)) (addr (.ret i)) =
      some { x with entry := x.links.next (addr (.call i)) } := by
  unfold Setup.onCall
  rw [hC.layout.node (Trace.ret_mem hi), h.state]
  show (if ((C.model.spec input output).step y.config.state i).1 = true then _ else _) = _
  rw [hstep]
  rfl

/-- The iteration at a call, when the object accepts the operation. -/
lemma onCall_accepted (h : Simulates C T input output addr x y) (hC : C.Fits T input output addr)
    {i : ℕ} (hi : i < n) (hstep : ((C.model.spec input output).step y.config.state i).1 = true)
    {newLinearized : Bitset} (hbits : x.linearized.set i = some newLinearized) :
    C.onCall x (addr (.call i)) (nodeOf addr input output (.call i)) (addr (.ret i)) =
      if !cacheContains C.model x.cache
          ⟨newLinearized, ((C.model.spec input output).step y.config.state i).2⟩ then
        C.push x (addr (.call i)) i
          ⟨newLinearized, ((C.model.spec input output).step y.config.state i).2⟩
      else some { x with entry := x.links.next (addr (.call i)) } := by
  unfold Setup.onCall
  rw [hC.layout.node (Trace.ret_mem hi), h.state]
  show (if ((C.model.spec input output).step y.config.state i).1 = true then
      (x.linearized.set i).bind _ else _) = _
  rw [hstep, hbits]
  rfl

/-- The iteration goes to the call that the pointer is at. -/
lemma checkStep_call (h : Simulates C T input output addr x y) (hC : C.Fits T input output addr)
    (hgoal : T.remaining y.config.done ≠ []) {i : ℕ} (hi : i < n)
    (hentry : x.entry = some (addr (.call i))) :
    C.checkStep false x =
      (C.onCall x (addr (.call i)) (nodeOf addr input output (.call i)) (addr (.ret i))).map
        .inl := by
  obtain ⟨e, es, hes⟩ := List.exists_cons_of_ne_nil hgoal
  unfold Setup.checkStep
  rw [h.next_head hC, hes, hentry]
  simp only [List.map_cons, List.head?_cons, Bool.false_eq_true, if_false]
  rw [hC.layout.node (Trace.call_mem hi)]
  rfl

/-- The iteration is at a return when the search has no move left. -/
lemma checkStep_return (h : Simulates C T input output addr x y) (hC : C.Fits T input output addr)
    (hgoal : T.remaining y.config.done ≠ []) (hrest : y.rest = []) :
    C.checkStep false x =
      match x.calls.getLast? with
      | none => some (.inr (false, x.longest))
      | some callsTop => (C.pop x callsTop).map .inl := by
  obtain ⟨pre, e, post, hsplit, hentry, hahead⟩ := h.entry hgoal
  cases e with
  | call i =>
      rw [hrest, ahead_call] at hahead
      cases hahead
  | ret i =>
      have hmem : Ev.ret i ∈ T.remaining y.config.done := by
        rw [hsplit]
        simp
      have hnode := hC.layout.node (Trace.mem_remaining.mp hmem).1
      obtain ⟨e', es, hes⟩ := List.exists_cons_of_ne_nil hgoal
      unfold Setup.checkStep
      rw [h.next_head hC, hes, hentry]
      simp only [List.map_cons, List.head?_cons, Bool.false_eq_true, if_false]
      rw [hnode]
      rfl

/-- The cache is asked for what the table is asked for. -/
lemma contains (h : Simulates C T input output addr x y) {i : ℕ} {bits : Bitset} {newState : σ}
    (hrep : Bitset.Represents n bits (insert i y.config.done)) :
    cacheContains C.model x.cache ⟨bits, newState⟩ =
      y.table.any ((C.search T input output).same ⟨insert i y.config.done, newState⟩) :=
  h.cache.contains ⟨hrep, rfl⟩ C.model T (C.model.spec input output)

/-- No entry is left iff the search is at a goal. -/
lemma remaining_ne_nil (hgoal : (C.search T input output).goal y.config = false) :
    T.remaining y.config.done ≠ [] := by
  intro hnil
  have hempty : (T.remaining y.config.done).isEmpty = false := hgoal
  rw [hnil] at hempty
  cases hempty

/-- **An iteration of the loop does what the search does.** -/
lemma step (h : Simulates C T input output addr x y) (hC : C.Fits T input output addr)
    {y' : Search.State (Trace.Config σ) ℕ}
    (hy : (C.search T input output).body y = some (.inl y')) :
    ∃ x', C.checkStep false x = some (.inl x') ∧ Simulates C T input output addr x' y' := by
  have hinv := h.inv.step hy
  obtain ⟨-, hr⟩ | ⟨hgoal, ⟨i, rest, hrest, hpassed, hr⟩ | ⟨i, rest, c, hrest, hc, hnew, hr⟩ |
    ⟨f, stack, hrest, hstack, hr⟩ | ⟨-, -, hr⟩⟩ := Search.body_cases hy
  · cases hr
  · -- the move is passed over
    obtain rfl := Sum.inl.inj hr
    have hne := remaining_ne_nil hgoal
    obtain ⟨pre, post, hsplit, hahead, hentry, hi, hdone, hnext⟩ := h.at_call hne hrest
    refine ⟨{ x with entry := x.links.next (addr (.call i)) }, ?_,
      h.skip hsplit hahead hnext hinv⟩
    rw [h.checkStep_call hC hne hi hentry]
    cases hstep : ((C.model.spec input output).step y.config.state i).1 with
    | false =>
        rw [h.onCall_refused hC hi hstep]
        rfl
    | true =>
        obtain ⟨bits, hbits, hrep⟩ := h.linearized.set hi
        have hsame := hpassed _ (Trace.search_next.mpr ⟨hstep, rfl⟩)
        rw [h.onCall_accepted hC hi hstep hbits, h.contains hrep, hsame]
        rfl
  · -- the search enters a configuration
    obtain rfl := Sum.inl.inj hr
    have hne := remaining_ne_nil hgoal
    obtain ⟨pre, post, hsplit, hahead, hentry, hi, hdone, hnext⟩ := h.at_call hne hrest
    obtain ⟨hstep, rfl⟩ := Trace.search_next.mp hc
    obtain ⟨bits, hbits, hrep⟩ := h.linearized.set hi
    obtain ⟨x', hpush, hsim⟩ := h.push hC hi hdone hsplit hahead hbits hrep hinv
    refine ⟨x', ?_, hsim⟩
    rw [h.checkStep_call hC hne hi hentry, h.onCall_accepted hC hi hstep hbits, h.contains hrep]
    rw [hnew]
    show (C.push _ _ _ _).map _ = _
    rw [hpush]
    rfl
  · -- the search turns back
    obtain rfl := Sum.inl.inj hr
    obtain ⟨x', hpop, hsim⟩ := h.pop hC hstack hinv
    refine ⟨x', ?_, hsim⟩
    have hlast : x.calls.getLast? = some (callsEntryOf addr f) := by
      rw [h.calls, hstack, List.map_cons, List.reverse_cons, List.getLast?_concat]
    rw [h.checkStep_return hC (remaining_ne_nil hgoal) hrest, hlast]
    show (C.pop x (callsEntryOf addr f)).map _ = _
    rw [hpop]
    rfl
  · cases hr

/-- **The loop ends when the search does**, and with its answer. -/
lemma leaves (h : Simulates C T input output addr x y) (hC : C.Fits T input output addr) {b : Bool}
    (hy : (C.search T input output).body y = some (.inr b)) :
    C.checkStep false x = some (.inr (b,
      if b then x.longest.complete (Search.trail y.stack) else x.longest)) := by
  obtain ⟨hgoal, hr⟩ | ⟨hgoal, ⟨i, rest, -, -, hr⟩ | ⟨i, rest, c, -, -, -, hr⟩ |
    ⟨f, stack, -, -, hr⟩ | ⟨hrest, hstack, hr⟩⟩ := Search.body_cases hy
  · obtain rfl := Sum.inr.inj hr
    have hnil : T.remaining y.config.done = [] := List.isEmpty_iff.mp hgoal
    unfold Setup.checkStep Setup.finish
    rw [h.next_head hC, hnil, h.callIds_eq hC]
    rfl
  · cases hr
  · cases hr
  · cases hr
  · obtain rfl := Sum.inr.inj hr
    have hlast : x.calls.getLast? = none := by rw [h.calls, hstack]; rfl
    rw [h.checkStep_return hC (remaining_ne_nil hgoal) hrest, hlast]
    rfl

end Simulates

/-! ## The whole loop -/

/-- **What is set up before the loop** stands for the start of the search. -/
lemma checkSetup_spec {entries : List (Entry ι ο)} (h : Describes entries T input output)
    (model : FullModel ι ο σ) (computePartial : Bool) :
    ∃ C x, checkSetup model entries computePartial = some (C, x) ∧ C.model = model ∧
      C.computePartial = computePartial ∧ C.Fits T input output (address T.events) ∧
      Simulates C T input output (address T.events) x
        ((C.search T input output).start (C.root input output)) := by
  obtain ⟨hlayout, hup⟩ := makeLinkedEntries_layout h
  have hentries : entries.length = T.events.length := by rw [← h.events, List.length_map]
  have haddresses : (addresses T.events).length = T.events.length := List.length_map _
  have hlength : length (makeLinkedEntries entries).links (entries.length + 1)
      (makeLinkedEntries entries).root = some (2 * n) := by
    rw [hup.root, length_eq hup.linked (by omega), haddresses, Trace.length_events]
  have hhalf : 2 * n / 2 = n := by omega
  refine ⟨⟨model, (makeLinkedEntries entries).nodes, (makeLinkedEntries entries).nodes.length,
    computePartial⟩, {
      links := insertBefore (makeLinkedEntries entries).links
        (makeLinkedEntries entries).nodes.length (makeLinkedEntries entries).root
      entry := (makeLinkedEntries entries).root
      linearized := newBitset n
      cache := fun _ => []
      calls := []
      longest := ⟨[], List.replicate n none⟩
      state := model.init }, ?_, rfl, rfl, ⟨hlayout, rfl⟩, ?_⟩
  · unfold checkSetup
    simp only [hlength, Option.bind_eq_bind, Option.bind_some, hhalf]
    rfl
  · refine ⟨?_, fun hne => ?_, Bitset.represents_newBitset n, rfl, cacheHolds_nil, rfl, trivial,
      fun _ => longestOf_nil n, Search.Inv.start _ _⟩
    · show (insertBefore _ _ _).Linked (cells _ _ (T.remaining ∅))
      rw [Trace.remaining_empty, hup.length]
      exact (hup.insertBefore T.nodup).1
    · have hne : T.remaining ∅ ≠ [] := hne
      rw [Trace.remaining_empty] at hne
      obtain ⟨e, es, hes⟩ := List.exists_cons_of_ne_nil hne
      refine ⟨[], e, es, ?_, ?_, ?_⟩
      · show T.remaining ∅ = _
        rw [Trace.remaining_empty, hes]
        rfl
      · show (makeLinkedEntries entries).root = _
        rw [hup.root]
        unfold addresses
        rw [hes]
        rfl
      · show ahead (T.remaining ∅) = _
        rw [Trace.remaining_empty, hes]

section Runs

variable {x x₀ : CheckState σ} {y y₀ : Search.State (Trace.Config σ) ℕ}

/-- **A run of the search is a run of the loop.** -/
lemma Simulates.goes (h : Simulates C T input output addr x₀ y₀) (hC : C.Fits T input output addr)
    (hgoes : Goes (C.search T input output).body y₀ y) :
    ∃ x, Goes (C.checkStep false) x₀ x ∧ Simulates C T input output addr x y :=
  Goes.simulate (R := fun y x => Simulates C T input output addr x y)
    (fun hR hy => hR.step hC hy) h hgoes

/-- **A run of the loop is a run of the search.** -/
lemma Simulates.of_goes (h : Simulates C T input output addr x₀ y₀)
    (hC : C.Fits T input output addr) (hgoes : Goes (C.checkStep false) x₀ x) :
    ∃ y, Goes (C.search T input output).body y₀ y ∧ Simulates C T input output addr x y := by
  induction hgoes with
  | refl => exact ⟨y₀, Relation.ReflTransGen.refl, h⟩
  | tail _ hstep ih =>
      obtain ⟨y, hy, hsim⟩ := ih
      -- the search does not stop before the loop does
      obtain ⟨r, hr⟩ := (C.search T input output).exists_body y
      cases r with
      | inl y' =>
          obtain ⟨x'', hx'', hsim'⟩ := hsim.step hC hr
          rw [hstep] at hx''
          obtain rfl := Sum.inl.inj (Option.some.inj hx'')
          exact ⟨y', hy.tail hr, hsim'⟩
      | inr b =>
          rw [hsim.leaves hC hr] at hstep
          cases hstep

/-- `longest` has a longest partial linearization with each operation that is in any. -/
def Longest.Correct (longest : Longest) (T : Trace n) (P : Spec σ ℕ) : Prop :=
  ∀ i < n, (longest.pointers[i]? = some none ∧ ∀ l, T.PartialLinearization P l → i ∉ l) ∨
    ∃ a q, longest.pointers[i]? = some (some a) ∧ longest.seqs[a]? = some q ∧
      T.PartialLinearization P q ∧ i ∈ q ∧
      ∀ l, T.PartialLinearization P l → i ∈ l → l.length ≤ q.length

/-- What `longest` has are partial linearizations. -/
def Longest.Sound (longest : Longest) (T : Trace n) (P : Spec σ ℕ) : Prop :=
  ∀ (i a : ℕ), longest.pointers[i]? = some (some a) →
    ∃ q, longest.seqs[a]? = some q ∧ T.PartialLinearization P q ∧ i ∈ q

/-- The trails of the log are partial linearizations. -/
lemma Simulates.partial_of_log (h : Simulates C T input output addr x y) {p : List ℕ}
    (hp : p ∈ y.log) : T.PartialLinearization (C.model.spec input output) p := by
  obtain ⟨d, hd⟩ := h.inv.log p hp
  exact (Trace.path_iff.mp hd).1

/-- All along the search, `longest` has partial linearizations only. -/
lemma Simulates.longest_sound (h : Simulates C T input output addr x y)
    (hcompute : C.computePartial = true) :
    x.longest.Sound T (C.model.spec input output) := by
  intro i a ha
  obtain ⟨hlen, hbest⟩ := h.longest hcompute
  have hi : i < n := hlen ▸ (List.getElem?_eq_some_iff.mp ha).1
  rcases hbest i hi with ⟨hnone, -⟩ | ⟨a', q, ha', hq, hmem, hiq, -⟩
  · rw [hnone] at ha
    cases ha
  · rw [ha'] at ha
    obtain rfl := Option.some.inj (Option.some.inj ha)
    exact ⟨q, hq, h.partial_of_log hmem, hiq⟩

/-- The answer of a search that has ended, and what is in `longest` then. -/
lemma Simulates.ends (h : Simulates C T input output addr x y) (hC : C.Fits T input output addr)
    {b : Bool} (hends : Search.Sound.Ends (C.search T input output) (C.root input output)
      (Trace.Sim (C.model.spec input output)) y b) :
    ∃ longest, C.checkStep false x = some (.inr (b, longest)) ∧
      (b = true ↔ ∃ l, T.Linearization (C.model.spec input output) l) ∧
      (C.computePartial = true →
        longest.pointers.length = n ∧ longest.Correct T (C.model.spec input output)) := by
  refine ⟨_, h.leaves hC hends.leaves, ?_, fun hcompute => ⟨?_, fun i hi => ?_⟩⟩
  · cases b with
    | true => exact ⟨fun _ => ⟨_, Trace.linearization_of_ends hends⟩, fun _ => rfl⟩
    | false =>
        refine ⟨fun hb => (by cases hb), fun ⟨l, hl⟩ => ?_⟩
        exact absurd hl (Trace.covers_of_ends hends hl.toPartialLinearization).1
  · have hlen := (h.longest hcompute).1
    cases b with
    | true => exact List.length_replicate.trans hlen
    | false => exact hlen
  · obtain ⟨hlen, hbest⟩ := h.longest hcompute
    cases b with
    | true =>
        have hfull := Trace.linearization_of_ends hends
        refine Or.inr ⟨x.longest.seqs.length, Search.trail y.stack, ?_, ?_,
          hfull.toPartialLinearization, hfull.complete i hi, fun l hl _ => ?_⟩
        · show (List.replicate _ _)[i]? = _
          rw [List.getElem?_replicate, if_pos (hlen ▸ hi)]
        · exact List.getElem?_concat_length
        · exact (hl.nodup.subperm fun j hj => hfull.complete j (hl.lt j hj)).length_le
    | false =>
        have hcover : ∀ {l}, T.PartialLinearization (C.model.spec input output) l → i ∈ l →
            ∃ p ∈ y.log, p.Perm l := by
          intro l hl hil
          exact (Trace.covers_of_ends hends hl).2 (List.ne_nil_of_mem hil)
        rcases hbest i hi with ⟨hnone, hlog⟩ | ⟨a, q, ha, hq, hmem, hiq, hlongest⟩
        · refine Or.inl ⟨hnone, fun l hl hil => ?_⟩
          obtain ⟨p, hp, hperm⟩ := hcover hl hil
          exact hlog p hp (hperm.mem_iff.mpr hil)
        · refine Or.inr ⟨a, q, ha, hq, h.partial_of_log hmem, hiq, fun l hl hil => ?_⟩
          obtain ⟨p, hp, hperm⟩ := hcover hl hil
          rw [← hperm.length_eq]
          exact hlongest p hp (hperm.mem_iff.mpr hil)

end Runs

/-- **The loop ends**, with the right answer and the right `longest`. -/
lemma checkSingle_ends {entries : List (Entry ι ο)} (h : Describes entries T input output)
    {model : FullModel ι ο σ} (hequal : model.EqualSound) (computePartial : Bool) :
    ∃ C x₀ k b longest, checkSetup model entries computePartial = some (C, x₀) ∧
      EndsIn (C.checkStep false) k x₀ (b, longest) ∧
      (b = true ↔ ∃ l, T.Linearization (model.spec input output) l) ∧
      (computePartial = true →
        longest.pointers.length = n ∧ longest.Correct T (model.spec input output)) := by
  obtain ⟨C, x₀, hsetup, rfl, rfl, hC, hsim⟩ := checkSetup_spec h model computePartial
  have hequal' : ∀ s t, C.model.equal s t = true → ∀ l,
      (C.model.spec input output).accepts s l = (C.model.spec input output).accepts t l := by
    intro s t hst l
    unfold FullModel.spec
    rw [Spec.accepts_comap, Spec.accepts_comap]
    exact hequal s t hst _
  obtain ⟨y, b, hends⟩ := (Trace.search_sound (T := T) hequal').ends
  obtain ⟨x, hgoes, hsim'⟩ := hsim.goes hC hends.goes
  obtain ⟨longest, hleaves, hanswer, hlongest⟩ := hsim'.ends hC hends
  obtain ⟨k, hk⟩ := hgoes.endsIn hleaves
  exact ⟨C, x₀, k, b, longest, hsetup, hk, hanswer, hlongest⟩

/-- What is correct is sound. -/
lemma Longest.Correct.sound {longest : Longest} {P : Spec σ ℕ} (h : longest.Correct T P)
    (hlen : longest.pointers.length = n) : longest.Sound T P := by
  intro i a ha
  have hi : i < n := hlen ▸ (List.getElem?_eq_some_iff.mp ha).1
  rcases h i hi with ⟨hnone, -⟩ | ⟨a', q, ha', hq, hcompute, hiq, -⟩
  · rw [hnone] at ha
    cases ha
  · rw [ha'] at ha
    obtain rfl := Option.some.inj (Option.some.inj ha)
    exact ⟨q, hq, hcompute, hiq⟩

/-! ## The kill flag -/

/-- An iteration that reads that it is to stop does so, unless the list is empty. -/
lemma Setup.checkStep_killed (C : Setup ι ο σ) (x : CheckState σ) :
    C.checkStep true x = C.checkStep false x ∨
      C.checkStep true x = some (.inr (false, x.longest)) := by
  unfold Setup.checkStep
  split
  · exact Or.inl rfl
  · exact Or.inr rfl

/-- What is read from the flag matters only if it stops the loop. -/
lemma Setup.iteration_cases (C : Setup ι ο σ) (kill : ℕ → Bool) (j : ℕ) (x : CheckState σ) :
    (kill j = true ∧ C.iteration kill (j, x) = some (.inr (false, x.longest))) ∨
      C.iteration kill (j, x) =
        (C.checkStep false x).map (Sum.map (fun y => (j + 1, y)) id) := by
  unfold Setup.iteration
  cases hkill : kill j with
  | false => exact Or.inr rfl
  | true =>
      rcases C.checkStep_killed x with hsame | hstop
      · rw [hsame]
        exact Or.inr rfl
      · rw [hstop]
        exact Or.inl ⟨rfl, rfl⟩

/-- **With the flag**, the loop ends as it would without it, or it is stopped on the way. -/
lemma Setup.endsIn_iteration {x : CheckState σ} {r : Bool × Longest} {k : ℕ} (kill : ℕ → Bool)
    (h : EndsIn (C.checkStep false) k x r) (j : ℕ) :
    ∃ k' r', EndsIn (C.iteration kill) k' (j, x) r' ∧
      (r' = r ∨ (∃ i, kill i = true) ∧
        ∃ w, Goes (C.checkStep false) x w ∧ r' = (false, w.longest)) := by
  induction h generalizing j with
  | @leave x r hx =>
      rcases C.iteration_cases kill j x with ⟨hkill, hstop⟩ | hsame
      · exact ⟨0, _, EndsIn.leave hstop,
          Or.inr ⟨⟨j, hkill⟩, x, Relation.ReflTransGen.refl, rfl⟩⟩
      · rw [hx] at hsame
        exact ⟨0, r, EndsIn.leave hsame, Or.inl rfl⟩
  | @go k x y r hx _ ih =>
      rcases C.iteration_cases kill j x with ⟨hkill, hstop⟩ | hsame
      · exact ⟨0, _, EndsIn.leave hstop,
          Or.inr ⟨⟨j, hkill⟩, x, Relation.ReflTransGen.refl, rfl⟩⟩
      · rw [hx] at hsame
        obtain ⟨k', r', hends, hr'⟩ := ih (j + 1)
        refine ⟨k' + 1, r', EndsIn.go hsame hends, hr'.imp_right ?_⟩
        rintro ⟨hkill, w, hw, rfl⟩
        exact ⟨hkill, w, Goes.head hx hw, rfl⟩

end GoLabs.Porcupine
