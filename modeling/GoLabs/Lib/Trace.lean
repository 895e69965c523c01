import GoLabs.Lib.Linearization
import GoLabs.Lib.Search

/-!
# Searching for a linearization

A trace has the calls and the returns of `n` operations in the order in which they happened. The
search takes out one operation after the other. An operation can be taken out next if its call comes
before every return that is left, so the moves of a configuration are the calls at the front of what
is left of the trace.

* `Trace` — every operation is called and then returns.
* `Trace.PartialLinearization` — operations, in an order that the object accepts and that respects
  the trace, such that an operation comes with all that had returned before its call.
* `Trace.search` — the search, with a table of the sets of operations taken out and the states of
  the object that they lead to.

The paths of the search are the partial linearizations (`path_iff`). So it ends with a linearization
if there is one (`linearization_of_ends`), and every partial linearization has the operations of one
in its log if there is none (`covers_of_ends`).
-/

namespace GoLabs.Lib

variable {σ : Type*}

/-- The state after the operations. -/
def Spec.run {α : Type*} (P : Spec σ α) : σ → List α → σ
  | s, [] => s
  | s, a :: l => P.run (P.step s a).2 l

/-- The object, told the numbers of the operations only. -/
def Spec.comap {α β : Type*} (P : Spec σ α) (op : β → α) : Spec σ β where
  init := P.init
  step s i := P.step s (op i)

/-- An object accepts numbers iff it accepts the operations that they number. -/
lemma Spec.accepts_comap {α β : Type*} (P : Spec σ α) (op : β → α) (s : σ) (l : List β) :
    (P.comap op).accepts s l = P.accepts s (l.map op) := by
  induction l generalizing s with
  | nil => rfl
  | cons i l ih =>
      show ((P.step s (op i)).1 && (P.comap op).accepts (P.step s (op i)).2 l) = _
      rw [ih, List.map_cons, Spec.accepts]

/-- The history of the numbers of the operations. -/
lemma linearizable_map {α β τ : Type*} [LinearOrder τ] {call ret : α → τ} (P : Spec σ α)
    (op : β → α) (history : List β) :
    Linearizable call ret P (history.map op) ↔
      Linearizable (fun i => call (op i)) (fun i => ret (op i)) (P.comap op) history := by
  constructor
  · rintro ⟨m, hperm, htimes, hacc⟩
    -- an order of the operations is an order of their numbers
    obtain ⟨l, rfl, hl⟩ : Relation.Comp (fun m l => m = l.map op) List.Perm m history := by
      rw [List.eq_map_comp_perm]
      exact hperm
    refine ⟨l, hl, List.pairwise_map.mp htimes, ?_⟩
    rw [Spec.accepts_comap]
    exact hacc
  · rintro ⟨l, hl, htimes, hacc⟩
    rw [Spec.accepts_comap] at hacc
    exact ⟨l.map op, hl.map op, List.pairwise_map.mpr htimes, hacc⟩

/-! ## Traces -/

/-- An event of the operation `i`. -/
inductive Ev
  | call (i : ℕ)
  | ret (i : ℕ)
  deriving DecidableEq

namespace Ev

/-- The operation. -/
def id : Ev → ℕ
  | call i => i
  | ret i => i

def isCall : Ev → Bool
  | call _ => true
  | ret _ => false

/-- The number of a call. -/
@[simp] lemma id_call (i : ℕ) : (call i).id = i := rfl

/-- The number of a return. -/
@[simp] lemma id_ret (i : ℕ) : (ret i).id = i := rfl

/-- A call is one. -/
@[simp] lemma isCall_call (i : ℕ) : (call i).isCall = true := rfl

/-- A return is no call. -/
@[simp] lemma isCall_ret (i : ℕ) : (ret i).isCall = false := rfl

/-- A call is known by its number. -/
lemma eq_call {e : Ev} (h : e.isCall = true) : e = call e.id := by
  cases e with
  | call i => rfl
  | ret i => cases h

end Ev

/-- In a list without duplicates two elements are in one order only. -/
lemma not_sublist_swap {α : Type*} {a b : α} {l : List α} (hl : l.Nodup) (h : [a, b].Sublist l) :
    ¬ [b, a].Sublist l := by
  induction l with
  | nil => cases h
  | cons x l ih =>
      obtain ⟨hx, hl⟩ := List.nodup_cons.mp hl
      intro h'
      cases h with
      | cons _ h =>
          cases h' with
          | cons _ h' => exact ih hl h h'
          | cons_cons _ _ => exact hx (h.subset (by simp))
      | cons_cons _ h =>
          cases h' with
          | cons _ h' => exact hx (h'.subset (by simp))
          | cons_cons _ _ => exact hx (h.subset (by simp))

/-- Two elements of a list are in one order or the other. -/
lemma pair_sublist_or {α : Type*} {a b : α} {l : List α} (ha : a ∈ l) (hb : b ∈ l) (hab : a ≠ b) :
    [a, b].Sublist l ∨ [b, a].Sublist l := by
  induction l with
  | nil => cases ha
  | cons x l ih =>
      rcases List.mem_cons.mp ha with rfl | hal
      · rcases List.mem_cons.mp hb with rfl | hbl
        · exact absurd rfl hab
        · exact Or.inl (List.Sublist.cons_cons a (List.singleton_sublist.mpr hbl))
      · rcases List.mem_cons.mp hb with rfl | hbl
        · exact Or.inr (List.Sublist.cons_cons b (List.singleton_sublist.mpr hal))
        · exact (ih hal hbl).imp (List.Sublist.cons x) (List.Sublist.cons x)

/-- The calls before the first return. -/
lemma call_mem_takeWhile {i : ℕ} {es : List Ev} (hes : es.Nodup) :
    Ev.call i ∈ es.takeWhile Ev.isCall ↔
      Ev.call i ∈ es ∧ ∀ j, ¬ [Ev.ret j, Ev.call i].Sublist es := by
  induction es with
  | nil => simp
  | cons e es ih =>
      obtain ⟨he, htail⟩ := List.nodup_cons.mp hes
      cases e with
      | ret k =>
          rw [List.takeWhile_cons_of_neg (by simp)]
          refine iff_of_false (by simp) ?_
          rintro ⟨hmem, hbefore⟩
          have hmem : Ev.call i ∈ es := by simpa using hmem
          exact hbefore k (List.Sublist.cons_cons _ (List.singleton_sublist.mpr hmem))
      | call k =>
          rw [List.takeWhile_cons_of_pos (by simp), List.mem_cons, ih htail, List.mem_cons]
          have hskip : ∀ j, [Ev.ret j, Ev.call i].Sublist (Ev.call k :: es) ↔
              [Ev.ret j, Ev.call i].Sublist es := by
            intro j
            constructor
            · intro h
              cases h with
              | cons _ h => exact h
            · exact List.Sublist.cons _
          simp only [hskip]
          constructor
          · rintro (heq | h)
            · refine ⟨Or.inl heq, fun j hj => he ?_⟩
              rw [← heq]
              exact hj.subset (by simp)
            · exact ⟨Or.inr h.1, h.2⟩
          · rintro ⟨heq | h, hbefore⟩
            · exact Or.inl heq
            · exact Or.inr ⟨h, hbefore⟩

/-- The calls and returns of `n` operations. -/
structure Trace (n : ℕ) where
  events : List Ev
  nodup : events.Nodup
  id_lt : ∀ e ∈ events, e.id < n
  /-- Every operation is called before it returns. -/
  call_ret : ∀ i < n, [Ev.call i, Ev.ret i].Sublist events

namespace Trace

variable {n : ℕ} (T : Trace n)

/-- The operation `j` has returned before `i` is called. -/
def Before (j i : ℕ) : Prop := [Ev.ret j, Ev.call i].Sublist T.events

/-- What is left of the trace without the operations that are done. -/
def remaining (done : Finset ℕ) : List Ev := T.events.filter fun e => e.id ∉ done

/-- The operations that are called before any of those left returns. -/
def moves (done : Finset ℕ) : List ℕ := ((T.remaining done).takeWhile Ev.isCall).map Ev.id

variable {T} {i j : ℕ} {done : Finset ℕ}

/-- Every operation is called. -/
lemma call_mem (hi : i < n) : Ev.call i ∈ T.events := (T.call_ret i hi).subset (by simp)

/-- Every operation returns. -/
lemma ret_mem (hi : i < n) : Ev.ret i ∈ T.events := (T.call_ret i hi).subset (by simp)

/-- Only operations of the trace come before one another. -/
lemma Before.lt (h : T.Before j i) : j < n ∧ i < n :=
  ⟨T.id_lt _ (h.subset (by simp : Ev.ret j ∈ _)), T.id_lt _ (h.subset (by simp : Ev.call i ∈ _))⟩

/-- No operation returns before it is called. -/
lemma not_before_self : ¬ T.Before i i := by
  intro h
  exact not_sublist_swap T.nodup h (T.call_ret i h.lt.1)

/-- A trace has a call and a return for each operation. -/
lemma length_events : T.events.length = 2 * n := by
  have hcalls : ((List.range n).map Ev.call).Nodup :=
    List.nodup_range.map fun _ _ h => Ev.call.inj h
  have hrets : ((List.range n).map Ev.ret).Nodup := List.nodup_range.map fun _ _ h => Ev.ret.inj h
  have hdisjoint : ∀ a ∈ (List.range n).map Ev.call, ∀ b ∈ (List.range n).map Ev.ret, a ≠ b := by
    intro a ha b hb heq
    obtain ⟨i, -, rfl⟩ := List.mem_map.mp ha
    obtain ⟨j, -, rfl⟩ := List.mem_map.mp hb
    cases heq
  have hperm : T.events.Perm ((List.range n).map Ev.call ++ (List.range n).map Ev.ret) := by
    refine (List.perm_ext_iff_of_nodup T.nodup
      (List.nodup_append.mpr ⟨hcalls, hrets, hdisjoint⟩)).mpr fun e => ?_
    rw [List.mem_append, List.mem_map, List.mem_map]
    constructor
    · intro he
      have hlt := List.mem_range.mpr (T.id_lt e he)
      cases e with
      | call i => exact Or.inl ⟨i, hlt, rfl⟩
      | ret i => exact Or.inr ⟨i, hlt, rfl⟩
    · rintro (⟨i, hi, rfl⟩ | ⟨i, hi, rfl⟩)
      · exact call_mem (List.mem_range.mp hi)
      · exact ret_mem (List.mem_range.mp hi)
  rw [hperm.length_eq]
  simp
  omega

/-- The events that remain are those of operations that are not done. -/
lemma mem_remaining {e : Ev} : e ∈ T.remaining done ↔ e ∈ T.events ∧ e.id ∉ done := by
  simp [remaining]

/-- At first all events remain. -/
lemma remaining_empty : T.remaining ∅ = T.events := by simp [remaining]

/-- No event remains twice. -/
lemma remaining_nodup : (T.remaining done).Nodup := T.nodup.filter _

/-- When an operation is done, its two events are taken out. -/
lemma remaining_insert :
    T.remaining (insert i done) = (T.remaining done).filter fun e => e.id ≠ i := by
  unfold remaining
  rw [List.filter_filter]
  refine List.filter_congr fun e _ => ?_
  simp [not_or]

/-- The events that remain are in the order of the trace. -/
lemma pair_sublist_remaining {e e' : Ev} :
    [e, e'].Sublist (T.remaining done) ↔
      [e, e'].Sublist T.events ∧ e.id ∉ done ∧ e'.id ∉ done := by
  constructor
  · intro h
    refine ⟨h.trans List.filter_sublist, ?_, ?_⟩
    · exact (mem_remaining.mp (h.subset (by simp))).2
    · exact (mem_remaining.mp (h.subset (by simp))).2
  · rintro ⟨h, he, he'⟩
    have hfilter := h.filter fun e => decide (e.id ∉ done)
    simpa [remaining, he, he'] using hfilter

/-- **What can be taken out next.** -/
lemma mem_moves : i ∈ T.moves done ↔ i < n ∧ i ∉ done ∧ ∀ j, T.Before j i → j ∈ done := by
  have hmem : i ∈ T.moves done ↔ Ev.call i ∈ (T.remaining done).takeWhile Ev.isCall := by
    unfold moves
    rw [List.mem_map]
    constructor
    · rintro ⟨e, he, rfl⟩
      rwa [← Ev.eq_call (List.mem_takeWhile_imp he)]
    · intro h
      exact ⟨_, h, rfl⟩
  rw [hmem, call_mem_takeWhile remaining_nodup, mem_remaining]
  simp only [pair_sublist_remaining, Ev.id_call, Ev.id_ret]
  constructor
  · rintro ⟨⟨hcall, hi⟩, hbefore⟩
    refine ⟨T.id_lt _ hcall, hi, fun j hj => ?_⟩
    by_contra hj'
    exact hbefore j ⟨hj, hj', hi⟩
  · rintro ⟨hlt, hi, hbefore⟩
    exact ⟨⟨call_mem hlt, hi⟩, fun j hj => hj.2.1 (hbefore j hj.1)⟩

/-- No event remains iff all operations are done. -/
lemma remaining_eq_nil : T.remaining done = [] ↔ ∀ i < n, i ∈ done := by
  rw [List.eq_nil_iff_forall_not_mem]
  constructor
  · intro h i hi
    by_contra hnot
    exact h _ (mem_remaining.mpr ⟨call_mem hi, hnot⟩)
  · intro h e he
    obtain ⟨hmem, hid⟩ := mem_remaining.mp he
    exact hid (h _ (T.id_lt e hmem))

/-! ## Linearizations -/

variable (T)

/-- Operations that have taken effect, in this order: the object accepts them, none comes after one
that was called when it had already returned, and each comes with all that had returned before its
call. -/
structure PartialLinearization (P : Spec σ ℕ) (l : List ℕ) : Prop where
  nodup : l.Nodup
  lt : ∀ i ∈ l, i < n
  order : l.Pairwise fun i j => ¬ T.Before j i
  closed : ∀ i ∈ l, ∀ j, T.Before j i → j ∈ l
  accepted : P.accepts P.init l = true

/-- All operations have taken effect. -/
structure Linearization (P : Spec σ ℕ) (l : List ℕ) : Prop
    extends T.PartialLinearization P l where
  complete : ∀ i < n, i ∈ l

variable {T} in
/-- A linearization is an order of all operations that respects real time and is accepted. -/
lemma linearization_iff {P : Spec σ ℕ} {l : List ℕ} : T.Linearization P l ↔
    l.Perm (List.range n) ∧ (l.Pairwise fun i j => ¬ T.Before j i) ∧
      P.accepts P.init l = true := by
  constructor
  · intro h
    refine ⟨(List.perm_ext_iff_of_nodup h.nodup List.nodup_range).mpr fun i => ?_, h.order,
      h.accepted⟩
    rw [List.mem_range]
    exact ⟨h.lt i, h.complete i⟩
  · rintro ⟨hperm, horder, hacc⟩
    have hmem : ∀ i, i ∈ l ↔ i < n := fun i => hperm.mem_iff.trans List.mem_range
    refine ⟨⟨hperm.nodup_iff.mpr List.nodup_range, fun i => (hmem i).mp, horder, ?_, hacc⟩,
      fun i => (hmem i).mpr⟩
    intro i _ j hj
    exact (hmem j).mpr hj.lt.1

/-- **Linearizability in terms of the trace**, when the trace orders a return and a call as their
times do. -/
theorem linearizable_iff {α τ : Type*} [LinearOrder τ] {call ret : α → τ} {op : ℕ → α}
    (htime : ∀ i < n, ∀ j < n, T.Before j i ↔ ret (op j) < call (op i)) (P : Spec σ α) :
    Linearizable call ret P ((List.range n).map op) ↔ ∃ l, T.Linearization (P.comap op) l := by
  have horder : ∀ {l : List ℕ}, l.Perm (List.range n) →
      (RespectsTime (fun i => call (op i)) (fun i => ret (op i)) l ↔
        l.Pairwise fun i j => ¬ T.Before j i) := by
    intro l hl
    have hlt : ∀ i ∈ l, i < n := fun i hi => List.mem_range.mp (hl.subset hi)
    unfold RespectsTime
    constructor
    · intro h
      exact h.imp_of_mem fun hi hj hij => by rwa [htime _ (hlt _ hi) _ (hlt _ hj)]
    · intro h
      exact h.imp_of_mem fun hi hj hij => by rwa [htime _ (hlt _ hi) _ (hlt _ hj)] at hij
  rw [linearizable_map]
  constructor
  · rintro ⟨l, hl, htimes, hacc⟩
    exact ⟨l, linearization_iff.mpr ⟨hl, (horder hl).mp htimes, hacc⟩⟩
  · rintro ⟨l, h⟩
    obtain ⟨hl, hpair, hacc⟩ := linearization_iff.mp h
    exact ⟨l, hl, (horder hl).mpr hpair, hacc⟩

/-- The operations can be taken out one after the other. -/
def Extends : Finset ℕ → List ℕ → Prop
  | _, [] => True
  | done, i :: l => i ∈ T.moves done ∧ Extends (insert i done) l

variable {T}

/-- An order extends what is done if it respects real time and leaves out nothing that has to come
first. -/
lemma extends_iff {l : List ℕ} : T.Extends done l ↔ l.Nodup ∧ (∀ i ∈ l, i < n ∧ i ∉ done) ∧
    (l.Pairwise fun i j => ¬ T.Before j i) ∧ ∀ i ∈ l, ∀ j, T.Before j i → j ∈ done ∨ j ∈ l := by
  induction l generalizing done with
  | nil => simp [Extends]
  | cons i l ih =>
      unfold Extends
      rw [ih, mem_moves, List.nodup_cons, List.pairwise_cons]
      constructor
      · rintro ⟨⟨hi, hnot, hbefore⟩, hnodup, hlt, hpair, hclosed⟩
        have hnew : ∀ k ∈ l, k ≠ i ∧ k ∉ done := by
          intro k hk
          have hk' := (hlt k hk).2
          rw [Finset.mem_insert, not_or] at hk'
          exact hk'
        refine ⟨⟨fun hmem => (hnew i hmem).1 rfl, hnodup⟩, ?_, ⟨?_, hpair⟩, ?_⟩
        · intro k hk
          rcases List.mem_cons.mp hk with rfl | hk
          · exact ⟨hi, hnot⟩
          · exact ⟨(hlt k hk).1, (hnew k hk).2⟩
        · intro k hk hki
          exact (hnew k hk).2 (hbefore k hki)
        · intro k hk j hj
          rcases List.mem_cons.mp hk with rfl | hk
          · exact Or.inl (hbefore j hj)
          · have hjk := hclosed k hk j hj
            rw [Finset.mem_insert] at hjk
            rw [List.mem_cons]
            tauto
      · rintro ⟨⟨hmem, hnodup⟩, hlt, ⟨hhead, hpair⟩, hclosed⟩
        have hi := hlt i List.mem_cons_self
        refine ⟨⟨hi.1, hi.2, ?_⟩, hnodup, ?_, hpair, ?_⟩
        · intro j hj
          rcases hclosed i List.mem_cons_self j hj with hdone | hj'
          · exact hdone
          · rcases List.mem_cons.mp hj' with rfl | hj'
            · exact absurd hj not_before_self
            · exact absurd hj (hhead j hj')
        · intro k hk
          refine ⟨(hlt k (List.mem_cons_of_mem i hk)).1, ?_⟩
          rw [Finset.mem_insert, not_or]
          refine ⟨?_, (hlt k (List.mem_cons_of_mem i hk)).2⟩
          rintro rfl
          exact hmem hk
        · intro k hk j hj
          have hjk := hclosed k (List.mem_cons_of_mem i hk) j hj
          rw [List.mem_cons] at hjk
          rw [Finset.mem_insert]
          tauto

/-! ## The search -/

/-- The operations that are done and the state of the object after them. -/
structure Config (σ : Type*) where
  done : Finset ℕ
  state : σ

variable (T) in
/-- The search for a linearization. -/
def search (P : Spec σ ℕ) (equal : σ → σ → Bool) : Search (Config σ) ℕ where
  moves c := T.moves c.done
  next c i :=
    if (P.step c.state i).1 then some ⟨insert i c.done, (P.step c.state i).2⟩ else none
  goal c := (T.remaining c.done).isEmpty
  same c d := decide (c.done = d.done) && equal c.state d.state

variable {P : Spec σ ℕ} {equal : σ → σ → Bool}

/-- Nothing is done yet. -/
def root (P : Spec σ ℕ) : Config σ := ⟨∅, P.init⟩

/-- A move is an operation that the object accepts. -/
lemma search_next {c d : Config σ} : (T.search P equal).next c i = some d ↔
    (P.step c.state i).1 = true ∧ d = ⟨insert i c.done, (P.step c.state i).2⟩ := by
  show (if (P.step c.state i).1 then some _ else none) = some d ↔ _
  split_ifs with hstep
  · simp [hstep, eq_comm]
  · simp [hstep]

/-- The goal is that all operations are done. -/
lemma search_goal {c : Config σ} : (T.search P equal).goal c = true ↔ ∀ i < n, i ∈ c.done := by
  show (T.remaining c.done).isEmpty = true ↔ _
  rw [List.isEmpty_iff, remaining_eq_nil]

/-- Paths from any configuration. -/
lemma path_iff_extends {c d : Config σ} {l : List ℕ} : (T.search P equal).Path c l d ↔
    T.Extends c.done l ∧ P.accepts c.state l = true ∧
      d = ⟨c.done ∪ l.toFinset, P.run c.state l⟩ := by
  induction l generalizing c with
  | nil =>
      constructor
      · intro h
        cases h
        simp [Extends, Spec.accepts, Spec.run]
      · rintro ⟨-, -, rfl⟩
        simpa [Spec.run] using Search.Path.nil c
  | cons i l ih =>
      have hunion : insert i c.done ∪ l.toFinset = c.done ∪ (i :: l).toFinset := by
        ext j
        simp only [Finset.mem_union, Finset.mem_insert, List.mem_toFinset, List.mem_cons]
        tauto
      constructor
      · intro h
        cases h with
        | cons hi he hp =>
            obtain ⟨hstep, rfl⟩ := search_next.mp he
            obtain ⟨hext, hacc, rfl⟩ := ih.mp hp
            refine ⟨⟨hi, hext⟩, by simp [Spec.accepts, hstep, hacc], ?_⟩
            simp only [hunion, Spec.run]
      · rintro ⟨⟨hi, hext⟩, hacc, rfl⟩
        obtain ⟨hstep, hacc⟩ := Bool.and_eq_true_iff.mp hacc
        refine Search.Path.cons hi (search_next.mpr ⟨hstep, rfl⟩) (ih.mpr ⟨hext, hacc, ?_⟩)
        simp only [hunion, Spec.run]

/-- **The paths of the search are the partial linearizations.** -/
lemma path_iff {c : Config σ} {l : List ℕ} : (T.search P equal).Path (root P) l c ↔
    T.PartialLinearization P l ∧ c = ⟨l.toFinset, P.run P.init l⟩ := by
  rw [path_iff_extends, extends_iff]
  simp only [root, Finset.notMem_empty, not_false_eq_true, and_true, false_or, Finset.empty_union]
  constructor
  · rintro ⟨⟨hnodup, hlt, horder, hclosed⟩, hacc, hc⟩
    exact ⟨⟨hnodup, hlt, horder, hclosed, hacc⟩, hc⟩
  · rintro ⟨h, hc⟩
    exact ⟨⟨h.nodup, h.lt, h.order, h.closed⟩, h.accepted, hc⟩

/-- Configurations that can be continued in the same ways. -/
def Sim (P : Spec σ ℕ) (c d : Config σ) : Prop :=
  c.done = d.done ∧ ∀ l, P.accepts c.state l = P.accepts d.state l

/-- **The table is sound** if `equal` holds of states that accept the same operations only. -/
lemma search_sound (hequal : ∀ s t, equal s t = true → ∀ l, P.accepts s l = P.accepts t l) :
    (T.search P equal).Sound (root P) (Sim P) (fun c => c.done.card) n where
  refl _ := ⟨rfl, fun _ => rfl⟩
  trans h h' := ⟨h.1.trans h'.1, fun l => (h.2 l).trans (h'.2 l)⟩
  of_same h := by
    obtain ⟨hdone, hstate⟩ := Bool.and_eq_true_iff.mp h
    exact ⟨of_decide_eq_true hdone, hequal _ _ hstate⟩
  goal_eq h := by
    show (T.remaining _).isEmpty = (T.remaining _).isEmpty
    rw [h.1]
  rank_eq h := by rw [h.1]
  move := by
    intro c d i c' h hi hnext
    obtain ⟨hstep, rfl⟩ := search_next.mp hnext
    have hi' : i ∈ (T.search P equal).moves d := by
      show i ∈ T.moves d.done
      rw [← h.1]
      exact hi
    have hstep' : (P.step d.state i).1 = true := by
      simpa [Spec.accepts, hstep] using (h.2 [i]).symm
    refine ⟨hi', _, search_next.mpr ⟨hstep', rfl⟩, ?_, ?_⟩
    · show insert i c.done = insert i d.done
      rw [h.1]
    · intro l
      simpa [Spec.accepts, hstep, hstep'] using h.2 (i :: l)
  rank_next := by
    intro c i d hi hnext
    obtain ⟨-, rfl⟩ := search_next.mp hnext
    show c.done.card < (insert i c.done).card
    rw [Finset.card_insert_of_notMem (mem_moves.mp hi).2.1]
    exact Nat.lt_succ_self _
  rank_le := by
    rintro c ⟨l, hl⟩
    obtain ⟨hlin, rfl⟩ := path_iff.mp hl
    have hsub : l.toFinset ⊆ Finset.range n := by
      intro i hi
      exact Finset.mem_range.mpr (hlin.lt i (List.mem_toFinset.mp hi))
    simpa using Finset.card_le_card hsub

/-- **A search that finds a goal has a linearization.** -/
theorem linearization_of_ends {x : Search.State (Config σ) ℕ}
    (h : Search.Sound.Ends (T.search P equal) (root P) (Sim P) x true) :
    T.Linearization P (Search.trail x.stack) := by
  obtain ⟨hgoal, hpath⟩ := h.found rfl
  obtain ⟨hlin, hc⟩ := path_iff.mp hpath
  refine ⟨hlin, fun i hi => ?_⟩
  have hdone := search_goal.mp hgoal i hi
  rw [hc] at hdone
  exact List.mem_toFinset.mp hdone

/-- **A search that finds none has covered every partial linearization.** -/
theorem covers_of_ends {x : Search.State (Config σ) ℕ}
    (h : Search.Sound.Ends (T.search P equal) (root P) (Sim P) x false) {l : List ℕ}
    (hl : T.PartialLinearization P l) :
    ¬ T.Linearization P l ∧ (l ≠ [] → ∃ p ∈ x.log, p.Perm l) := by
  obtain ⟨hgoal, hcover⟩ := h.none_left rfl _ ⟨l, path_iff.mpr ⟨hl, rfl⟩⟩
  refine ⟨?_, fun hne => ?_⟩
  · intro hfull
    rw [search_goal.mpr fun i hi => List.mem_toFinset.mpr (hfull.complete i hi)] at hgoal
    cases hgoal
  · rcases hcover with hroot | ⟨p, hp, d, hd, hsim⟩
    · have hempty : l.toFinset = ∅ := congrArg Config.done hroot
      exact absurd (List.toFinset_eq_empty_iff l |>.mp hempty) hne
    · obtain ⟨hlin, rfl⟩ := path_iff.mp hd
      have hset : l.toFinset = p.toFinset := hsim.1
      refine ⟨p, hp, (List.perm_ext_iff_of_nodup hlin.nodup hl.nodup).mpr fun i => ?_⟩
      rw [← List.mem_toFinset, ← List.mem_toFinset, hset]

end Trace

end GoLabs.Lib
