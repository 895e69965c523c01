import GoLabs.Consensus.Rounds

/-!
# Logs

**The phases of a term** (`Phase`). Within one term a peer is first no follower, if it ever is,
and then a follower until the term ends; and as long as it is no follower its log only grows. So a
peer leads a term during one interval, with an append-only log. This needs no assumption on the
run.

**The shape of a log** (`LogShape`). The placeholder is at index 0, the terms do not decrease and
none exceeds `currentTerm`. This needs no assumption either: a request carries the suffix of such
a log together with the term in front of it.

**Provenance and log matching.** `Created tr T L` says that some leader of term `T` appended the
last entry of `L` with `Start`, when its log was the rest of `L`. Where no two peers append
entries of one term (`OneAppenderPerTerm`), every prefix of every log is such a list (`Sourced`):
an accepted request leaves the follower with the whole log the sender had when it built it, so
logs are only ever extended by `Start` or copied. Two lists created in one term extend one another,
and log matching follows (`logMatching`).
-/

namespace GoLabs.Consensus

open GoLabs.Lib

variable {n : ℕ} {C : Type}

/-! ## The phases of a term -/

/-- `rf'` is a later state of the peer `rf`: the term has not decreased, and if the term is the same
and `rf'` is no follower, then `rf` was none and its log has only been extended. -/
def Phase (rf rf' : Raft n C) : Prop :=
  rf.currentTerm ≤ rf'.currentTerm ∧
    (rf.currentTerm = rf'.currentTerm → rf'.state ≠ .follower →
      rf.state ≠ .follower ∧ rf.log <+: rf'.log)

/-- A peer is a later state of itself. -/
lemma Phase.refl (rf : Raft n C) : Phase rf rf := ⟨le_refl _, fun _ h => ⟨h, List.prefix_rfl⟩⟩

/-- Later than later is later. -/
lemma Phase.trans {rf₁ rf₂ rf₃ : Raft n C} (h : Phase rf₁ rf₂) (h' : Phase rf₂ rf₃) :
    Phase rf₁ rf₃ := by
  refine ⟨h.1.trans h'.1, fun hT hs => ?_⟩
  have hle := h.1
  have hle' := h'.1
  obtain ⟨hs', hlog'⟩ := h'.2 (by omega) hs
  obtain ⟨hs'', hlog⟩ := h.2 (by omega) hs'
  exact ⟨hs'', hlog.trans hlog'⟩

/-- One step leads to a later state. -/
lemma PeerStep.phase {st : Cluster n C} {a : Action n C} {s : Fin n} {rf : Raft n C}
    (h : PeerStep st a s rf) : Phase (st.rafts s) rf := by
  refine ⟨h.term_le, fun hT hs => ?_⟩
  cases h with
  | quiet _ _ state log => exact ⟨state ▸ hs, by rw [log]⟩
  | candidate => simp at hT
  | raise => exact ⟨by simpa using hs, by simp⟩
  | vote => exact ⟨by simpa using hs, by simp⟩
  | demote => exact absurd rfl hs
  | stepDown => exact absurd rfl hs
  | promote _ _ _ _ hc => exact ⟨by simp [hc], List.prefix_rfl⟩
  | follow _ _ _ hf => exact absurd hf hs
  | accept _ _ _ hf => exact absurd hf hs
  | commit => exact ⟨hs, List.prefix_rfl⟩
  | start _ hl => exact ⟨hs, List.prefix_append _ _⟩
  | apply => exact ⟨hs, List.prefix_rfl⟩

section Runs

variable [Inhabited C] {tr : Trace n C} {st : Cluster n C}

/-- Every state of a peer is a later one of those visited before. -/
theorem phase_of_visited (h : (cluster n C).Run tr st) {x : Cluster n C} (hx : Visited tr st x)
    (s : Fin n) : Phase (x.rafts s) (st.rafts s) :=
  h.rel_of_visited (R := fun x y => Phase (x.rafts s) (y.rafts s)) (fun _ => .refl _) .trans
    (fun hs => ((Step.of_cluster hs).peer s).phase) hx

/-- **One append-only interval per term**: the logs a peer has while it is no follower of a term
extend one another. -/
theorem log_comparable (h : (cluster n C).Run tr st) {x y : Cluster n C} (hx : Visited tr st x)
    (hy : Visited tr st y) {s : Fin n}
    (hT : (x.rafts s).currentTerm = (y.rafts s).currentTerm)
    (hxs : (x.rafts s).state ≠ .follower) (hys : (y.rafts s).state ≠ .follower) :
    (x.rafts s).log <+: (y.rafts s).log ∨ (y.rafts s).log <+: (x.rafts s).log := by
  rcases h.rel_or_rel (R := fun x y => Phase (x.rafts s) (y.rafts s)) (fun _ => .refl _) .trans
    (fun hs => ((Step.of_cluster hs).peer s).phase) hx hy with hp | hp
  · exact Or.inl (hp.2 hT hys).2
  · exact Or.inr (hp.2 hT.symm hxs).2

end Runs

/-! ## The last entry, and the log after an accepted request -/

/-- The last term of a log is the term of its last entry. -/
lemma lastLogTerm?_eq_some {rf : Raft n C} {t : ℕ} (h : rf.lastLogTerm? = some t) :
    ∃ e, rf.log[rf.log.length - 1]? = some e ∧ e.term = t := by
  simp only [Raft.lastLogTerm?, Option.map_eq_some_iff, Slice.get?_eq_some_iff,
    Raft.lastLogIndex] at h
  obtain ⟨e, ⟨h0, he⟩, rfl⟩ := h
  have hnat : ((rf.log.length : ℤ) - 1).toNat = rf.log.length - 1 := by omega
  exact ⟨e, hnat ▸ he, rfl⟩

/-- The follower's log up to the previous entry and the sender's log behind it: when the two agree
up to the previous entry, this is the sender's log. -/
lemma take_append_drop_of_take_eq {α : Type*} {L S : List α} {k : ℕ} (h : L.take k = S.take k) :
    L.take k ++ S.drop k = S := by
  rw [h, List.take_append_drop]

/-- What a prefix has at an index, the whole list has there. -/
lemma getElem?_of_isPrefix {α : Type*} {L M : List α} (h : L <+: M) {i : ℕ} {a : α}
    (ha : L[i]? = some a) : M[i]? = some a := by
  obtain ⟨N, rfl⟩ := h
  rw [List.getElem?_append_left (List.getElem?_eq_some_iff.mp ha).1, ha]

/-- The log an accepted request leaves, in terms of the sender's log when it was built. -/
lemma accept_log_eq {rf sender : Raft n C} {me p : Fin n} {args : AppendEntriesArgs n C}
    (hb : sender.heartBeatArgs me p = some args) (T : ℕ) :
    ({ rf with currentTerm := T }.accept args).log =
      rf.log.take (args.prevLogIndex.toNat + 1) ++
        sender.log.drop (args.prevLogIndex.toNat + 1) := by
  obtain ⟨-, -, h0, -, hent, -⟩ := Raft.heartBeatArgs_eq_some hb
  have hnat : (args.prevLogIndex + 1).toNat = args.prevLogIndex.toNat + 1 := by omega
  rw [Raft.accept_log, hent, hnat]

/-- **What a step does to a log**: nothing, an append by `Start`, or an accepted request. -/
theorem PeerStep.log_cases {st : Cluster n C} {a : Action n C} {s : Fin n} {rf : Raft n C}
    (h : PeerStep st a s rf) :
    rf.log = (st.rafts s).log ∨
      (∃ c, a = .start s c ∧ (st.rafts s).state = .leader ∧
        rf.currentTerm = (st.rafts s).currentTerm ∧
        rf.log = (st.rafts s).log ++ [⟨(st.rafts s).currentTerm, c⟩]) ∨
      ∃ r rd args, a = .appendEntries r s ∧ st.rounds[r]? = some rd ∧
        rd.calls s = .requested args ∧ (st.rafts s).accepts args ∧
        rf = { st.rafts s with currentTerm := args.term }.accept args := by
  cases h with
  | quiet _ _ _ log => exact Or.inl log
  | raise => exact Or.inl (by simp)
  | vote => exact Or.inl (by simp)
  | @accept r rd args prev ha hrd hc hs ht hi hp hpt =>
      refine Or.inr (Or.inr ⟨r, rd, args, ha, hrd, hc, ?_, rfl⟩)
      exact Raft.accepts_iff.mpr ⟨hs, ht, hi, prev, hp, hpt⟩
  | @start c m ha hs => exact Or.inr (Or.inl ⟨c, ha, hs, rfl, rfl⟩)
  | _ => exact Or.inl rfl

/-! ## The shape of a log -/

/-- The placeholder is at index 0, the terms do not decrease, and none exceeds `T`. -/
structure LogShape [Inhabited C] (T : ℕ) (L : List (LogEntry C)) : Prop where
  head : L[0]? = some ⟨0, default⟩
  ordered : L.Pairwise fun e f => e.term ≤ f.term
  bound : ∀ e ∈ L, e.term ≤ T

/-- A higher term bounds the log as well. -/
lemma LogShape.mono [Inhabited C] {T T' : ℕ} {L : List (LogEntry C)} (h : LogShape T L)
    (hT : T ≤ T') : LogShape T' L := ⟨h.head, h.ordered, fun e he => (h.bound e he).trans hT⟩

/-- Terms do not decrease from one index to a later one. -/
lemma LogShape.term_le [Inhabited C] {T : ℕ} {L : List (LogEntry C)} (h : LogShape T L) {i j : ℕ}
    {e f : LogEntry C} (hij : i ≤ j) (hi : L[i]? = some e) (hj : L[j]? = some f) :
    e.term ≤ f.term := by
  rcases Nat.lt_or_eq_of_le hij with hlt | rfl
  · obtain ⟨hil, rfl⟩ := List.getElem?_eq_some_iff.mp hi
    obtain ⟨hjl, rfl⟩ := List.getElem?_eq_some_iff.mp hj
    exact List.pairwise_iff_getElem.mp h.ordered i j hil hjl hlt
  · rw [hi, Option.some.injEq] at hj
    exact hj ▸ le_refl _

/-- A log keeps its shape when an entry of the present term is appended. -/
lemma LogShape.append [Inhabited C] {T : ℕ} {L : List (LogEntry C)} (h : LogShape T L) (c : C) :
    LogShape T (L ++ [⟨T, c⟩]) := by
  obtain ⟨hlen, -⟩ := List.getElem?_eq_some_iff.mp h.head
  refine ⟨?_, ?_, fun e he => ?_⟩
  · rw [List.getElem?_append_left hlen]
    exact h.head
  · refine List.pairwise_append.mpr ⟨h.ordered, List.pairwise_singleton _ _, fun e he f hf => ?_⟩
    rw [List.mem_singleton] at hf
    exact hf ▸ h.bound e he
  · rcases List.mem_append.mp he with he | he
    · exact h.bound e he
    · rw [List.mem_singleton] at he
      exact he ▸ le_refl _

/-- Splicing two such logs where they have the same term. -/
lemma LogShape.splice [Inhabited C] {T : ℕ} {L S : List (LogEntry C)} (hL : LogShape T L)
    (hS : LogShape T S) {i : ℕ} {e f : LogEntry C} (he : L[i]? = some e) (hf : S[i]? = some f)
    (hterm : e.term = f.term) : LogShape T (L.take (i + 1) ++ S.drop (i + 1)) := by
  refine ⟨?_, List.pairwise_append.mpr ⟨hL.ordered.sublist (List.take_sublist _ _),
    hS.ordered.sublist (List.drop_sublist _ _), fun a ha b hb => ?_⟩, fun a ha => ?_⟩
  · obtain ⟨hlen, -⟩ := List.getElem?_eq_some_iff.mp hL.head
    rw [List.getElem?_append_left (by simp; omega), List.getElem?_take_of_lt (by omega)]
    exact hL.head
  · obtain ⟨j, hj⟩ := List.mem_iff_getElem?.mp ha
    obtain ⟨k, hk⟩ := List.mem_iff_getElem?.mp hb
    have hji : j < i + 1 := by
      have := (List.getElem?_eq_some_iff.mp hj).1
      rw [List.length_take] at this
      omega
    rw [List.getElem?_take_of_lt hji] at hj
    rw [List.getElem?_drop] at hk
    calc a.term ≤ e.term := hL.term_le (by omega) hj he
      _ = f.term := hterm
      _ ≤ b.term := hS.term_le (by omega) hf hk
  · rcases List.mem_append.mp ha with ha | ha
    · exact hL.bound a (List.mem_of_mem_take ha)
    · exact hS.bound a (List.mem_of_mem_drop ha)

section Runs

variable [Inhabited C] {tr : Trace n C} {st : Cluster n C}

/-- **Every log has this shape**, in every state of every run. -/
theorem logShape_of_run (h : (cluster n C).Run tr st) {x : Cluster n C} (hx : Visited tr st x)
    (s : Fin n) : LogShape (x.rafts s).currentTerm (x.rafts s).log := by
  induction h generalizing x s with
  | init =>
      rcases hx with rfl | ⟨a, ha⟩
      · exact ⟨rfl, List.pairwise_singleton _ _, by simp [cluster, Cluster.make, make]⟩
      · exact absurd ha List.not_mem_nil
  | @step tr z y a h hs ih =>
      rcases hx with rfl | ⟨b, hb⟩
      · have hp := (Step.of_cluster hs).peer s
        have hz := ih (Visited.now _ _) s
        rcases hp.log_cases with hlog | ⟨c, -, -, hT, hlog⟩ |
          ⟨r, rd, args, -, hrd, hc, hacc, hrf⟩
        · rw [hlog]
          exact hz.mono hp.term_le
        · rw [hlog, hT]
          exact hz.append c
        · obtain ⟨w, hb⟩ := (built_of_run h r rd hrd).2 s args (by simp [hc])
          obtain ⟨hTw, -, -, ⟨prev, hprev, hpt⟩, -⟩ := Raft.heartBeatArgs_eq_some hb.eq
          obtain ⟨-, hle, -, prev', hprev', hpt'⟩ := Raft.accepts_iff.mp hacc
          have hsend := ih (hb.visited _) rd.leader
          rw [hrf, accept_log_eq hb.eq]
          exact (hz.mono hle).splice (hTw ▸ hsend) hprev' hprev (hpt'.trans hpt.symm)
      · exact ih (Visited.of_cons hb) s

/-! ## Provenance -/

/-- The peer that appends an entry in this step, and the entry's term.
Source: `raft.go` `Start` -/
def appender (st : Cluster n C) : Action n C → Option (Fin n × ℕ)
  | .start s _ => if (st.rafts s).state = .leader then some (s, (st.rafts s).currentTerm) else none
  | _ => none

/-- No two peers append, via `Start`, entries of the same term. -/
def OneAppenderPerTerm (tr : Trace n C) : Prop :=
  ∀ q ∈ tr, ∀ q' ∈ tr, ∀ u ∈ appender q.1 q.2, ∀ u' ∈ appender q'.1 q'.2, u.2 = u'.2 → u.1 = u'.1

instance (tr : Trace n C) : Decidable (OneAppenderPerTerm tr) :=
  inferInstanceAs (Decidable (∀ q ∈ tr, ∀ q' ∈ tr, ∀ u ∈ appender q.1 q.2,
    ∀ u' ∈ appender q'.1 q'.2, u.2 = u'.2 → u.1 = u'.1))

/-- A leader of term `T` appended the last entry of `L` to the rest of `L`. -/
def Created (tr : Trace n C) (T : ℕ) (L : List (LogEntry C)) : Prop :=
  ∃ z s c, (z, .start s c) ∈ tr ∧ (z.rafts s).state = .leader ∧ (z.rafts s).currentTerm = T ∧
    L = (z.rafts s).log ++ [⟨T, c⟩]

/-- The log starts with the placeholder, and every longer prefix of it was created in the term of
its last entry. -/
def Sourced (tr : Trace n C) (L : List (LogEntry C)) : Prop :=
  L[0]? = some ⟨0, default⟩ ∧
    ∀ i e, 1 ≤ i → L[i]? = some e → Created tr e.term (L.take (i + 1))

omit [Inhabited C] in
/-- What was created in a run was created in a longer one. -/
lemma Created.mono {tr' : Trace n C} {T : ℕ} {L : List (LogEntry C)} (h : Created tr T L)
    (htr : tr ⊆ tr') : Created tr' T L := by
  obtain ⟨z, s, c, hz, hs⟩ := h
  exact ⟨z, s, c, htr hz, hs⟩

/-- A log with a source has it in a longer run. -/
lemma Sourced.mono {tr' : Trace n C} {L : List (LogEntry C)} (h : Sourced tr L)
    (htr : tr ⊆ tr') : Sourced tr' L :=
  ⟨h.1, fun i e hi he => (h.2 i e hi he).mono htr⟩

/-- `Start` leaves the peer leader of its term, with the new entry at the end of its log. -/
lemma visited_start (h : (cluster n C).Run tr st) {z : Cluster n C} {s : Fin n} {c : C}
    (hz : (z, Action.start s c) ∈ tr) (hs : (z.rafts s).state = .leader) :
    ∃ y, Visited tr st y ∧ (y.rafts s).state = .leader ∧
      (y.rafts s).currentTerm = (z.rafts s).currentTerm ∧
      (y.rafts s).log = (z.rafts s).log ++ [⟨(z.rafts s).currentTerm, c⟩] := by
  obtain ⟨-, -, y, -, -, hy⟩ := h.of_mem hz
  refine ⟨y, h.visited_next hz hy, ?_⟩
  cases Step.of_cluster hy with
  | idle h' => exact absurd hs h'
  | start hs' ht => simp [hs]

/-- What was created in one term by one peer extends one another: `Start` left the peer leader of
the term with the list as its log. -/
lemma Created.comparable (h : (cluster n C).Run tr st) (hu : OneAppenderPerTerm tr) {T : ℕ}
    {L M : List (LogEntry C)} (hL : Created tr T L) (hM : Created tr T M) :
    L <+: M ∨ M <+: L := by
  obtain ⟨z, s, c, hz, hs, hT, rfl⟩ := hL
  obtain ⟨z', s', c', hz', hs', hT', rfl⟩ := hM
  have hss : s = s' := hu _ hz _ hz' (s, T) (by simp [appender, hs, hT]) (s', T)
    (by simp [appender, hs', hT']) rfl
  subst hss
  obtain ⟨y, hy, hys, hyT, hylog⟩ := visited_start h hz hs
  obtain ⟨y', hy', hys', hyT', hylog'⟩ := visited_start h hz' hs'
  have := log_comparable h hy hy' (s := s) (by omega) (by simp [hys]) (by simp [hys'])
  rwa [hylog, hylog', hT, hT'] at this

/-- **Log matching**, for any two logs of known provenance. -/
lemma Sourced.matching (h : (cluster n C).Run tr st) (hu : OneAppenderPerTerm tr)
    {L M : List (LogEntry C)} (hL : Sourced tr L) (hM : Sourced tr M) {i : ℕ} {e f : LogEntry C}
    (he : L[i]? = some e) (hf : M[i]? = some f) (hterm : e.term = f.term) :
    L.take (i + 1) = M.take (i + 1) := by
  have hlen := (List.getElem?_eq_some_iff.mp he).1
  have hlen' := (List.getElem?_eq_some_iff.mp hf).1
  rcases Nat.eq_zero_or_pos i with rfl | hi
  · rw [List.take_one, List.take_one, List.head?_eq_getElem?, List.head?_eq_getElem?, hL.1, hM.1]
  · have hsize : (L.take (i + 1)).length = (M.take (i + 1)).length := by
      rw [List.length_take, List.length_take]
      omega
    rcases Created.comparable h hu (hL.2 i e hi he) (hterm ▸ hM.2 i f hi hf) with hp | hp
    · exact hp.eq_of_length hsize
    · exact (hp.eq_of_length hsize.symm).symm

/-- Appending an entry of the term that is being led keeps provenance known. -/
lemma Sourced.append {L : List (LogEntry C)} (hL : Sourced tr L) {e : LogEntry C}
    (hnew : Created tr e.term (L ++ [e])) : Sourced tr (L ++ [e]) := by
  obtain ⟨hlen, -⟩ := List.getElem?_eq_some_iff.mp hL.1
  refine ⟨by rw [List.getElem?_append_left hlen, hL.1], fun i f hi hf => ?_⟩
  by_cases hil : i < L.length
  · rw [List.getElem?_append_left hil] at hf
    rw [List.take_append_of_le_length hil]
    exact hL.2 i f hi hf
  · have hi' : i < (L ++ [e]).length := (List.getElem?_eq_some_iff.mp hf).1
    have heq : i = L.length := by
      rw [List.length_append, List.length_singleton] at hi'
      omega
    subst heq
    have : f = e := by simpa using hf.symm
    subst this
    rwa [List.take_of_length_le (by simp)]

/-- **Every log of every visited state has known provenance**, where no two peers append entries
of one term. -/
theorem sourced_of_run (h : (cluster n C).Run tr st) (hu : OneAppenderPerTerm tr)
    {x : Cluster n C} (hx : Visited tr st x) (s : Fin n) : Sourced tr (x.rafts s).log := by
  induction h generalizing x s with
  | init =>
      rcases hx with rfl | ⟨a, ha⟩
      · refine ⟨rfl, fun i e hi he => ?_⟩
        simp [cluster, Cluster.make, make, List.getElem?_singleton] at he
        omega
      · exact absurd ha List.not_mem_nil
  | @step tr z y a h hs ih =>
      have hsub : tr ⊆ (z, a) :: tr := List.subset_cons_self _ _
      have hu' : OneAppenderPerTerm tr :=
        fun q hq q' hq' => hu q (hsub hq) q' (hsub hq')
      rcases hx with rfl | ⟨b, hb⟩
      · rcases ((Step.of_cluster hs).peer s).log_cases with hlog | ⟨c, rfl, hl, hT, hlog⟩ |
          ⟨r, rd, args, -, hrd, hc, hacc, hrf⟩
        · rw [hlog]
          exact (ih hu' (Visited.now _ _) s).mono hsub
        · rw [hlog]
          refine ((ih hu' (Visited.now _ _) s).mono hsub).append ?_
          exact ⟨z, s, c, List.mem_cons_self, hl, rfl, rfl⟩
        · -- the follower is left with the log the sender had when it built the request
          obtain ⟨w, hb⟩ := (built_of_run h r rd hrd).2 s args (by simp [hc])
          obtain ⟨-, -, -, ⟨prev, hprev, hpt⟩, -⟩ := Raft.heartBeatArgs_eq_some hb.eq
          obtain ⟨-, -, -, prev', hprev', hpt'⟩ := Raft.accepts_iff.mp hacc
          have hsend := ih hu' (hb.visited _) rd.leader
          have hmatch := Sourced.matching h hu' (ih hu' (Visited.now _ _) s) hsend hprev' hprev
            (hpt'.trans hpt.symm)
          rw [hrf, accept_log_eq hb.eq, take_append_drop_of_take_eq hmatch]
          exact hsend.mono hsub
      · exact (ih hu' (Visited.of_cons hb) s).mono hsub

/-- An accepted request leaves the follower with the log the sender had when it built it. -/
lemma accept_log_eq_sender (h : (cluster n C).Run tr st) (hu : OneAppenderPerTerm tr) {r : ℕ}
    {p s : Fin n} {args : AppendEntriesArgs n C} {x : Cluster n C} (hb : BuiltIn tr r p s args x)
    (hacc : (st.rafts p).accepts args) (T : ℕ) :
    ({ st.rafts p with currentTerm := T }.accept args).log = (x.rafts s).log := by
  obtain ⟨-, -, -, ⟨prev, hprev, hpt⟩, -⟩ := Raft.heartBeatArgs_eq_some hb.eq
  obtain ⟨-, -, -, prev', hprev', hpt'⟩ := Raft.accepts_iff.mp hacc
  rw [accept_log_eq hb.eq]
  exact take_append_drop_of_take_eq (Sourced.matching h hu
    (sourced_of_run h hu (Visited.now _ _) p) (sourced_of_run h hu (hb.visited _) s)
    hprev' hprev (hpt'.trans hpt.symm))

/-! ## Log matching -/

/-- A log of the cluster: that of a peer, or the log a request under way was built from. -/
def LogNow (tr : Trace n C) (st : Cluster n C) (L : List (LogEntry C)) : Prop :=
  (∃ s, L = (st.rafts s).log) ∨
    ∃ r p rd args x, st.rounds[r]? = some rd ∧ rd.calls p = .requested args ∧
      BuiltIn tr r p rd.leader args x ∧ L = (x.rafts rd.leader).log

/-- Every log of the cluster has a source. -/
lemma LogNow.sourced (h : (cluster n C).Run tr st) (hu : OneAppenderPerTerm tr)
    {L : List (LogEntry C)} (hL : LogNow tr st L) : Sourced tr L := by
  rcases hL with ⟨s, rfl⟩ | ⟨r, p, rd, args, x, -, -, hb, rfl⟩
  · exact sourced_of_run h hu (Visited.now _ _) s
  · exact sourced_of_run h hu (hb.visited _) rd.leader

/-- **Log matching**, in every run in which no two peers append entries of one term: two logs with
entries of the same term at an index are the same up to that index, and a request that a follower
takes leaves it with the whole log the sender had when the request was built. -/
theorem logMatching (h : (cluster n C).Run tr st) (hu : OneAppenderPerTerm tr) :
    (∀ L M, LogNow tr st L → LogNow tr st M → ∀ i e f, L[i]? = some e → M[i]? = some f →
      e.term = f.term → L.take (i + 1) = M.take (i + 1)) ∧
    ∀ r p rd args rf reply, st.rounds[r]? = some rd → rd.calls p = .requested args →
      (st.rafts p).state = .follower → (st.rafts p).appendEntries args = some (rf, reply) →
      reply.success = true →
        (∃ x, BuiltIn tr r p rd.leader args x) ∧
        ∀ x, BuiltIn tr r p rd.leader args x → rf.log = (x.rafts rd.leader).log := by
  constructor
  · intro L M hL hM i e f he hf hterm
    exact Sourced.matching h hu (hL.sourced h hu) (hM.sourced h hu) he hf hterm
  · intro r p rd args rf reply hrd hc hs happ hr
    obtain ⟨hacc, rfl⟩ := Raft.appendEntries_success hs happ hr
    refine ⟨(built_of_run h r rd hrd).2 p args (by simp [hc]), fun x hb => ?_⟩
    exact accept_log_eq_sender h hu hb hacc args.term

/-- The leader of three peers appends two entries and peer 1 has taken only the first: the two
logs agree up to it. -/
theorem logMatching_run : ∃ tr st, (cluster 3 ℕ).Run tr st ∧ OneAppenderPerTerm tr ∧
    (st.rafts 0).log = [⟨0, 0⟩, ⟨1, 10⟩, ⟨1, 20⟩] ∧ (st.rafts 1).log = [⟨0, 0⟩, ⟨1, 10⟩] ∧
    (st.rafts 0).log.take 2 = (st.rafts 1).log.take 2 := by
  obtain ⟨tr, st, h, hu, h0, h1⟩ := (cluster 3 ℕ).exists_run_of_exec
    [.timer 0, .attemptEletion 0, .requestVote 0 1, .voteReply 0 1, .start 0 10, .heartBeat 0,
      .heartBeatArgs 0 1, .start 0 20, .appendEntries 0 1]
    (fun tr st => OneAppenderPerTerm tr ∧ (st.rafts 0).log = [⟨0, 0⟩, ⟨1, 10⟩, ⟨1, 20⟩] ∧
      (st.rafts 1).log = [⟨0, 0⟩, ⟨1, 10⟩]) (by decide)
  refine ⟨tr, st, h, hu, h0, h1, ?_⟩
  exact (logMatching h hu).1 _ _ (Or.inl ⟨0, rfl⟩) (Or.inl ⟨1, rfl⟩) 1 ⟨1, 10⟩ ⟨1, 10⟩
    (by rw [h0]; rfl) (by rw [h1]; rfl) rfl

end Runs

end GoLabs.Consensus
