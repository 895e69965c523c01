import GoLabs.Consensus.Shape
import GoLabs.Lib.FirstIndex

/-!
# The index of the terms

`termToIndex` is kept in three ways. `Start` records a term when it appends its first entry, an
accepted `AppendEntries` replaces the whole map by the sender's, and everything else leaves map and
log alone. `TermIndex` says what it is kept for: the map gives the first index of each term of the
log, and nothing for the other terms.

`Start` keeps this because the terms of a log do not decrease and do not exceed the peer's own, so
the log has an entry of the peer's term exactly if its last entry is one. An accepted request keeps
it because map and log then both come from the state in which the request was built; for the log
this is log matching, and holds where no two peers append entries of one term.

What holds in every run is that the map increases with the term (`InOrder`): `Start` records the end
of the log, behind everything recorded before, and a map is copied as a whole.
-/

namespace GoLabs.Consensus

open GoLabs.Lib

variable {n : ℕ} {C : Type}

/-- The map gives the first index of every term from 1 on that the log has, and reads 0 for the
others. -/
structure TermIndex (termToIndex : ℕ → ℤ) (log : List (LogEntry C)) : Prop where
  first : ∀ t, 1 ≤ t → ∀ i, IsLeast (positions LogEntry.term log t) i → termToIndex t = i
  absent : ∀ t, 1 ≤ t → positions LogEntry.term log t = ∅ → termToIndex t = 0

/-- A log whose last entry has another term has no entry of the peer's term. -/
lemma positions_currentTerm_eq_empty [Inhabited C] {rf : Raft n C}
    (hlog : LogShape rf.currentTerm rf.log) {t : ℕ} (ht : rf.lastLogTerm? = some t)
    (hne : rf.currentTerm ≠ t) : positions LogEntry.term rf.log rf.currentTerm = ∅ := by
  obtain ⟨e, he, rfl⟩ := lastLogTerm?_eq_some ht
  have hbound := hlog.bound e (List.mem_of_getElem? he)
  rw [Set.eq_empty_iff_forall_notMem]
  rintro i ⟨f, hf, hfT⟩
  have hlt := (List.getElem?_eq_some_iff.mp hf).1
  have hle := hlog.term_le (by omega : i ≤ rf.log.length - 1) hf he
  omega

/-- **`Start` keeps the index.** -/
lemma TermIndex.start [Inhabited C] {rf : Raft n C} (h : TermIndex rf.termToIndex rf.log)
    (hlog : LogShape rf.currentTerm rf.log) {t : ℕ} (ht : rf.lastLogTerm? = some t) (c : C) :
    TermIndex
      (if rf.currentTerm ≠ t then
        Function.update rf.termToIndex rf.currentTerm (rf.log.length : ℤ) else rf.termToIndex)
      (rf.log ++ [⟨rf.currentTerm, c⟩]) := by
  -- the map is changed for the peer's own term at most
  have hother : ∀ u, u ≠ rf.currentTerm → (if rf.currentTerm ≠ t then
      Function.update rf.termToIndex rf.currentTerm (rf.log.length : ℤ) else rf.termToIndex) u =
        rf.termToIndex u := by
    intro u hu
    split_ifs
    · exact Function.update_of_ne hu _ _
    · rfl
  have hpos : ∀ u, u ≠ rf.currentTerm →
      positions LogEntry.term (rf.log ++ [⟨rf.currentTerm, c⟩]) u =
        positions LogEntry.term rf.log u :=
    fun u hu => positions_append_of_ne fun heq => hu heq.symm
  refine ⟨fun u hu i hi => ?_, fun u hu hempty => ?_⟩
  · by_cases huT : u = rf.currentTerm
    · subst huT
      split_ifs with hne
      · -- the first entry of the term
        rw [Function.update_self,
          eq_length_of_isLeast_append (positions_currentTerm_eq_empty hlog ht hne) hi]
      · -- the last entry is one of the term already
        obtain ⟨e, he, heT⟩ := lastLogTerm?_eq_some ht
        have hmem : (positions LogEntry.term rf.log rf.currentTerm).Nonempty :=
          ⟨_, e, he, heT.trans (not_not.mp hne).symm⟩
        exact h.first _ hu i (isLeast_positions_of_append hmem hi)
    · rw [hpos u huT] at hi
      rw [hother u huT]
      exact h.first u hu i hi
  · by_cases huT : u = rf.currentTerm
    · have hend : rf.log.length ∈ positions LogEntry.term (rf.log ++ [⟨rf.currentTerm, c⟩]) u :=
        mem_positions_append.mpr (Or.inr ⟨rfl, huT.symm⟩)
      rw [hempty] at hend
      exact absurd hend (Set.notMem_empty _)
    · rw [hpos u huT] at hempty
      rw [hother u huT]
      exact h.absent u hu hempty

/-- One step keeps the index of a peer, when map and entries of the requests under way fit
together. -/
lemma Step.termIndex [Inhabited C] {st st' : Cluster n C} {a : Action n C} (h : Step st a st')
    {s : Fin n} (hlog : LogShape (st.rafts s).currentTerm (st.rafts s).log)
    (hok : TermIndex (st.rafts s).termToIndex (st.rafts s).log)
    (hreq : ∀ {r : ℕ} {rd : Round n C} {args : AppendEntriesArgs n C},
      st.rounds[r]? = some rd → rd.calls s = .requested args → (st.rafts s).accepts args →
      TermIndex args.termToIndex
        ({ st.rafts s with currentTerm := args.term }.accept args).log) :
    TermIndex (st'.rafts s).termToIndex (st'.rafts s).log := by
  by_cases ha : ∃ c, a = .start s c
  · obtain ⟨c, rfl⟩ := ha
    cases h with
    | idle => exact hok
    | start hs ht =>
        rw [Cluster.setRaft_rafts, Function.update_self]
        exact hok.start hlog ht c
  · have hbook := h.book s
    have hcases := (h.peer s).log_cases
    generalize st'.rafts s = rf at hbook hcases ⊢
    cases hbook with
    | same log _ _ table =>
        rw [log, table]
        exact hok
    | promote => exact hok
    | accept hrd hc hacc => exact hreq hrd hc hacc
    | backUp => exact hok
    | success => exact hok
    | start hs =>
        -- only `Start` appends to the log of a leader
        exfalso
        rcases hcases with hsame | ⟨c, hc, -⟩ | ⟨r, rd, args, -, -, -, hacc, -⟩
        · simp at hsame
        · exact ha ⟨c, hc⟩
        · rw [(Raft.accepts_iff.mp hacc).1] at hs
          cases hs

/-! ## The order of the map -/

/-- The map has no term above `T`, and among the terms that it has a greater one has a greater
index. -/
structure InOrder (termToIndex : ℕ → ℤ) (T : ℕ) : Prop where
  bound : ∀ t, T < t → termToIndex t = 0
  increasing : ∀ t u, t < u → termToIndex u ≠ 0 → termToIndex t < termToIndex u

/-- A map stays in order when the term of its peer grows. -/
lemma InOrder.mono {termToIndex : ℕ → ℤ} {T U : ℕ} (h : InOrder termToIndex T) (hTU : T ≤ U) :
    InOrder termToIndex U :=
  ⟨fun t ht => h.bound t (hTU.trans_lt ht), h.increasing⟩

/-- The end of the log comes behind every index that the map has. -/
lemma InOrder.update {termToIndex : ℕ → ℤ} {T len : ℕ} (h : InOrder termToIndex T)
    (hlen : PointsInto termToIndex len) :
    InOrder (Function.update termToIndex T (len : ℤ)) T := by
  refine ⟨fun t ht => ?_, fun t u htu hu => ?_⟩
  · rw [Function.update_of_ne (by omega)]
    exact h.bound t ht
  · by_cases huT : u = T
    · rw [huT, Function.update_self, Function.update_of_ne (by omega)]
      exact (hlen t).2
    · rw [Function.update_of_ne huT] at hu ⊢
      have hle : u ≤ T := not_lt.mp fun hlt => hu (h.bound u hlt)
      rw [Function.update_of_ne (by omega)]
      exact h.increasing t u htu hu

/-- One step keeps the map of a peer in order, when the maps of the requests under way are. -/
lemma Step.inOrder {st st' : Cluster n C} {a : Action n C} (h : Step st a st') {s : Fin n}
    (hlen : PointsInto (st.rafts s).termToIndex (st.rafts s).log.length)
    (hok : InOrder (st.rafts s).termToIndex (st.rafts s).currentTerm)
    (hreq : ∀ {r : ℕ} {rd : Round n C} {args : AppendEntriesArgs n C},
      st.rounds[r]? = some rd → rd.calls s = .requested args →
      InOrder args.termToIndex args.term) :
    InOrder (st'.rafts s).termToIndex (st'.rafts s).currentTerm := by
  have hbook := h.book s
  have hterm := (h.peer s).term_le
  generalize st'.rafts s = rf at hbook hterm ⊢
  cases hbook with
  | same _ _ _ table =>
      rw [table]
      exact hok.mono hterm
  | accept hrd hc => exact hreq hrd hc
  | start hs =>
      dsimp only
      split_ifs
      · exact hok.update hlen
      · exact hok
  | promote => exact hok
  | backUp => exact hok
  | success => exact hok

section Runs

variable [Inhabited C] {tr : Trace n C} {st : Cluster n C}

/-- **Every map is in order**, in every state of every run. -/
theorem inOrder_of_run (h : (cluster n C).Run tr st) {x : Cluster n C} (hx : Visited tr st x)
    (s : Fin n) : InOrder (x.rafts s).termToIndex (x.rafts s).currentTerm := by
  induction h generalizing x s with
  | init =>
      rcases hx with rfl | ⟨a, ha⟩
      · exact ⟨fun _ _ => rfl, fun _ _ _ h0 => absurd rfl h0⟩
      · exact absurd ha List.not_mem_nil
  | @step tr z y a h hs ih =>
      rcases hx with rfl | ⟨b, hb⟩
      · refine (Step.of_cluster hs).inOrder (termToIndex_of_run h (Visited.now _ _) s)
          (ih (Visited.now _ _) s) ?_
        intro r rd args hrd hc
        obtain ⟨w, hb⟩ := (built_of_run h r rd hrd).2 s args (by simp [hc])
        rw [Raft.heartBeatArgs_termToIndex hb.eq, (Raft.heartBeatArgs_eq_some hb.eq).1]
        exact ih (hb.visited _) _
      · exact ih (Visited.of_cons hb) s

/-- Every map is the index of the terms of its own log, where no two peers append entries of one
term. -/
theorem termIndex_of_run (h : (cluster n C).Run tr st) (hu : OneAppenderPerTerm tr)
    {x : Cluster n C} (hx : Visited tr st x) (s : Fin n) :
    TermIndex (x.rafts s).termToIndex (x.rafts s).log := by
  induction h generalizing x s with
  | init =>
      rcases hx with rfl | ⟨a, ha⟩
      · refine ⟨fun t ht i hi => ?_, fun t ht hempty => rfl⟩
        -- the placeholder has term 0
        obtain ⟨e, he, heT⟩ := hi.1
        have hmem := List.mem_of_getElem? he
        simp only [cluster, Cluster.make, make, List.mem_singleton] at hmem
        rw [hmem] at heT
        exact absurd heT (by dsimp only; omega)
      · exact absurd ha List.not_mem_nil
  | @step tr z y a h hs ih =>
      have hu' : OneAppenderPerTerm tr := fun q hq q' hq' =>
        hu q (List.mem_cons_of_mem _ hq) q' (List.mem_cons_of_mem _ hq')
      rcases hx with rfl | ⟨b, hb⟩
      · refine (Step.of_cluster hs).termIndex (logShape_of_run h (Visited.now _ _) s)
          (ih hu' (Visited.now _ _) s) ?_
        -- map and log both come from the state in which the request was built
        intro r rd args hrd hc hacc
        obtain ⟨w, hb⟩ := (built_of_run h r rd hrd).2 s args (by simp [hc])
        rw [accept_log_eq_sender h hu' hb hacc, Raft.heartBeatArgs_termToIndex hb.eq]
        exact ih hu' (hb.visited _) _
      · exact ih hu' (Visited.of_cons hb) s

/-- **`termToIndex` is the exact index of the terms**, in every state of every run in which no two
peers append entries of one term: for every term from 1 on it gives the smallest index whose entry
has the term, and reads 0 if the log has no such entry. -/
theorem termToIndex_exact (h : (cluster n C).Run tr st) (hu : OneAppenderPerTerm tr)
    {x : Cluster n C} (hx : Visited tr st x) (s : Fin n) {t : ℕ} (ht : 1 ≤ t) :
    (∀ i : ℕ, IsLeast {i : ℕ | ∃ e, (x.rafts s).log[i]? = some e ∧ e.term = t} i →
      (x.rafts s).termToIndex t = i) ∧
    ((∀ e ∈ (x.rafts s).log, e.term ≠ t) → (x.rafts s).termToIndex t = 0) := by
  have hindex := termIndex_of_run h hu hx s
  exact ⟨hindex.first t ht, fun hnone => hindex.absent t ht (positions_eq_empty_iff.mpr hnone)⟩

/-- 1 takes two entries of term 1 from 0, leads term 2 and appends an entry. 2 takes the log of 1 in
one request: its map gives index 3 for term 2 and nothing for term 3. -/
theorem termToIndex_exact_run : ∃ tr st, (cluster 3 ℕ).Run tr st ∧ OneAppenderPerTerm tr ∧
    (st.rafts 2).log = [⟨0, 0⟩, ⟨1, 10⟩, ⟨1, 11⟩, ⟨2, 20⟩] ∧
    (st.rafts 2).termToIndex 2 = 3 ∧ (st.rafts 2).termToIndex 3 = 0 := by
  obtain ⟨tr, st, h, hu, hlog⟩ := (cluster 3 ℕ).exists_run_of_exec
    [.timer 0, .attemptEletion 0, .requestVote 0 1, .voteReply 0 1, .start 0 10, .start 0 11,
      .heartBeat 0, .heartBeatArgs 0 1, .appendEntries 0 1, .timer 1, .attemptEletion 1,
      .requestVote 1 2, .voteReply 1 2, .start 1 20, .heartBeat 1, .heartBeatArgs 1 2,
      .appendEntries 1 2, .heartBeatReply 1 2, .heartBeat 1, .heartBeatArgs 2 2,
      .appendEntries 2 2]
    (fun tr st => OneAppenderPerTerm tr ∧
      (st.rafts 2).log = [⟨0, 0⟩, ⟨1, 10⟩, ⟨1, 11⟩, ⟨2, 20⟩]) (by decide)
  obtain ⟨hfirst, -⟩ := termToIndex_exact h hu (Visited.now _ _) 2 (by decide : 1 ≤ 2)
  obtain ⟨-, habsent⟩ := termToIndex_exact h hu (Visited.now _ _) 2 (by decide : 1 ≤ 3)
  rw [hlog] at hfirst habsent
  refine ⟨tr, st, h, hu, hlog, hfirst 3 ⟨⟨_, rfl, rfl⟩, ?_⟩, habsent (by simp)⟩
  rintro j ⟨e, he, heT⟩
  by_contra hlt
  obtain rfl | rfl | rfl : j = 0 ∨ j = 1 ∨ j = 2 := by omega
  all_goals
    cases he
    cases heT

end Runs

end GoLabs.Consensus
