import GoLabs.Consensus.Bookkeeping

/-!
# The shape of logs and requests

What every log and every request looks like, in every run: no two leaders of one term have to be
ruled out for it. A log is the placeholder and then entries of terms from 1 on that do not decrease
and do not exceed the peer's own term (`LogShape`, `entry_term_pos`). A request is cut out of such a
log, so its terms do not decrease from `PrevLogTerm` up to its own `Term` (`RequestShape`), and that
is what a follower's log keeps when the two are spliced at a common term.
-/

namespace GoLabs.Consensus

open GoLabs.Lib

variable {n : ℕ} {C : Type}

/-- `PrevLogIndex ≥ 0` and `PrevLogTerm ≤ Entries[0].Term ≤ … ≤ Entries[last].Term ≤ Term`. -/
structure RequestShape (args : AppendEntriesArgs n C) : Prop where
  prev_nonneg : 0 ≤ args.prevLogIndex
  ordered : (args.prevLogTerm :: (args.entries.map LogEntry.term ++ [args.term])).Pairwise (· ≤ ·)

/-- A request built from a log in shape is in shape. -/
lemma Raft.heartBeatArgs_shape [Inhabited C] {rf : Raft n C} {me index : Fin n}
    {args : AppendEntriesArgs n C} (h : rf.heartBeatArgs me index = some args)
    (hlog : LogShape rf.currentTerm rf.log) : RequestShape args := by
  obtain ⟨hT, -, h0, ⟨prev, hprev, hpt⟩, hent, -⟩ := Raft.heartBeatArgs_eq_some h
  obtain ⟨hlt, hget⟩ := List.getElem?_eq_some_iff.mp hprev
  -- the previous entry and the entries sent are what is left of the log from `PrevLogIndex` on
  have hdrop : prev :: args.entries = rf.log.drop args.prevLogIndex.toNat := by
    rw [hent, ← hget, List.drop_eq_getElem_cons hlt]
  have hmap : args.prevLogTerm :: (args.entries.map LogEntry.term ++ [args.term]) =
      (rf.log.drop args.prevLogIndex.toNat).map LogEntry.term ++ [rf.currentTerm] := by
    rw [← hdrop, ← hT, ← hpt, List.map_cons, List.cons_append]
  refine ⟨h0, ?_⟩
  rw [hmap, List.pairwise_append]
  refine ⟨?_, List.pairwise_singleton _ _, fun t ht u hu => ?_⟩
  · exact List.pairwise_map.mpr (hlog.ordered.sublist (List.drop_sublist _ _))
  · obtain ⟨e, he, rfl⟩ := List.mem_map.mp ht
    rw [List.mem_singleton] at hu
    exact hu ▸ hlog.bound e (List.mem_of_mem_drop he)

/-- A peer that is no follower has stood for election, so its term is not 0. -/
lemma PeerStep.term_pos {st : Cluster n C} {a : Action n C} {s : Fin n} {rf : Raft n C}
    (h : PeerStep st a s rf)
    (hok : (st.rafts s).state ≠ .follower → 1 ≤ (st.rafts s).currentTerm)
    (hs : rf.state ≠ .follower) : 1 ≤ rf.currentTerm := by
  have hle := h.term_le
  cases h with
  | quiet term voted state => exact (hok (state ▸ hs)).trans hle
  | candidate => exact Nat.le_add_left 1 _
  | raise => exact (hok (by simpa using hs)).trans hle
  | vote => exact (hok (by simpa using hs)).trans hle
  | demote => exact absurd rfl hs
  | stepDown => exact absurd rfl hs
  | promote _ _ _ _ hc => exact (hok (by simp [hc])).trans hle
  | follow _ _ _ hf => exact absurd hf hs
  | accept _ _ _ hf => exact absurd hf hs
  | commit => exact hok hs
  | start => exact hok hs
  | apply => exact hok hs

section Runs

variable [Inhabited C] {tr : Trace n C} {st : Cluster n C}

/-- Who is no follower has left term 0. -/
lemma term_pos_of_run (h : (cluster n C).Run tr st) (s : Fin n)
    (hs : (st.rafts s).state ≠ .follower) : 1 ≤ (st.rafts s).currentTerm := by
  induction h with
  | init => exact absurd rfl hs
  | step _ hstep ih => exact ((Step.of_cluster hstep).peer s).term_pos ih hs

/-- **Only the placeholder has term 0.** -/
theorem entry_term_pos (h : (cluster n C).Run tr st) {x : Cluster n C} (hx : Visited tr st x)
    {s : Fin n} {i : ℕ} {e : LogEntry C} (hi : 1 ≤ i) (he : (x.rafts s).log[i]? = some e) :
    1 ≤ e.term := by
  induction h generalizing x s i e with
  | init =>
      rcases hx with rfl | ⟨a, ha⟩
      · have := (List.getElem?_eq_some_iff.mp he).1
        simp only [cluster, Cluster.make, make, List.length_singleton] at this
        omega
      · exact absurd ha List.not_mem_nil
  | @step tr z y a h hs ih =>
      rcases hx with rfl | ⟨b, hb⟩
      · rcases ((Step.of_cluster hs).peer s).log_cases with hlog | ⟨c, -, hl, -, hlog⟩ |
          ⟨r, rd, args, -, hrd, hc, hacc, hrf⟩
        · exact ih (Visited.now _ _) hi (hlog ▸ he)
        · rw [hlog, List.getElem?_append] at he
          split_ifs at he with hlt
          · exact ih (Visited.now _ _) hi he
          · rw [List.mem_singleton.mp (List.mem_of_getElem? he)]
            exact term_pos_of_run h s (by simp [hl])
        · -- the entry is one of the follower's own or one of the sender's
          obtain ⟨w, hb⟩ := (built_of_run h r rd hrd).2 s args (by simp [hc])
          rw [hrf, accept_log_eq hb.eq, List.getElem?_append] at he
          split_ifs at he with hlt
          · exact ih (Visited.now _ _) hi (getElem?_of_isPrefix (List.take_prefix _ _) he)
          · rw [List.getElem?_drop] at he
            exact ih (hb.visited _) (by omega) he
      · exact ih (Visited.of_cons hb) hi he

/-- **The shape of logs and requests**, in every state of every run: the log of every peer starts
with the placeholder of term 0 and holds after it entries of terms from 1 on, which do not decrease
and do not exceed `currentTerm`; no `nextIndex` is below 1; every request ever sent has
`PrevLogIndex ≥ 0` and terms that do not decrease from `PrevLogTerm` to `Term`; and no `currentTerm`
has ever been larger. -/
theorem shape (h : (cluster n C).Run tr st) :
    (∀ s, (st.rafts s).log ≠ [] ∧ LogShape (st.rafts s).currentTerm (st.rafts s).log ∧
      (∀ i e, 1 ≤ i → (st.rafts s).log[i]? = some e → 1 ≤ e.term) ∧
      ∀ v ∈ (st.rafts s).nextIndex, 1 ≤ v) ∧
    (∀ rd ∈ st.rounds, ∀ p args, (rd.calls p).args? = some args → RequestShape args) ∧
    ∀ x s, Visited tr st x → (x.rafts s).currentTerm ≤ (st.rafts s).currentTerm := by
  refine ⟨fun s => ?_, fun rd hrd p args hargs => ?_, fun x s hx => (phase_of_visited h hx s).1⟩
  · have hlog := logShape_of_run h (Visited.now _ _) s
    refine ⟨?_, hlog, fun i e hi he => entry_term_pos h (Visited.now _ _) hi he,
      (booksOk_of_run h s).2⟩
    intro hnil
    have := hlog.head
    rw [hnil] at this
    cases this
  · obtain ⟨r, hr⟩ := List.mem_iff_getElem?.mp hrd
    obtain ⟨w, hb⟩ := (built_of_run h r rd hr).2 p args hargs
    exact Raft.heartBeatArgs_shape hb.eq (logShape_of_run h (hb.visited _) _)

/-- Two peers lead term 2 at the same time, each with an entry of its own at index 2, and the
request of one of them is under way to the other. -/
theorem shape_run : ∃ tr st, (cluster 2 ℕ).Run tr st ∧
    (st.rafts 0).getState = (2, true) ∧ (st.rafts 1).getState = (2, true) ∧
    (st.rafts 0).log = [⟨0, 0⟩, ⟨1, 10⟩, ⟨2, 11⟩] ∧ (st.rafts 1).log = [⟨0, 0⟩, ⟨1, 10⟩, ⟨2, 12⟩] ∧
    LogShape 2 (st.rafts 0).log ∧ ∃ args ∈ st.beatRequest? 1 1, RequestShape args := by
  obtain ⟨tr, st, h, h0, h1, hlog0, hlog1, hreq⟩ := (cluster 2 ℕ).exists_run_of_exec
    [.timer 0, .attemptEletion 0, .requestVote 0 1, .voteReply 0 1, .start 0 10, .heartBeat 0,
      .heartBeatArgs 0 1, .appendEntries 0 1, .timer 1, .attemptEletion 1, .requestVote 1 0,
      .voteReply 1 0, .start 0 11, .start 1 12, .heartBeat 0, .heartBeatArgs 1 1]
    (fun _ st => (st.rafts 0).getState = (2, true) ∧ (st.rafts 1).getState = (2, true) ∧
      (st.rafts 0).log = [⟨0, 0⟩, ⟨1, 10⟩, ⟨2, 11⟩] ∧
      (st.rafts 1).log = [⟨0, 0⟩, ⟨1, 10⟩, ⟨2, 12⟩] ∧
      (st.beatRequest? 1 1).isSome) (by decide)
  obtain ⟨hlogs, hreqs, -⟩ := shape h
  have hshape := (hlogs 0).2.1
  rw [show (st.rafts 0).currentTerm = 2 from congrArg Prod.fst h0] at hshape
  obtain ⟨args, hargs⟩ := Option.isSome_iff_exists.mp hreq
  obtain ⟨rd, hrd, hc⟩ := Option.bind_eq_some_iff.mp hargs
  rw [Rpc.requested?_eq_some] at hc
  refine ⟨tr, st, h, h0, h1, hlog0, hlog1, hshape, args, hargs, ?_⟩
  exact hreqs rd (List.mem_of_getElem? hrd) 1 args (by rw [hc, Rpc.args?_requested])

end Runs

end GoLabs.Consensus
