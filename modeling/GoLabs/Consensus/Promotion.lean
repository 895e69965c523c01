import GoLabs.Consensus.Completeness

/-!
# Every promotion has a majority of its own term

`AttemptEletion` counts votes in variables of its own, so the count of an old election goes on while
a newer one of the same peer runs, and its answers come in at any time. Still, when a peer executes
`conevrtToLeader` in term `T`, a majority has voted for it in `T`: the goroutines of an election all
send the one request that was built when the peer made itself a candidate, and the test after the
call compares the term of that request with `currentTerm`. `promotion` follows each vote of the
majority back to the step in which it was granted.

A second promotion in the same term is impossible because a peer becomes a candidate only by raising
its term: `candidate_of_visited`.
-/

namespace GoLabs.Consensus

open GoLabs.Lib

variable {n : ℕ} {C : Type}

/-- In this step `v` replies `VoteGranted = true` to the request `args`. -/
def GrantsVote (st : Cluster n C) (a : Action n C) (v : Fin n) (args : RequestVoteArgs n) : Prop :=
  ∃ e, a = .requestVote e v ∧ st.voteRequest? e v = some args ∧
    ∃ r ∈ (st.rafts v).requestVote args, r.2.voteGranted = true

/-- The log of `rf` is no more up to date than what the request says of the candidate's: an older
last term, or the same one and no greater length. -/
def NoMoreUpToDate (rf : Raft n C) (args : RequestVoteArgs n) : Prop :=
  ∃ t, rf.lastLogTerm? = some t ∧
    (t < args.lastLogTerm ∨ (t = args.lastLogTerm ∧ rf.lastLogIndex ≤ args.lastLogIndex))

/-- A peer grants its vote only to a log that is as up to date as its own.
Source: `raft.go` `RequestVote` -/
lemma Raft.requestVote_granted {rf rf' : Raft n C} {args : RequestVoteArgs n}
    {reply : RequestVoteReply} (h : rf.requestVote args = some (rf', reply))
    (hg : reply.voteGranted = true) : NoMoreUpToDate rf args := by
  unfold Raft.requestVote at h
  dsimp only at h
  split_ifs at h with ht hv
  · cases h
    cases hg
  · cases h
    cases hg
  · rw [Option.map_eq_some_iff] at h
    obtain ⟨t, hl, h⟩ := h
    split_ifs at h with hu
    · have hup : t < args.lastLogTerm ∨
          (args.lastLogTerm = t ∧ rf.lastLogIndex ≤ args.lastLogIndex) := by
        simpa [Raft.upToDate, Raft.lastLogIndex] using hu
      refine ⟨t, by simpa [Raft.lastLogTerm?, Raft.lastLogIndex] using hl, ?_⟩
      exact hup.imp_right (And.imp_left Eq.symm)
    · cases h
      cases hg

/-- A voter is no more up to date than what it votes for. -/
lemma GrantsVote.noMoreUpToDate {st : Cluster n C} {a : Action n C} {v : Fin n}
    {args : RequestVoteArgs n} (h : GrantsVote st a v args) :
    NoMoreUpToDate (st.rafts v) args := by
  obtain ⟨-, -, -, ⟨rf, reply⟩, hr, hg⟩ := h
  exact Raft.requestVote_granted hr hg

/-- The answer that a step of `RequestVote` adds to the record is the handler's answer to the
request of that election. -/
lemma GrantsVote.of_step {st st' : Cluster n C} {a : Action n C} (hs : st.step a = some st')
    {el : Election n} (hel : el ∈ st'.elections) {v : Fin n} {args : RequestVoteArgs n}
    {reply : RequestVoteReply} (hans : (el.calls v).answer? = some (args, reply))
    (hg : reply.voteGranted = true) :
    (∃ el₀ ∈ st.elections, (el₀.calls v).answer? = some (args, reply)) ∨
      GrantsVote st a v args := by
  rcases ((Step.of_step hs).election hel).answer hans with hold | ⟨e, rfl, -⟩
  · exact Or.inl hold
  · change st.requestVote e v = some st' at hs
    unfold Cluster.requestVote at hs
    rw [Option.bind_eq_bind, Option.bind_eq_some_iff] at hs
    obtain ⟨el₁, hel₁, hs⟩ := hs
    split at hs
    · rename_i args₁ hc
      rw [Option.bind_eq_bind, Option.bind_eq_some_iff] at hs
      obtain ⟨⟨rf, reply₁⟩, hrf, hs⟩ := hs
      cases hs
      rcases List.mem_or_eq_of_mem_set hel with hold | rfl
      · exact Or.inl ⟨el, hold, hans⟩
      · simp only [Function.update_self, Rpc.answer?_replied, Option.some.injEq,
          Prod.mk.injEq] at hans
        obtain ⟨rfl, rfl⟩ := hans
        exact Or.inr ⟨e, rfl, Cluster.voteRequest?_eq_some hel₁ hc, _, hrf, hg⟩
    · cases hs

section Runs

variable [Inhabited C] {tr : Trace n C} {st : Cluster n C}

/-- Every vote on record was granted in some step of the run. -/
lemma grantsVote_of_run (h : (cluster n C).Run tr st) {el : Election n} (hel : el ∈ st.elections)
    {v : Fin n} {args : RequestVoteArgs n} {reply : RequestVoteReply}
    (hans : (el.calls v).answer? = some (args, reply)) (hg : reply.voteGranted = true) :
    ∃ q ∈ tr, GrantsVote q.1 q.2 v args := by
  induction h generalizing el with
  | init => simp [cluster, Cluster.make] at hel
  | @step tr x y a h hs ih =>
      rcases GrantsVote.of_step hs hel hans hg with ⟨el₀, hm, hans⟩ | hgr
      · obtain ⟨q, hq, hgr⟩ := ih hm hans
        exact ⟨q, List.mem_cons_of_mem _ hq, hgr⟩
      · exact ⟨(x, a), List.mem_cons_self, hgr⟩

/-- A peer that stands for its term has not been promoted in it before. -/
lemma not_promoted_before (h : (cluster n C).Run tr st) {s : Fin n}
    (hs : (st.rafts s).state = .candidate) {y : Cluster n C} {b : Action n C} (hy : (y, b) ∈ tr)
    (hb : becomesLeader y b s) : (y.rafts s).currentTerm ≠ (st.rafts s).currentTerm := by
  intro hT
  obtain ⟨y', hstep, -, hl⟩ := becomesLeader_iff.mp hb
  have hvis : Visited tr st y' := h.visited_next hy hstep
  rcases ((Step.of_step hstep).peer s).leader_cases hl with hl' | ⟨-, hrf, -⟩
  · have := candidate_of_visited h (Or.inr ⟨b, hy⟩) hs hT
    rw [hl'] at this
    cases this
  · have hT' : (y'.rafts s).currentTerm = (st.rafts s).currentTerm := by
      rw [hrf, Raft.conevrtToLeader_currentTerm, hT]
    rw [candidate_of_visited h hvis hs hT'] at hl
    cases hl

/-- **Every promotion is backed by a majority of its own term, and is the only one of its peer in
that term**, in every run: when `s` executes `conevrtToLeader` in state `x`, there is a majority
with `s` in it, each other member of which has granted, earlier in the run, a `RequestVote` of `s`
with the term `s` is in, with a log that was then no more up to date than the request says; and no
earlier step of the run made `s` leader in that term. -/
theorem promotion {tr₁ tr₂ : Trace n C} {x : Cluster n C} {a : Action n C} {s : Fin n}
    (h : (cluster n C).Run (tr₁ ++ (x, a) :: tr₂) st) (hb : becomesLeader x a s) :
    (∃ Q : Finset (Fin n), Majority Q ∧ s ∈ Q ∧ ∀ v ∈ Q, v ≠ s →
      ∃ q ∈ tr₂, ∃ args, GrantsVote q.1 q.2 v args ∧ args.candidateId = s ∧
        args.term = (x.rafts s).currentTerm ∧ NoMoreUpToDate (q.1.rafts v) args) ∧
    ∀ q ∈ tr₂, becomesLeader q.1 q.2 s → (q.1.rafts s).currentTerm ≠ (x.rafts s).currentTerm := by
  obtain ⟨y, hy⟩ := h.of_append
  cases hy with
  | step hrun _ =>
      have hok := electionsOk_of_run hrun
      obtain ⟨hcand, Q, hQ, hvote⟩ := won_of_becomesLeader hok hb
      refine ⟨⟨insert s Q, hQ.mono (Finset.subset_insert s Q), Finset.mem_insert_self s Q, ?_⟩,
        fun q hq => not_promoted_before hrun hcand hq⟩
      intro v hv hne
      rcases hvote v (Finset.mem_of_mem_insert_of_ne hv hne) with
        ⟨el, hel, ⟨args, reply⟩, hans, hg, hT, hc⟩ | ⟨rfl, -⟩
      · obtain ⟨q, hq, hgr⟩ := grantsVote_of_run hrun hel hans hg
        exact ⟨q, hq, args, hgr, hc, hT, hgr.noMoreUpToDate⟩
      · exact absurd rfl hne

/-- Peer 0 stands for term 1 and then for term 2. The vote of 1 in term 1 comes in late and does not
help; the vote of 2 in term 2 makes 0 leader. -/
theorem promotion_run : ∃ tr x st, (cluster 3 ℕ).Run ((x, .voteReply 1 2) :: tr) st ∧
    becomesLeader x (.voteReply 1 2) 0 ∧ (x.rafts 0).currentTerm = 2 ∧
    ∃ Q : Finset (Fin 3), Majority Q ∧ 0 ∈ Q ∧ ∀ v ∈ Q, v ≠ 0 →
      ∃ q ∈ tr, ∃ args, GrantsVote q.1 q.2 v args ∧ args.candidateId = 0 ∧
        args.term = (x.rafts 0).currentTerm ∧ NoMoreUpToDate (q.1.rafts v) args := by
  obtain ⟨tr, x, h, hb, hT⟩ := (cluster 3 ℕ).exists_run_of_exec
    [.timer 0, .attemptEletion 0, .requestVote 0 1, .timer 0, .attemptEletion 0,
      .requestVote 1 2, .voteReply 0 1]
    (fun _ x => becomesLeader x (.voteReply 1 2) 0 ∧ (x.rafts 0).currentTerm = 2) (by decide)
  obtain ⟨st, hs, -⟩ := becomesLeader_iff.mp hb
  have hrun : (cluster 3 ℕ).Run ([] ++ (x, .voteReply 1 2) :: tr) st := h.step hs
  exact ⟨tr, x, st, hrun, hb, hT, (promotion hrun hb).1⟩

end Runs

end GoLabs.Consensus
