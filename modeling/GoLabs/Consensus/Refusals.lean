import GoLabs.Consensus.Election

/-!
# Why a vote is refused

`votedFor` carries no term, so it stands for a vote of the present term only if every path that
raises `currentTerm` also sets it. Three paths do: `RequestVote` and `conevrtToFollower` forget the
vote, `conevrtToCandidate` gives it. `AppendEntries` on a follower does not: it takes over the
higher term and keeps the vote of the old one (`carriesVote`). After that the peer refuses every
other candidate of the new term, although it has not voted in it; `voteRefusal_fails` is a run in
which it even refuses the candidate that has won the term.

Without such a step `votedFor` is on record as a vote of the present term in every state
(`VotesCurrent`), and then a refusal has one of the two reasons of the handler (`voteRefusal`).
-/

namespace GoLabs.Consensus

open GoLabs.Lib

variable {n : ℕ} {C : Type}

/-! ## Where `votedFor` comes from -/

/-- The step that goes wrong: an `AppendEntries` of a higher term reaches a follower that has voted,
which raises its term and keeps the vote.
Source: `raft.go` `AppendEntries` -/
def carriesVote (st : Cluster n C) : Action n C → Bool
  | .appendEntries r p => (st.beatRequest? r p).any fun args =>
      (st.rafts p).state = .follower ∧ (st.rafts p).currentTerm < args.term ∧
        (st.rafts p).votedFor ≠ none
  | _ => false

/-- Apart from `carriesVote`, a vote after a step was there before it in the same term, or was given
in this step. -/
lemma PeerStep.votedFor_cases {st : Cluster n C} {a : Action n C} {s : Fin n} {rf : Raft n C}
    (h : PeerStep st a s rf) (hf : ¬ carriesVote st a) {c : Fin n} (hv : rf.votedFor = some c) :
    ((st.rafts s).votedFor = some c ∧ rf.currentTerm = (st.rafts s).currentTerm) ∨
      (a = .attemptEletion s ∧ c = s) ∨ ∃ e, a = .requestVote e s := by
  -- a follower that has voted is handed no request of a higher term
  have hfollow : ∀ {r : ℕ} {rd : Round n C} {args : AppendEntriesArgs n C},
      a = .appendEntries r s → st.rounds[r]? = some rd → rd.calls s = .requested args →
      (st.rafts s).state = .follower → (st.rafts s).currentTerm ≤ args.term →
      (st.rafts s).votedFor = some c → args.term = (st.rafts s).currentTerm := by
    intro r rd args ha hrd hc hs ht hvote
    by_contra hne
    refine hf ?_
    have hlt : (st.rafts s).currentTerm < args.term := by omega
    simp [ha, carriesVote, Cluster.beatRequest?_eq_some hrd hc, hs, hlt, hvote]
  cases h with
  | quiet term voted => exact Or.inl ⟨voted ▸ hv, term⟩
  | candidate ha => exact Or.inr (Or.inl ⟨ha, (Option.some.inj hv).symm⟩)
  | raise ha => exact Or.inr (Or.inr ⟨_, ha⟩)
  | vote ha => exact Or.inr (Or.inr ⟨_, ha⟩)
  | demote => cases hv
  | stepDown => cases hv
  | promote => exact Or.inl ⟨hv, rfl⟩
  | follow ha hrd hc hs ht => exact Or.inl ⟨hv, hfollow ha hrd hc hs ht hv⟩
  | accept ha hrd hc hs ht => exact Or.inl ⟨hv, hfollow ha hrd hc hs ht hv⟩
  | commit => exact Or.inl ⟨hv, rfl⟩
  | start => exact Or.inl ⟨hv, rfl⟩
  | apply => exact Or.inl ⟨hv, rfl⟩

/-- A peer that makes itself a candidate is on record with its vote. -/
lemma Step.gaveVote_of_attemptEletion {st st' : Cluster n C} {s : Fin n}
    (h : Step st (.attemptEletion s) st') : GaveVote st' s (st'.rafts s).currentTerm s := by
  cases h with
  | idle h => cases h
  | attemptEletion hp ht args hargs =>
      refine Or.inr ⟨rfl, _, List.mem_append_right _ (List.mem_singleton_self _), ?_, ?_⟩
      · rw [hargs]
      · simp [hargs]

/-- A vote after a `RequestVote` was there before it in the same term, or is on record as the answer
to the request. -/
lemma Step.gaveVote_of_requestVote {st st' : Cluster n C} {e : ℕ} {s c : Fin n}
    (h : Step st (.requestVote e s) st') (hv : (st'.rafts s).votedFor = some c) :
    ((st.rafts s).votedFor = some c ∧ (st'.rafts s).currentTerm = (st.rafts s).currentTerm) ∨
      GaveVote st' s (st'.rafts s).currentTerm c := by
  cases h with
  | idle h => cases h
  | voteStale => exact Or.inl ⟨hv, rfl⟩
  | voteRefused hel hc ht =>
      simp only [Cluster.setElection_rafts, Cluster.setRaft_rafts, Function.update_self] at hv ⊢
      rw [Raft.raiseTerm_votedFor] at hv
      split_ifs at hv with hlt
      exact Or.inl ⟨hv, by rw [Raft.raiseTerm_currentTerm]; omega⟩
  | voteGranted hel hc ht _ _ _ reply hr =>
      simp only [Cluster.setElection_rafts, Cluster.setRaft_rafts, Function.update_self,
        Option.some.injEq] at hv ⊢
      subst hv
      obtain ⟨hlt, -⟩ := List.getElem?_eq_some_iff.mp hel
      refine Or.inr (Or.inl ⟨_, List.mem_set hlt _, (_, reply), ?_, by rw [hr], ?_, rfl⟩)
      · simp
      · rw [Raft.raiseTerm_currentTerm, max_eq_right ht]

/-- `votedFor` is on record as a vote of the present term. -/
def VotesCurrent (st : Cluster n C) : Prop :=
  ∀ s c, (st.rafts s).votedFor = some c → GaveVote st s (st.rafts s).currentTerm c

/-- One step keeps `votedFor` on record, unless it carries an old vote into a new term. -/
lemma VotesCurrent.step {st st' : Cluster n C} {a : Action n C} (hok : VotesCurrent st)
    (hf : ¬ carriesVote st a) (h : Step st a st') : VotesCurrent st' := by
  intro s c hv
  have hkept : (st.rafts s).votedFor = some c ∧
      (st'.rafts s).currentTerm = (st.rafts s).currentTerm →
      GaveVote st' s (st'.rafts s).currentTerm c := by
    rintro ⟨hold, hT⟩
    rw [hT]
    exact (hok s c hold).step h
  rcases (h.peer s).votedFor_cases hf hv with hold | ⟨rfl, rfl⟩ | ⟨e, rfl⟩
  · exact hkept hold
  · exact h.gaveVote_of_attemptEletion
  · exact (h.gaveVote_of_requestVote hv).elim hkept id

/-! ## Refusals -/

/-- The log of `rf` is strictly more up to date than what the request says of the candidate's. -/
def MoreUpToDate (rf : Raft n C) (args : RequestVoteArgs n) : Prop :=
  ∃ t ∈ rf.lastLogTerm?,
    args.lastLogTerm < t ∨ (args.lastLogTerm = t ∧ args.lastLogIndex < rf.lastLogIndex)

instance decidableMoreUpToDate (rf : Raft n C) (args : RequestVoteArgs n) :
    Decidable (MoreUpToDate rf args) :=
  inferInstanceAs (Decidable (∃ t ∈ rf.lastLogTerm?,
    args.lastLogTerm < t ∨ (args.lastLogTerm = t ∧ args.lastLogIndex < rf.lastLogIndex)))

/-- **The reasons of the handler**: a refusal in the peer's own term or a higher one is for a vote
that stands in `votedFor`, in the peer's own term, or for the log.
Source: `raft.go` `RequestVote` -/
lemma Raft.requestVote_refused {rf rf' : Raft n C} {args : RequestVoteArgs n}
    {reply : RequestVoteReply} (ht : rf.currentTerm ≤ args.term)
    (h : rf.requestVote args = some (rf', reply)) (hr : reply.voteGranted = false) :
    (∃ c, c ≠ args.candidateId ∧ rf.votedFor = some c ∧ rf.currentTerm = args.term) ∨
      MoreUpToDate rf args := by
  unfold Raft.requestVote at h
  rw [if_neg (not_lt.mpr ht)] at h
  dsimp only at h
  split_ifs at h with hv
  · -- a vote that survives the change of the term is one of the same term
    rw [Raft.raiseTerm_votedFor] at hv
    split_ifs at hv with hlt
    · exact absurd rfl hv.1
    · obtain ⟨c, hc⟩ := Option.ne_none_iff_exists'.mp hv.1
      refine Or.inl ⟨c, ?_, hc, by omega⟩
      rintro rfl
      exact hv.2 hc
  · rw [Option.map_eq_some_iff] at h
    obtain ⟨t, hl, h⟩ := h
    split_ifs at h with hu
    · cases h
      cases hr
    · refine Or.inr ⟨t, by simpa [Raft.lastLogTerm?, Raft.lastLogIndex] using hl, ?_⟩
      have hup : ¬ (t < args.lastLogTerm ∨
          (args.lastLogTerm = t ∧ rf.lastLogIndex ≤ args.lastLogIndex)) := by
        simpa [Raft.upToDate, Raft.lastLogIndex] using hu
      omega

section Runs

variable [Inhabited C] {tr : Trace n C} {st : Cluster n C}

/-- In every run without such steps `votedFor` is on record. -/
theorem votesCurrent_of_run (h : (cluster n C).Run tr st)
    (hD : Avoids (fun x a => carriesVote x a) tr) : VotesCurrent st := by
  refine System.Run.induction_avoiding (P := fun _ st => VotesCurrent st) ?_ ?_ h hD
  · intro s c hv
    cases hv
  · intro tr x a y _ _ hok hf hs
    exact hok.step hf (Step.of_cluster hs)

/-- **Votes are refused only for a reason of the current term**, in every run in which no follower
that has voted is handed an `AppendEntries` of a higher term: if `s` refuses a request whose term is
not below its own, it has given its vote of that term to another candidate, or its log is strictly
more up to date than the request says. -/
theorem voteRefusal (h : (cluster n C).Run tr st) (hD : Avoids (fun x a => carriesVote x a) tr)
    {s : Fin n} {args : RequestVoteArgs n} {rf : Raft n C} {reply : RequestVoteReply}
    (ht : (st.rafts s).currentTerm ≤ args.term)
    (hreq : (st.rafts s).requestVote args = some (rf, reply)) (hr : reply.voteGranted = false) :
    (∃ c, c ≠ args.candidateId ∧ GaveVote st s args.term c) ∨ MoreUpToDate (st.rafts s) args := by
  rcases Raft.requestVote_refused ht hreq hr with ⟨c, hne, hv, hT⟩ | hlog
  · refine Or.inl ⟨c, hne, ?_⟩
    rw [← hT]
    exact votesCurrent_of_run h hD s c hv
  · exact Or.inr hlog

/-- Peers 0 and 1 stand for term 1, and 2 votes for 0 and then refuses 1. -/
theorem voteRefusal_run : ∃ tr st, (cluster 3 ℕ).Run tr st ∧
    Avoids (fun x a => carriesVote x a) tr ∧
    ∃ args rf reply, st.voteRequest? 1 2 = some args ∧ args.candidateId = 1 ∧
      (st.rafts 2).requestVote args = some (rf, reply) ∧ reply.voteGranted = false ∧
      ((∃ c, c ≠ args.candidateId ∧ GaveVote st 2 args.term c) ∨
        MoreUpToDate (st.rafts 2) args) := by
  obtain ⟨tr, st, h, hD, args, hargs, hc, ht, ⟨rf, reply⟩, hreq, hr⟩ :=
    (cluster 3 ℕ).exists_run_of_exec
      [.timer 0, .attemptEletion 0, .timer 1, .attemptEletion 1, .requestVote 0 2]
      (fun tr st => Avoids (fun x a => carriesVote x a) tr ∧
        ∃ args ∈ st.voteRequest? 1 2, args.candidateId = 1 ∧
          (st.rafts 2).currentTerm ≤ args.term ∧
          ∃ r ∈ (st.rafts 2).requestVote args, r.2.voteGranted = false) (by decide)
  exact ⟨tr, st, h, hD, args, rf, reply, hargs, hc, hreq, hr, voteRefusal h hD ht hreq hr⟩

/-- A refusal without a reason. Peers 1 and 2 vote for 0 in term 1. Then 1 stands for term 2 and 0
elects it; the heartbeat of 1 overtakes its `RequestVote` on the way to 2, which takes over term 2
with its vote for 0. It refuses the request of 1, has given no vote in term 2, and its log is the
same as that of 1. -/
theorem voteRefusal_fails : ∃ tr st, (cluster 3 ℕ).Run tr st ∧
    ∃ args ∈ st.voteRequest? 1 2, (st.rafts 2).currentTerm ≤ args.term ∧
      (∃ r ∈ (st.rafts 2).requestVote args, r.2.voteGranted = false) ∧
      (∀ c, ¬ GaveVote st 2 args.term c) ∧ ¬ MoreUpToDate (st.rafts 2) args :=
  (cluster 3 ℕ).exists_run_of_exec
    [.timer 0, .attemptEletion 0, .requestVote 0 1, .requestVote 0 2, .timer 1, .attemptEletion 1,
      .requestVote 1 0, .voteReply 1 0, .heartBeat 1, .heartBeatArgs 0 2, .appendEntries 0 2]
    (fun _ st => ∃ args ∈ st.voteRequest? 1 2, (st.rafts 2).currentTerm ≤ args.term ∧
      (∃ r ∈ (st.rafts 2).requestVote args, r.2.voteGranted = false) ∧
      (∀ c, ¬ GaveVote st 2 args.term c) ∧ ¬ MoreUpToDate (st.rafts 2) args) (by decide)

end Runs

end GoLabs.Consensus
