import GoLabs.Consensus.Step
import GoLabs.Lib.Quorum

/-!
# Votes

Every election a peer ever started, and every answer it got, stays in the state of the cluster, so
the voting history of a run can be read off its last state:

* `Granted st v T c` — `v` answered `VoteGranted = true` to a `RequestVote` of `c` with term `T`;
* `StoodFor st v T` — `v` made itself a candidate of term `T` (`conevrtToCandidate`);
* `GaveVote st v T c` — `v` gave its vote in term `T` to `c`, in one of these two ways.

**One vote per term** fails. `AppendEntries` on a peer that is no follower calls
`conevrtToFollower` also when the request has the peer's own term, and that forgets the vote of
the term (`forgetsVote`); `oneVotePerTerm_fails` is a run in which a candidate votes for itself,
hears from the leader of its term and then votes for the leader too. The test in the handler should
have been `<` for the vote. In every run without such a step a peer gives one vote per term
(`oneVotePerTerm`).
-/

namespace GoLabs.Consensus

open GoLabs.Lib

variable {n : ℕ} {C : Type}

/-! ## How the record of the elections grows -/

/-- A peer in state `rf` gives its vote to a request, and is left in state `rf'`.
Source: `raft.go` `RequestVote` -/
structure Grants (rf rf' : Raft n C) (args : RequestVoteArgs n) : Prop where
  term_le : rf.currentTerm ≤ args.term
  /-- The candidate's log is at least as up to date as the voter's. -/
  upToDate : ∃ t, rf.lastLogTerm? = some t ∧ (t < args.lastLogTerm ∨
    (args.lastLogTerm = t ∧ rf.lastLogIndex ≤ args.lastLogIndex))
  eq : rf' = { rf.raiseTerm args.term with votedFor := some args.candidateId }

/-- A voter is in the term of the request. -/
lemma Grants.currentTerm {rf rf' : Raft n C} {args : RequestVoteArgs n} (h : Grants rf rf' args) :
    rf'.currentTerm = args.term := by
  rw [h.eq, Raft.raiseTerm_currentTerm, max_eq_right h.term_le]

/-- **Where an election of the state after a step comes from.** -/
inductive ElectionStep (st : Cluster n C) (a : Action n C) (st' : Cluster n C) :
    Election n → Prop
  | old {el : Election n} (h : el ∈ st.elections) : ElectionStep st a st' el
  | new {s : Fin n} {t : ℕ} {args : RequestVoteArgs n} (ha : a = .attemptEletion s)
      (ht : (st.rafts s).lastLogTerm? = some t)
      (hargs : args = { term := (st.rafts s).currentTerm + 1, candidateId := s,
                        lastLogIndex := (st.rafts s).lastLogIndex, lastLogTerm := t })
      (hst : st'.rafts s = (st.rafts s).conevrtToCandidate s) :
      ElectionStep st a st' ⟨args, 1, false, Cluster.spawn s (.requested args)⟩
  /-- A peer refused its vote. -/
  | refused {e : ℕ} {p : Fin n} {el : Election n} {args : RequestVoteArgs n}
      {reply : RequestVoteReply} (ha : a = .requestVote e p) (h : el ∈ st.elections)
      (hc : el.calls p = .requested args) (hr : reply.voteGranted = false) :
      ElectionStep st a st' { el with calls := Function.update el.calls p (.replied args reply) }
  /-- A peer gave its vote. -/
  | granted {e : ℕ} {p : Fin n} {el : Election n} {args : RequestVoteArgs n}
      {reply : RequestVoteReply} (ha : a = .requestVote e p) (h : el ∈ st.elections)
      (hc : el.calls p = .requested args) (hg : Grants (st.rafts p) (st'.rafts p) args) :
      ElectionStep st a st' { el with calls := Function.update el.calls p (.replied args reply) }
  /-- The candidate handled an answer. -/
  | returned {e : ℕ} {p : Fin n} {el : Election n} {args : RequestVoteArgs n}
      {reply : RequestVoteReply} {votes : ℕ} {done : Bool} (ha : a = .voteReply e p)
      (h : el ∈ st.elections) (hc : el.calls p = .replied args reply)
      (hv : votes ≤ if reply.voteGranted then el.votes + 1 else el.votes) :
      ElectionStep st a st' { el with
        votes := votes
        done := done
        calls := Function.update el.calls p (.returned args reply) }

/-- An election after a step that changes one of them is that one or was there before. -/
lemma ElectionStep.of_set {st st' : Cluster n C} {a : Action n C} {e : ℕ} {el el' : Election n}
    (h : ElectionStep st a st' el') (hel : el ∈ st.elections.set e el') :
    ElectionStep st a st' el := by
  rcases List.mem_or_eq_of_mem_set hel with hel | rfl
  · exact .old hel
  · exact h

/-- **Every election after a step comes from one before it, or is new.** -/
theorem Step.election {st st' : Cluster n C} {a : Action n C} (h : Step st a st')
    {el : Election n} (hel : el ∈ st'.elections) : ElectionStep st a st' el := by
  cases h with
  | attemptEletion hp ht args hargs =>
      rcases List.mem_append.mp hel with hel | hel
      · exact .old hel
      · rw [List.mem_singleton] at hel
        subst hel
        exact .new rfl ht hargs (by simp)
  | voteStale he hc ht =>
      exact .of_set (.refused rfl (List.mem_of_getElem? he) hc rfl) hel
  | voteRefused he hc ht reply hr hrt =>
      exact .of_set (.refused rfl (List.mem_of_getElem? he) hc hr) hel
  | voteGranted he hc ht hv hl hu reply hr =>
      exact .of_set (.granted rfl (List.mem_of_getElem? he) hc ⟨ht, ⟨_, hl, hu⟩, by simp⟩) hel
  | voteDemote he hc ht =>
      refine .of_set (.returned rfl (List.mem_of_getElem? he) hc ?_) hel
      split_ifs <;> omega
  | voteCount he hc ht =>
      exact .of_set (.returned rfl (List.mem_of_getElem? he) hc (le_refl _)) hel
  | promote he hc ht hg hd hm hT hs =>
      refine .of_set (.returned rfl (List.mem_of_getElem? he) hc ?_) hel
      rw [if_pos hg]
  | _ => exact .old hel

/-- **An answer on record after a step** was on record before it, or was given in this step. -/
lemma ElectionStep.answer {st st' : Cluster n C} {a : Action n C} {el : Election n}
    (h : ElectionStep st a st' el) {v : Fin n} {args : RequestVoteArgs n}
    {reply : RequestVoteReply} (hans : (el.calls v).answer? = some (args, reply)) :
    (∃ el₀ ∈ st.elections, (el₀.calls v).answer? = some (args, reply)) ∨
      ∃ e, a = .requestVote e v ∧
        (reply.voteGranted = true → Grants (st.rafts v) (st'.rafts v) args) := by
  cases h with
  | old hm => exact Or.inl ⟨el, hm, hans⟩
  | new =>
      simp only [Cluster.spawn] at hans
      split_ifs at hans <;> cases hans
  | @refused e p el args₀ reply₀ ha hm hc hr =>
      by_cases hvp : v = p
      · subst hvp
        simp only [Function.update_self, Rpc.answer?_replied, Option.some.injEq,
          Prod.mk.injEq] at hans
        obtain ⟨rfl, rfl⟩ := hans
        exact Or.inr ⟨e, ha, fun hg => by simp [hr] at hg⟩
      · exact Or.inl ⟨el, hm, by simpa [hvp] using hans⟩
  | @granted e p el args₀ reply₀ ha hm hc hg =>
      by_cases hvp : v = p
      · subst hvp
        simp only [Function.update_self, Rpc.answer?_replied, Option.some.injEq,
          Prod.mk.injEq] at hans
        obtain ⟨rfl, rfl⟩ := hans
        exact Or.inr ⟨e, ha, fun _ => hg⟩
      · exact Or.inl ⟨el, hm, by simpa [hvp] using hans⟩
  | @returned e p el args₀ reply₀ votes done ha hm hc hv =>
      refine Or.inl ⟨el, hm, ?_⟩
      by_cases hvp : v = p
      · subst hvp
        simpa [hc] using hans
      · simpa [hvp] using hans

/-! ## The voting record -/

/-- `v` answered `VoteGranted = true` to a `RequestVote` of `c` with term `T`. -/
def Granted (st : Cluster n C) (v : Fin n) (T : ℕ) (c : Fin n) : Prop :=
  ∃ el ∈ st.elections, ∃ ar ∈ (el.calls v).answer?,
    ar.2.voteGranted = true ∧ ar.1.term = T ∧ ar.1.candidateId = c

/-- `v` made itself a candidate of term `T`. -/
def StoodFor (st : Cluster n C) (v : Fin n) (T : ℕ) : Prop :=
  ∃ el ∈ st.elections, el.args.candidateId = v ∧ el.args.term = T

/-- `v` gave its vote in term `T` to `c`. -/
def GaveVote (st : Cluster n C) (v : Fin n) (T : ℕ) (c : Fin n) : Prop :=
  Granted st v T c ∨ (v = c ∧ StoodFor st v T)

instance (st : Cluster n C) (v : Fin n) (T : ℕ) (c : Fin n) : Decidable (GaveVote st v T c) :=
  inferInstanceAs (Decidable ((∃ el ∈ st.elections, ∃ ar ∈ (el.calls v).answer?,
    ar.2.voteGranted = true ∧ ar.1.term = T ∧ ar.1.candidateId = c) ∨
      (v = c ∧ ∃ el ∈ st.elections, el.args.candidateId = v ∧ el.args.term = T)))

/-- No peer gave its vote in one term to two candidates. -/
def OneVotePerTerm (st : Cluster n C) : Prop :=
  ∀ v T c c', GaveVote st v T c → GaveVote st v T c' → c = c'

/-- **A vote on record after a step** was on record before it, or was given in this step: it is
the vote of the term the peer is in now. -/
theorem Step.gaveVote {st st' : Cluster n C} {a : Action n C} (h : Step st a st') {v : Fin n}
    {T : ℕ} {c : Fin n} (hv : GaveVote st' v T c) :
    GaveVote st v T c ∨
      ((st'.rafts v).currentTerm = T ∧ (st'.rafts v).votedFor = some c) := by
  rcases hv with ⟨el, hel, ⟨args, reply⟩, hans, hg, rfl, rfl⟩ | ⟨rfl, el, hel, rfl, rfl⟩
  · rcases (h.election hel).answer hans with ⟨el₀, hm, hans⟩ | ⟨e, -, hgr⟩
    · exact Or.inl (Or.inl ⟨el₀, hm, (args, reply), hans, hg, rfl, rfl⟩)
    · exact Or.inr ⟨(hgr hg).currentTerm, by rw [(hgr hg).eq]⟩
  · cases h.election hel with
    | old hm => exact Or.inl (Or.inr ⟨rfl, el, hm, rfl, rfl⟩)
    | @new s t args₀ ha ht hargs hst =>
        subst hargs
        refine Or.inr ⟨?_, ?_⟩
        · rw [hst, Raft.conevrtToCandidate_currentTerm]
        · rw [hst, Raft.conevrtToCandidate_votedFor]
    | refused ha hm hc hr => exact Or.inl (Or.inr ⟨rfl, _, hm, rfl, rfl⟩)
    | granted ha hm => exact Or.inl (Or.inr ⟨rfl, _, hm, rfl, rfl⟩)
    | returned ha hm => exact Or.inl (Or.inr ⟨rfl, _, hm, rfl, rfl⟩)

/-! ## One vote per term -/

/-- The step that goes wrong: an `AppendEntries` of the peer's own term reaches a candidate or
leader that has voted, and `conevrtToFollower` forgets the vote within the term.
Source: `raft.go` `AppendEntries` -/
def forgetsVote (st : Cluster n C) : Action n C → Bool
  | .appendEntries r p => (st.beatRequest? r p).any fun args =>
      (st.rafts p).state ≠ .follower ∧ (st.rafts p).currentTerm = args.term ∧
        (st.rafts p).votedFor ≠ none
  | _ => false

/-- Apart from `forgetsVote`, a peer that stays in its term keeps its vote. -/
lemma PeerStep.votedFor_eq {st : Cluster n C} {a : Action n C} {s : Fin n} {rf : Raft n C}
    (h : PeerStep st a s rf) (hf : ¬ forgetsVote st a)
    (ht : rf.currentTerm = (st.rafts s).currentTerm) {c : Fin n}
    (hv : (st.rafts s).votedFor = some c) : rf.votedFor = some c := by
  cases h with
  | quiet _ voted => rw [voted, hv]
  | candidate => simp at ht
  | raise ha hel hc hle =>
      rw [Raft.raiseTerm_currentTerm, max_eq_right hle] at ht
      rw [Raft.raiseTerm_votedFor, if_neg (by omega), hv]
  | vote ha hel hc hle hvf =>
      rw [Raft.raiseTerm_currentTerm, max_eq_right hle] at ht
      rw [Raft.raiseTerm_votedFor, if_neg (by omega), hv] at hvf
      simpa [eq_comm] using hvf
  | demote hlt =>
      rw [Raft.conevrtToFollower_currentTerm] at ht
      omega
  | stepDown ha hrd hc hs hle =>
      rw [Raft.conevrtToFollower_currentTerm] at ht
      refine absurd ?_ hf
      simp [ha, forgetsVote, Cluster.beatRequest?_eq_some hrd hc, hs, ht, hv]
  | promote => exact hv
  | follow => exact hv
  | accept => exact hv
  | commit => exact hv
  | start => exact hv
  | apply => exact hv

/-- What a vote on record says about the voter: it has reached the term of the vote, and while it
is still in that term `votedFor` names the candidate. -/
def VotesKept (st : Cluster n C) : Prop :=
  ∀ v T c, GaveVote st v T c →
    T ≤ (st.rafts v).currentTerm ∧
      ((st.rafts v).currentTerm = T → (st.rafts v).votedFor = some c)

/-- One step keeps the votes, unless it forgets one. -/
lemma VotesKept.step {st st' : Cluster n C} {a : Action n C} (hk : VotesKept st)
    (hf : ¬ forgetsVote st a) (h : Step st a st') : VotesKept st' := by
  intro v T c hv
  rcases h.gaveVote hv with hv | ⟨ht, hvf⟩
  · obtain ⟨hle, hvf⟩ := hk v T c hv
    have hmono := (h.peer v).term_le
    refine ⟨hle.trans hmono, fun hT => ?_⟩
    exact (h.peer v).votedFor_eq hf (by omega) (hvf (by omega))
  · exact ⟨ht.ge, fun _ => hvf⟩

/-- A new vote agrees with every vote of its term already on record. -/
lemma OneVotePerTerm.step {st st' : Cluster n C} {a : Action n C} (ho : OneVotePerTerm st)
    (hk' : VotesKept st') (h : Step st a st') : OneVotePerTerm st' := by
  intro v T c c' hv hv'
  rcases h.gaveVote hv with hold | ⟨hT, hc⟩
  · rcases h.gaveVote hv' with hold' | ⟨hT', hc'⟩
    · exact ho v T c c' hold hold'
    · have := (hk' v T c hv).2 hT'
      rw [hc'] at this
      exact (Option.some.inj this).symm
  · have := (hk' v T c' hv').2 hT
    rw [hc] at this
    exact Option.some.inj this

section Runs

variable [Inhabited C] {tr : Trace n C} {st : Cluster n C}

/-- The voting record of a run in which no step forgets a vote. -/
theorem votes_of_run (h : (cluster n C).Run tr st)
    (hD : Avoids (fun x a => forgetsVote x a) tr) : VotesKept st ∧ OneVotePerTerm st := by
  refine System.Run.induction_avoiding (P := fun _ st => VotesKept st ∧ OneVotePerTerm st)
    ⟨?_, ?_⟩ ?_ h hD
  · rintro v T c (⟨el, hel, -⟩ | ⟨-, el, hel, -⟩) <;> simp [cluster, Cluster.make] at hel
  · rintro v T c c' (⟨el, hel, -⟩ | ⟨-, el, hel, -⟩) <;> simp [cluster, Cluster.make] at hel
  · rintro tr x a y - - ⟨hk, ho⟩ hf hs
    have hs := Step.of_cluster hs
    have hk' := hk.step hf hs
    exact ⟨hk', ho.step hk' hs⟩

/-- **One vote per term**, in every run in which no `AppendEntries` of its own term reaches a
candidate or leader that has voted. -/
theorem oneVotePerTerm (h : (cluster n C).Run tr st)
    (hD : Avoids (fun x a => forgetsVote x a) tr) (v : Fin n) (T : ℕ) (c c' : Fin n)
    (hv : GaveVote st v T c) (hv' : GaveVote st v T c') : c = c' :=
  (votes_of_run h hD).2 v T c c' hv hv'

/-- An undisturbed election of three peers: the vote of peer 2 in term 1 is for peer 0 only. -/
theorem oneVotePerTerm_run : ∃ tr st, (cluster 3 ℕ).Run tr st ∧
    Avoids (fun x a => forgetsVote x a) tr ∧ GaveVote st 2 1 0 ∧
    ∀ c, GaveVote st 2 1 c → c = 0 := by
  obtain ⟨tr, st, h, hD, hv⟩ := (cluster 3 ℕ).exists_run_of_exec
    [.timer 0, .attemptEletion 0, .timer 1, .attemptEletion 1, .requestVote 0 2,
      .requestVote 1 2, .voteReply 0 2]
    (fun tr st => Avoids (fun x a => forgetsVote x a) tr ∧ GaveVote st 2 1 0) (by decide)
  exact ⟨tr, st, h, hD, hv, fun c hc => oneVotePerTerm h hD 2 1 c 0 hc hv⟩

/-- A run with two votes in one term. Peers 0 and 1 stand for term 1 and peer 2 elects 0. The
heartbeat of 0 finds 1 still a candidate of the same term, so 1 forgets its vote for itself and
grants the `RequestVote` of 0, which has been on its way since. -/
theorem oneVotePerTerm_fails : ∃ tr st, (cluster 3 ℕ).Run tr st ∧
    GaveVote st 1 1 1 ∧ GaveVote st 1 1 0 :=
  (cluster 3 ℕ).exists_run_of_exec
    [.timer 0, .attemptEletion 0, .timer 1, .attemptEletion 1, .requestVote 0 2, .voteReply 0 2,
      .heartBeat 0, .heartBeatArgs 0 1, .appendEntries 0 1, .requestVote 0 1]
    (fun _ st => GaveVote st 1 1 1 ∧ GaveVote st 1 1 0) (by decide)

end Runs

end GoLabs.Consensus
