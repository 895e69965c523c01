import GoLabs.Consensus.Cluster

/-!
# What a step can do

`Step st a st'` lists, once and for all, every way in which an action `a` changes a cluster: one
constructor for each branch of a handler, with the tests that lead to the branch and the state it
leaves. `Step.of_step` says that the list is complete. Every invariant of the development is
proved by cases on it and no later proof unfolds a handler.
-/

namespace GoLabs.Consensus

open GoLabs.Lib

variable {n : ℕ} {C : Type}

/-! ## Projections of the updates -/

namespace Cluster

variable (st : Cluster n C) (s p : Fin n) (rf : Raft n C) (e r : ℕ) (el : Election n)
  (rd : Round n C)

/-- `setRaft` replaces one peer. -/
@[simp] theorem setRaft_rafts : (st.setRaft s rf).rafts = Function.update st.rafts s rf := rfl

/-- `setRaft` leaves the channels alone. -/
@[simp] theorem setRaft_applyCh : (st.setRaft s rf).applyCh = st.applyCh := rfl

/-- `setRaft` leaves the attempts alone. -/
@[simp] theorem setRaft_attempts : (st.setRaft s rf).attempts = st.attempts := rfl

/-- `setRaft` leaves the elections alone. -/
@[simp] theorem setRaft_elections : (st.setRaft s rf).elections = st.elections := rfl

/-- `setRaft` leaves the rounds alone. -/
@[simp] theorem setRaft_rounds : (st.setRaft s rf).rounds = st.rounds := rfl

/-- Replacing a peer by itself changes nothing. -/
@[simp] theorem setRaft_self : st.setRaft s (st.rafts s) = st := by
  simp [setRaft]

/-- `setElection` leaves the peers alone. -/
@[simp] theorem setElection_rafts : (st.setElection e el).rafts = st.rafts := rfl

/-- `setElection` leaves the channels alone. -/
@[simp] theorem setElection_applyCh : (st.setElection e el).applyCh = st.applyCh := rfl

/-- `setElection` leaves the attempts alone. -/
@[simp] theorem setElection_attempts : (st.setElection e el).attempts = st.attempts := rfl

/-- `setElection` replaces one election. -/
@[simp] theorem setElection_elections :
    (st.setElection e el).elections = st.elections.set e el := rfl

/-- `setElection` leaves the rounds alone. -/
@[simp] theorem setElection_rounds : (st.setElection e el).rounds = st.rounds := rfl

/-- `setRound` leaves the peers alone. -/
@[simp] theorem setRound_rafts : (st.setRound r rd).rafts = st.rafts := rfl

/-- `setRound` leaves the channels alone. -/
@[simp] theorem setRound_applyCh : (st.setRound r rd).applyCh = st.applyCh := rfl

/-- `setRound` leaves the attempts alone. -/
@[simp] theorem setRound_attempts : (st.setRound r rd).attempts = st.attempts := rfl

/-- `setRound` leaves the elections alone. -/
@[simp] theorem setRound_elections : (st.setRound r rd).elections = st.elections := rfl

/-- `setRound` replaces one round. -/
@[simp] theorem setRound_rounds : (st.setRound r rd).rounds = st.rounds.set r rd := rfl

/-- The request of an election that is on its way to `p`. -/
lemma voteRequest?_eq_some {st : Cluster n C} {e : ℕ} {p : Fin n} {el : Election n}
    {args : RequestVoteArgs n} (hel : st.elections[e]? = some el)
    (hc : el.calls p = .requested args) : st.voteRequest? e p = some args := by
  simp [voteRequest?, hel, hc]

/-- The request of a round that is on its way to `p`. -/
lemma beatRequest?_eq_some {st : Cluster n C} {r : ℕ} {p : Fin n} {rd : Round n C}
    {args : AppendEntriesArgs n C} (hrd : st.rounds[r]? = some rd)
    (hc : rd.calls p = .requested args) : st.beatRequest? r p = some args := by
  simp [beatRequest?, hrd, hc]

end Cluster

namespace Raft

variable (rf : Raft n C) (me : Fin n) (t : ℕ) (args : AppendEntriesArgs n C)

/-- A new candidate keeps its log. -/
@[simp] theorem conevrtToCandidate_log : (rf.conevrtToCandidate me).log = rf.log := rfl

/-- A new candidate is one. -/
@[simp] theorem conevrtToCandidate_state : (rf.conevrtToCandidate me).state = .candidate := rfl

/-- A new candidate begins a term. -/
@[simp] theorem conevrtToCandidate_currentTerm :
    (rf.conevrtToCandidate me).currentTerm = rf.currentTerm + 1 := rfl

/-- A new candidate votes for itself. -/
@[simp] theorem conevrtToCandidate_votedFor :
    (rf.conevrtToCandidate me).votedFor = some me := rfl

/-- A new candidate keeps its `commitIndex`. -/
@[simp] theorem conevrtToCandidate_commitIndex :
    (rf.conevrtToCandidate me).commitIndex = rf.commitIndex := rfl

/-- A new candidate keeps its `lastApplied`. -/
@[simp] theorem conevrtToCandidate_lastApplied :
    (rf.conevrtToCandidate me).lastApplied = rf.lastApplied := rfl

/-- A peer that steps down keeps its log. -/
@[simp] theorem conevrtToFollower_log : (rf.conevrtToFollower t).log = rf.log := rfl

/-- A peer that steps down is a follower. -/
@[simp] theorem conevrtToFollower_state : (rf.conevrtToFollower t).state = .follower := rfl

/-- A peer that steps down takes the term it is given. -/
@[simp] theorem conevrtToFollower_currentTerm : (rf.conevrtToFollower t).currentTerm = t := rfl

/-- A peer that steps down has no vote. -/
@[simp] theorem conevrtToFollower_votedFor : (rf.conevrtToFollower t).votedFor = none := rfl

/-- A peer that steps down keeps its `commitIndex`. -/
@[simp] theorem conevrtToFollower_commitIndex :
    (rf.conevrtToFollower t).commitIndex = rf.commitIndex := rfl

/-- A peer that steps down keeps its `lastApplied`. -/
@[simp] theorem conevrtToFollower_lastApplied :
    (rf.conevrtToFollower t).lastApplied = rf.lastApplied := rfl

/-- A new leader keeps its log. -/
@[simp] theorem conevrtToLeader_log : rf.conevrtToLeader.log = rf.log := rfl

/-- A new leader is one. -/
@[simp] theorem conevrtToLeader_state : rf.conevrtToLeader.state = .leader := rfl

/-- A new leader leads the term in which it was a candidate. -/
@[simp] theorem conevrtToLeader_currentTerm :
    rf.conevrtToLeader.currentTerm = rf.currentTerm := rfl

/-- A new leader keeps its vote. -/
@[simp] theorem conevrtToLeader_votedFor : rf.conevrtToLeader.votedFor = rf.votedFor := rfl

/-- A new leader keeps its `commitIndex`. -/
@[simp] theorem conevrtToLeader_commitIndex :
    rf.conevrtToLeader.commitIndex = rf.commitIndex := rfl

/-- A new leader keeps its `lastApplied`. -/
@[simp] theorem conevrtToLeader_lastApplied :
    rf.conevrtToLeader.lastApplied = rf.lastApplied := rfl

/-- A higher term leaves the log alone. -/
@[simp] theorem raiseTerm_log : (rf.raiseTerm t).log = rf.log := by
  unfold raiseTerm; split_ifs <;> rfl

/-- A higher term leaves the role alone, also that of a leader. -/
@[simp] theorem raiseTerm_state : (rf.raiseTerm t).state = rf.state := by
  unfold raiseTerm; split_ifs <;> rfl

/-- The term is raised if the one that is seen is higher. -/
@[simp] theorem raiseTerm_currentTerm :
    (rf.raiseTerm t).currentTerm = max rf.currentTerm t := by
  unfold raiseTerm
  split_ifs with h
  · exact (max_eq_right h.le).symm
  · exact (max_eq_left (not_lt.mp h)).symm

/-- A higher term leaves `commitIndex` alone. -/
@[simp] theorem raiseTerm_commitIndex : (rf.raiseTerm t).commitIndex = rf.commitIndex := by
  unfold raiseTerm; split_ifs <;> rfl

/-- A higher term leaves `lastApplied` alone. -/
@[simp] theorem raiseTerm_lastApplied : (rf.raiseTerm t).lastApplied = rf.lastApplied := by
  unfold raiseTerm; split_ifs <;> rfl

/-- A higher term clears the vote. -/
theorem raiseTerm_votedFor :
    (rf.raiseTerm t).votedFor = if rf.currentTerm < t then none else rf.votedFor := by
  unfold raiseTerm; split_ifs <;> rfl

/-- A request that is taken leaves the role alone. -/
@[simp] theorem accept_state : (rf.accept args).state = rf.state := rfl

/-- `accept` leaves the term alone; the handler has set it before. -/
@[simp] theorem accept_currentTerm : (rf.accept args).currentTerm = rf.currentTerm := rfl

/-- A request that is taken leaves the vote alone. -/
@[simp] theorem accept_votedFor : (rf.accept args).votedFor = rf.votedFor := rfl

/-- A request that is taken leaves `lastApplied` alone. -/
@[simp] theorem accept_lastApplied : (rf.accept args).lastApplied = rf.lastApplied := rfl

/-- A request that is taken replaces all that is behind `PrevLogIndex`. -/
theorem accept_log :
    (rf.accept args).log = rf.log.take (args.prevLogIndex + 1).toNat ++ args.entries := rfl

end Raft

/-! ## The steps -/

/-- **Every way in which an action changes the cluster.** -/
inductive Step (st : Cluster n C) : Action n C → Cluster n C → Prop
  /-- A timer on a leader, a check of the loop or a `Start` on a peer that does not lead, an
  iteration of `apply` with nothing to apply. -/
  | idle {a : Action n C}
      (h : match a with
        | .timer s => (st.rafts s).state = .leader
        | .heartBeat s => (st.rafts s).state ≠ .leader
        | .start s _ => (st.rafts s).state ≠ .leader
        | .apply s => (st.rafts s).commitIndex ≤ (st.rafts s).lastApplied
        | _ => False) : Step st a st
  | timer {s : Fin n} (h : (st.rafts s).state ≠ .leader) :
      Step st (.timer s)
        { st with attempts := Function.update st.attempts s (st.attempts s + 1) }
  | attemptEletion {s : Fin n} {t : ℕ} (hp : st.attempts s ≠ 0)
      (ht : (st.rafts s).lastLogTerm? = some t) (args : RequestVoteArgs n)
      (hargs : args = { term := (st.rafts s).currentTerm + 1, candidateId := s,
                        lastLogIndex := (st.rafts s).lastLogIndex, lastLogTerm := t }) :
      Step st (.attemptEletion s)
        { st with
          rafts := Function.update st.rafts s ((st.rafts s).conevrtToCandidate s)
          attempts := Function.update st.attempts s (st.attempts s - 1)
          elections := st.elections ++ [⟨args, 1, false, Cluster.spawn s (.requested args)⟩] }
  /-- `RequestVote` from an older term. -/
  | voteStale {e : ℕ} {p : Fin n} {el : Election n} {args : RequestVoteArgs n}
      (hel : st.elections[e]? = some el) (hc : el.calls p = .requested args)
      (ht : args.term < (st.rafts p).currentTerm) :
      Step st (.requestVote e p) (st.setElection e { el with
        calls := Function.update el.calls p
          (.replied args ⟨(st.rafts p).currentTerm, false⟩) })
  /-- `RequestVote` refused by a peer that has voted, or whose log is newer. -/
  | voteRefused {e : ℕ} {p : Fin n} {el : Election n} {args : RequestVoteArgs n}
      (hel : st.elections[e]? = some el) (hc : el.calls p = .requested args)
      (ht : (st.rafts p).currentTerm ≤ args.term) (reply : RequestVoteReply)
      (hr : reply.voteGranted = false) (hrt : reply.term ≤ args.term) :
      Step st (.requestVote e p) ((st.setRaft p ((st.rafts p).raiseTerm args.term)).setElection e
        { el with calls := Function.update el.calls p (.replied args reply) })
  /-- `RequestVote` granted. -/
  | voteGranted {e : ℕ} {p : Fin n} {el : Election n} {args : RequestVoteArgs n}
      (hel : st.elections[e]? = some el) (hc : el.calls p = .requested args)
      (ht : (st.rafts p).currentTerm ≤ args.term)
      (hv : ((st.rafts p).raiseTerm args.term).votedFor = none ∨
        ((st.rafts p).raiseTerm args.term).votedFor = some args.candidateId)
      {t : ℕ} (hl : (st.rafts p).lastLogTerm? = some t)
      (hu : t < args.lastLogTerm ∨
        (args.lastLogTerm = t ∧ (st.rafts p).lastLogIndex ≤ args.lastLogIndex))
      (reply : RequestVoteReply) (hr : reply = ⟨args.term, true⟩) :
      Step st (.requestVote e p)
        ((st.setRaft p { (st.rafts p).raiseTerm args.term with
            votedFor := some args.candidateId }).setElection e
          { el with calls := Function.update el.calls p (.replied args reply) })
  /-- An answer to `RequestVote` with a higher term: step down. -/
  | voteDemote {e : ℕ} {p : Fin n} {el : Election n} {args : RequestVoteArgs n}
      {reply : RequestVoteReply}
      (hel : st.elections[e]? = some el) (hc : el.calls p = .replied args reply)
      (ht : (st.rafts el.args.candidateId).currentTerm < reply.term) :
      Step st (.voteReply e p)
        ((st.setRaft el.args.candidateId
            ((st.rafts el.args.candidateId).conevrtToFollower reply.term)).setElection e
          { el with calls := Function.update el.calls p (.returned args reply) })
  /-- An answer to `RequestVote` that is at most counted. -/
  | voteCount {e : ℕ} {p : Fin n} {el : Election n} {args : RequestVoteArgs n}
      {reply : RequestVoteReply}
      (hel : st.elections[e]? = some el) (hc : el.calls p = .replied args reply)
      (ht : reply.term ≤ (st.rafts el.args.candidateId).currentTerm) :
      Step st (.voteReply e p) (st.setElection e
        { el with
          votes := if reply.voteGranted then el.votes + 1 else el.votes
          calls := Function.update el.calls p (.returned args reply) })
  /-- The vote that makes the candidate leader. -/
  | promote {e : ℕ} {p : Fin n} {el : Election n} {args : RequestVoteArgs n}
      {reply : RequestVoteReply}
      (hel : st.elections[e]? = some el) (hc : el.calls p = .replied args reply)
      (ht : reply.term ≤ (st.rafts el.args.candidateId).currentTerm)
      (hg : reply.voteGranted = true) (hd : el.done = false) (hm : n / 2 < el.votes + 1)
      (hT : (st.rafts el.args.candidateId).currentTerm = el.args.term)
      (hs : (st.rafts el.args.candidateId).state = .candidate) :
      Step st (.voteReply e p)
        ((st.setRaft el.args.candidateId
            (st.rafts el.args.candidateId).conevrtToLeader).setElection e
          { el with
            votes := el.votes + 1
            done := true
            calls := Function.update el.calls p (.returned args reply) })
  | heartBeat {s : Fin n} (h : (st.rafts s).state = .leader) :
      Step st (.heartBeat s)
        { st with rounds := st.rounds ++ [⟨s, 1, false, Cluster.spawn s .spawned⟩] }
  | heartBeatArgs {r : ℕ} {p : Fin n} {rd : Round n C} {args : AppendEntriesArgs n C}
      (hrd : st.rounds[r]? = some rd) (hc : rd.calls p = .spawned)
      (ha : (st.rafts rd.leader).heartBeatArgs rd.leader p = some args) :
      Step st (.heartBeatArgs r p)
        (st.setRound r { rd with calls := Function.update rd.calls p (.requested args) })
  /-- `AppendEntries` on a peer that is no follower: step down, answer success. -/
  | appendDemote {r : ℕ} {p : Fin n} {rd : Round n C} {args : AppendEntriesArgs n C}
      (hrd : st.rounds[r]? = some rd) (hc : rd.calls p = .requested args)
      (hs : (st.rafts p).state ≠ .follower) (ht : (st.rafts p).currentTerm ≤ args.term) :
      Step st (.appendEntries r p)
        ((st.setRaft p ((st.rafts p).conevrtToFollower args.term)).setRound r
          { rd with calls := Function.update rd.calls p (.replied args ⟨args.term, true⟩) })
  /-- `AppendEntries` from an older term. -/
  | appendStale {r : ℕ} {p : Fin n} {rd : Round n C} {args : AppendEntriesArgs n C}
      (hrd : st.rounds[r]? = some rd) (hc : rd.calls p = .requested args)
      (ht : args.term < (st.rafts p).currentTerm) :
      Step st (.appendEntries r p) (st.setRound r { rd with
        calls := Function.update rd.calls p
          (.replied args ⟨(st.rafts p).currentTerm, false⟩) })
  /-- `AppendEntries` whose previous entry the follower does not hold. -/
  | appendReject {r : ℕ} {p : Fin n} {rd : Round n C} {args : AppendEntriesArgs n C}
      (hrd : st.rounds[r]? = some rd) (hc : rd.calls p = .requested args)
      (hs : (st.rafts p).state = .follower) (ht : (st.rafts p).currentTerm ≤ args.term) :
      Step st (.appendEntries r p)
        ((st.setRaft p { st.rafts p with currentTerm := args.term }).setRound r
          { rd with calls := Function.update rd.calls p (.replied args ⟨args.term, false⟩) })
  /-- `AppendEntries` accepted by a follower. -/
  | appendAccept {r : ℕ} {p : Fin n} {rd : Round n C} {args : AppendEntriesArgs n C}
      {prev : LogEntry C}
      (hrd : st.rounds[r]? = some rd) (hc : rd.calls p = .requested args)
      (hs : (st.rafts p).state = .follower) (ht : (st.rafts p).currentTerm ≤ args.term)
      (hi : 0 ≤ args.prevLogIndex)
      (hp : (st.rafts p).log[args.prevLogIndex.toNat]? = some prev)
      (hpt : prev.term = args.prevLogTerm) :
      Step st (.appendEntries r p)
        ((st.setRaft p ({ st.rafts p with currentTerm := args.term }.accept args)).setRound r
          { rd with calls := Function.update rd.calls p (.replied args ⟨args.term, true⟩) })
  /-- A failed answer to `AppendEntries` with a higher term: step down. -/
  | beatDemote {r : ℕ} {p : Fin n} {rd : Round n C} {args : AppendEntriesArgs n C}
      {reply : AppendEntriesReply}
      (hrd : st.rounds[r]? = some rd) (hc : rd.calls p = .replied args reply)
      (hf : reply.success = false) (ht : (st.rafts rd.leader).currentTerm < reply.term) :
      Step st (.heartBeatReply r p)
        ((st.setRaft rd.leader
            ((st.rafts rd.leader).conevrtToFollower reply.term)).setRound r
          { rd with calls := Function.update rd.calls p (.returned args reply) })
  /-- Any other failed answer: back `nextIndex` up. -/
  | beatBackUp {r : ℕ} {p : Fin n} {rd : Round n C} {args : AppendEntriesArgs n C}
      {reply : AppendEntriesReply}
      (hrd : st.rounds[r]? = some rd) (hc : rd.calls p = .replied args reply)
      (hf : reply.success = false) (ht : reply.term ≤ (st.rafts rd.leader).currentTerm)
      {nextIndex : List ℤ}
      (hn : Slice.set? (st.rafts rd.leader).nextIndex (p : ℕ)
        (Raft.backUp (st.rafts rd.leader).termToIndex (args.prevLogTerm - 1)) = some nextIndex) :
      Step st (.heartBeatReply r p)
        ((st.setRaft rd.leader { st.rafts rd.leader with nextIndex := nextIndex }).setRound r
          { rd with calls := Function.update rd.calls p (.returned args reply) })
  /-- A success that is only counted. -/
  | beatCount {r : ℕ} {p : Fin n} {rd : Round n C} {args : AppendEntriesArgs n C}
      {reply : AppendEntriesReply}
      (hrd : st.rounds[r]? = some rd) (hc : rd.calls p = .replied args reply)
      (hf : reply.success = true) {nextIndex matchIndex : List ℤ}
      (hn : Slice.set? (st.rafts rd.leader).nextIndex (p : ℕ)
        ((st.rafts rd.leader).log.length : ℤ) = some nextIndex)
      (hm : Slice.set? (st.rafts rd.leader).matchIndex (p : ℕ)
        (((st.rafts rd.leader).log.length : ℤ) - 1) = some matchIndex)
      (hd : rd.done = true ∨ rd.count + 1 ≤ n / 2) :
      Step st (.heartBeatReply r p)
        ((st.setRaft rd.leader { st.rafts rd.leader with
            nextIndex := nextIndex, matchIndex := matchIndex }).setRound r
          { rd with
            count := rd.count + 1
            calls := Function.update rd.calls p (.returned args reply) })
  /-- The success that sets `commitIndex`. -/
  | beatCommit {r : ℕ} {p : Fin n} {rd : Round n C} {args : AppendEntriesArgs n C}
      {reply : AppendEntriesReply}
      (hrd : st.rounds[r]? = some rd) (hc : rd.calls p = .replied args reply)
      (hf : reply.success = true) {nextIndex matchIndex : List ℤ}
      (hn : Slice.set? (st.rafts rd.leader).nextIndex (p : ℕ)
        ((st.rafts rd.leader).log.length : ℤ) = some nextIndex)
      (hm : Slice.set? (st.rafts rd.leader).matchIndex (p : ℕ)
        (((st.rafts rd.leader).log.length : ℤ) - 1) = some matchIndex)
      (hd : rd.done = false) (hq : n / 2 < rd.count + 1) :
      Step st (.heartBeatReply r p)
        ((st.setRaft rd.leader { st.rafts rd.leader with
            nextIndex := nextIndex, matchIndex := matchIndex
            commitIndex := ((st.rafts rd.leader).log.length : ℤ) - 1 }).setRound r
          { rd with
            count := rd.count + 1
            done := true
            calls := Function.update rd.calls p (.returned args reply) })
  /-- `Start` on the leader. -/
  | start {s : Fin n} {c : C} (hs : (st.rafts s).state = .leader) {t : ℕ}
      (ht : (st.rafts s).lastLogTerm? = some t) :
      Step st (.start s c) (st.setRaft s { st.rafts s with
        termToIndex := if (st.rafts s).currentTerm ≠ t then
          Function.update (st.rafts s).termToIndex (st.rafts s).currentTerm
            ((st.rafts s).log.length : ℤ) else (st.rafts s).termToIndex
        log := (st.rafts s).log ++ [⟨(st.rafts s).currentTerm, c⟩] })
  /-- `apply` with an entry to deliver. -/
  | apply {s : Fin n} {entry : LogEntry C}
      (h : (st.rafts s).lastApplied < (st.rafts s).commitIndex)
      (he : Slice.get? (st.rafts s).log ((st.rafts s).lastApplied + 1) = some entry) :
      Step st (.apply s)
        { st.setRaft s { st.rafts s with lastApplied := (st.rafts s).lastApplied + 1 } with
          applyCh := Function.update st.applyCh s
            (st.applyCh s ++ [⟨true, entry.command, (st.rafts s).lastApplied + 1⟩]) }

/-! ## The list is complete -/

namespace Step

variable {st st' : Cluster n C}

/-- The firing of the election timer. -/
lemma of_timer {s : Fin n} (h : st.timer s = st') : Step st (.timer s) st' := by
  subst h
  unfold Cluster.timer
  split_ifs with hs
  · exact .timer hs
  · exact .idle (not_not.mp hs)

/-- The locked part of `AttemptEletion`. -/
lemma of_attemptEletion {s : Fin n} (h : st.attemptEletion s = some st') :
    Step st (.attemptEletion s) st' := by
  unfold Cluster.attemptEletion at h
  split_ifs at h with hp
  simp only [Raft.attemptEletion, Option.bind_eq_bind, Option.bind_eq_some_iff,
    Option.map_eq_some_iff, Option.some.injEq] at h
  obtain ⟨⟨rf, args⟩, ⟨t, ht, heq⟩, rfl⟩ := h
  obtain ⟨rfl, rfl⟩ := Prod.mk.inj heq
  exact .attemptEletion hp ht _ rfl

/-- The `RequestVote` handler. -/
lemma of_requestVote {e : ℕ} {p : Fin n} (h : st.requestVote e p = some st') :
    Step st (.requestVote e p) st' := by
  unfold Cluster.requestVote at h
  rw [Option.bind_eq_bind, Option.bind_eq_some_iff] at h
  obtain ⟨el, hel, h⟩ := h
  split at h
  · rename_i args hc
    rw [Option.bind_eq_bind, Option.bind_eq_some_iff] at h
    obtain ⟨⟨rf, reply⟩, hrf, h⟩ := h
    cases h
    simp only [Raft.requestVote] at hrf
    split_ifs at hrf with ht hv
    · obtain ⟨rfl, rfl⟩ := Prod.mk.inj (Option.some.inj hrf)
      simpa using Step.voteStale hel hc ht
    · obtain ⟨rfl, rfl⟩ := Prod.mk.inj (Option.some.inj hrf)
      exact .voteRefused hel hc (not_lt.mp ht) _ rfl (by simp; omega)
    · rw [Option.map_eq_some_iff] at hrf
      obtain ⟨t, hl, hrf⟩ := hrf
      have hmax : max (st.rafts p).currentTerm args.term = args.term := max_eq_right (not_lt.mp ht)
      split_ifs at hrf with hu
      · obtain ⟨rfl, rfl⟩ := Prod.mk.inj hrf
        have hl' : (st.rafts p).lastLogTerm? = some t := by
          simpa [Raft.lastLogTerm?, Raft.lastLogIndex] using hl
        refine .voteGranted hel hc (not_lt.mp ht) ?_ hl' ?_ _ ?_
        · tauto
        · simpa [Raft.upToDate, Raft.lastLogIndex] using hu
        · rw [Raft.raiseTerm_currentTerm, hmax]
      · obtain ⟨rfl, rfl⟩ := Prod.mk.inj hrf
        exact .voteRefused hel hc (not_lt.mp ht) _ rfl (Nat.zero_le _)
  · cases h

/-- The handling of an answer to `RequestVote`. -/
lemma of_voteReply {e : ℕ} {p : Fin n} (h : st.voteReply e p = some st') :
    Step st (.voteReply e p) st' := by
  unfold Cluster.voteReply at h
  rw [Option.bind_eq_bind, Option.bind_eq_some_iff] at h
  obtain ⟨el, hel, h⟩ := h
  split at h
  · rename_i args reply hc
    rw [Option.some.injEq] at h
    subst h
    simp only [Raft.voteReply]
    split_ifs with ht hg hd hT
    · exact .voteDemote hel hc ht
    · have hg : reply.voteGranted = false := by simpa using hg
      simpa [hg] using Step.voteCount hel hc (not_lt.mp ht)
    · have hg : reply.voteGranted = true := by simpa using hg
      simpa [hg] using Step.voteCount hel hc (not_lt.mp ht)
    · simp only [not_or, Bool.not_eq_true, not_le] at hd
      exact .promote hel hc (not_lt.mp ht) (by simpa using hg) hd.1 hd.2 hT.1 hT.2
    · have hg : reply.voteGranted = true := by simpa using hg
      simpa [hg] using Step.voteCount hel hc (not_lt.mp ht)
  · cases h

/-- An iteration of the loop of `HeartBeat`. -/
lemma of_heartBeat {s : Fin n} (h : st.heartBeat s = st') : Step st (.heartBeat s) st' := by
  subst h
  unfold Cluster.heartBeat
  split_ifs with hs
  · exact .heartBeat hs
  · exact .idle hs

/-- The building of an `AppendEntries` request. -/
lemma of_heartBeatArgs {r : ℕ} {p : Fin n} (h : st.heartBeatArgs r p = some st') :
    Step st (.heartBeatArgs r p) st' := by
  unfold Cluster.heartBeatArgs at h
  rw [Option.bind_eq_bind, Option.bind_eq_some_iff] at h
  obtain ⟨rd, hrd, h⟩ := h
  split at h
  · rename_i hc
    rw [Option.bind_eq_bind, Option.bind_eq_some_iff] at h
    obtain ⟨args, ha, h⟩ := h
    cases h
    exact .heartBeatArgs hrd hc ha
  · cases h

/-- The `AppendEntries` handler. -/
lemma of_appendEntries {r : ℕ} {p : Fin n} (h : st.appendEntries r p = some st') :
    Step st (.appendEntries r p) st' := by
  unfold Cluster.appendEntries at h
  rw [Option.bind_eq_bind, Option.bind_eq_some_iff] at h
  obtain ⟨rd, hrd, h⟩ := h
  split at h
  · rename_i args hc
    rw [Option.bind_eq_bind, Option.bind_eq_some_iff] at h
    obtain ⟨⟨rf, reply⟩, hrf, h⟩ := h
    cases h
    simp only [Raft.appendEntries] at hrf
    split_ifs at hrf with hs ht ht hi
    · obtain ⟨rfl, rfl⟩ := Prod.mk.inj (Option.some.inj hrf)
      exact .appendDemote hrd hc hs ht
    · obtain ⟨rfl, rfl⟩ := Prod.mk.inj (Option.some.inj hrf)
      simpa using Step.appendStale hrd hc (not_le.mp ht)
    · obtain ⟨rfl, rfl⟩ := Prod.mk.inj (Option.some.inj hrf)
      exact .appendReject hrd hc (not_not.mp hs) ht
    · rw [Option.map_eq_some_iff] at hrf
      obtain ⟨prev, hp, hrf⟩ := hrf
      obtain ⟨hi0, hp⟩ := Slice.get?_eq_some_iff.mp hp
      split_ifs at hrf with hpt
      · obtain ⟨rfl, rfl⟩ := Prod.mk.inj hrf
        exact .appendReject hrd hc (not_not.mp hs) ht
      · obtain ⟨rfl, rfl⟩ := Prod.mk.inj hrf
        exact .appendAccept hrd hc (not_not.mp hs) ht hi0 hp (not_not.mp hpt)
    · obtain ⟨rfl, rfl⟩ := Prod.mk.inj (Option.some.inj hrf)
      simpa using Step.appendStale hrd hc (not_le.mp ht)
  · cases h

/-- The handling of an answer to `AppendEntries`. -/
lemma of_heartBeatReply {r : ℕ} {p : Fin n} (h : st.heartBeatReply r p = some st') :
    Step st (.heartBeatReply r p) st' := by
  unfold Cluster.heartBeatReply at h
  rw [Option.bind_eq_bind, Option.bind_eq_some_iff] at h
  obtain ⟨rd, hrd, h⟩ := h
  split at h
  · rename_i args reply hc
    rw [Option.bind_eq_bind, Option.bind_eq_some_iff] at h
    obtain ⟨⟨rf, rd'⟩, hrf, h⟩ := h
    cases h
    simp only [Raft.heartBeatReply] at hrf
    split_ifs at hrf with hf ht hd
    · obtain ⟨rfl, rfl⟩ := Prod.mk.inj (Option.some.inj hrf)
      exact .beatDemote hrd hc (by simpa using hf) ht
    · rw [Option.map_eq_some_iff] at hrf
      obtain ⟨nextIndex, hn, hrf⟩ := hrf
      obtain ⟨rfl, rfl⟩ := Prod.mk.inj hrf
      exact .beatBackUp hrd hc (by simpa using hf) (not_lt.mp ht) hn
    all_goals
      simp only [Option.bind_eq_bind, Option.bind_eq_some_iff] at hrf
      obtain ⟨nextIndex, hn, matchIndex, hm, hrf⟩ := hrf
      obtain ⟨rfl, rfl⟩ := Prod.mk.inj (Option.some.inj hrf)
    · exact .beatCount hrd hc (by simpa using hf) hn hm hd
    · simp only [not_or, Bool.not_eq_true, not_le] at hd
      exact .beatCommit hrd hc (by simpa using hf) hn hm hd.1 hd.2
  · cases h

/-- A call of `Start`. -/
lemma of_start {s : Fin n} {c : C} (h : st.start s c = some st') : Step st (.start s c) st' := by
  unfold Cluster.start Raft.start at h
  split_ifs at h with hs
  · simp only [Option.map_map, Option.map_eq_some_iff] at h
    obtain ⟨t, ht, rfl⟩ := h
    exact .start hs ht
  · simp only [Option.map_some, Option.some.injEq, Cluster.setRaft_self] at h
    subst h
    exact .idle hs

/-- An iteration of `apply`. -/
lemma of_apply {s : Fin n} (h : st.apply s = some st') : Step st (.apply s) st' := by
  unfold Cluster.apply Raft.apply at h
  split_ifs at h with hs
  · simp only [Option.map_map, Option.map_eq_some_iff] at h
    obtain ⟨entry, he, rfl⟩ := h
    exact .apply hs he
  · simp only [Option.map_some, Option.toList_none, List.append_nil, Option.some.injEq,
      Cluster.setRaft_self, Function.update_eq_self] at h
    subst h
    exact .idle (not_lt.mp hs)

/-- **Every step of a cluster is one of the list.** -/
theorem of_step {a : Action n C} (h : st.step a = some st') : Step st a st' := by
  cases a with
  | timer s => exact of_timer (Option.some.inj h)
  | attemptEletion s => exact of_attemptEletion h
  | requestVote e p => exact of_requestVote h
  | voteReply e p => exact of_voteReply h
  | heartBeat s => exact of_heartBeat (Option.some.inj h)
  | heartBeatArgs r p => exact of_heartBeatArgs h
  | appendEntries r p => exact of_appendEntries h
  | heartBeatReply r p => exact of_heartBeatReply h
  | start s c => exact of_start h
  | apply s => exact of_apply h

/-- Every step of the cluster is one of these. -/
theorem of_cluster [Inhabited C] {a : Action n C} (h : (cluster n C).step st a = some st') :
    Step st a st' := of_step h

end Step

/-! ## What a step does to one peer -/

/-- **Every way in which a step changes the peer `s`**, as far as its term, its vote, its role, its
log and the two indices are concerned. -/
inductive PeerStep (st : Cluster n C) (a : Action n C) (s : Fin n) : Raft n C → Prop
  /-- The step is elsewhere, or changes only what the peer knows about the others. -/
  | quiet {rf : Raft n C} (term : rf.currentTerm = (st.rafts s).currentTerm)
      (voted : rf.votedFor = (st.rafts s).votedFor) (state : rf.state = (st.rafts s).state)
      (log : rf.log = (st.rafts s).log) (commit : rf.commitIndex = (st.rafts s).commitIndex)
      (applied : rf.lastApplied = (st.rafts s).lastApplied) : PeerStep st a s rf
  | candidate (ha : a = .attemptEletion s) : PeerStep st a s ((st.rafts s).conevrtToCandidate s)
  | raise {e : ℕ} {el : Election n} {args : RequestVoteArgs n} (ha : a = .requestVote e s)
      (hel : st.elections[e]? = some el) (hc : el.calls s = .requested args)
      (ht : (st.rafts s).currentTerm ≤ args.term) :
      PeerStep st a s ((st.rafts s).raiseTerm args.term)
  | vote {e : ℕ} {el : Election n} {args : RequestVoteArgs n} (ha : a = .requestVote e s)
      (hel : st.elections[e]? = some el) (hc : el.calls s = .requested args)
      (ht : (st.rafts s).currentTerm ≤ args.term)
      (hv : ((st.rafts s).raiseTerm args.term).votedFor = none ∨
        ((st.rafts s).raiseTerm args.term).votedFor = some args.candidateId) :
      PeerStep st a s
        { (st.rafts s).raiseTerm args.term with votedFor := some args.candidateId }
  /-- An answer with a higher term. -/
  | demote {t : ℕ} (ht : (st.rafts s).currentTerm < t) :
      PeerStep st a s ((st.rafts s).conevrtToFollower t)
  /-- An `AppendEntries` on a peer that is no follower. -/
  | stepDown {r : ℕ} {rd : Round n C} {args : AppendEntriesArgs n C} (ha : a = .appendEntries r s)
      (hrd : st.rounds[r]? = some rd) (hc : rd.calls s = .requested args)
      (hs : (st.rafts s).state ≠ .follower) (ht : (st.rafts s).currentTerm ≤ args.term) :
      PeerStep st a s ((st.rafts s).conevrtToFollower args.term)
  | promote {e : ℕ} {p : Fin n} {el : Election n} (ha : a = .voteReply e p)
      (hel : st.elections[e]? = some el) (hcand : el.args.candidateId = s)
      (hT : (st.rafts s).currentTerm = el.args.term) (hs : (st.rafts s).state = .candidate) :
      PeerStep st a s (st.rafts s).conevrtToLeader
  /-- An `AppendEntries` a follower rejects for the previous entry. -/
  | follow {r : ℕ} {rd : Round n C} {args : AppendEntriesArgs n C} (ha : a = .appendEntries r s)
      (hrd : st.rounds[r]? = some rd) (hc : rd.calls s = .requested args)
      (hs : (st.rafts s).state = .follower) (ht : (st.rafts s).currentTerm ≤ args.term) :
      PeerStep st a s { st.rafts s with currentTerm := args.term }
  | accept {r : ℕ} {rd : Round n C} {args : AppendEntriesArgs n C} {prev : LogEntry C}
      (ha : a = .appendEntries r s)
      (hrd : st.rounds[r]? = some rd) (hc : rd.calls s = .requested args)
      (hs : (st.rafts s).state = .follower) (ht : (st.rafts s).currentTerm ≤ args.term)
      (hi : 0 ≤ args.prevLogIndex)
      (hp : (st.rafts s).log[args.prevLogIndex.toNat]? = some prev)
      (hpt : prev.term = args.prevLogTerm) :
      PeerStep st a s ({ st.rafts s with currentTerm := args.term }.accept args)
  /-- The answer that sets `commitIndex`. -/
  | commit {r : ℕ} {p : Fin n} {rd : Round n C} {nextIndex matchIndex : List ℤ}
      (ha : a = .heartBeatReply r p) (hrd : st.rounds[r]? = some rd) (hl : rd.leader = s)
      (hcm : rd.commits p) :
      PeerStep st a s { st.rafts s with
        nextIndex := nextIndex, matchIndex := matchIndex
        commitIndex := ((st.rafts s).log.length : ℤ) - 1 }
  | start {c : C} {termToIndex : ℕ → ℤ} (ha : a = .start s c)
      (hs : (st.rafts s).state = .leader) :
      PeerStep st a s { st.rafts s with
        termToIndex := termToIndex
        log := (st.rafts s).log ++ [⟨(st.rafts s).currentTerm, c⟩] }
  | apply {entry : LogEntry C} (ha : a = .apply s)
      (h : (st.rafts s).lastApplied < (st.rafts s).commitIndex)
      (he : Slice.get? (st.rafts s).log ((st.rafts s).lastApplied + 1) = some entry) :
      PeerStep st a s { st.rafts s with lastApplied := (st.rafts s).lastApplied + 1 }

namespace PeerStep

variable {st : Cluster n C} {a : Action n C} {s : Fin n}

/-- A peer to which nothing happens. -/
lemma refl : PeerStep st a s (st.rafts s) := .quiet rfl rfl rfl rfl rfl rfl

/-- A step that replaces the state of `p` is, for every peer, a step of that peer. -/
lemma of_update {p : Fin n} {rf : Raft n C} (h : PeerStep st a p rf) :
    PeerStep st a s (Function.update st.rafts p rf s) := by
  by_cases hs : s = p
  · subst hs
    simpa using h
  · simpa [hs] using refl

end PeerStep

/-- **Every step is, for each peer, one of the list.** -/
theorem Step.peer {st st' : Cluster n C} {a : Action n C} (h : Step st a st') (s : Fin n) :
    PeerStep st a s (st'.rafts s) := by
  cases h with
  | idle => exact .refl
  | timer => exact .refl
  | attemptEletion => exact .of_update (.candidate rfl)
  | voteStale => exact .refl
  | voteRefused hel hc ht => exact .of_update (.raise rfl hel hc ht)
  | voteGranted hel hc ht hv => exact .of_update (.vote rfl hel hc ht hv)
  | voteDemote hel hc ht => exact .of_update (.demote ht)
  | voteCount => exact .refl
  | promote hel hc ht hg hd hm hT hs => exact .of_update (.promote rfl hel rfl hT hs)
  | heartBeat => exact .refl
  | heartBeatArgs => exact .refl
  | appendDemote hrd hc hs ht => exact .of_update (.stepDown rfl hrd hc hs ht)
  | appendStale => exact .refl
  | appendReject hrd hc hs ht => exact .of_update (.follow rfl hrd hc hs ht)
  | appendAccept hrd hc hs ht hi hp hpt =>
      exact .of_update (.accept rfl hrd hc hs ht hi hp hpt)
  | beatDemote hrd hc hf ht => exact .of_update (.demote ht)
  | beatBackUp => exact .of_update (.quiet rfl rfl rfl rfl rfl rfl)
  | beatCount => exact .of_update (.quiet rfl rfl rfl rfl rfl rfl)
  | beatCommit hrd hc hf hn hm hd hq =>
      exact .of_update (.commit rfl hrd rfl (by simp [Round.commits, hc, hf, hd, hq]))
  | start hs => exact .of_update (.start rfl hs)
  | apply h he => exact .of_update (.apply rfl h he)

namespace PeerStep

variable {st : Cluster n C} {a : Action n C} {s : Fin n} {rf : Raft n C}

/-- `currentTerm` never decreases. -/
theorem term_le (h : PeerStep st a s rf) : (st.rafts s).currentTerm ≤ rf.currentTerm := by
  cases h with
  | quiet term => exact term.ge
  | candidate => exact Nat.le_succ _
  | raise => simp
  | vote => simp
  | demote ht => exact ht.le
  | stepDown _ _ _ _ ht => exact ht
  | promote => exact le_refl _
  | follow _ _ _ _ ht => exact ht
  | accept _ _ _ _ ht => exact ht
  | commit => exact le_refl _
  | start => exact le_refl _
  | apply => exact le_refl _

end PeerStep

end GoLabs.Consensus
