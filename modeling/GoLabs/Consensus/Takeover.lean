import Mathlib
import GoLabs.Consensus.Safety
import GoLabs.Consensus.Repair
import GoLabs.Consensus.Promotion
import GoLabs.Lib.Possible

/-!
# A majority can elect a leader

From every state that is reached without a slip (`safetySlip`), the peers of a majority `Q` can
elect a leader, in a way that needs no other peer and is again without a slip (`Can`, `elects`).
The obstacles are what the slips leave over. A leader must not be asked for its vote in a newer
term, since it would take over the term and go on leading; a candidate must not get a heartbeat,
since it would answer a success for entries that it has not stored. So all peers are made followers
first, in the ways that the code has for it: a leader steps down when a peer of a newer term rejects
its heartbeat (`can_depose`), and any other peer when one refuses it its vote (`can_stepDown`).

1. Some peer of `Q` has a log that is as up to date as those of all others (`exists_upToDate`). If
   it leads, it is made to step down, by a peer that takes a newer term (`can_retire`).
2. It starts elections until its term is two ahead of all others (`can_outrank`).
3. It rejects what the others send, which makes them followers (`can_settle`).
4. It starts one more election, in which all vote for it (`can_win`).

A goroutine of `HeartBeat` that was spawned before its peer stepped down is left waiting, and so are
all calls that were under way.
-/

namespace GoLabs.Consensus

open GoLabs.Lib

variable {n : ℕ} {C : Type}

/-! ## Steps of some of the peers -/

/-- The peers that a step involves: the one that runs and, for a call, the one at its other end. -/
def Action.peers (st : Cluster n C) : Action n C → List (Fin n)
  | .timer s => [s]
  | .attemptEletion s => [s]
  | .requestVote e p => p :: (st.elections[e]?.map fun el => el.args.candidateId).toList
  | .voteReply e p => p :: (st.elections[e]?.map fun el => el.args.candidateId).toList
  | .heartBeat s => [s]
  | .heartBeatArgs r p => p :: (st.rounds[r]?.map fun rd => rd.leader).toList
  | .appendEntries r p => p :: (st.rounds[r]?.map fun rd => rd.leader).toList
  | .heartBeatReply r p => p :: (st.rounds[r]?.map fun rd => rd.leader).toList
  | .start s _ => [s]
  | .apply s => [s]

/-- The step involves a peer outside `Q`, or is one of those that let peers deliver different
commands. -/
def strays (Q : Finset (Fin n)) (st : Cluster n C) (a : Action n C) : Prop :=
  safetySlip st a ∨ ∃ s ∈ a.peers st, s ∉ Q

/-- Taking the request would cut off entries that it does not conflict with.
Source: `raft.go` `AppendEntries` -/
def Raft.loses (rf : Raft n C) (args : AppendEntriesArgs n C) : Prop :=
  rf.accepts args ∧
    args.entries.map LogEntry.term <+:
      (rf.log.drop (args.prevLogIndex + 1).toNat).map LogEntry.term ∧
    args.prevLogIndex + args.entries.length + 1 < (rf.log.length : ℤ)

/-- The request is that of a candidate for its own election.
Source: `raft.go` `AttemptEletion` -/
structure Asks (rf : Raft n C) (s : Fin n) (args : RequestVoteArgs n) : Prop where
  term : args.term = rf.currentTerm
  candidateId : args.candidateId = s
  lastLogIndex : args.lastLogIndex = rf.lastLogIndex
  lastLogTerm : rf.lastLogTerm? = some args.lastLogTerm

/-- An election that has just been started. -/
def Election.fresh (s : Fin n) (args : RequestVoteArgs n) : Election n :=
  ⟨args, 1, false, Cluster.spawn s (.requested args)⟩

section Slips

variable {Q : Finset (Fin n)} {st : Cluster n C} {s p : Fin n}

/-- A step of peers of `Q` that is no slip does not stray. -/
lemma not_strays {a : Action n C} (hpeers : ∀ s ∈ a.peers st, s ∈ Q)
    (hslip : ∀ k : Slip, k.occurs st a = false) : ¬ strays Q st a := by
  rintro (h | ⟨s, hs, hsQ⟩)
  · obtain ⟨k, hk⟩ := safetySlip_iff.mp h
    rw [hslip k] at hk
    cases hk
  · exact hsQ (hpeers s hs)

/-- The steps of one peer alone are never slips. -/
lemma not_strays_alone (hs : s ∈ Q) :
    ¬ strays Q st (.timer s) ∧ ¬ strays Q st (.attemptEletion s) ∧
      ¬ strays Q st (.heartBeat s) ∧ (∀ c, ¬ strays Q st (.start s c)) ∧
      ¬ strays Q st (.apply s) := by
  have hpeers : ∀ q ∈ [s], q ∈ Q := by simpa using hs
  exact ⟨not_strays hpeers fun k => by cases k <;> rfl,
    not_strays hpeers fun k => by cases k <;> rfl, not_strays hpeers fun k => by cases k <;> rfl,
    fun c => not_strays hpeers fun k => by cases k <;> rfl,
    not_strays hpeers fun k => by cases k <;> rfl⟩

section Vote

variable {e : ℕ} {el : Election n} (hel : st.elections[e]? = some el) (hp : p ∈ Q)
  (hs : el.args.candidateId ∈ Q)
include hel hp hs

/-- `RequestVote` goes wrong only on a leader of an older term. -/
lemma not_strays_requestVote {args : RequestVoteArgs n} (hc : el.calls p = .requested args)
    (hT : (st.rafts p).state = .leader → args.term ≤ (st.rafts p).currentTerm) :
    ¬ strays Q st (.requestVote e p) := by
  refine not_strays (by simp [Action.peers, hel, hp, hs]) fun k => ?_
  cases k with
  | raisesLeader =>
      simpa [Slip.occurs, raisesLeader, Cluster.voteRequest?_eq_some hel hc] using hT
  | _ => rfl

/-- Counting a vote does not stray. -/
lemma not_strays_voteReply : ¬ strays Q st (.voteReply e p) :=
  not_strays (by simp [Action.peers, hel, hp, hs]) fun k => by cases k <;> rfl

end Vote

section Beat

variable {r : ℕ} {rd : Round n C} (hrd : st.rounds[r]? = some rd) (hp : p ∈ Q)
  (hs : rd.leader ∈ Q)
include hrd hp hs

/-- A leader that builds a request does not stray. -/
lemma not_strays_heartBeatArgs (hl : (st.rafts rd.leader).state = .leader) :
    ¬ strays Q st (.heartBeatArgs r p) := by
  refine not_strays (by simp [Action.peers, hrd, hp, hs]) fun k => ?_
  cases k with
  | buildsStale => simp [Slip.occurs, buildsStale, hrd, hl]
  | _ => rfl

/-- `AppendEntries` goes wrong on a peer that is no follower and not of a newer term, and where it
erases. -/
lemma not_strays_appendEntries {args : AppendEntriesArgs n C} (hc : rd.calls p = .requested args)
    (hack : (st.rafts p).state = .follower ∨ args.term < (st.rafts p).currentTerm)
    (her : ¬ (st.rafts p).loses args) : ¬ strays Q st (.appendEntries r p) := by
  have hargs := Cluster.beatRequest?_eq_some hrd hc
  refine not_strays (by simp [Action.peers, hrd, hp, hs]) fun k => ?_
  cases k with
  | acksUnstored =>
      simp only [Slip.occurs, acksUnstored, hargs, Option.any_some, decide_eq_false_iff_not]
      rintro ⟨hne, hle⟩
      exact absurd (hack.resolve_left hne) (not_lt.mpr hle)
  | erases =>
      simp only [Slip.occurs, erases, hargs, Option.any_some, decide_eq_false_iff_not]
      exact her
  | _ => rfl

/-- The answer to a heartbeat goes wrong where it commits. -/
lemma not_strays_heartBeatReply (hcov : rd.commits p → rd.covered (st.rafts rd.leader) p ∧
    (st.rafts rd.leader).lastLogTerm? = some (st.rafts rd.leader).currentTerm) :
    ¬ strays Q st (.heartBeatReply r p) := by
  refine not_strays (by simp [Action.peers, hrd, hp, hs]) fun k => ?_
  by_cases hcom : rd.commits p
  · obtain ⟨hcov, hlast⟩ := hcov hcom
    cases k with
    | uncovered => simp [Slip.occurs, uncovered, hrd, hcov]
    | commitsOlder =>
        have hs : committer st (.heartBeatReply r p) = some rd.leader := by
          simp [committer, hrd, hcom]
        simp [Slip.occurs, commitsOlder, hs, hlast]
    | _ => rfl
  · cases k with
    | uncovered => simp [Slip.occurs, uncovered, hrd, hcom]
    | commitsOlder => simp [Slip.occurs, commitsOlder, committer, hrd, hcom]
    | _ => rfl

end Beat

/-- In a new round the goroutines for the other peers wait for the lock. -/
lemma fresh_calls (hne : p ≠ s) : (Round.fresh s : Round n C).calls p = .spawned := if_neg hne

/-- The answer of `p` and those counted before it are for the whole log. -/
lemma Round.covered_replied {rd : Round n C} {rf : Raft n C} {args : AppendEntriesArgs n C}
    {reply : AppendEntriesReply} (hl : rf.state = .leader) (hcov : rf.covers args)
    (hall : ∀ q args reply, rd.calls q = .returned args reply → rf.covers args) :
    Round.covered { rd with calls := Function.update rd.calls p (.replied args reply) } rf p := by
  simp only [Round.covered, decide_eq_true_eq]
  refine ⟨hl, fun q hq ar har => ?_⟩
  by_cases hqp : q = p
  · subst hqp
    obtain rfl : (args, reply) = ar := by simpa using har
    exact hcov
  · obtain ⟨args₁, reply₁, hret, -⟩ :=
      Rpc.mem_counted.mp (Finset.mem_of_mem_insert_of_ne hq hqp)
    replace hret : rd.calls q = .returned args₁ reply₁ := by simpa [hqp] using hret
    obtain rfl : (args₁, reply₁) = ar := by simpa [hqp, hret] using har
    exact hall q args₁ reply₁ hret

end Slips

section Runs

variable [Inhabited C] {Q : Finset (Fin n)} {st : Cluster n C} {s p : Fin n}
  {P R : Cluster n C → Prop}

/-- All other peers of `Q` are followers, and none is ahead of the term of `s`. -/
def Followed (Q : Finset (Fin n)) (s : Fin n) (st : Cluster n C) : Prop :=
  ∀ p ∈ Q, p ≠ s → (st.rafts p).state = .follower ∧
    (st.rafts p).currentTerm ≤ (st.rafts s).currentTerm

/-- A run without a slip ends in the state. -/
def Reached (st : Cluster n C) : Prop :=
  ∃ tr, (cluster n C).Run tr st ∧ Avoids (fun x a => safetySlip x a) tr

/-- A step that does not stray is not a slip. -/
lemma Reached.step {a : Action n C} {y : Cluster n C} (hr : Reached st) (ha : ¬ strays Q st a)
    (hs : st.step a = some y) : Reached y := by
  obtain ⟨tr, hrun, hD⟩ := hr
  exact ⟨(st, a) :: tr, hrun.step hs, hD.cons fun hslip => ha (Or.inl hslip)⟩

/-- The peers in `Q` can bring the cluster to a state in which `P` holds, by themselves and without
a slip. -/
def Can (Q : Finset (Fin n)) (P : Cluster n C → Prop) (st : Cluster n C) : Prop :=
  (cluster n C).Possible (strays Q) (fun y => Reached y ∧ P y) st

namespace Can

/-- What holds already can be reached. -/
lemma now (hr : Reached st) (h : P st) : Can Q P st := System.Possible.now ⟨hr, h⟩

/-- One step at the front. -/
lemma step {a : Action n C} {y : Cluster n C} (hr : Reached st) (ha : ¬ strays Q st a)
    (hs : st.step a = some y) (h : Reached y → Can Q P y) : Can Q P st :=
  System.Possible.step ha hs (h (hr.step ha hs))

/-- **One stage after the other.** -/
lemma bind (h : Can Q P st) (hP : ∀ y, Reached y → P y → Can Q R y) : Can Q R st :=
  System.Possible.bind h fun y hy => hP y hy.1 hy.2

/-- What follows from a goal that can be reached can be reached as well. -/
lemma mono (h : Can Q P st) (hP : ∀ y, Reached y → P y → R y) : Can Q R st :=
  h.bind fun y hr hy => .now hr (hP y hr hy)

/-- A stage that is repeated. -/
lemma of_measure (m : Cluster n C → ℕ)
    (hstage : ∀ x, Reached x → P x → Can Q (fun y => R y ∨ P y ∧ m y < m x) x)
    (hr : Reached st) (h : P st) : Can Q R st := by
  refine System.Possible.of_measure (P := fun x => Reached x ∧ P x) m (fun x hx => ?_) ⟨hr, h⟩
  refine System.Possible.bind (hstage x hx.1 hx.2) fun y hy => .now ?_
  exact hy.2.imp (fun h => ⟨hy.1, h⟩) fun h => ⟨⟨hy.1, h.1⟩, h.2⟩

/-- A stage for each peer of a set. -/
lemma of_finset {A : Finset (Fin n)} {R : Finset (Fin n) → Cluster n C → Prop}
    (hstage : ∀ B p y, p ∈ A → p ∉ B → Reached y → R B y → Can Q (R (insert p B)) y)
    (hr : Reached st) (h : R ∅ st) : Can Q (R A) st :=
  System.Possible.of_finset (R := fun B y => Reached y ∧ R B y)
    (fun B p y hp hB hy => hstage B p y hp hB hy.1 hy.2) ⟨hr, h⟩

end Can

namespace Reached

/-- A run to the state, without slips of safety or of an election. -/
lemma electionSlip (h : Reached st) : ∃ tr, (cluster n C).Run tr st ∧
    Avoids (fun x a => safetySlip x a) tr ∧ Avoids (fun x a => electionSlip x a) tr := by
  obtain ⟨tr, hrun, hD⟩ := h
  exact ⟨tr, hrun, hD, avoids_electionSlip_of_holdSlip (avoids_holdSlip hD)⟩

/-- The log of a peer is not empty. -/
lemma exists_lastLogTerm (h : Reached st) (s : Fin n) :
    ∃ t, (st.rafts s).lastLogTerm? = some t := by
  obtain ⟨tr, hrun, -⟩ := h
  have hlen := (List.getElem?_eq_some_iff.mp (logShape_of_run hrun (Visited.now _ _) s).head).1
  have hsome : (Slice.get? (st.rafts s).log (st.rafts s).lastLogIndex).isSome := by
    rw [Slice.isSome_get?_iff, Raft.lastLogIndex]
    omega
  obtain ⟨e, he⟩ := Option.isSome_iff_exists.mp hsome
  exact ⟨e.term, by rw [Raft.lastLogTerm?, he, Option.map_some]⟩

/-- A leader can build its requests. -/
lemma exists_heartBeatArgs (h : Reached st) (hl : (st.rafts s).state = .leader) (p : Fin n) :
    ∃ args, (st.rafts s).heartBeatArgs s p = some args := by
  obtain ⟨tr, hrun, -⟩ := h
  have hsome : ((st.rafts s).heartBeatArgs s p).isSome :=
    Raft.isSome_heartBeatArgs_iff.mpr (((booksOk_of_run hrun s).1 hl).inRange p)
  exact Option.isSome_iff_exists.mp hsome

/-- Two leaders are of different terms. -/
lemma term_ne (h : Reached st) (hs : (st.rafts s).state = .leader)
    (hp : (st.rafts p).state = .leader) (hne : p ≠ s) :
    (st.rafts p).currentTerm ≠ (st.rafts s).currentTerm := by
  obtain ⟨tr, hrun, -, hD⟩ := h.electionSlip
  intro hT
  exact hne (leader_unique hrun hD (Visited.now _ _) (Visited.now _ _) hp hs hT)

end Reached

/-! ## One call -/

/-- **One `RequestVote`**, from its delivery to the end of the reply handler. -/
lemma can_ask (hr : Reached st) {e : ℕ} {el el' : Election n} {args : RequestVoteArgs n}
    {rf rf' : Raft n C} {reply : RequestVoteReply} (hel : st.elections[e]? = some el)
    (hc : el.calls p = .requested args) (hp : p ∈ Q) (hs : el.args.candidateId ∈ Q)
    (hne : el.args.candidateId ≠ p)
    (hT : (st.rafts p).state = .leader → args.term ≤ (st.rafts p).currentTerm)
    (hvote : (st.rafts p).requestVote args = some (rf, reply))
    (hreply : (st.rafts el.args.candidateId).voteReply { el with
      calls := Function.update el.calls p (.returned args reply) } reply = (rf', el')) :
    Can Q (fun y => y.rafts =
        Function.update (Function.update st.rafts p rf) el.args.candidateId rf' ∧
      y.elections[e]? = some el') st := by
  have hlen := (List.getElem?_eq_some_iff.mp hel).1
  let el₁ : Election n := { el with calls := Function.update el.calls p (.replied args reply) }
  have hel₁ : ((st.setRaft p rf).setElection e el₁).elections[e]? = some el₁ := by simp [hlen]
  refine .step hr (not_strays_requestVote hel hp hs hc hT)
    (y := (st.setRaft p rf).setElection e el₁)
    (by simp [Cluster.step, Cluster.requestVote, hel, hc, hvote, el₁]) fun hr₁ => ?_
  refine .step hr₁ (not_strays_voteReply hel₁ hp hs)
    (y := ((st.setRaft p rf).setRaft el.args.candidateId rf').setElection e el') ?_ fun hr₂ => ?_
  · simp [Cluster.step, Cluster.voteReply, hlen, el₁, hne, hreply, Cluster.setRaft,
      Cluster.setElection]
  · exact .now hr₂ ⟨rfl, by simp [hlen]⟩

/-- **One heartbeat**, from the building of its request to the end of the reply handler. A success
has to be one for the whole log of the leader, and so have those of the round that were counted
before. -/
lemma can_beat (hr : Reached st) {r : ℕ} {rd rd' : Round n C} {args : AppendEntriesArgs n C}
    {rf rf' : Raft n C} {reply : AppendEntriesReply} (hrd : st.rounds[r]? = some rd)
    (hc : rd.calls p = .spawned) (hp : p ∈ Q) (hs : rd.leader ∈ Q) (hne : rd.leader ≠ p)
    (hl : (st.rafts rd.leader).state = .leader)
    (hargs : (st.rafts rd.leader).heartBeatArgs rd.leader p = some args)
    (hack : (st.rafts p).state = .follower ∨ args.term < (st.rafts p).currentTerm)
    (her : ¬ (st.rafts p).loses args)
    (happ : (st.rafts p).appendEntries args = some (rf, reply))
    (hcov : reply.success = true → (st.rafts rd.leader).covers args ∧
      (∀ q args reply, rd.calls q = .returned args reply → (st.rafts rd.leader).covers args) ∧
      (st.rafts rd.leader).lastLogTerm? = some (st.rafts rd.leader).currentTerm)
    (hreply : (st.rafts rd.leader).heartBeatReply { rd with
      calls := Function.update rd.calls p (.returned args reply) } p args reply =
        some (rf', rd')) :
    Can Q (fun y => y.rafts = Function.update (Function.update st.rafts p rf) rd.leader rf' ∧
      y.rounds[r]? = some rd') st := by
  have hlen := (List.getElem?_eq_some_iff.mp hrd).1
  let rd₁ : Round n C := { rd with calls := Function.update rd.calls p (.requested args) }
  let rd₂ : Round n C := { rd with calls := Function.update rd.calls p (.replied args reply) }
  have hrd₁ : (st.setRound r rd₁).rounds[r]? = some rd₁ := by simp [hlen]
  have hrd₂ : ((st.setRaft p rf).setRound r rd₂).rounds[r]? = some rd₂ := by simp [hlen]
  refine .step hr (not_strays_heartBeatArgs hrd hp hs hl) (y := st.setRound r rd₁)
    (by simp [Cluster.step, Cluster.heartBeatArgs, hrd, hc, hargs, rd₁]) fun hr₁ => ?_
  refine .step hr₁ (not_strays_appendEntries hrd₁ hp hs (Function.update_self _ _ _) hack her)
    (y := (st.setRaft p rf).setRound r rd₂) ?_ fun hr₂ => ?_
  · simp [Cluster.step, Cluster.appendEntries, hlen, rd₁, rd₂, happ, Cluster.setRaft,
      Cluster.setRound]
  have hlead : ((st.setRaft p rf).setRound r rd₂).rafts rd.leader = st.rafts rd.leader :=
    Function.update_of_ne hne _ _
  refine .step hr₂ (not_strays_heartBeatReply hrd₂ hp hs fun hcom => ?_)
    (y := ((st.setRaft p rf).setRaft rd.leader rf').setRound r rd') ?_ fun hr₃ => ?_
  · obtain ⟨args', reply', hc', hok, -⟩ := Round.commits_iff.mp hcom
    obtain ⟨rfl, rfl⟩ : args = args' ∧ reply = reply' := by simpa [rd₂] using hc'
    obtain ⟨hcov, hall, hlast⟩ := hcov hok
    rw [hlead]
    exact ⟨Round.covered_replied hl hcov hall, hlast⟩
  · simp [Cluster.step, Cluster.heartBeatReply, hlen, rd₂, hne, hreply, Cluster.setRaft,
      Cluster.setRound]
  · exact .now hr₃ ⟨rfl, by simp [hlen]⟩

/-! ## Changing roles -/

omit [Inhabited C] in
/-- Replacing a peer by one with the same log changes no log. -/
lemma update_of_log {f : Fin n → Raft n C} {rf : Raft n C} (h : rf.log = (f s).log) (p : Fin n) :
    (Function.update f s rf p).log = (f p).log := by
  by_cases hp : p = s
  · subst hp
    rw [Function.update_self, h]
  · rw [Function.update_of_ne hp]

/-- A peer that does not lead can start an election. -/
lemma can_campaign (hr : Reached st) (hs : s ∈ Q) (hl : (st.rafts s).state ≠ .leader) :
    Can Q (fun y => y.rafts = Function.update st.rafts s ((st.rafts s).conevrtToCandidate s) ∧
      ∃ (e : ℕ) (args : RequestVoteArgs n), Asks ((st.rafts s).conevrtToCandidate s) s args ∧
        y.elections[e]? = some (Election.fresh s args)) st := by
  obtain ⟨t, ht⟩ := hr.exists_lastLogTerm s
  have hcand : ((st.rafts s).conevrtToCandidate s).lastLogTerm? = some t := ht
  refine .step hr (not_strays_alone hs).1
    (y := { st with attempts := Function.update st.attempts s (st.attempts s + 1) })
    (by simp [Cluster.step, Cluster.timer, hl]) fun hr₁ => ?_
  let args : RequestVoteArgs n := ⟨(st.rafts s).currentTerm + 1, s, (st.rafts s).lastLogIndex, t⟩
  refine .step hr₁ (not_strays_alone hs).2.1
    (y := { st with
      rafts := Function.update st.rafts s ((st.rafts s).conevrtToCandidate s)
      elections := st.elections ++ [Election.fresh s args] })
    ?_ fun hr₂ => .now hr₂ ⟨rfl, st.elections.length, args, ⟨rfl, rfl, rfl, ht⟩, by simp⟩
  simp [Cluster.step, Cluster.attemptEletion, Raft.attemptEletion, hcand, Cluster.setRaft, args,
    Election.fresh, Raft.lastLogIndex]

/-- A leader can start a round of heartbeats. -/
lemma can_heartBeat (hr : Reached st) (hs : s ∈ Q) (hl : (st.rafts s).state = .leader) :
    Can Q (fun y => y.rafts = st.rafts ∧ ∃ r : ℕ, y.rounds[r]? = some (Round.fresh s)) st := by
  refine .step hr (not_strays_alone hs).2.2.1
    (y := { st with rounds := st.rounds ++ [Round.fresh s] })
    (by simp [Cluster.step, Cluster.heartBeat, hl, Round.fresh]) fun hr₁ => ?_
  exact .now hr₁ ⟨rfl, st.rounds.length, by simp⟩

/-- A leader that writes to a peer of a newer term steps down. -/
lemma can_depose (hr : Reached st) (hs : s ∈ Q) (hp : p ∈ Q)
    (hl : (st.rafts s).state = .leader)
    (hT : (st.rafts s).currentTerm < (st.rafts p).currentTerm) :
    Can Q (fun y => y.rafts = Function.update st.rafts s
      ((st.rafts s).conevrtToFollower (st.rafts p).currentTerm)) st := by
  have hne : s ≠ p := by
    rintro rfl
    exact lt_irrefl _ hT
  apply (can_heartBeat hr hs hl).bind
  rintro y hy ⟨hrafts, r, hrd⟩
  rw [← hrafts] at hl hT ⊢
  obtain ⟨args, hargs⟩ := hy.exists_heartBeatArgs hl p
  have hterm := (Raft.heartBeatArgs_eq_some hargs).1
  have hstale : ¬ (y.rafts p).currentTerm ≤ args.term := by omega
  have happ : (y.rafts p).appendEntries args =
      some (y.rafts p, ⟨(y.rafts p).currentTerm, false⟩) := by
    simp [Raft.appendEntries, hstale]
  have hloses : ¬ (y.rafts p).loses args := fun h => hstale (Raft.accepts_iff.mp h.1).2.1
  refine (can_beat hy hrd (fresh_calls hne.symm) hp hs hne hl hargs (Or.inr (not_le.mp hstale))
    hloses happ (by simp) (if_pos hT)).mono fun z _ hz => ?_
  rw [hz.1, Function.update_eq_self]
  rfl

/-- **A peer can be made a follower** by one whose term is far enough ahead: a leader writes to it,
and any other peer asks it for its vote. -/
lemma can_stepDown (hr : Reached st) (hs : s ∈ Q) (hp : p ∈ Q)
    (hT : (st.rafts p).currentTerm + 1 < (st.rafts s).currentTerm) :
    Can Q (fun y => ∃ rf, y.rafts = Function.update st.rafts p rf ∧ rf.state = .follower ∧
      rf.currentTerm = (st.rafts s).currentTerm ∧ rf.log = (st.rafts p).log) st := by
  have hne : p ≠ s := by
    rintro rfl
    omega
  by_cases hl : (st.rafts p).state = .leader
  · exact (can_depose hr hp hs hl (by omega)).mono fun y _ hy => ⟨_, hy, rfl, rfl, rfl⟩
  · apply (can_campaign hr hp hl).bind
    rintro y hy ⟨hrafts, e, args, hargs, hel⟩
    have hys : y.rafts s = st.rafts s := by rw [hrafts, Function.update_of_ne hne.symm]
    have hyp : y.rafts p = (st.rafts p).conevrtToCandidate p := by
      rw [hrafts, Function.update_self]
    have hc : (Election.fresh p args).calls s = .requested args := if_neg hne.symm
    have hid : (Election.fresh p args).args.candidateId = p := hargs.candidateId
    have hterm : args.term = (st.rafts p).currentTerm + 1 := hargs.term
    have hvote : (y.rafts s).requestVote args =
        some (y.rafts s, ⟨(st.rafts s).currentTerm, false⟩) := by
      rw [hys, Raft.requestVote, if_pos (by omega)]
    refine (can_ask hy hel hc hs (by rwa [hid]) (by rwa [hid]) (fun _ => by rw [hys]; omega) hvote
      (if_pos (by rw [hid, hyp]; exact hT))).mono fun z _ hz => ?_
    rw [Function.update_eq_self, hid, hrafts, Function.update_idem] at hz
    exact ⟨_, hz.1, rfl, rfl, by rw [Function.update_self]; rfl⟩

/-- A peer that does not lead can reach any term. -/
lemma can_outrank (hr : Reached st) (hs : s ∈ Q) (hl : (st.rafts s).state ≠ .leader) (T : ℕ) :
    Can Q (fun y => ∃ rf, y.rafts = Function.update st.rafts s rf ∧ rf.state ≠ .leader ∧
      T ≤ rf.currentTerm ∧ rf.log = (st.rafts s).log) st := by
  induction T with
  | zero => exact .now hr ⟨_, (Function.update_eq_self _ _).symm, hl, Nat.zero_le _, rfl⟩
  | succ T ih =>
      apply ih.bind
      rintro y hy ⟨rf, hrafts, hrole, hle, hlog⟩
      have hys : y.rafts s = rf := by rw [hrafts, Function.update_self]
      apply (can_campaign hy hs (by rwa [hys])).mono
      rintro z _ ⟨hz, _⟩
      rw [hys, hrafts, Function.update_idem] at hz
      exact ⟨_, hz, by simp, Nat.succ_le_succ hle, hlog⟩

/-- **A leader can be made to step down**: where the other peer is a leader of an older term it has
to step down first, and then it can take a newer one. -/
lemma can_retire (hr : Reached st) (hs : s ∈ Q) (hp : p ∈ Q) (hne : p ≠ s) :
    Can Q (fun y => (y.rafts s).state ≠ .leader ∧ ∀ q, (y.rafts q).log = (st.rafts q).log) st := by
  by_cases hl : (st.rafts s).state = .leader
  swap
  · exact .now hr ⟨hl, fun _ => rfl⟩
  have hdepose : ∀ y, Reached y → (y.rafts s).state = .leader →
      (y.rafts s).currentTerm < (y.rafts p).currentTerm →
      (∀ q, (y.rafts q).log = (st.rafts q).log) →
      Can Q (fun z => (z.rafts s).state ≠ .leader ∧
        ∀ q, (z.rafts q).log = (st.rafts q).log) y := by
    intro y hy hl hT hlogs
    refine (can_depose hy hs hp hl hT).mono fun z _ hz => ?_
    rw [hz]
    exact ⟨by simp, fun q => (update_of_log (Raft.conevrtToFollower_log _ _) q).trans (hlogs q)⟩
  rcases lt_or_ge (st.rafts s).currentTerm (st.rafts p).currentTerm with hlt | hge
  · exact hdepose st hr hl hlt fun _ => rfl
  have hfollow : Can Q (fun y => y.rafts s = st.rafts s ∧ (y.rafts p).state ≠ .leader ∧
      ∀ q, (y.rafts q).log = (st.rafts q).log) st := by
    by_cases hlp : (st.rafts p).state = .leader
    · have hT := lt_of_le_of_ne hge (hr.term_ne hl hlp hne)
      refine (can_depose hr hp hs hlp hT).mono fun y _ hy => ?_
      rw [hy]
      exact ⟨Function.update_of_ne hne.symm _ _, by simp,
        update_of_log (Raft.conevrtToFollower_log _ _)⟩
    · exact .now hr ⟨rfl, hlp, fun _ => rfl⟩
  apply hfollow.bind
  rintro y hy ⟨hys, hyp, hlogs⟩
  apply (can_outrank hy hp hyp ((st.rafts s).currentTerm + 1)).bind
  rintro z hz ⟨rf, hrafts, -, hle, hlog⟩
  have hzs : z.rafts s = st.rafts s := by rw [hrafts, Function.update_of_ne hne.symm, hys]
  refine hdepose z hz (by rwa [hzs]) ?_ fun q => ?_
  · rw [hzs, hrafts, Function.update_self]
    exact hle
  · rw [hrafts]
    exact (update_of_log hlog q).trans (hlogs q)

/-- **A peer far enough ahead can make all others followers.** -/
lemma can_settle (hr : Reached st) (hs : s ∈ Q)
    (hT : ∀ p ∈ Q, p ≠ s → (st.rafts p).currentTerm + 1 < (st.rafts s).currentTerm) :
    Can Q (fun y => y.rafts s = st.rafts s ∧ Followed Q s y ∧
      ∀ q, (y.rafts q).log = (st.rafts q).log) st := by
  refine (Can.of_finset (A := Q.erase s) (R := fun B y => y.rafts s = st.rafts s ∧
    (∀ p, p ∉ B → y.rafts p = st.rafts p) ∧
    (∀ p ∈ B, (y.rafts p).state = .follower ∧
      (y.rafts p).currentTerm = (st.rafts s).currentTerm) ∧
    ∀ q, (y.rafts q).log = (st.rafts q).log) ?_ hr ?_).mono fun y _ hy => ?_
  · intro B p y hp hB hy hR
    obtain ⟨hys, hout, hin, hlogs⟩ := hR
    obtain ⟨hne, hpQ⟩ := Finset.mem_erase.mp hp
    have hlt : (y.rafts p).currentTerm + 1 < (y.rafts s).currentTerm := by
      rw [hout p hB, hys]
      exact hT p hpQ hne
    apply (can_stepDown hy hs hpQ hlt).mono
    rintro z _ ⟨rf, hrafts, hrole, hterm, hlog⟩
    rw [hrafts]
    refine ⟨?_, fun q hq => ?_, fun q hq => ?_, fun q => (update_of_log hlog q).trans (hlogs q)⟩
    · rw [Function.update_of_ne hne.symm, hys]
    · rw [Finset.mem_insert, not_or] at hq
      rw [Function.update_of_ne hq.1, hout q hq.2]
    · by_cases hqp : q = p
      · subst hqp
        rw [Function.update_self, hterm, hys]
        exact ⟨hrole, rfl⟩
      · rw [Function.update_of_ne hqp]
        exact hin q (Finset.mem_of_mem_insert_of_ne hq hqp)
  · exact ⟨rfl, fun _ _ => rfl, fun p hp => absurd hp (Finset.notMem_empty p), fun _ => rfl⟩
  · obtain ⟨hys, -, hin, hlogs⟩ := hy
    refine ⟨hys, fun p hp hne => ?_, hlogs⟩
    obtain ⟨hrole, hterm⟩ := hin p (Finset.mem_erase.mpr ⟨hne, hp⟩)
    exact ⟨hrole, by rw [hterm, hys]⟩

/-! ## The election -/

omit [Inhabited C] in
/-- How up to date a peer is depends on its log only. -/
lemma NoMoreUpToDate.of_log {rf rf' : Raft n C} {args : RequestVoteArgs n}
    (h : NoMoreUpToDate rf args) (hlog : rf'.log = rf.log) : NoMoreUpToDate rf' args := by
  simpa [NoMoreUpToDate, Raft.lastLogTerm?, Raft.lastLogIndex, hlog] using h

omit [Inhabited C] in
/-- A vote in a newer term, for a log that is as up to date.
Source: `raft.go` `RequestVote` -/
lemma Raft.requestVote_grants {rf : Raft n C} {args : RequestVoteArgs n}
    (hT : rf.currentTerm < args.term) (hup : NoMoreUpToDate rf args) :
    ∃ rf', rf.requestVote args = some (rf', ⟨args.term, true⟩) ∧ rf'.state = rf.state ∧
      rf'.currentTerm = args.term ∧ rf'.log = rf.log := by
  obtain ⟨t, ht, hup⟩ := hup
  let raised : Raft n C := { rf with currentTerm := args.term, votedFor := none }
  have hlast : raised.lastLogTerm? = some t := ht
  have hnew : raised.upToDate args t := by
    simp only [Raft.upToDate, decide_eq_true_eq]
    exact hup.imp id fun h => ⟨h.1.symm, h.2⟩
  have hraise : rf.raiseTerm args.term = raised := if_pos hT
  refine ⟨{ raised with votedFor := some args.candidateId }, ?_, rfl, rfl, rfl⟩
  rw [Raft.requestVote, if_neg (not_lt.mpr hT.le), hraise]
  simp [hlast, hnew, raised]

omit [Inhabited C] in
/-- A vote that the candidate still needs.
Source: `raft.go` `AttemptEletion` -/
lemma Raft.voteReply_counts {rf : Raft n C} {el : Election n} (hT : rf.currentTerm = el.args.term)
    (hrole : rf.state = .candidate) (hd : el.done = false)
    (calls : Fin n → Rpc (RequestVoteArgs n) RequestVoteReply) :
    rf.voteReply { el with calls := calls } ⟨el.args.term, true⟩ =
      if el.votes + 1 ≤ n / 2 then (rf, { el with votes := el.votes + 1, calls := calls })
      else (rf.conevrtToLeader,
        { el with votes := el.votes + 1, done := true, calls := calls }) := by
  simp [Raft.voteReply, hT, hrole, hd]

/-- The candidate has the votes of the peers in `V`, which are too few, and can ask the others. -/
structure Canvass (Q : Finset (Fin n)) (s : Fin n) (e : ℕ) (args : RequestVoteArgs n)
    (V : Finset (Fin n)) (st : Cluster n C) : Prop where
  role : (st.rafts s).state = .candidate
  term : (st.rafts s).currentTerm = args.term
  few : V.card + 1 ≤ n / 2
  election : ∃ el, st.elections[e]? = some el ∧ el.args = args ∧ el.done = false ∧
    el.votes = V.card + 1 ∧ ∀ p ∈ Q, p ≠ s → p ∉ V →
      el.calls p = .requested args ∧ (st.rafts p).currentTerm < args.term

/-- **One more vote** makes the candidate leader, or leaves fewer to ask. -/
lemma Canvass.can_vote {e : ℕ} {args : RequestVoteArgs n} {V : Finset (Fin n)} (hr : Reached st)
    (hs : s ∈ Q) (hp : p ∈ Q) (hne : p ≠ s) (hV : p ∉ V) (hid : args.candidateId = s)
    (hfollowed : Followed Q s st) (hup : NoMoreUpToDate (st.rafts p) args)
    (h : Canvass Q s e args V st) :
    Can Q (fun y => ((y.rafts s).state = .leader ∨ Canvass Q s e args (insert p V) y) ∧
      Followed Q s y ∧ ∀ q, (y.rafts q).log = (st.rafts q).log) st := by
  obtain ⟨hrole, hterm, hfew, el, hel, rfl, hdone, hvotes, hcalls⟩ := h
  obtain ⟨hc, hlt⟩ := hcalls p hp hne hV
  obtain ⟨hfollower, -⟩ := hfollowed p hp hne
  obtain ⟨voter, hvote, hvs, hvT, hvlog⟩ := Raft.requestVote_grants hlt hup
  rcases hreply : (st.rafts s).voteReply { el with
    calls := Function.update el.calls p (.returned el.args ⟨el.args.term, true⟩) }
      ⟨el.args.term, true⟩ with ⟨rf, el'⟩
  have hask := can_ask hr hel hc hp (by rwa [hid]) (by rw [hid]; exact hne.symm)
    (fun hl => by rw [hfollower] at hl; cases hl) hvote ((congrArg
      (fun s => (st.rafts s).voteReply _ _) hid).trans hreply)
  rw [hid] at hask
  rw [Raft.voteReply_counts hterm hrole hdone] at hreply
  -- whichever way it goes, the candidate keeps its term and its log
  have hkeep : rf.currentTerm = el.args.term → rf.log = (st.rafts s).log → ∀ y : Cluster n C,
      y.rafts = Function.update (Function.update st.rafts p voter) s rf →
      Followed Q s y ∧ ∀ q, (y.rafts q).log = (st.rafts q).log := by
    intro hT hlog y hrafts
    have hlog' : rf.log = (Function.update st.rafts p voter s).log := by
      rw [Function.update_of_ne hne.symm, hlog]
    rw [Followed, hrafts, Function.update_self, hT]
    refine ⟨fun q hq hqs => ?_, fun q => (update_of_log hlog' q).trans (update_of_log hvlog q)⟩
    rw [Function.update_of_ne hqs]
    by_cases hqp : q = p
    · subst hqp
      rw [Function.update_self, hvs, hvT]
      exact ⟨hfollower, le_refl _⟩
    · rw [Function.update_of_ne hqp, ← hterm]
      exact hfollowed q hq hqs
  split_ifs at hreply with hmore
  · obtain ⟨rfl, rfl⟩ := Prod.mk.inj hreply
    apply hask.mono
    rintro y _ ⟨hrafts, hel'⟩
    refine ⟨Or.inr ⟨?_, ?_, ?_, _, hel', rfl, hdone, ?_, fun q hq hqs hqV => ?_⟩,
      hkeep hterm rfl y hrafts⟩
    · rw [hrafts, Function.update_self, hrole]
    · rw [hrafts, Function.update_self, hterm]
    · rw [Finset.card_insert_of_notMem hV, ← hvotes]
      exact hmore
    · rw [Finset.card_insert_of_notMem hV, ← hvotes]
    · rw [Finset.mem_insert, not_or] at hqV
      rw [hrafts, Function.update_of_ne hqs, Function.update_of_ne hqV.1]
      dsimp only
      rw [Function.update_of_ne hqV.1]
      exact hcalls q hq hqs hqV.2
  · obtain ⟨rfl, rfl⟩ := Prod.mk.inj hreply
    apply hask.mono
    rintro y _ ⟨hrafts, -⟩
    refine ⟨Or.inl ?_, hkeep hterm rfl y hrafts⟩
    rw [hrafts, Function.update_self]
    rfl

/-- **A candidate whose log is as up to date as all others wins**, when the others follow. -/
lemma can_win (hr : Reached st) (hn : 2 ≤ n) (hQ : Majority Q) (hs : s ∈ Q)
    (hl : (st.rafts s).state ≠ .leader) (hfollowed : Followed Q s st)
    (hup : ∀ p ∈ Q, ∀ args : RequestVoteArgs n,
      args.lastLogIndex = (st.rafts s).lastLogIndex →
      (st.rafts s).lastLogTerm? = some args.lastLogTerm → NoMoreUpToDate (st.rafts p) args) :
    Can Q (fun y => (y.rafts s).state = .leader ∧ Followed Q s y ∧
      ∀ q, (y.rafts q).log = (st.rafts q).log) st := by
  apply (can_campaign hr hs hl).bind
  rintro x hx ⟨hrafts, e, args, hargs, hel⟩
  have hxs : x.rafts s = (st.rafts s).conevrtToCandidate s := by
    rw [hrafts, Function.update_self]
  have hother : ∀ p, p ≠ s → x.rafts p = st.rafts p := fun p hp => by
    rw [hrafts, Function.update_of_ne hp]
  have hlogs : ∀ q, (x.rafts q).log = (st.rafts q).log := by
    rw [hrafts]
    exact update_of_log rfl
  have hterm : args.term = (st.rafts s).currentTerm + 1 := hargs.term
  refine (Can.of_finset (A := Q.erase s) (R := fun V y =>
    ((y.rafts s).state = .leader ∨ Canvass Q s e args V y) ∧ Followed Q s y ∧
      ∀ q, (y.rafts q).log = (st.rafts q).log) ?_ hx ?_).mono fun y _ hy => ?_
  · intro V p y hp hV hy hR
    obtain ⟨hlead | hcanvass, hfollow, hlog⟩ := hR
    · exact .now hy ⟨Or.inl hlead, hfollow, hlog⟩
    · obtain ⟨hne, hpQ⟩ := Finset.mem_erase.mp hp
      have hup' := (hup p hpQ args hargs.lastLogIndex hargs.lastLogTerm).of_log (hlog p)
      apply (hcanvass.can_vote hy hs hpQ hne hV hargs.candidateId hfollow hup').mono
      rintro z _ ⟨hz, hzfollow, hzlog⟩
      exact ⟨hz, hzfollow, fun q => (hzlog q).trans (hlog q)⟩
  · refine ⟨Or.inr ⟨by rw [hxs]; rfl, by rw [hxs, hterm]; rfl, ?_, _, hel, rfl, rfl, rfl,
      fun p hp hne _ => ⟨if_neg hne, ?_⟩⟩, fun p hp hne => ?_, hlogs⟩
    · rw [Finset.card_empty]
      omega
    · have hle := (hfollowed p hp hne).2
      rw [hother p hne]
      omega
    · obtain ⟨hrole, hle⟩ := hfollowed p hp hne
      rw [hother p hne, hxs]
      exact ⟨hrole, Nat.le_succ_of_le hle⟩
  · obtain ⟨hlead, hkeep⟩ := hy
    refine ⟨hlead.resolve_right fun hcanvass => ?_, hkeep⟩
    -- the votes of all of `Q` are not too few
    have hfew := hcanvass.few
    rw [Majority, Fintype.card_fin] at hQ
    rw [Finset.card_erase_add_one hs] at hfew
    omega

/-- The log of `s` is as up to date as any in `Q`. -/
lemma exists_upToDate (hr : Reached st) (hQ : Q.Nonempty) :
    ∃ s ∈ Q, ∀ p ∈ Q, ∀ args : RequestVoteArgs n,
      args.lastLogIndex = (st.rafts s).lastLogIndex →
      (st.rafts s).lastLogTerm? = some args.lastLogTerm → NoMoreUpToDate (st.rafts p) args := by
  obtain ⟨s, hs, hmax⟩ := Q.exists_max_image
    (fun p => toLex ((st.rafts p).lastLogTerm?.getD 0, (st.rafts p).lastLogIndex)) hQ
  refine ⟨s, hs, fun p hp args hidx hlast => ?_⟩
  obtain ⟨t, ht⟩ := hr.exists_lastLogTerm p
  have hle := hmax p hp
  rw [Prod.Lex.toLex_le_toLex, ht, hlast, Option.getD_some, Option.getD_some, ← hidx] at hle
  exact ⟨t, ht, hle⟩

/-- **A majority can prepare an election**: one of the peers with the most up-to-date log does not
lead and is followed by all others. -/
lemma can_prepare (hr : Reached st) (hn : 2 ≤ n) (hQ : Majority Q) :
    Can Q (fun z => ∃ s ∈ Q, (z.rafts s).state ≠ .leader ∧ Followed Q s z ∧
      ∀ p ∈ Q, ∀ args : RequestVoteArgs n,
        args.lastLogIndex = (z.rafts s).lastLogIndex →
        (z.rafts s).lastLogTerm? = some args.lastLogTerm → NoMoreUpToDate (z.rafts p) args) st := by
  have hcard : 1 < Q.card := by
    rw [Majority, Fintype.card_fin] at hQ
    omega
  obtain ⟨s, hs, hup⟩ := exists_upToDate hr (Finset.card_pos.mp (Nat.zero_lt_of_lt hcard))
  obtain ⟨p, hp, hne⟩ := Finset.exists_mem_ne hcard s
  apply (can_retire hr hs hp hne).bind
  rintro x hx ⟨hlx, hxlog⟩
  apply (can_outrank hx hs hlx ((Q.sup fun q => (x.rafts q).currentTerm) + 2)).bind
  rintro y hy ⟨rf, hrafts, hrole, hle, hlog⟩
  have hys : y.rafts s = rf := by rw [hrafts, Function.update_self]
  have hylog : ∀ q, (y.rafts q).log = (st.rafts q).log := fun q => by
    rw [hrafts]
    exact (update_of_log hlog q).trans (hxlog q)
  have hahead : ∀ q ∈ Q, q ≠ s → (y.rafts q).currentTerm + 1 < (y.rafts s).currentTerm := by
    intro q hq hqs
    have hsup : (x.rafts q).currentTerm ≤ Q.sup fun q => (x.rafts q).currentTerm :=
      Finset.le_sup (f := fun q => (x.rafts q).currentTerm) hq
    rw [hys, hrafts, Function.update_of_ne hqs]
    omega
  apply (can_settle hy hs hahead).mono
  rintro z hz ⟨hzs, hfollowed, hzlog⟩
  have hlogs : ∀ q, (z.rafts q).log = (st.rafts q).log := fun q => (hzlog q).trans (hylog q)
  -- the logs are those of the start, where `s` was chosen
  refine ⟨s, hs, by rwa [hzs, hys], hfollowed, fun q hq args hidx hlast => ?_⟩
  have hlogs' := hlogs s
  refine (hup q hq args ?_ ?_).of_log (hlogs q)
  · rw [hidx, Raft.lastLogIndex, Raft.lastLogIndex, hlogs']
  · rw [← hlast, Raft.lastLogTerm?, Raft.lastLogTerm?, Raft.lastLogIndex, Raft.lastLogIndex,
      hlogs']

/-- A peer that does not lead at the beginning of a piece of a run and leads at its end is promoted
in between. -/
lemma exists_becomesLeader {tr tr' : Trace n C} {x : Cluster n C} (hx : (cluster n C).Run tr x)
    (h : (cluster n C).Run (tr' ++ tr) st) (hnl : (x.rafts s).state ≠ .leader)
    (hl : (st.rafts s).state = .leader) : ∃ q ∈ tr', becomesLeader q.1 q.2 s := by
  induction tr' generalizing st with
  | nil =>
      rw [h.unique hx] at hl
      exact absurd hl hnl
  | cons q tr' ih =>
      obtain ⟨z, a⟩ := q
      cases h with
      | step h hs =>
          by_cases hz : (z.rafts s).state = .leader
          · obtain ⟨q, hq, hlead⟩ := ih h hz
            exact ⟨q, List.mem_cons_of_mem _ hq, hlead⟩
          · exact ⟨(z, a), List.mem_cons_self, becomesLeader_iff.mpr ⟨st, hs, hz, hl⟩⟩

/-- **A majority can elect a leader**, from wherever the cluster has got to without a slip, by
itself. -/
theorem elects {tr : Trace n C} (h : (cluster n C).Run tr st)
    (hD : Avoids (fun x a => safetySlip x a) tr) (hn : 2 ≤ n) (hQ : Majority Q) :
    ∃ s ∈ Q, ∃ tr' y, (cluster n C).Run (tr' ++ tr) y ∧ Avoids (strays Q) tr' ∧ Reached y ∧
      (∃ q ∈ tr', becomesLeader q.1 q.2 s) ∧ (y.rafts s).state = .leader ∧ Followed Q s y := by
  obtain ⟨tr₁, z, hz, hD₁, hzr, s, hs, hnl, hfollowed, hup⟩ :=
    h.continue (can_prepare ⟨tr, h, hD⟩ hn hQ)
  obtain ⟨tr₂, y, hy, hD₂, hyr, hl, hyfollowed, -⟩ :=
    hz.continue (can_win hzr hn hQ hs hnl hfollowed hup)
  obtain ⟨q, hq, hlead⟩ := exists_becomesLeader hz hy hnl hl
  refine ⟨s, hs, tr₂ ++ tr₁, y, ?_, hD₂.append hD₁, hyr, ⟨q, List.mem_append_left _ hq, hlead⟩, hl,
    hyfollowed⟩
  rwa [List.append_assoc]

end Runs

end GoLabs.Consensus
