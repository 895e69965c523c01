import GoLabs.Consensus.Peer
import GoLabs.Lib.Run
import Mathlib.Tactic

/-!
# A cluster of Raft peers

`n` peers created by `Make`, the goroutines they have spawned and the calls under way, as a
transition system whose atomic steps are the sections of `raft.go` that hold a peer's lock (and
one iteration of `apply`, which holds none).

* An `Election` is one execution of `AttemptEletion` after its locked part: the request, the two
  variables `votes` and `done` its goroutines share, and one call for each other peer. A `Round`
  is one iteration of the loop of `HeartBeat` that found the peer leader, with `count` and `done`.
  Both stay in the state for ever, so they are also the record of every election started and
  every round begun.
* An `Rpc` is one goroutine's call through the network. It only moves forward: built, handled by
  the peer, answered. A call or an answer the network loses is one that is never moved again, a
  delayed one is moved late, and calls overtake each other freely; none is ever handled twice.
* Time is left out: the election timer of a peer may fire at any moment (a peer that is no leader
  always has one armed, or an `AttemptEletion` already on its way), and so may the next check of
  the loop of `HeartBeat` (a peer has one running as long as it leads).
* Arguments travel as the values they had when they were built. This is an assumption: `Entries` is
  a slice of the sender's log and `TermToIndex` its map, and both are shared with the sender until
  `labrpc` has encoded the request, which happens after the lock was released. What the sender
  writes to them in between is left out.
-/

namespace GoLabs.Consensus

open GoLabs.Lib

variable {n : ℕ} {C : Type}

/-! ## Calls, elections and rounds -/

/-- One goroutine's call: not made at all, the goroutine spawned but not yet at the lock, the
request sent, the request handled and the answer sent, the answer handled by the caller. -/
inductive Rpc (α ρ : Type)
  | idle
  | spawned
  | requested (args : α)
  | replied (args : α) (reply : ρ)
  | returned (args : α) (reply : ρ)

namespace Rpc

variable {α ρ : Type}

/-- The request, as long as the peer has not handled it. -/
def requested? : Rpc α ρ → Option α
  | requested args => some args
  | _ => none

/-- The request, once it has been sent. -/
def args? : Rpc α ρ → Option α
  | idle => none
  | spawned => none
  | requested args => some args
  | replied args _ => some args
  | returned args _ => some args

/-- The request and the peer's answer, once the peer has handled it. -/
def answer? : Rpc α ρ → Option (α × ρ)
  | replied args reply => some (args, reply)
  | returned args reply => some (args, reply)
  | _ => none

/-- The request and the answer, once the caller has handled the answer. -/
def returned? : Rpc α ρ → Option (α × ρ)
  | returned args reply => some (args, reply)
  | _ => none

/-- A request that has not been handled is on its way. -/
@[simp] theorem requested?_eq_some {call : Rpc α ρ} {args : α} :
    call.requested? = some args ↔ call = .requested args := by
  cases call <;> simp [requested?]

/-- A request on its way has its arguments. -/
@[simp] theorem args?_requested (args : α) :
    (requested args : Rpc α ρ).args? = some args := rfl

/-- A handled request has its arguments. -/
@[simp] theorem args?_replied (args : α) (reply : ρ) :
    (replied args reply).args? = some args := rfl

/-- A call that has returned has its arguments. -/
@[simp] theorem args?_returned (args : α) (reply : ρ) :
    (returned args reply).args? = some args := rfl

/-- A call that is not made has no answer. -/
@[simp] theorem answer?_idle : (idle : Rpc α ρ).answer? = none := rfl

/-- A request on its way has no answer. -/
@[simp] theorem answer?_requested (args : α) :
    (requested args : Rpc α ρ).answer? = none := rfl

/-- A handled request has its answer. -/
@[simp] theorem answer?_replied (args : α) (reply : ρ) :
    (replied args reply).answer? = some (args, reply) := rfl

/-- A call that has returned has its answer. -/
@[simp] theorem answer?_returned (args : α) (reply : ρ) :
    (returned args reply).answer? = some (args, reply) := rfl

/-- What has been answered has been asked. -/
lemma args?_of_answer? {call : Rpc α ρ} {args : α} {reply : ρ}
    (h : call.answer? = some (args, reply)) : call.args? = some args := by
  cases call with
  | replied => exact congrArg (Option.map Prod.fst) h
  | returned => exact congrArg (Option.map Prod.fst) h
  | _ => cases h

/-- The peers whose answer the caller has handled and found favourable. -/
def counted (ok : ρ → Bool) (calls : Fin n → Rpc α ρ) : Finset (Fin n) :=
  Finset.univ.filter fun p => ∃ ar ∈ (calls p).returned?, ok ar.2 = true

variable {ok : ρ → Bool} {calls : Fin n → Rpc α ρ} {p : Fin n}

/-- The calls that are counted have returned with an answer that counts. -/
@[simp] theorem mem_counted :
    p ∈ counted ok calls ↔ ∃ args reply, calls p = .returned args reply ∧ ok reply = true := by
  simp only [counted, Finset.mem_filter, Finset.mem_univ, true_and, Option.mem_def, Prod.exists]
  refine exists_congr fun args => exists_congr fun reply => and_congr_left fun _ => ?_
  cases calls p <;> simp [returned?]

/-- A call that has not returned yet is counted no less when it moves on. -/
lemma counted_subset_update {call : Rpc α ρ} (hp : ∀ args reply, calls p ≠ .returned args reply) :
    counted ok calls ⊆ counted ok (Function.update calls p call) := by
  intro q hq
  obtain ⟨args, reply, hq, hg⟩ := mem_counted.mp hq
  have hqp : q ≠ p := by
    rintro rfl
    exact hp _ _ hq
  exact mem_counted.mpr ⟨args, reply, by simpa [hqp] using hq, hg⟩

/-- A favourable answer is counted when the caller handles it. -/
lemma card_counted_returned {args : α} {reply : ρ} (hp : calls p = .replied args reply)
    (hg : ok reply = true) : (counted ok calls).card + 1 ≤
      (counted ok (Function.update calls p (.returned args reply))).card := by
  have hnot : p ∉ counted ok calls := by
    intro hmem
    obtain ⟨args', reply', hc, -⟩ := mem_counted.mp hmem
    rw [hp] at hc
    cases hc
  rw [← Finset.card_insert_of_notMem hnot]
  apply Finset.card_le_card
  refine Finset.insert_subset ?_ (counted_subset_update fun _ _ h => by rw [hp] at h; cases h)
  exact mem_counted.mpr ⟨args, reply, by simp, hg⟩

/-- The caller, the peers counted so far and the one whose answer is in hand are different peers,
when the caller does not call itself. -/
lemma card_insert_counted {s : Fin n} {args : α} {reply : ρ} (hs : calls s = .idle)
    (hp : calls p = .replied args reply) :
    (insert s (insert p (counted ok calls))).card = (counted ok calls).card + 2 := by
  have hpc : p ∉ counted ok calls := by
    intro h
    obtain ⟨_, _, h, -⟩ := mem_counted.mp h
    rw [hp] at h
    cases h
  have hsc : s ∉ insert p (counted ok calls) := by
    intro h
    rcases Finset.mem_insert.mp h with h | h
    · rw [h, hp] at hs
      cases hs
    · obtain ⟨_, _, h, -⟩ := mem_counted.mp h
      rw [hs] at h
      cases h
  rw [Finset.card_insert_of_notMem hsc, Finset.card_insert_of_notMem hpc]

end Rpc

/-- One election: the request and the variables its goroutines share.
Source: `raft.go` `AttemptEletion` -/
structure Election (n : ℕ) where
  args : RequestVoteArgs n
  votes : ℕ
  done : Bool
  /-- The goroutine that asks each peer. -/
  calls : Fin n → Rpc (RequestVoteArgs n) RequestVoteReply

/-- One round of heartbeats: the variables its goroutines share.
Source: `raft.go` `HeartBeat` -/
structure Round (n : ℕ) (C : Type) where
  /-- The peer whose `HeartBeat` it is. -/
  leader : Fin n
  count : ℕ
  done : Bool
  /-- The goroutine that writes to each peer. -/
  calls : Fin n → Rpc (AppendEntriesArgs n C) AppendEntriesReply

/-! ## The handlers of the answers -/

/-- The goroutine of an election with the answer in hand.
Source: `raft.go` `AttemptEletion` -/
def Raft.voteReply (rf : Raft n C) (el : Election n) (reply : RequestVoteReply) :
    Raft n C × Election n :=
  if reply.term > rf.currentTerm then (rf.conevrtToFollower reply.term, el)
  else if !reply.voteGranted then (rf, el)
  else
    let el := { el with votes := el.votes + 1 }
    if el.done ∨ el.votes ≤ n / 2 then (rf, el)
    else if rf.currentTerm = el.args.term ∧ rf.state = .candidate then
      (rf.conevrtToLeader, { el with done := true })
    else (rf, el)

/-- The goroutine of a round with the answer of the peer `index` in hand.
Source: `raft.go` `HeartBeat` -/
def Raft.heartBeatReply (rf : Raft n C) (round : Round n C) (index : Fin n)
    (args : AppendEntriesArgs n C) (reply : AppendEntriesReply) :
    Option (Raft n C × Round n C) :=
  if !reply.success then
    if reply.term > rf.currentTerm then some (rf.conevrtToFollower reply.term, round)
    else
      (Slice.set? rf.nextIndex (index : ℕ) (Raft.backUp rf.termToIndex (args.prevLogTerm - 1))).map
        fun nextIndex => ({ rf with nextIndex := nextIndex }, round)
  else do
    let nextIndex ← Slice.set? rf.nextIndex (index : ℕ) (rf.log.length : ℤ)
    let matchIndex ← Slice.set? rf.matchIndex (index : ℕ) ((rf.log.length : ℤ) - 1)
    let rf := { rf with nextIndex := nextIndex, matchIndex := matchIndex }
    let round := { round with count := round.count + 1 }
    if round.done ∨ round.count ≤ n / 2 then some (rf, round)
    else some ({ rf with commitIndex := (rf.log.length : ℤ) - 1 }, { round with done := true })

/-- The answer of `p` is the one that makes the sender set `commitIndex`: a success, and with it
more than half of the peers.
Source: `raft.go` `HeartBeat` -/
def Round.commits (round : Round n C) (p : Fin n) : Bool :=
  match round.calls p with
  | .replied _ reply => reply.success ∧ round.done = false ∧ n / 2 < round.count + 1
  | _ => false

/-- The answer of `p` is a success, and the one that makes a majority. -/
lemma Round.commits_iff {round : Round n C} {p : Fin n} :
    round.commits p ↔ ∃ args reply, round.calls p = .replied args reply ∧
      reply.success = true ∧ round.done = false ∧ n / 2 < round.count + 1 := by
  unfold commits
  split
  · rename_i args reply hc
    simp [hc]
  · rename_i hne
    simp only [Bool.false_eq_true, false_iff, not_exists]
    rintro args reply ⟨hc, -⟩
    exact hne args reply hc

/-! ## The cluster -/

/-- The state of a cluster. -/
structure Cluster (n : ℕ) (C : Type) where
  rafts : Fin n → Raft n C
  /-- What each peer has sent on its `applyCh` so far, in order. -/
  applyCh : Fin n → List (ApplyMsg C)
  /-- The `AttemptEletion` goroutines a peer's timer has spawned and that have not yet run. -/
  attempts : Fin n → ℕ
  elections : List (Election n)
  rounds : List (Round n C)

/-- `n` fresh peers and nothing under way. -/
def Cluster.make (n : ℕ) (C : Type) [Inhabited C] : Cluster n C where
  rafts := fun _ => Consensus.make n C
  applyCh := fun _ => []
  attempts := fun _ => 0
  elections := []
  rounds := []

/-- What happens next, and where. Elections and rounds are named by their position. -/
inductive Action (n : ℕ) (C : Type)
  /-- The election timer of `s` fires. -/
  | timer (s : Fin n)
  /-- An `AttemptEletion` goroutine of `s` gets the lock. -/
  | attemptEletion (s : Fin n)
  /-- `p` handles the `RequestVote` of election `e`. -/
  | requestVote (e : ℕ) (p : Fin n)
  /-- The candidate of election `e` handles the answer of `p`. -/
  | voteReply (e : ℕ) (p : Fin n)
  /-- The loop of `HeartBeat` on `s` checks the role. -/
  | heartBeat (s : Fin n)
  /-- The goroutine of round `r` for `p` builds its arguments and sends them. -/
  | heartBeatArgs (r : ℕ) (p : Fin n)
  /-- `p` handles the `AppendEntries` of round `r`. -/
  | appendEntries (r : ℕ) (p : Fin n)
  /-- The sender of round `r` handles the answer of `p`. -/
  | heartBeatReply (r : ℕ) (p : Fin n)
  /-- The service on `s` calls `Start`. -/
  | start (s : Fin n) (command : C)
  /-- One iteration of `apply` on `s`. -/
  | apply (s : Fin n)

namespace Cluster

/-- The goroutines spawned, one for each peer other than `s`. -/
def spawn {α ρ : Type} (s : Fin n) (call : Rpc α ρ) : Fin n → Rpc α ρ :=
  fun p => if p = s then .idle else call

/-- Replace the state of one peer. -/
def setRaft (st : Cluster n C) (s : Fin n) (rf : Raft n C) : Cluster n C :=
  { st with rafts := Function.update st.rafts s rf }

/-- Replace one election. -/
def setElection (st : Cluster n C) (e : ℕ) (el : Election n) : Cluster n C :=
  { st with elections := st.elections.set e el }

/-- Replace one round. -/
def setRound (st : Cluster n C) (r : ℕ) (rd : Round n C) : Cluster n C :=
  { st with rounds := st.rounds.set r rd }

/-- The `RequestVote` of election `e` that `p` has not yet handled. -/
def voteRequest? (st : Cluster n C) (e : ℕ) (p : Fin n) : Option (RequestVoteArgs n) :=
  st.elections[e]?.bind fun el => (el.calls p).requested?

/-- The `AppendEntries` of round `r` that `p` has not yet handled. -/
def beatRequest? (st : Cluster n C) (r : ℕ) (p : Fin n) : Option (AppendEntriesArgs n C) :=
  st.rounds[r]?.bind fun rd => (rd.calls p).requested?

/-- The callback of the election timer: a peer that is no leader spawns an `AttemptEletion`.
Source: `raft.go` `ticker` -/
def timer (st : Cluster n C) (s : Fin n) : Cluster n C :=
  if (st.rafts s).state ≠ .leader then
    { st with attempts := Function.update st.attempts s (st.attempts s + 1) }
  else st

/-- Source: `raft.go` `AttemptEletion` -/
def attemptEletion (st : Cluster n C) (s : Fin n) : Option (Cluster n C) :=
  if st.attempts s = 0 then none
  else do
    let (rf, args) ← (st.rafts s).attemptEletion s
    let st := st.setRaft s rf
    some { st with
      attempts := Function.update st.attempts s (st.attempts s - 1)
      elections := st.elections ++ [⟨args, 1, false, spawn s (.requested args)⟩] }

/-- Source: `raft.go` `RequestVote` -/
def requestVote (st : Cluster n C) (e : ℕ) (p : Fin n) : Option (Cluster n C) := do
  let el ← st.elections[e]?
  match el.calls p with
  | .requested args => do
      let (rf, reply) ← (st.rafts p).requestVote args
      let el := { el with calls := Function.update el.calls p (.replied args reply) }
      some ((st.setRaft p rf).setElection e el)
  | _ => none

/-- Source: `raft.go` `AttemptEletion` -/
def voteReply (st : Cluster n C) (e : ℕ) (p : Fin n) : Option (Cluster n C) := do
  let el ← st.elections[e]?
  match el.calls p with
  | .replied args reply =>
      let s := el.args.candidateId
      let el := { el with calls := Function.update el.calls p (.returned args reply) }
      let (rf, el) := (st.rafts s).voteReply el reply
      some ((st.setRaft s rf).setElection e el)
  | _ => none

/-- The check at the head of the loop. A peer that does not lead leaves the loop.
Source: `raft.go` `HeartBeat` -/
def heartBeat (st : Cluster n C) (s : Fin n) : Cluster n C :=
  if (st.rafts s).state = .leader then
    { st with rounds := st.rounds ++ [⟨s, 1, false, spawn s .spawned⟩] }
  else st

/-- Source: `raft.go` `HeartBeat` -/
def heartBeatArgs (st : Cluster n C) (r : ℕ) (p : Fin n) : Option (Cluster n C) := do
  let rd ← st.rounds[r]?
  match rd.calls p with
  | .spawned => do
      let args ← (st.rafts rd.leader).heartBeatArgs rd.leader p
      some (st.setRound r { rd with calls := Function.update rd.calls p (.requested args) })
  | _ => none

/-- Source: `raft.go` `AppendEntries` -/
def appendEntries (st : Cluster n C) (r : ℕ) (p : Fin n) : Option (Cluster n C) := do
  let rd ← st.rounds[r]?
  match rd.calls p with
  | .requested args => do
      let (rf, reply) ← (st.rafts p).appendEntries args
      let rd := { rd with calls := Function.update rd.calls p (.replied args reply) }
      some ((st.setRaft p rf).setRound r rd)
  | _ => none

/-- Source: `raft.go` `HeartBeat` -/
def heartBeatReply (st : Cluster n C) (r : ℕ) (p : Fin n) : Option (Cluster n C) := do
  let rd ← st.rounds[r]?
  match rd.calls p with
  | .replied args reply => do
      let s := rd.leader
      let rd := { rd with calls := Function.update rd.calls p (.returned args reply) }
      let (rf, rd) ← (st.rafts s).heartBeatReply rd p args reply
      some ((st.setRaft s rf).setRound r rd)
  | _ => none

/-- Source: `raft.go` `Start` -/
def start (st : Cluster n C) (s : Fin n) (command : C) : Option (Cluster n C) :=
  ((st.rafts s).start command).map fun r => st.setRaft s r.1

/-- Source: `raft.go` `apply` -/
def apply (st : Cluster n C) (s : Fin n) : Option (Cluster n C) :=
  (st.rafts s).apply.map fun r =>
    let st := st.setRaft s r.1
    { st with applyCh := Function.update st.applyCh s (st.applyCh s ++ r.2.toList) }

/-- One atomic step. -/
def step (st : Cluster n C) : Action n C → Option (Cluster n C)
  | .timer s => some (st.timer s)
  | .attemptEletion s => st.attemptEletion s
  | .requestVote e p => st.requestVote e p
  | .voteReply e p => st.voteReply e p
  | .heartBeat s => some (st.heartBeat s)
  | .heartBeatArgs r p => st.heartBeatArgs r p
  | .appendEntries r p => st.appendEntries r p
  | .heartBeatReply r p => st.heartBeatReply r p
  | .start s command => st.start s command
  | .apply s => st.apply s

end Cluster

/-- A trace of a cluster: its steps, the latest first. -/
abbrev Trace (n : ℕ) (C : Type) := List (Cluster n C × Action n C)

/-- The cluster of `n` peers as a transition system. -/
def cluster (n : ℕ) (C : Type) [Inhabited C] : System (Cluster n C) (Action n C) where
  init := Cluster.make n C
  step := Cluster.step

end GoLabs.Consensus
