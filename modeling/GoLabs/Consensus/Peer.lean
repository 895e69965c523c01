import GoLabs.Lib.Slice
import Mathlib.Logic.Function.Basic

/-!
# One Raft peer

The data model of `raft.go` and the functions that run under a peer's lock, each as a function on
the peer's state. What a function spawns (`go ...`), sends or waits for is not here but in
`GoLabs.Consensus.Cluster`, where these functions are the atomic steps of a cluster.

* A cluster has `n` peers, so `len(rf.peers)` is `n` and a server is an element of `Fin n`; a
  function that reads `rf.me` takes it as an argument. `votedFor = -1` is `none`.
* `interface{}` is a type `C` of commands; its `nil`, the command of the entry at index 0, is
  `default`.
* Terms start at 0 and only grow, so they are natural numbers. Positions in the log are integers:
  `len(rf.log)-1`, `rf.nextIndex[i]-1` and `rf.commitIndex` are compared and used as indices, and
  an index outside the slice panics. A function that indexes is partial, `none` being the panic.
  Both are numbers without a bound: that Go's 64-bit `int` overflows is left out.
* `ticker` only decides when the election timer fires next. Time is not part of the model (the
  timer of a peer may fire at any moment), so the calls of `ticker` leave no trace here.
-/

namespace GoLabs.Consensus

open GoLabs.Lib

variable {n : ℕ} {C : Type}

/-! ## Data -/

/-- The role of a peer.
Source: `raft.go` `State` -/
inductive State
  | leader
  | follower
  | candidate
  deriving DecidableEq, Repr

/-- Source: `raft.go` `LogEntry` -/
structure LogEntry (C : Type) where
  /-- The term of the leader that created the entry. -/
  term : ℕ
  /-- The command to apply. -/
  command : C
  deriving DecidableEq, Repr

/-- Source: `raft.go` `RequestVoteArgs` -/
structure RequestVoteArgs (n : ℕ) where
  term : ℕ
  candidateId : Fin n
  lastLogIndex : ℤ
  lastLogTerm : ℕ
  deriving DecidableEq, Repr

/-- The zero value is what a handler that sets nothing leaves in the reply.
Source: `raft.go` `RequestVoteReply` -/
structure RequestVoteReply where
  term : ℕ := 0
  voteGranted : Bool := false
  deriving DecidableEq, Repr

/-- `TermToIndex` is a map; a key that is absent reads 0.
Source: `raft.go` `AppendEntriesArgs` -/
structure AppendEntriesArgs (n : ℕ) (C : Type) where
  term : ℕ
  leaderId : Fin n
  prevLogIndex : ℤ
  prevLogTerm : ℕ
  entries : List (LogEntry C)
  leaderCommit : ℤ
  termToIndex : ℕ → ℤ

/-- Source: `raft.go` `AppendEntriesReply` -/
structure AppendEntriesReply where
  term : ℕ := 0
  success : Bool := false
  deriving DecidableEq, Repr

/-- What `apply` sends on `applyCh`. The snapshot fields are never set and left out.
Source: `raft.go` `ApplyMsg` -/
structure ApplyMsg (C : Type) where
  commandValid : Bool
  command : C
  commandIndex : ℤ
  deriving DecidableEq, Repr

/-- The state a peer's lock protects. `nextIndex` and `matchIndex` are nil until the peer becomes
leader for the first time.
Source: `raft.go` `Raft` -/
structure Raft (n : ℕ) (C : Type) where
  currentTerm : ℕ
  votedFor : Option (Fin n)
  log : List (LogEntry C)
  state : State
  commitIndex : ℤ
  lastApplied : ℤ
  nextIndex : List ℤ
  matchIndex : List ℤ
  termToIndex : ℕ → ℤ

/-- A fresh peer: the log holds only the placeholder at index 0.
Source: `raft.go` `Make` -/
def make (n : ℕ) (C : Type) [Inhabited C] : Raft n C where
  currentTerm := 0
  votedFor := none
  log := [⟨0, default⟩]
  state := .follower
  commitIndex := 0
  lastApplied := 0
  nextIndex := []
  matchIndex := []
  termToIndex := fun _ => 0

namespace Raft

/-- Source: `raft.go` `GetState` -/
def getState (rf : Raft n C) : ℕ × Bool := (rf.currentTerm, rf.state == .leader)

/-- `len(rf.log)-1`, the index of the last entry. -/
def lastLogIndex (rf : Raft n C) : ℤ := rf.log.length - 1

/-- `rf.log[len(rf.log)-1].Term`. -/
def lastLogTerm? (rf : Raft n C) : Option ℕ :=
  (Slice.get? rf.log rf.lastLogIndex).map LogEntry.term

/-! ## Changing roles -/

/-- Source: `raft.go` `conevrtToCandidate` -/
def conevrtToCandidate (rf : Raft n C) (me : Fin n) : Raft n C :=
  { rf with state := .candidate, currentTerm := rf.currentTerm + 1, votedFor := some me }

/-- Source: `raft.go` `conevrtToFollower` -/
def conevrtToFollower (rf : Raft n C) (term : ℕ) : Raft n C :=
  { rf with state := .follower, currentTerm := term, votedFor := none }

/-- Source: `raft.go` `conevrtToLeader` -/
def conevrtToLeader (rf : Raft n C) : Raft n C :=
  { rf with
    state := .leader
    nextIndex := List.replicate n (rf.log.length : ℤ)
    matchIndex := List.replicate n 0 }

/-! ## Elections -/

/-- The part of `AttemptEletion` that holds the lock: become a candidate and build the request
that goes to every other peer.
Source: `raft.go` `AttemptEletion` -/
def attemptEletion (rf : Raft n C) (me : Fin n) : Option (Raft n C × RequestVoteArgs n) :=
  let rf := rf.conevrtToCandidate me
  rf.lastLogTerm?.map fun lastLogTerm =>
    (rf, { term := rf.currentTerm, candidateId := me,
           lastLogIndex := rf.lastLogIndex, lastLogTerm := lastLogTerm })

/-- The test "only grant when leader's log is newer" of `RequestVote`, on the last term of the
voter's log.
Source: `raft.go` `RequestVote` -/
def upToDate (rf : Raft n C) (args : RequestVoteArgs n) (lastLogTerm : ℕ) : Bool :=
  args.lastLogTerm > lastLogTerm ∨
    (args.lastLogTerm = lastLogTerm ∧ args.lastLogIndex ≥ rf.lastLogIndex)

/-- The second `if` of `RequestVote`: a higher term is taken over and the vote forgotten. The role
stays as it is.
Source: `raft.go` `RequestVote` -/
def raiseTerm (rf : Raft n C) (term : ℕ) : Raft n C :=
  if rf.currentTerm < term then { rf with currentTerm := term, votedFor := none } else rf

/-- The `RequestVote` handler. The last refusal does not set the reply's term.
Source: `raft.go` `RequestVote` -/
def requestVote (rf : Raft n C) (args : RequestVoteArgs n) :
    Option (Raft n C × RequestVoteReply) :=
  if rf.currentTerm > args.term then
    some (rf, { term := rf.currentTerm, voteGranted := false })
  else
    let rf := rf.raiseTerm args.term
    if rf.votedFor ≠ none ∧ rf.votedFor ≠ some args.candidateId then
      some (rf, { term := rf.currentTerm, voteGranted := false })
    else
      rf.lastLogTerm?.map fun lastLogTerm =>
        if rf.upToDate args lastLogTerm then
          ({ rf with votedFor := some args.candidateId },
            { term := rf.currentTerm, voteGranted := true })
        else (rf, {})

/-! ## Replication -/

/-- The arguments of the request a `HeartBeat` goroutine sends to the peer `index`, built under
the lock.
Source: `raft.go` `HeartBeat` -/
def heartBeatArgs (rf : Raft n C) (me index : Fin n) : Option (AppendEntriesArgs n C) := do
  let next ← Slice.get? rf.nextIndex (index : ℕ)
  let prev ← Slice.get? rf.log (next - 1)
  let entries ← Slice.from? rf.log next
  some { term := rf.currentTerm, leaderId := me, prevLogIndex := next - 1,
         prevLogTerm := prev.term, entries := entries, leaderCommit := rf.commitIndex,
         termToIndex := rf.termToIndex }

/-- What an accepted request does to a follower: cut the log after `PrevLogIndex`, append the
entries, copy the map and follow the leader's commit index up to the new end of the log.
Source: `raft.go` `AppendEntries` -/
def accept (rf : Raft n C) (args : AppendEntriesArgs n C) : Raft n C :=
  let log := rf.log.take (args.prevLogIndex + 1).toNat ++ args.entries
  { rf with
    log := log
    termToIndex := args.termToIndex
    commitIndex :=
      if args.leaderCommit > rf.commitIndex then
        if args.leaderCommit < (log.length : ℤ) - 1 then args.leaderCommit
        else (log.length : ℤ) - 1
      else rf.commitIndex }

/-- The `AppendEntries` handler. A peer that is no follower steps down and answers success
without looking at the log; a follower raises its term and keeps its vote.
Source: `raft.go` `AppendEntries` -/
def appendEntries (rf : Raft n C) (args : AppendEntriesArgs n C) :
    Option (Raft n C × AppendEntriesReply) :=
  if rf.state ≠ .follower then
    if rf.currentTerm ≤ args.term then
      let rf := rf.conevrtToFollower args.term
      some (rf, { term := rf.currentTerm, success := true })
    else some (rf, { term := rf.currentTerm, success := false })
  else if rf.currentTerm ≤ args.term then
    let rf := { rf with currentTerm := args.term }
    if (rf.log.length : ℤ) ≤ args.prevLogIndex then
      some (rf, { term := rf.currentTerm, success := false })
    else
      (Slice.get? rf.log args.prevLogIndex).map fun prev =>
        if prev.term ≠ args.prevLogTerm then (rf, { term := rf.currentTerm, success := false })
        else (rf.accept args, { term := rf.currentTerm, success := true })
  else some (rf, { term := rf.currentTerm, success := false })

/-- The loop of the reply handler that backs `nextIndex` up: the first index on record for the
nearest smaller term, 1 when there is none. The argument is the loop variable `i`.
Source: `raft.go` `HeartBeat` -/
def backUp (termToIndex : ℕ → ℤ) : ℕ → ℤ
  | 0 => 1
  | i + 1 => if termToIndex (i + 1) ≠ 0 then termToIndex (i + 1) else backUp termToIndex i

/-! ## The service -/

/-- Returns the index, the term and whether the peer is the leader.
Source: `raft.go` `Start` -/
def start (rf : Raft n C) (command : C) : Option (Raft n C × ℤ × ℕ × Bool) :=
  if rf.state = .leader then
    rf.lastLogTerm?.map fun lastLogTerm =>
      ({ rf with
          termToIndex := if rf.currentTerm ≠ lastLogTerm then
            Function.update rf.termToIndex rf.currentTerm (rf.log.length : ℤ) else rf.termToIndex
          log := rf.log ++ [⟨rf.currentTerm, command⟩] },
        rf.lastLogIndex + 1, rf.currentTerm, true)
  else some (rf, rf.lastLogIndex, rf.currentTerm, false)

/-- One iteration of the loop of `apply`: at most one message for the channel.
Source: `raft.go` `apply` -/
def apply (rf : Raft n C) : Option (Raft n C × Option (ApplyMsg C)) :=
  if rf.commitIndex > rf.lastApplied then
    let rf := { rf with lastApplied := rf.lastApplied + 1 }
    (Slice.get? rf.log rf.lastApplied).map fun entry =>
      (rf, some { commandValid := true, command := entry.command,
                  commandIndex := rf.lastApplied })
  else some (rf, none)

end Raft

end GoLabs.Consensus
