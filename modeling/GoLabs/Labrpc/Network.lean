import Mathlib
import GoLabs.Lib.Run

/-!
# The simulated network

`labrpc.go` runs the calls of all client ends over one `Network`. A `Call` hands its request to the
network's loop, which starts a goroutine `processReq` for it. That one reads once to which server
the end is connected, starts a second goroutine for the handler, waits for it while it polls whether
the server is still there, looks a last time, and answers, at once or by a timer. Meanwhile the
tester enables and disables ends, connects them and adds and deletes servers.

A step of `network` is one operation under the network's mutex, one communication on a channel, or
one step of a handler. What the source decides by a random number (to drop a request, to drop or to
delay a reply) is a part of the action. There is no clock: a timer may fire at any time, so what
only chooses how long one sleeps is left out.

The names of the ends (`E`) and of the servers (`N`), the server objects (`P`) and the bytes of the
replies (`B`) may be anything.
-/

namespace GoLabs.Labrpc

open GoLabs.Lib

/-! ## State -/

/-- Source: `labrpc.go` `replyMsg` -/
structure ReplyMsg (B : Type) where
  ok : Bool
  reply : Option B

/-- `replyMsg{false, nil}` -/
def ReplyMsg.failed {B : Type} : ReplyMsg B := ⟨false, none⟩

/-- What `readEndnameInfo` returns. -/
structure EndnameInfo (N P : Type) where
  enabled : Bool
  servername : Option N
  server : Option P
  reliable : Bool
  longreordering : Bool

/-- Where `Call` is. -/
inductive CallPc
  /-- Before `e.ch <- req` -/
  | sending
  /-- Before `rep := <-req.replyCh` -/
  | waiting
  | returned (ok : Bool)
  deriving DecidableEq

/-- Where `processReq` is. -/
inductive ReqPc
  /-- The network has not got the request. -/
  | unsent
  /-- Before `readEndnameInfo` -/
  | start
  /-- The end is connected to a server; the request may be dropped. -/
  | connected
  /-- In the loop, which waits for the handler and polls. -/
  | waiting
  /-- Before the last `isServerDead` -/
  | checking
  /-- Before the answer -/
  | answering
  | done
  deriving DecidableEq

/-- Where the goroutine of the handler is. -/
inductive HandlerPc (P B : Type)
  | none
  /-- Before `server.dispatch(req)` -/
  | spawned (server : P)
  | running (server : P)
  /-- Before `ech <- r` -/
  | returned (r : ReplyMsg B)
  | gone

/-- A call, with the local variables of `processReq` and the goroutines that work for it. -/
structure Request (E N P B : Type) where
  endname : E
  caller : CallPc
  pc : ReqPc
  info : EndnameInfo N P
  /-- The reply of the handler, if `replyOK`. -/
  reply : Option (ReplyMsg B)
  serverDead : Bool
  handler : HandlerPc P B
  /-- A goroutine is there to drain `ech`. -/
  draining : Bool
  /-- What the timers of `time.AfterFunc` that have not fired yet will send. -/
  timers : List (ReplyMsg B)
  /-- Everything that was ever sent on `replyCh`. -/
  sent : List (ReplyMsg B)

/-- The network and all calls made so far. -/
structure Network (E N P B : Type) where
  reliable : Bool
  longReordering : Bool
  ends : E → Bool
  enabled : E → Bool
  servers : N → Option P
  connections : E → Option N
  /-- The channel `done` has been closed. -/
  done : Bool
  /-- The loop of `MakeNetwork` is running. -/
  serving : Bool
  calls : List (Request E N P B)

/-- The steps of the goroutines of one call. -/
inductive ReqAction (B : Type)
  /-- The loop of the network takes the request. -/
  | accept
  /-- `Call` finds the network cleaned up. -/
  | giveUp
  | readEndnameInfo
  /-- The request is dropped, or the handler is started. -/
  | request (drop : Bool)
  /-- The goroutine of the handler calls `dispatch`. -/
  | dispatch
  /-- The handler returns. -/
  | complete (reply : B)
  /-- `reply = <-ech` -/
  | receive
  /-- 100 ms have passed. -/
  | poll
  /-- The goroutine that was started for it drains `ech`. -/
  | drain
  /-- The last `isServerDead` -/
  | recheck
  | answer (drop delay : Bool)
  /-- A timer of `time.AfterFunc` fires. -/
  | fire (k : ℕ)
  /-- `Call` gets a reply. -/
  | wake

/-- What can happen next. -/
inductive Action (E N P B : Type)
  | makeEnd (e : E)
  | addServer (n : N) (p : P)
  | deleteServer (n : N)
  | connect (e : E) (n : Option N)
  | enable (e : E) (yes : Bool)
  | setReliable (yes : Bool)
  | setLongReordering (yes : Bool)
  | cleanup
  /-- The loop finds the network cleaned up. -/
  | stop
  /-- `Call` is called. -/
  | call (e : E)
  | req (c : ℕ) (a : ReqAction B)

variable {E N P B : Type}

/-! ## The goroutines of a call -/

namespace Network

/-- Source: `labrpc.go` `readEndnameInfo` -/
def readEndnameInfo (rn : Network E N P B) (endname : E) : EndnameInfo N P where
  enabled := rn.enabled endname
  servername := rn.connections endname
  server := (rn.connections endname).bind rn.servers
  reliable := rn.reliable
  longreordering := rn.longReordering

/-- Source: `labrpc.go` `isServerDead` -/
def isServerDead [DecidableEq P] (rn : Network E N P B) (endname : E) (servername : Option N)
    (server : Option P) : Bool :=
  rn.enabled endname = false ∨ servername.bind rn.servers ≠ server

end Network

namespace Request

/-- A call that has just been made. -/
def new (e : E) : Request E N P B where
  endname := e
  caller := .sending
  pc := .unsent
  info := ⟨false, none, none, false, false⟩
  reply := none
  serverDead := false
  handler := .none
  draining := false
  timers := []
  sent := []

/-- One step of `processReq` that sends a message and returns. -/
def send (q : Request E N P B) (msg : ReplyMsg B) : Request E N P B :=
  { q with pc := .done, sent := q.sent ++ [msg] }

/-- One step of `processReq` that leaves a message to a timer and returns. -/
def delay (q : Request E N P B) (msg : ReplyMsg B) : Request E N P B :=
  { q with pc := .done, timers := q.timers ++ [msg] }

/-- The end of `processReq`.
Source: `labrpc.go` `processReq` -/
def answer (q : Request E N P B) (drop late : Bool) : Request E N P B :=
  match q.reply with
  | none => q.send .failed
  | some reply =>
      if q.serverDead then q.send .failed
      else if q.info.reliable = false ∧ drop then q.send .failed
      else if q.info.longreordering ∧ late then q.delay reply
      else q.send reply

/-- One step of a goroutine of a call.
Source: `labrpc.go` `Call`, `MakeNetwork`, `processReq` -/
def step [DecidableEq P] (rn : Network E N P B) (q : Request E N P B) :
    ReqAction B → Option (Request E N P B)
  | .accept =>
      if q.caller = .sending ∧ rn.serving then some { q with caller := .waiting, pc := .start }
      else none
  | .giveUp =>
      if q.caller = .sending ∧ rn.done then some { q with caller := .returned false } else none
  | .readEndnameInfo =>
      if q.pc = .start then
        let info := rn.readEndnameInfo q.endname
        if info.enabled ∧ info.servername.isSome ∧ info.server.isSome then
          some { q with pc := .connected, info := info }
        else some ({ q with info := info }.delay .failed)
      else none
  | .request drop =>
      match q.pc, q.info.server with
      | .connected, some server =>
          if q.info.reliable = false ∧ drop then some (q.send .failed)
          else some { q with pc := .waiting, handler := .spawned server }
      | _, _ => none
  | .dispatch =>
      match q.handler with
      | .spawned server => some { q with handler := .running server }
      | _ => none
  | .complete reply =>
      match q.handler with
      | .running _ => some { q with handler := .returned ⟨true, some reply⟩ }
      | _ => none
  | .receive =>
      match q.pc, q.handler with
      | .waiting, .returned r => some { q with pc := .checking, reply := some r, handler := .gone }
      | _, _ => none
  | .poll =>
      if q.pc = .waiting then
        if rn.isServerDead q.endname q.info.servername q.info.server then
          some { q with pc := .checking, serverDead := true, draining := true }
        else some { q with serverDead := false }
      else none
  | .drain =>
      match q.draining, q.handler with
      | true, .returned _ => some { q with handler := .gone, draining := false }
      | _, _ => none
  | .recheck =>
      if q.pc = .checking then
        some { q with
          pc := .answering
          serverDead := rn.isServerDead q.endname q.info.servername q.info.server }
      else none
  | .answer drop late => if q.pc = .answering then some (q.answer drop late) else none
  | .fire k =>
      (q.timers[k]?).map fun msg =>
        { q with timers := q.timers.eraseIdx k, sent := q.sent ++ [msg] }
  | .wake =>
      match q.caller, q.sent with
      | .waiting, rep :: _ => some { q with caller := .returned rep.ok }
      | _, _ => none

end Request

/-! ## The network -/

namespace Network

variable [DecidableEq E] [DecidableEq N] [DecidableEq P]

/-- One step of the network.
Source: `labrpc.go` `MakeEnd`, `AddServer`, `DeleteServer`, `Connect`, `Enable`, `Reliable`,
`LongReordering`, `Cleanup`, `MakeNetwork`, `Call` -/
def step (rn : Network E N P B) : Action E N P B → Option (Network E N P B)
  | .makeEnd e =>
      if rn.ends e then none
      else some { rn with
        ends := Function.update rn.ends e true
        enabled := Function.update rn.enabled e false
        connections := Function.update rn.connections e none }
  | .addServer n p => some { rn with servers := Function.update rn.servers n (some p) }
  | .deleteServer n => some { rn with servers := Function.update rn.servers n none }
  | .connect e n => some { rn with connections := Function.update rn.connections e n }
  | .enable e yes => some { rn with enabled := Function.update rn.enabled e yes }
  | .setReliable yes => some { rn with reliable := yes }
  | .setLongReordering yes => some { rn with longReordering := yes }
  | .cleanup => if rn.done then none else some { rn with done := true }
  | .stop => if rn.done then some { rn with serving := false } else none
  | .call e => if rn.ends e then some { rn with calls := rn.calls ++ [.new e] } else none
  | .req c a =>
      (rn.calls[c]?).bind fun q =>
        (q.step rn a).map fun q' => { rn with calls := rn.calls.set c q' }

/-- Source: `labrpc.go` `MakeNetwork` -/
def make : Network E N P B where
  reliable := true
  longReordering := false
  ends := fun _ => false
  enabled := fun _ => false
  servers := fun _ => none
  connections := fun _ => none
  done := false
  serving := true
  calls := []

end Network

/-- **The network**, with ends `E`, names of servers `N`, server objects `P` and replies `B`. -/
def network (E N P B : Type) [DecidableEq E] [DecidableEq N] [DecidableEq P] :
    System (Network E N P B) (Action E N P B) where
  init := Network.make
  step := Network.step

/-- The steps of a run of the network, the latest one first. -/
abbrev Trace (E N P B : Type) := List (Network E N P B × Action E N P B)

end GoLabs.Labrpc
