import GoLabs.Porcupine.Bitset
import GoLabs.Porcupine.Entries

/-!
# The search of the linearizability checker

`checkSingle` looks for a linearization of one history. It walks along the list of the entries that
are left. At a call it asks the model whether the operation can take effect now. If so, and if the
operations linearized so far have not led to the same state before, it takes the operation out of
the list and starts again at the front. At a return it has to take back the last operation, or gives
up if there is none. It is done when the list is empty.

The functions here are those of the source. An iteration of its loop is `checkStep`, on the
variables of the loop (`CheckState`) and what is fixed before it (`Setup`). A nil pointer, an index
out of range and a value of the wrong type end the program: `none`.
-/

namespace GoLabs.Porcupine

open GoLabs.Lib

variable {ι ο σ : Type}

/-! ## Models -/

/-- What is to be checked, as the user gives it. The functions that describe operations and states
for a visualization are left out.
Source: `model.go` `Model` -/
structure Model (ι ο σ : Type) where
  partition : Option (List (Operation ι ο) → List (List (Operation ι ο)))
  partitionEvent : Option (List (Event ℤ ι ο) → List (List (Event ℤ ι ο)))
  init : σ
  step : σ → ι → ο → Bool × σ
  equal : Option (σ → σ → Bool)

/-- A model with all its functions. -/
structure FullModel (ι ο σ : Type) where
  partition : List (Operation ι ο) → List (List (Operation ι ο))
  partitionEvent : List (Event ℤ ι ο) → List (List (Event ℤ ι ο))
  init : σ
  step : σ → ι → ο → Bool × σ
  equal : σ → σ → Bool

/-- Source: `model.go` `NoPartition` -/
def noPartition (history : List (Operation ι ο)) : List (List (Operation ι ο)) := [history]

/-- Source: `model.go` `NoPartitionEvent` -/
def noPartitionEvent (history : List (Event ℤ ι ο)) : List (List (Event ℤ ι ο)) := [history]

/-- Go compares the two interface values, and panics if their type cannot be compared (a slice, a
map or a function). States that can be compared are those with `DecidableEq` here, so the panic is
left out.
Source: `model.go` `ShallowEqual` -/
def shallowEqual [DecidableEq σ] (state1 state2 : σ) : Bool := decide (state1 = state2)

/-- Source: `checker.go` `fillDefault` -/
def fillDefault [DecidableEq σ] (model : Model ι ο σ) : FullModel ι ο σ where
  partition := model.partition.getD noPartition
  partitionEvent := model.partitionEvent.getD noPartitionEvent
  init := model.init
  step := model.step
  equal := model.equal.getD shallowEqual

/-! ## The cache -/

/-- Source: `checker.go` `cacheEntry` -/
structure CacheEntry (σ : Type) where
  linearized : Bitset
  state : σ

/-- A map from hashes to the entries with this hash. -/
abbrev Cache (σ : Type) := BitVec 64 → List (CacheEntry σ)

/-- Source: `checker.go` `cacheContains` -/
def cacheContains (model : FullModel ι ο σ) (cache : Cache σ) (entry : CacheEntry σ) : Bool :=
  (cache entry.linearized.hash).any fun elem =>
    entry.linearized.equals elem.linearized && model.equal entry.state elem.state

/-! ## Taking entries out of the list -/

/-- The node of the return of a call. -/
def matchOf (nodes : List (Node ι ο)) (entry : ℕ) : Option ℕ :=
  match nodes[entry]? with
  | none => none
  | some node => node.matching

/-- Source: `checker.go` `lift` -/
def lift (nodes : List (Node ι ο)) (L : Links) (entry : ℕ) : Option Links := do
  let prev ← L.prev entry
  let L := L.setNext prev (L.next entry)
  let next ← L.next entry
  let L := L.setPrev next (L.prev entry)
  let m ← matchOf nodes entry
  let prev ← L.prev m
  let L := L.setNext prev (L.next m)
  return L.setPrevOf (L.next m) (L.prev m)

/-- Source: `checker.go` `unlift` -/
def unlift (nodes : List (Node ι ο)) (L : Links) (entry : ℕ) : Option Links := do
  let m ← matchOf nodes entry
  let prev ← L.prev m
  let L := L.setNext prev (some m)
  let L := L.setPrevOf (L.next m) (some m)
  let prev ← L.prev entry
  let L := L.setNext prev (some entry)
  let next ← L.next entry
  return L.setPrev next (some entry)

/-! ## The loop -/

/-- A call that has been linearized, and the state before it.
Source: `checker.go` `callsEntry` -/
structure CallsEntry (σ : Type) where
  entry : ℕ
  state : σ

/-- The slice `longest` with the sequences that it points to, which are known by their addresses. -/
structure Longest where
  seqs : List (List ℕ)
  pointers : List (Option ℕ)

/-- What does not change in the loop. -/
structure Setup (ι ο σ : Type) where
  model : FullModel ι ο σ
  nodes : List (Node ι ο)
  headEntry : ℕ
  computePartial : Bool

/-- The variables of the loop. -/
structure CheckState (σ : Type) where
  links : Links
  entry : Option ℕ
  linearized : Bitset
  cache : Cache σ
  calls : List (CallsEntry σ)
  longest : Longest
  state : σ

/-- The sequence of the ids of the calls. -/
def callIds (nodes : List (Node ι ο)) (calls : List (CallsEntry σ)) : Option (List ℕ) :=
  calls.mapM fun v => (nodes[v.entry]?).map Node.id

/-- `longest[id] == nil || callsLen > len(*longest[id])` -/
def Longest.isLonger (x : Longest) (callsLen id : ℕ) : Option Bool :=
  match x.pointers[id]? with
  | none => none
  | some none => some true
  | some (some a) => (x.seqs[a]?).map fun seq => decide (seq.length < callsLen)

/-- An iteration of the loop over the calls, which makes the sequence when it is needed first. Its
address is kept in `seq`. -/
def Longest.note (ids : List ℕ) (x : Longest × Option ℕ) (id : ℕ) : Option (Longest × Option ℕ) :=
  match x.1.isLonger ids.length id with
  | none => none
  | some false => some x
  | some true =>
      let (seqs, a) := match x.2 with
        | some a => (x.1.seqs, a)
        | none => (x.1.seqs ++ [ids], x.1.seqs.length)
      some (⟨seqs, x.1.pointers.set id (some a)⟩, some a)

/-- The sequence of the calls is kept for those that it is longest for. -/
def Longest.noteAll (x : Longest) (ids : List ℕ) : Option Longest :=
  (ids.foldlM (Longest.note ids) (x, none)).map Prod.fst

/-- `longest` after the search has ended with all operations linearized. -/
def Longest.complete (x : Longest) (ids : List ℕ) : Longest :=
  ⟨x.seqs ++ [ids], List.replicate x.pointers.length (some x.seqs.length)⟩

namespace Setup

variable (C : Setup ι ο σ)

/-- The call `entry` is linearized. -/
def push (x : CheckState σ) (entry : ℕ) (id : ℕ) (newEntry : CacheEntry σ) :
    Option (CheckState σ) := do
  let hash := newEntry.linearized.hash
  let linearized ← x.linearized.set id
  let links ← lift C.nodes x.links entry
  return {
    links := links
    entry := links.next C.headEntry
    linearized := linearized
    cache := Function.update x.cache hash (x.cache hash ++ [newEntry])
    calls := x.calls ++ [⟨entry, x.state⟩]
    longest := x.longest
    state := newEntry.state }

/-- The iteration at the call `entry`. -/
def onCall (x : CheckState σ) (entry : ℕ) (node : Node ι ο) (m : ℕ) : Option (CheckState σ) := do
  let matching ← C.nodes[m]?
  let input ← node.value.getLeft?
  let output ← matching.value.getRight?
  let (ok, newState) := C.model.step x.state input output
  let skip : CheckState σ := { x with entry := x.links.next entry }
  if ok then
    let newLinearized ← x.linearized.clone.set node.id
    let newCacheEntry := ⟨newLinearized, newState⟩
    if !cacheContains C.model x.cache newCacheEntry then C.push x entry node.id newCacheEntry
    else return skip
  else return skip

/-- `longest` when the search has to take back a call. -/
def noteCalls (x : CheckState σ) : Option Longest :=
  if C.computePartial then
    match callIds C.nodes x.calls with
    | none => none
    | some ids => x.longest.noteAll ids
  else some x.longest

/-- The last call is taken back. -/
def pop (x : CheckState σ) (callsTop : CallsEntry σ) : Option (CheckState σ) := do
  let longest ← C.noteCalls x
  let node ← C.nodes[callsTop.entry]?
  let linearized ← x.linearized.clear node.id
  let links ← unlift C.nodes x.links callsTop.entry
  return { x with
    links := links
    entry := links.next callsTop.entry
    linearized := linearized
    calls := x.calls.dropLast
    longest := longest
    state := callsTop.state }

/-- The end of the loop, when the list is empty. -/
def finish (x : CheckState σ) : Option Longest :=
  match callIds C.nodes x.calls with
  | none => none
  | some ids => some (x.longest.complete ids)

/-- **An iteration of the loop of `checkSingle`**, where `killed` is what it reads from `kill`.
Source: `checker.go` `checkSingle` -/
def checkStep (killed : Bool) (x : CheckState σ) : Option (CheckState σ ⊕ Bool × Longest) :=
  match x.links.next C.headEntry with
  | none => (C.finish x).map fun longest => .inr (true, longest)
  | some _ =>
      if killed then some (.inr (false, x.longest))
      else
        match x.entry with
        | none => none
        | some entry =>
            match C.nodes[entry]? with
            | none => none
            | some node =>
                match node.matching with
                | some m => (C.onCall x entry node m).map .inl
                | none =>
                    match x.calls.getLast? with
                    | none => some (.inr (false, x.longest))
                    | some callsTop => (C.pop x callsTop).map .inl

end Setup

/-- What `checkSingle` sets up before its loop.
Source: `checker.go` `checkSingle` -/
def checkSetup (model : FullModel ι ο σ) (history : List (Entry ι ο)) (computePartial : Bool) :
    Option (Setup ι ο σ × CheckState σ) := do
  let linking := makeLinkedEntries history
  let len ← length linking.links (history.length + 1) linking.root
  let n := len / 2
  let headEntry := linking.nodes.length
  return (⟨model, linking.nodes, headEntry, computePartial⟩, {
    links := insertBefore linking.links headEntry linking.root
    entry := linking.root
    linearized := newBitset n
    cache := fun _ => []
    calls := []
    longest := ⟨[], List.replicate n none⟩
    state := model.init })

/-- An iteration of the loop of `checkSingle` and the number of iterations before it, where `kill i`
is what is read from `kill` in the iteration `i`. -/
def Setup.iteration (C : Setup ι ο σ) (kill : ℕ → Bool) (ix : ℕ × CheckState σ) :
    Option (ℕ × CheckState σ ⊕ Bool × Longest) :=
  (C.checkStep (kill ix.1) ix.2).map (Sum.map (fun y => (ix.1 + 1, y)) id)

/-- The whole of `checkSingle`. `none` also if the bound on the number of iterations is too low.
Source: `checker.go` `checkSingle` -/
def checkSingle (model : FullModel ι ο σ) (history : List (Entry ι ο)) (computePartial : Bool)
    (kill : ℕ → Bool) (fuel : ℕ) : Option (Bool × Longest) :=
  match checkSetup model history computePartial with
  | none => none
  | some (C, x) => loop (C.iteration kill) fuel (0, x)

end GoLabs.Porcupine
