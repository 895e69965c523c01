import GoLabs.Lib.Bytes
import GoLabs.Porcupine.Entries

/-!
# The key/value model of the linearizability checker

`KvModel` tells the checker what a key/value store is. It does so for the value of one key only, and
`Partition` cuts a history into the histories of its keys. The documentation of `Model` asks that a
history be linearizable if and only if each of its partitions is. `store` states what is meant, a
store that has a value for every key, and `partition_sound` says that this holds for the histories
whose operations return no earlier than they are called.

The store is the product of one `KvModel` for each key (`store_eq_product`), so this is the locality
of linearizability (`linearizable_product_iff`), once it is known what the loop of `Partition`
collects (`collect_eq`).
-/

namespace GoLabs.Porcupine

open GoLabs.Lib

/-! ## Operations -/

/-- `op` is 0 for get, 1 for put and anything else for append.
Source: `kv.go` `KvInput` -/
structure KvInput where
  op : UInt8
  key : Str
  value : Str
  deriving DecidableEq

/-- Source: `kv.go` `KvOutput` -/
structure KvOutput where
  value : Str
  deriving DecidableEq

/-- An operation of a history of a key/value store. -/
abbrev KvOperation := Operation KvInput KvOutput

/-- The key that an operation is about. -/
def Operation.key (v : KvOperation) : Str := v.input.key

/-! ## The model -/

namespace KvModel

/-- A Go map of type `map[string][]porcupine.Operation`. -/
abbrev Parts := AList fun _ : Str => List KvOperation

/-- `m[key]`, which is nil for a key that the map does not have. -/
def get (m : Parts) (key : Str) : List KvOperation := (m.lookup key).getD []

/-- The map that the first loop of `Partition` builds. -/
def collect (history : List KvOperation) : Parts :=
  history.foldl (fun m v => m.insert v.key (get m v.key ++ [v])) ∅

/-- How Go goes through the keys of a map and sorts them. -/
structure Keys where
  /-- `for k := range m` -/
  range : List Str → List Str
  /-- `sort.Strings(keys)` -/
  sort : List Str → List Str
  range_perm : ∀ keys, (range keys).Perm keys
  sort_perm : ∀ keys, (sort keys).Perm keys
  sort_ordered : ∀ keys, (sort keys).Pairwise (· ≤ ·)

/-- Source: `kv.go` `KvModel.Partition` -/
def partition (K : Keys) (history : List KvOperation) : List (List KvOperation) :=
  let m := collect history
  let keys := K.sort (K.range m.keys)
  keys.map (get m)

/-- Source: `kv.go` `KvModel.Init` -/
def init : Str := []

/-- Source: `kv.go` `KvModel.Step` -/
def step (state : Str) (input : KvInput) (output : KvOutput) : Bool × Str :=
  if input.op = 0 then (output.value = state, state)
  else if input.op = 1 then (true, input.value)
  else (true, state ++ input.value)

end KvModel

/-- The object of one key, as the checker uses it. -/
def kvModel : Spec Str KvOperation where
  init := KvModel.init
  step state v := KvModel.step state v.input v.output

/-- **A key/value store**: it has a string for every key, the empty one at first. A get answers with
the string of its key, a put replaces it and an append extends it. -/
def store : Spec (Str → Str) KvOperation where
  init := fun _ => []
  step values v :=
    if v.input.op = 0 then (v.output.value = values v.key, values)
    else if v.input.op = 1 then (true, Function.update values v.key v.input.value)
    else (true, Function.update values v.key (values v.key ++ v.input.value))

/-- The history is linearizable with respect to the object. -/
def IsLinearizable {σ : Type} (P : Spec σ KvOperation) (history : List KvOperation) : Prop :=
  Linearizable Operation.call Operation.ret P history

instance decidableIsLinearizable {σ : Type} (P : Spec σ KvOperation) (history : List KvOperation) :
    Decidable (IsLinearizable P history) := decidableLinearizable _ _ P history

/-- The store has one object of the model for each key. -/
lemma store_eq_product : store = kvModel.product Operation.key := by
  have hstep : store.step = (kvModel.product Operation.key).step := by
    funext values v
    simp only [store, kvModel, Spec.product, KvModel.step]
    split_ifs with hget hput
    · rw [Function.update_eq_self]
    · rfl
    · rfl
  calc store = ⟨store.init, store.step⟩ := rfl
    _ = kvModel.product Operation.key := by rw [hstep]; rfl

/-! ## Partition -/

namespace KvModel

/-- `m[key] = vs` sets the operations of one key. -/
lemma get_insert (m : Parts) (key : Str) (vs : List KvOperation) (k : Str) :
    get (m.insert key vs) k = if k = key then vs else get m k := by
  unfold get
  split_ifs with hk
  · rw [hk, AList.lookup_insert, Option.getD_some]
  · rw [AList.lookup_insert_ne hk]

/-- **What the loop collects**: for each key of the history its operations, in their order. -/
lemma collect_spec (history : List KvOperation) (k : Str) :
    get (collect history) k = history.filter (fun v => v.key = k) ∧
      (k ∈ collect history ↔ ∃ v ∈ history, v.key = k) := by
  induction history using List.reverseRecOn with
  | nil => simp [collect, get]
  | append_singleton history v ih =>
      have hstep : collect (history ++ [v]) =
          (collect history).insert v.key (get (collect history) v.key ++ [v]) := by
        simp [collect]
      obtain ⟨hget, hmem⟩ := ih
      rw [hstep, get_insert, AList.mem_insert, hmem, List.filter_append]
      by_cases hk : k = v.key
      · subst hk
        simp [hget]
      · simp [hk, Ne.symm hk, hget]

/-- The keys that the second loop goes through. -/
def keys (K : Keys) (history : List KvOperation) : List Str :=
  K.sort (K.range (collect history).keys)

/-- The second loop goes through the keys of the map. -/
lemma keys_perm (K : Keys) (history : List KvOperation) :
    (keys K history).Perm (collect history).keys := (K.sort_perm _).trans (K.range_perm _)

/-- It comes to no key twice. -/
lemma nodup_keys (K : Keys) (history : List KvOperation) : (keys K history).Nodup :=
  (keys_perm K history).nodup_iff.mpr (AList.keys_nodup _)

/-- The keys are those of the operations. -/
lemma mem_keys {K : Keys} {history : List KvOperation} {k : Str} :
    k ∈ keys K history ↔ ∃ v ∈ history, v.key = k :=
  (keys_perm K history).mem_iff.trans (collect_spec history k).2

/-- The parts are the operations of the keys, one part for each key. -/
lemma partition_eq (K : Keys) (history : List KvOperation) :
    partition K history = (keys K history).map fun k => history.filter fun v => v.key = k :=
  List.map_congr_left fun k _ => (collect_spec history k).1

/-- The order of `range` does not matter. -/
lemma partition_unique (K K' : Keys) (history : List KvOperation) :
    partition K history = partition K' history := by
  have hkeys : keys K history = keys K' history := by
    refine List.Perm.eq_of_pairwise ?_ (K.sort_ordered _) (K'.sort_ordered _)
      ((keys_perm K history).trans (keys_perm K' history).symm)
    exact fun a b _ _ => le_antisymm
  rw [partition_eq, partition_eq, hkeys]

/-- A history of the store is linearizable iff its parts are: locality, and a key without operations
has no part. -/
lemma store_iff (K : Keys) {history : List KvOperation} (htime : ∀ v ∈ history, v.call ≤ v.ret) :
    IsLinearizable store history ↔ ∀ part ∈ partition K history, IsLinearizable kvModel part := by
  unfold IsLinearizable
  rw [store_eq_product, linearizable_product_iff kvModel Operation.key htime, partition_eq,
    List.forall_mem_map]
  refine ⟨fun h k _ => h k, fun h k => ?_⟩
  by_cases hk : k ∈ keys K history
  · exact h k hk
  · have hnone : (history.filter fun v => v.key = k) = [] := by
      refine List.filter_eq_nil_iff.mpr fun v hv heq => hk ?_
      exact mem_keys.mpr ⟨v, hv, of_decide_eq_true heq⟩
    rw [hnone]
    exact ⟨[], List.Perm.refl _, List.Pairwise.nil, rfl⟩

end KvModel

/-- **Checking key by key is sound and complete**, and `Partition` loses, duplicates and reorders
nothing: the parts together have the operations of the history, no operation is in two of them, and
each of them has its operations in the order of the history. -/
theorem partition_sound (K : KvModel.Keys) (history : List KvOperation) :
    ((∀ v ∈ history, v.call ≤ v.ret) →
      (IsLinearizable store history ↔
        ∀ part ∈ KvModel.partition K history, IsLinearizable kvModel part)) ∧
    (KvModel.partition K history).flatten.Perm history ∧
    (KvModel.partition K history).Pairwise List.Disjoint ∧
    ∀ part ∈ KvModel.partition K history, part.Sublist history := by
  have hmem : ∀ part ∈ KvModel.partition K history,
      ∃ k ∈ KvModel.keys K history, part = history.filter fun v => v.key = k := by
    intro part hpart
    rw [KvModel.partition_eq, List.mem_map] at hpart
    obtain ⟨k, hk, rfl⟩ := hpart
    exact ⟨k, hk, rfl⟩
  refine ⟨KvModel.store_iff K, ?_, ?_, ?_⟩
  · rw [KvModel.partition_eq, ← List.flatMap_def]
    exact perm_flatMap_filter (KvModel.nodup_keys K history) fun v hv =>
      KvModel.mem_keys.mpr ⟨v, hv, rfl⟩
  · rw [KvModel.partition_eq, List.pairwise_map]
    refine (KvModel.nodup_keys K history).imp fun {k k'} hne v hv hv' => hne ?_
    have hkey : v.key = k := by simpa using (List.mem_filter.mp hv).2
    have hkey' : v.key = k' := by simpa using (List.mem_filter.mp hv').2
    exact hkey.symm.trans hkey'
  · intro part hpart
    obtain ⟨k, -, rfl⟩ := hmem part hpart
    exact List.filter_sublist

/-- Keys in the order of the list, sorted by insertion. -/
def sampleKeys : KvModel.Keys where
  range := id
  sort := List.insertionSort (· ≤ ·)
  range_perm _ := List.Perm.refl _
  sort_perm := List.perm_insertionSort _
  sort_ordered := List.pairwise_insertionSort _

/-- A put that overlaps a get of the same key, and an append to another key before a get of it. -/
def sampleHistory : List KvOperation :=
  [⟨0, ⟨1, ascii "x", ascii "1"⟩, 0, ⟨[]⟩, 10⟩, ⟨1, ⟨2, ascii "y", ascii "2"⟩, 1, ⟨[]⟩, 2⟩,
    ⟨2, ⟨0, ascii "x", []⟩, 3, ⟨ascii "1"⟩, 4⟩, ⟨1, ⟨0, ascii "y", []⟩, 5, ⟨ascii "2"⟩, 6⟩]

/-- Its two parts are linearizable, and so is the whole. -/
theorem partition_sound_sample :
    (∀ v ∈ sampleHistory, v.call ≤ v.ret) ∧
      (KvModel.partition sampleKeys sampleHistory).length = 2 ∧
      IsLinearizable store sampleHistory := by
  have htime : ∀ v ∈ sampleHistory, v.call ≤ v.ret := by decide
  refine ⟨htime, by decide, ?_⟩
  exact ((partition_sound sampleKeys sampleHistory).1 htime).mpr (by decide)

/-- A get that misses a put which had returned before it was called. -/
example : ¬ IsLinearizable store
    [⟨0, ⟨1, ascii "x", ascii "1"⟩, 0, ⟨[]⟩, 1⟩, ⟨1, ⟨0, ascii "x", []⟩, 2, ⟨[]⟩, 3⟩] := by
  decide

end GoLabs.Porcupine
