import GoLabs.Lib.Bytes
import GoLabs.Lib.Marking

/-!
# The warnings of labgob

Everything that goes over the simulated network or to the persister is encoded by `labgob`, which
looks at the types first and complains about fields that `gob` would silently drop. Any number of
goroutines do so at the same time. They share the table `checked` of the types that were looked at
and the number of errors; the lock is held for one access only.

A call is what `Encode`, `Register` or `Decode` checks. A step of `labgob` is one critical section
or one `Printf` of a goroutine, and `checkType` together with the calls it makes is a list of things
that are still to do (`Todo`), so that the threads of `Marking` do the same.

* `labgob_exact` — when all calls have returned, exactly the types that they mention, directly or
  through other types, have been looked at. Every lower-case field of them was reported once, in
  whatever order the goroutines ran.
* `labgob_returns` — the calls return, also for recursive types. There are two exceptions. A
  `Decode` may look for a value in a lower-case field: `reflect` lets nobody read such a field, so
  `checkDefault1` panics there. And `nil` has no type, so `checkType` panics before `checkDefault`
  gets to see that it is `nil`. A goroutine that panics takes no more steps; in the program all
  others end with it.

What `gob` does after the checks is left out: a call returns here when its checks are done.
-/

namespace GoLabs.Labgob

open GoLabs.Lib

/-! ## Types and values -/

/-- Source: `labgob.go` `checkType` (`reflect.StructField`) -/
structure Field (T : Type) where
  name : Str
  type : T

/-- What `checkType` distinguishes. -/
inductive Kind (T : Type)
  | struct (fields : List (Field T))
  /-- `reflect.Slice`, `reflect.Array` or `reflect.Ptr` -/
  | elem (t : T)
  | map (elem key : T)
  | other

/-- What `reflect` and `unicode` say about the types and names of the program. -/
structure Types (T : Type) where
  kind : T → Kind T
  name : T → Str
  /-- `unicode.IsUpper` of the first rune of a name. A field is exported if this holds. -/
  isUpper : Str → Bool

/-- What `checkDefault1` distinguishes. -/
inductive Value (T : Type)
  /-- The fields: the name, whether the field is embedded, and the value. -/
  | struct (fields : List (Str × Bool × Value T))
  /-- A pointer, `none` if it is nil. -/
  | ptr (elem : Option (Value T))
  /-- A number, a bool or a string: its type, and whether it is the zero value. -/
  | basic (t : T) (zero : Bool)
  | other

variable {T : Type}

/-- What `reflect` keeps with a value about the fields that lead to it. A value with one of the last
two may not be read. That a field is embedded is forgotten in the fields of its value. -/
inductive Flag
  | exported
  /-- `flagEmbedRO` -/
  | embedRO
  /-- `flagStickyRO` -/
  | stickyRO
  deriving DecidableEq

/-- The flag of a field, from that of the struct. -/
def Types.fieldFlag (Γ : Types T) (flag : Flag) (name : Str) (embedded : Bool) : Flag :=
  if flag = .stickyRO then .stickyRO
  else if Γ.isUpper name then .exported
  else if embedded then .embedRO
  else .stickyRO

/-! ## What a call does -/

/-- What a goroutine does under the lock or prints, apart from the table `checked`. -/
inductive Effect
  | printf (text : Str)
  /-- `errorCount += 1` -/
  | count
  /-- The critical section of `checkDefault1`. -/
  | warn (what : Str)
  /-- `value.Interface()` on a value that may not be read, or `t.Kind()` without a type. -/
  | panic
  deriving DecidableEq

/-- Source: `labgob.go` `checkType` -/
def lowerCaseError (field type : Str) : Str :=
  ascii "labgob error: lower-case field " ++ field ++ ascii " of " ++ type ++
    ascii " in RPC or persist/snapshot will break your Raft\n"

/-- Source: `labgob.go` `checkDefault1` -/
def nonDefaultWarning (what : Str) : Str :=
  ascii "labgob warning: Decoding into a non-default variable/field " ++ what ++
    ascii " may not work\n"

/-- What `checkType` does for one field.
Source: `labgob.go` `checkType` -/
def Types.checkField (Γ : Types T) (t : T) (f : Field T) : List (Todo T Effect) :=
  (if Γ.isUpper f.name = false then
    [.emit (.printf (lowerCaseError f.name (Γ.name t))), .emit .count]
  else []) ++ [.visit f.type]

/-- What `checkType` does for a type that has not been looked at; `visit` is a call of `checkType`.
Source: `labgob.go` `checkType` -/
def Types.body (Γ : Types T) (t : T) : List (Todo T Effect) :=
  match Γ.kind t with
  | .struct fields => fields.flatMap (Γ.checkField t)
  | .elem e => [.visit e]
  | .map e k => [.visit e, .visit k]
  | .other => []

/-- The names that `checkDefault1` warns about; `none` is a panic. It starts at depth 1 and goes no
deeper than 3; `left` is the number of levels that are left.
Source: `labgob.go` `checkDefault1` -/
def Types.checkDefault1 (Γ : Types T) :
    (left : ℕ) → Flag → Value T → (name : Str) → List (Option Str)
  | 0, _, _, _ => []
  | left + 1, flag, .struct fields, name =>
      fields.flatMap fun f =>
        Γ.checkDefault1 left (Γ.fieldFlag flag f.1 f.2.1) f.2.2
          (if name ≠ [] then name ++ ascii "." ++ f.1 else f.1)
  | _ + 1, _, .ptr none, _ => []
  | left + 1, flag, .ptr (some v), name => Γ.checkDefault1 left flag v name
  | _ + 1, flag, .basic t zero, name =>
      -- the value is read to compare it with zero
      if flag ≠ .exported then [none]
      else if zero = false then [some (if name = [] then Γ.name t else name)] else []
  | _ + 1, _, .other, _ => []

/-- Source: `labgob.go` `checkDefault` -/
def Types.checkDefault (Γ : Types T) (v : Value T) : List (Option Str) :=
  Γ.checkDefault1 3 .exported v []

/-- A call of `Encode`, `EncodeValue`, `Register` or `RegisterName`, or one of `Decode`. -/
inductive Call (T : Type)
  | encode (t : T)
  | decode (t : T) (v : Value T)
  /-- Any of them with `nil`, for which `reflect.TypeOf` returns no type. An `EncodeValue` whose
  `reflect.Value` may not be read panics as early, in `value.Interface()`. -/
  | nil

/-- The type of the value of a call. -/
def Call.type? : Call T → Option T
  | encode t => some t
  | decode t _ => some t
  | nil => none

/-- What a call finds in the value: the names it warns about, and the panics. The one for `nil` is
that of `t.Kind()` in `checkType`. -/
def Call.found (Γ : Types T) : Call T → List (Option Str)
  | encode _ => []
  | decode _ v => Γ.checkDefault v
  | nil => [none]

/-- The names that a call warns about. -/
def Call.nonDefault (Γ : Types T) (call : Call T) : List Str := (call.found Γ).filterMap id

/-- The call reads a value that may not be read, or has no value at all. -/
def Call.Panics (Γ : Types T) (call : Call T) : Prop := none ∈ call.found Γ

/-- What is done about a finding. -/
def Effect.ofFound : Option Str → Effect
  | some what => warn what
  | none => panic

/-- What a call checks.
Source: `labgob.go` `Encode`, `EncodeValue`, `Decode`, `Register`, `RegisterName`, `checkValue` -/
def Call.checks (Γ : Types T) (call : Call T) : List (Todo T Effect) :=
  call.type?.toList.map .visit ++ (call.found Γ).map fun what => .emit (.ofFound what)

/-! ## The goroutines -/

/-- A call, and what it has still to check. -/
structure Goroutine (T : Type) where
  call : Call T
  todo : List (Todo T Effect)

/-- The variables of the package, what was printed, and the calls. -/
structure State (T : Type) where
  checked : T → Bool
  errorCount : ℕ
  printed : List Str
  calls : List (Goroutine T)

/-- What can happen next. -/
inductive Action (T : Type)
  | call (call : Call T)
  /-- A goroutine takes a step. -/
  | step (k : ℕ)

/-- A goroutine takes a step. -/
def Action.isStep : Action T → Bool
  | call _ => false
  | step _ => true

namespace State

/-- Source: `labgob.go` `checkType`, `checkDefault1` -/
def effect (st : State T) : Effect → Option (State T)
  | .printf text => some { st with printed := st.printed ++ [text] }
  | .count => some { st with errorCount := st.errorCount + 1 }
  | .warn what => some { st with
      printed := st.printed ++ if st.errorCount < 1 then [nonDefaultWarning what] else []
      errorCount := st.errorCount + 1 }
  | .panic => none

/-- One step.
Source: `labgob.go` `checkType`, `checkDefault1` -/
def step [DecidableEq T] (Γ : Types T) (st : State T) : Action T → Option (State T)
  | .call call => some { st with calls := st.calls ++ [⟨call, call.checks Γ⟩] }
  | .step k =>
      match st.calls[k]? with
      | some ⟨call, .visit t :: rest⟩ =>
          if st.checked t then some { st with calls := st.calls.set k ⟨call, rest⟩ }
          else some { st with
            checked := Function.update st.checked t true
            calls := st.calls.set k ⟨call, Γ.body t ++ rest⟩ }
      | some ⟨call, .emit e :: rest⟩ =>
          (st.effect e).map fun x => { x with calls := st.calls.set k ⟨call, rest⟩ }
      | _ => none

end State

/-- **The goroutines that call labgob.** -/
def labgob [DecidableEq T] (Γ : Types T) : System (State T) (Action T) where
  init := ⟨fun _ => false, 0, [], []⟩
  step := State.step Γ

/-! ## What a type mentions -/

/-- A type mentions another one. -/
def Types.Mentions (Γ : Types T) (t u : T) : Prop :=
  match Γ.kind t with
  | .struct fields => ∃ f ∈ fields, f.type = u
  | .elem e => u = e
  | .map e k => u = e ∨ u = k
  | .other => False

/-- The complaints about the fields of a type. -/
def Types.errors (Γ : Types T) (t : T) : List Str :=
  match Γ.kind t with
  | .struct fields => (fields.filter fun f => Γ.isUpper f.name = false).map fun f =>
      lowerCaseError f.name (Γ.name t)
  | _ => []

/-- A type that a call mentions, directly or through other types. -/
def State.Reaches (Γ : Types T) (st : State T) (t : T) : Prop :=
  ∃ g ∈ st.calls, ∃ r ∈ g.call.type?, Relation.ReflTransGen Γ.Mentions r t

/-- Every error counts one. -/
def Effect.counts : Effect → Bool
  | printf _ => false
  | count => true
  | warn _ => true
  | panic => false

/-- What is printed in any case. -/
def Effect.text? : Effect → Option Str
  | printf text => some text
  | _ => none

variable {Γ : Types T}

/-- The check of a field looks at its type. -/
lemma visit_mem_checkField {t u : T} {f : Field T} :
    .visit u ∈ Γ.checkField t f ↔ u = f.type := by
  unfold Types.checkField
  split_ifs <;> simp

/-- The check of a type looks at the types that it mentions. -/
lemma visit_mem_body {t u : T} : .visit u ∈ Γ.body t ↔ Γ.Mentions t u := by
  unfold Types.body Types.Mentions
  cases Γ.kind t with
  | struct fields =>
      rw [List.mem_flatMap]
      simp only [visit_mem_checkField, eq_comm]
  | elem e => simp
  | map e k => simp
  | other => simp

/-- What a field reports: the complaint is printed and counted. -/
lemma emits_checkField (t : T) (f : Field T) :
    Todo.emits (Γ.checkField t f) = if Γ.isUpper f.name = false then
      [.printf (lowerCaseError f.name (Γ.name t)), .count] else [] := by
  unfold Types.checkField
  split_ifs <;> rfl

/-- What a body reports: each complaint is printed and counted, and that is all. -/
lemma emits_body (t : T) :
    (Todo.emits (Γ.body t)).filterMap Effect.text? = Γ.errors t ∧
      (Todo.emits (Γ.body t)).countP Effect.counts = (Γ.errors t).length ∧
      ∀ found, .ofFound found ∉ Todo.emits (Γ.body t) := by
  unfold Types.body Types.errors
  cases Γ.kind t with
  | struct fields =>
      dsimp only
      induction fields with
      | nil => exact ⟨rfl, rfl, by simp [Todo.emits]⟩
      | cons f fields ih =>
          obtain ⟨htext, hcount, hfound⟩ := ih
          rw [List.flatMap_cons, Todo.emits_append, List.filterMap_append, List.countP_append,
            htext, hcount, emits_checkField]
          by_cases hf : Γ.isUpper f.name = false
          · rw [if_pos hf, List.filter_cons_of_pos (by simpa using hf), List.map_cons,
              List.length_cons]
            refine ⟨rfl, Nat.add_comm 1 _, fun found hmem => hfound found ?_⟩
            cases found <;> simpa [Effect.ofFound] using hmem
          · rw [if_neg hf, List.filter_cons_of_neg (by simpa using hf)]
            exact ⟨rfl, Nat.zero_add _, hfound⟩
  | elem e => exact ⟨rfl, rfl, by simp [Todo.emits]⟩
  | map e k => exact ⟨rfl, rfl, by simp [Todo.emits]⟩
  | other => exact ⟨rfl, rfl, by simp [Todo.emits]⟩

/-- The finding that is a panic. -/
lemma Effect.ofFound_eq_panic {found : Option Str} :
    .ofFound found = Effect.panic ↔ found = none := by
  cases found <;> simp [ofFound]

/-- `checkType` does not panic once it has a type. -/
lemma panic_notMem_body (t : T) : .emit .panic ∉ Γ.body t :=
  fun h => (emits_body t).2.2 none (Todo.mem_emits.mpr h)

/-- What the bodies of some types report. -/
lemma emits_bodies (ts : List T) :
    (ts.flatMap fun t => Todo.emits (Γ.body t)).filterMap Effect.text? = ts.flatMap Γ.errors ∧
      (ts.flatMap fun t => Todo.emits (Γ.body t)).countP Effect.counts =
        (ts.flatMap Γ.errors).length := by
  induction ts with
  | nil => exact ⟨rfl, rfl⟩
  | cons t ts ih =>
      obtain ⟨htext, hcount, -⟩ := emits_body (Γ := Γ) t
      rw [List.flatMap_cons, List.flatMap_cons, List.filterMap_append, List.countP_append,
        List.length_append, htext, hcount, ih.1, ih.2]
      exact ⟨rfl, rfl⟩

/-! ## The goroutines mark the types -/

/-- What was printed and counted comes from the effects `es`, and there was at most one warning. -/
structure Shows (errorCount : ℕ) (printed : List Str) (es : List Effect) : Prop where
  counted : errorCount = es.countP Effect.counts
  printed : ∃ ws : List Str, printed.Perm (es.filterMap Effect.text? ++ ws) ∧ ws.length ≤ 1 ∧
    (errorCount = 0 → ws = []) ∧ ∀ s ∈ ws, ∃ what, .warn what ∈ es ∧ s = nonDefaultWarning what

/-- One more effect is printed and counted as it should be. -/
lemma Shows.effect {st x : State T} {es : List Effect} {e : Effect}
    (h : Shows st.errorCount st.printed es) (he : st.effect e = some x) :
    Shows x.errorCount x.printed (es ++ [e]) := by
  obtain ⟨hcounted, ws, hprinted, hlength, hzero, hws⟩ := h
  have hws' : ∀ s ∈ ws, ∃ what, .warn what ∈ es ++ [e] ∧ s = nonDefaultWarning what := by
    intro s hs
    obtain ⟨what, hmem, rfl⟩ := hws s hs
    exact ⟨what, List.mem_append_left _ hmem, rfl⟩
  constructor
  · rw [List.countP_append, ← hcounted]
    cases e <;> cases he <;> rfl
  · simp only [List.filterMap_append, List.append_assoc]
    cases e with
    | printf text =>
        cases he
        refine ⟨ws, ?_, hlength, hzero, hws'⟩
        have happend := hprinted.append_right [text]
        rw [List.append_assoc] at happend
        exact happend.trans (List.perm_append_comm.append_left _)
    | count =>
        cases he
        exact ⟨ws, hprinted, hlength, fun h => absurd h (Nat.succ_ne_zero _), hws'⟩
    | warn what =>
        cases he
        show ∃ ws' : List Str, (st.printed ++ _).Perm _ ∧ _
        by_cases hfirst : st.errorCount < 1
        · -- nothing has been reported so far
          obtain rfl := hzero (Nat.lt_one_iff.mp hfirst)
          rw [List.append_nil] at hprinted
          rw [if_pos hfirst]
          exact ⟨[nonDefaultWarning what], hprinted.append_right _, le_refl 1,
            fun h => absurd h (Nat.succ_ne_zero _),
            fun s hs => ⟨what, by simp, List.mem_singleton.mp hs⟩⟩
        · rw [if_neg hfirst, List.append_nil]
          exact ⟨ws, hprinted, hlength, fun h => absurd h (Nat.succ_ne_zero _), hws'⟩
    | panic => cases he

/-- The calls are the threads of a marking, and the table has the marked types. -/
structure Marks (Γ : Types T) (st : State T) (m : Marking T Effect) : Prop where
  checked : ∀ t, st.checked t = true ↔ t ∈ m.marked
  threads : m.threads = st.calls.map fun g => ⟨g.call.checks Γ, g.todo⟩
  shows : Shows st.errorCount st.printed m.emitted

section Runs

variable [DecidableEq T] {tr : List (State T × Action T)} {st st' : State T}

/-- **Every step is one of the threads.** -/
theorem Marks.step {m : Marking T Effect} {a : Action T} (h : Marks Γ st m)
    (hs : st.step Γ a = some st') :
    ∃ b m', b.isStep = a.isStep ∧ m.step Γ.body b = some m' ∧ Marks Γ st' m' := by
  cases a with
  | call call =>
      cases hs
      refine ⟨.spawn (call.checks Γ), _, rfl, rfl, h.checked, ?_, h.shows⟩
      show m.threads ++ _ = _
      rw [h.threads, List.map_append]
      rfl
  | step k =>
      refine ⟨.step k, ?_⟩
      have hget : ∀ {g}, st.calls[k]? = some g →
          m.threads[k]? = some ⟨g.call.checks Γ, g.todo⟩ := by
        intro g hg
        rw [h.threads, List.getElem?_map, hg, Option.map_some]
      have hset : ∀ call todo, m.threads.set k ⟨Call.checks Γ call, todo⟩ =
          (st.calls.set k ⟨call, todo⟩).map fun g => ⟨g.call.checks Γ, g.todo⟩ := by
        intro call todo
        rw [h.threads, List.map_set]
      simp only [State.step] at hs
      split at hs
      · rename_i call t rest hk
        split_ifs at hs with ht
        · cases hs
          refine ⟨{ m with threads := m.threads.set k ⟨call.checks Γ, rest⟩ }, rfl, ?_, h.checked,
            hset call rest, h.shows⟩
          simp only [Marking.step, hget hk, if_pos ((h.checked t).mp ht)]
        · cases hs
          have hnot : t ∉ m.marked := fun hmem => ht ((h.checked t).mpr hmem)
          refine ⟨{ m with
            marked := t :: m.marked
            threads := m.threads.set k ⟨call.checks Γ, Γ.body t ++ rest⟩ }, rfl, ?_, fun u => ?_,
            hset call (Γ.body t ++ rest), h.shows⟩
          · simp only [Marking.step, hget hk, if_neg hnot]
          · show Function.update st.checked t true u = true ↔ u ∈ t :: m.marked
            by_cases hu : u = t
            · simp [hu]
            · rw [Function.update_of_ne hu, h.checked, List.mem_cons, or_iff_right hu]
      · rename_i call e rest hk
        obtain ⟨x, he, rfl⟩ := Option.map_eq_some_iff.mp hs
        have hshows := h.shows.effect he
        refine ⟨{ m with
          threads := m.threads.set k ⟨call.checks Γ, rest⟩
          emitted := m.emitted ++ [e] }, rfl, ?_, fun t => ?_, hset call rest, hshows⟩
        · simp only [Marking.step, hget hk]
        · cases e <;> cases he <;> exact h.checked t
      · cases hs

/-- The marking behind a run, with as many steps. -/
lemma marks_of_run (h : (labgob Γ).Run tr st) :
    ∃ tr' m, (Marking.system Γ.body).Run tr' m ∧ Marks Γ st m ∧
      tr'.countP (fun q => q.2.isStep) = tr.countP fun q => q.2.isStep := by
  induction h with
  | init =>
      refine ⟨[], _, .init, ⟨fun t => ?_, rfl, rfl, [], List.Perm.refl _, Nat.zero_le 1,
        fun _ => rfl, by simp⟩, rfl⟩
      simp [labgob, Marking.system]
  | step _ hs ih =>
      obtain ⟨tr', m, hrun, hmarks, hcount⟩ := ih
      obtain ⟨b, m', hb, hstep, hmarks'⟩ := hmarks.step hs
      refine ⟨_, m', hrun.step hstep, hmarks', ?_⟩
      rw [List.countP_cons, List.countP_cons, hcount, hb]

/-- A panic stays before a call that comes to it. -/
lemma panics_of_run (h : (labgob Γ).Run tr st) :
    ∀ g ∈ st.calls, .emit .panic ∈ g.todo ↔ g.call.Panics Γ := by
  induction h with
  | init => exact fun g hg => absurd hg List.not_mem_nil
  | @step tr x y a _ hs ih =>
      change x.step Γ a = some y at hs
      cases a with
      | call call =>
          cases hs
          intro g hg
          rcases List.mem_append.mp hg with hg | hg
          · exact ih g hg
          · obtain rfl := List.mem_singleton.mp hg
            simp [Call.checks, Call.Panics, Effect.ofFound_eq_panic]
      | step k =>
          -- a step changes one list, and neither adds a panic to it nor takes one away
          have hset : ∀ {call todo todo'}, x.calls[k]? = some ⟨call, todo⟩ →
              (.emit .panic ∈ todo' ↔ .emit .panic ∈ todo) →
              ∀ g ∈ x.calls.set k ⟨call, todo'⟩, .emit .panic ∈ g.todo ↔ g.call.Panics Γ := by
            intro call todo todo' hk htodo g hg
            rcases List.mem_or_eq_of_mem_set hg with hg | rfl
            · exact ih g hg
            · exact htodo.trans (ih _ (List.mem_of_getElem? hk))
          simp only [State.step] at hs
          split at hs
          · rename_i call t rest hk
            split_ifs at hs with ht
            · cases hs
              exact hset hk (by simp)
            · cases hs
              exact hset hk (by simp [panic_notMem_body t])
          · rename_i call e rest hk
            obtain ⟨z, he, rfl⟩ := Option.map_eq_some_iff.mp hs
            refine hset hk ?_
            cases e with
            | panic => cases he
            | _ => simp
          · cases hs

omit [DecidableEq T] in
/-- The threads were asked what the calls check. -/
lemma Marks.asked {m : Marking T Effect} (h : Marks Γ st m) :
    m.asked = st.calls.flatMap fun g => g.call.checks Γ := by
  rw [Marking.asked, h.threads, List.flatMap_map]

omit [DecidableEq T] in
/-- The types that the threads reach are those that the calls mention. -/
lemma Marks.reach_iff {m : Marking T Effect} (h : Marks Γ st m) {t : T} :
    Marking.Reach Γ.body m t ↔ st.Reaches Γ t := by
  have hrel : (fun a b => .visit b ∈ Γ.body a) = Γ.Mentions := by
    funext a b
    exact propext visit_mem_body
  unfold Marking.Reach State.Reaches
  rw [hrel, h.asked]
  simp only [List.mem_flatMap, Call.checks, List.mem_append, List.mem_map, Option.mem_toList,
    Todo.visit.injEq, exists_eq_right, reduceCtorEq, and_false, exists_false, or_false]
  constructor
  · rintro ⟨r, ⟨g, hg, hr⟩, hpath⟩
    exact ⟨g, hg, r, hr, hpath⟩
  · rintro ⟨g, hg, r, hr, hpath⟩
    exact ⟨r, ⟨g, hg, hr⟩, hpath⟩

omit [DecidableEq T] in
/-- What the calls are asked to report themselves: what they find. -/
lemma emits_checks (calls : List (Goroutine T)) :
    Todo.emits (calls.flatMap fun g => g.call.checks Γ) =
      (calls.flatMap fun g => g.call.found Γ).map .ofFound := by
  induction calls with
  | nil => rfl
  | cons g calls ih =>
      rw [List.flatMap_cons, Todo.emits_append, ih, List.flatMap_cons, List.map_append, Call.checks,
        Todo.emits_append, Todo.emits_map_visit, Todo.emits_map_emit, List.nil_append]

/-- Each name that is warned about counts one, and nothing is printed in any case. -/
lemma shows_found (found : List (Option Str)) :
    (found.map Effect.ofFound).countP Effect.counts = (found.filterMap id).length ∧
      (found.map Effect.ofFound).filterMap Effect.text? = [] := by
  induction found with
  | nil => exact ⟨rfl, rfl⟩
  | cons what found ih =>
      obtain ⟨hcount, htext⟩ := ih
      cases what with
      | none => exact ⟨hcount, htext⟩
      | some what =>
          refine ⟨?_, htext⟩
          show List.countP _ (Effect.warn what :: found.map Effect.ofFound) = _
          rw [List.countP_cons_of_pos rfl, hcount]
          rfl

/-! ## Results -/

/-- **Every lower-case field is reported once.** When all calls have returned, `checked` has exactly
the types that the calls mention, directly or through other types. Each lower-case field of one of
these was printed and counted once, each field that `Decode` found to be non-default was counted
once for its call, and at most one of these was printed. No call was one with `nil` or had a value
to read that may not be read. -/
theorem labgob_exact (h : (labgob Γ).Run tr st) (hdone : ∀ g ∈ st.calls, g.todo = []) :
    (∀ g ∈ st.calls, ¬ g.call.Panics Γ) ∧
    ∃ ts : List T, ts.Nodup ∧ (∀ t, t ∈ ts ↔ st.Reaches Γ t) ∧
      (∀ t, st.checked t = true ↔ t ∈ ts) ∧
      st.errorCount = (ts.flatMap Γ.errors).length +
        (st.calls.flatMap fun g => g.call.nonDefault Γ).length ∧
      ∃ ws : List Str, st.printed.Perm (ts.flatMap Γ.errors ++ ws) ∧ ws.length ≤ 1 ∧
        ∀ s ∈ ws, ∃ g ∈ st.calls, ∃ what ∈ g.call.nonDefault Γ, s = nonDefaultWarning what := by
  constructor
  · intro g hg hpanics
    have htodo := (panics_of_run h g hg).mpr hpanics
    rw [hdone g hg] at htodo
    cases htodo
  obtain ⟨tr', m, hrun, hmarks, -⟩ := marks_of_run h
  have htodo : m.todo = [] := by
    rw [Marking.todo, hmarks.threads, List.flatMap_map, List.flatMap_eq_nil_iff]
    exact hdone
  obtain ⟨hnodup, hreach, hemitted⟩ := Marking.of_run hrun htodo
  rw [hmarks.asked, emits_checks] at hemitted
  obtain ⟨hcounted, ws, hprinted, hlength, -, hws⟩ := hmarks.shows
  obtain ⟨hcount, htext⟩ := shows_found (st.calls.flatMap fun g => g.call.found Γ)
  refine ⟨m.marked, hnodup, fun t => (hreach t).trans hmarks.reach_iff, hmarks.checked, ?_, ws, ?_,
    hlength, fun s hs => ?_⟩
  · rw [hcounted, hemitted.countP_eq, List.countP_append, (emits_bodies m.marked).2, Nat.add_comm,
      hcount, List.filterMap_flatMap]
    rfl
  · refine hprinted.trans (List.Perm.append_right _ ?_)
    refine (hemitted.filterMap _).trans (List.Perm.of_eq ?_)
    rw [List.filterMap_append, (emits_bodies m.marked).1, htext, List.nil_append]
  · obtain ⟨what, hmem, rfl⟩ := hws s hs
    rcases List.mem_append.mp (hemitted.subset hmem) with hmem | hmem
    · obtain ⟨found, hfound, heq⟩ := List.mem_map.mp hmem
      cases found with
      | none => cases heq
      | some what' =>
          cases heq
          obtain ⟨g, hg, hwhat⟩ := List.mem_flatMap.mp hfound
          exact ⟨g, hg, what, List.mem_filterMap.mpr ⟨_, hwhat, rfl⟩, rfl⟩
    · obtain ⟨t, -, hmem⟩ := List.mem_flatMap.mp hmem
      exact absurd hmem ((emits_body t).2.2 (some what))

/-- A struct with two capital fields and a lower-case one, and a pointer to it, which is the type of
one of its fields; and a pointer to a number. -/
def sampleTypes : Types (Fin 4) where
  kind t := if t = 0 then .struct [⟨ascii "Yes", 1⟩, ⟨ascii "no", 1⟩, ⟨ascii "Next", 2⟩]
    else if t = 2 then .elem 0 else if t = 3 then .elem 1 else .other
  name t := if t = 0 then ascii "T4" else if t = 1 then ascii "int" else []
  isUpper name := name.head?.any fun b => 65 ≤ b.val ∧ b.val ≤ 90

/-- A pointer to a number other than zero. -/
def sampleValue : Value (Fin 4) := .ptr (some (.basic 1 false))

/-- One goroutine encodes a pointer to the struct and one decodes into the number at the same time.
The decoder warns before the encoder has come to the lower-case field. -/
def sampleSchedule : List (Action (Fin 4)) :=
  [.call (.encode 2), .call (.decode 3 sampleValue), .step 0, .step 0, .step 1, .step 1, .step 1,
    .step 0, .step 0, .step 0, .step 0, .step 0]

/-- The schedule ends with one complaint and one warning. -/
theorem labgob_exact_run : ∃ tr st, (labgob sampleTypes).Run tr st ∧ st.calls.length = 2 ∧
    st.errorCount = 2 ∧ ∃ ts : List (Fin 4), ts.Nodup ∧ (∀ t, t ∈ ts ↔ st.Reaches sampleTypes t) ∧
      st.errorCount = (ts.flatMap sampleTypes.errors).length +
        (st.calls.flatMap fun g => g.call.nonDefault sampleTypes).length := by
  obtain ⟨tr, st, h, hdone, hlength, hcount⟩ := (labgob sampleTypes).exists_run_of_exec
    sampleSchedule (fun _ st => (∀ g ∈ st.calls, g.todo.isEmpty = true) ∧ st.calls.length = 2 ∧
      st.errorCount = 2) (by decide)
  obtain ⟨-, ts, hnodup, hreach, -, herrors, -⟩ :=
    labgob_exact h fun g hg => List.isEmpty_iff.mp (hdone g hg)
  exact ⟨tr, st, h, hlength, hcount, ts, hnodup, hreach, herrors⟩

/-- **The calls return.** A call that has not returned can always go on, unless it is one with `nil`
or reads a value that may not be read; such a call never returns. Where the types that the calls
mention are finitely many (they may be recursive) the number of steps is bounded. -/
theorem labgob_returns (h : (labgob Γ).Run tr st) :
    (∀ (k : ℕ) g, st.calls[k]? = some g → ¬ g.call.Panics Γ → g.todo ≠ [] →
      ∃ st', (labgob Γ).step st (.step k) = some st') ∧
    (∀ g ∈ st.calls, g.call.Panics Γ → g.todo ≠ []) ∧
    ∀ F : Finset T, (∀ t, st.Reaches Γ t → t ∈ F) →
      tr.countP (fun q => q.2.isStep) ≤ (st.calls.flatMap fun g => g.call.checks Γ).length +
        ∑ t ∈ F, (Γ.body t).length := by
  refine ⟨?_, ?_, ?_⟩
  · intro k g hk hreads hne
    have hpanic := mt (panics_of_run h g (List.mem_of_getElem? hk)).mp hreads
    obtain ⟨call, todo⟩ := g
    obtain ⟨item, rest, rfl⟩ := List.exists_cons_of_ne_nil hne
    show ∃ st', st.step Γ (.step k) = some st'
    cases item with
    | visit t =>
        simp only [State.step, hk]
        split_ifs <;> exact ⟨_, rfl⟩
    | emit e =>
        simp only [State.step, hk]
        cases e with
        | panic => exact absurd (List.mem_cons_self ..) hpanic
        | _ => exact ⟨_, rfl⟩
  · intro g hg hpanics
    exact List.ne_nil_of_mem ((panics_of_run h g hg).mpr hpanics)
  · intro F hF
    obtain ⟨tr', m, hrun, hmarks, hcount⟩ := marks_of_run h
    have hsteps := Marking.steps_add hrun F fun t ht => hF t (hmarks.reach_iff.mp ht)
    rw [hmarks.asked, hcount] at hsteps
    omega

/-- A pointer to the struct, with a number in the lower-case field. -/
def sampleLower : Value (Fin 4) :=
  .ptr (some (.struct [(ascii "Yes", false, .basic 1 true), (ascii "no", false, .basic 1 true),
    (ascii "Next", false, .ptr none)]))

/-- A third goroutine decodes into the struct and gets to the lower-case field, and a fourth one
encodes `nil`. All that can be done has then been done. -/
theorem labgob_returns_run : ∃ tr st, (labgob sampleTypes).Run tr st ∧
    (∀ k ∈ [2, 3], ∃ g ∈ st.calls[k]?, g.call.Panics sampleTypes ∧ g.todo ≠ []) ∧
    tr.countP (fun q => q.2.isStep) = 11 ∧ tr.countP (fun q => q.2.isStep) ≤
      (st.calls.flatMap fun g => g.call.checks sampleTypes).length +
        ∑ t : Fin 4, (sampleTypes.body t).length := by
  obtain ⟨tr, st, h, hpanics, hcount⟩ := (labgob sampleTypes).exists_run_of_exec
    (sampleSchedule ++ [.call (.decode 2 sampleLower), .step 2, .call .nil])
    (fun tr st => (∀ k ∈ [2, 3], ∃ g ∈ st.calls[k]?, none ∈ g.call.found sampleTypes) ∧
      tr.countP (fun q => q.2.isStep) = 11) (by decide)
  obtain ⟨-, hleft, hbound⟩ := labgob_returns h
  refine ⟨tr, st, h, fun k hk => ?_, hcount, hbound Finset.univ fun t _ => Finset.mem_univ t⟩
  obtain ⟨g, hg, hpanics⟩ := hpanics k hk
  exact ⟨g, hg, hpanics, hleft g (List.mem_of_getElem? hg) hpanics⟩

end Runs

end GoLabs.Labgob
