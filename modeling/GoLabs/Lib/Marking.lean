import Mathlib
import GoLabs.Lib.Run

/-!
# Threads that mark a graph together

Threads share a set of marked nodes. Each of them has a list of things to do: to visit a node or to
emit something. Visiting a marked node does nothing. Visiting another one marks it and puts what its
`body` lists in front of what is left to do. The test and the mark are one step, so a recursive
procedure that several threads run with a common table of what was visited is of this kind.

* `Marking.of_run` — **when no thread has anything left to do**, exactly those nodes are marked that
  can be reached from what the threads were asked to visit, and what was emitted is what they were
  asked to emit and, for each marked node, what its body emits, once.
* `Marking.steps_add` — the number of steps that are left is known at every moment.
-/

namespace GoLabs.Lib

/-- A thing to do. -/
inductive Todo (V O : Type*)
  | visit (v : V)
  | emit (o : O)

/-- A thread: what it was asked to do, and what of it is left. -/
structure Thread (V O : Type*) where
  asked : List (Todo V O)
  todo : List (Todo V O)

/-- The marked nodes, the threads and what they have emitted. -/
structure Marking (V O : Type*) where
  marked : List V
  threads : List (Thread V O)
  emitted : List O

/-- What can happen next. -/
inductive MarkingAction (V O : Type*)
  | spawn (asked : List (Todo V O))
  | step (k : ℕ)

/-- A thread takes a step. -/
def MarkingAction.isStep {V O : Type*} : MarkingAction V O → Bool
  | spawn _ => false
  | step _ => true

variable {V O : Type*}

/-- What a list of things to do emits. -/
def Todo.emits : List (Todo V O) → List O
  | [] => []
  | visit _ :: l => emits l
  | emit o :: l => o :: emits l

/-- What is emitted is what is to be emitted. -/
lemma Todo.mem_emits {l : List (Todo V O)} {o : O} : o ∈ emits l ↔ .emit o ∈ l := by
  induction l with
  | nil => simp [emits]
  | cons item l ih => cases item <;> simp [emits, ih]

/-- What is emitted by one list after another. -/
@[simp] lemma Todo.emits_append (l l' : List (Todo V O)) :
    emits (l ++ l') = emits l ++ emits l' := by
  induction l with
  | nil => rfl
  | cons item l ih => cases item <;> simp [emits, ih]

/-- Visits emit nothing. -/
lemma Todo.emits_map_visit (vs : List V) : emits (vs.map (visit : V → Todo V O)) = [] := by
  induction vs with
  | nil => rfl
  | cons v vs ih => exact ih

/-- What is only to be emitted is emitted in its order. -/
lemma Todo.emits_map_emit {α : Type*} (f : α → O) (l : List α) :
    emits (l.map fun a => (emit (f a) : Todo V O)) = l.map f := by
  induction l with
  | nil => rfl
  | cons a l ih => simp [emits, ih]

namespace Marking

/-- One step. -/
def step [DecidableEq V] (body : V → List (Todo V O)) (m : Marking V O) :
    MarkingAction V O → Option (Marking V O)
  | .spawn asked => some { m with threads := m.threads ++ [⟨asked, asked⟩] }
  | .step k =>
      match m.threads[k]? with
      | some ⟨asked, .visit v :: rest⟩ =>
          if v ∈ m.marked then some { m with threads := m.threads.set k ⟨asked, rest⟩ }
          else some { m with
            marked := v :: m.marked
            threads := m.threads.set k ⟨asked, body v ++ rest⟩ }
      | some ⟨asked, .emit o :: rest⟩ => some { m with
          threads := m.threads.set k ⟨asked, rest⟩
          emitted := m.emitted ++ [o] }
      | _ => none

/-- **Threads that mark the graph of `body`.** -/
def system [DecidableEq V] (body : V → List (Todo V O)) :
    System (Marking V O) (MarkingAction V O) where
  init := ⟨[], [], []⟩
  step := step body

/-- Everything the threads were asked to do. -/
def asked (m : Marking V O) : List (Todo V O) := m.threads.flatMap Thread.asked

/-- Everything they have still to do. -/
def todo (m : Marking V O) : List (Todo V O) := m.threads.flatMap Thread.todo

/-- A node that can be reached from what the threads were asked to visit. -/
def Reach (body : V → List (Todo V O)) (m : Marking V O) (v : V) : Prop :=
  ∃ r, .visit r ∈ m.asked ∧ Relation.ReflTransGen (fun a b => .visit b ∈ body a) r v

/-! ## Steps -/

variable {body : V → List (Todo V O)} {m m' : Marking V O} {a : MarkingAction V O}

/-- **Everything a step can do.** -/
inductive Step (body : V → List (Todo V O)) (m : Marking V O) :
    MarkingAction V O → Marking V O → Prop
  | spawn (asked : List (Todo V O)) :
      Step body m (.spawn asked) { m with threads := m.threads ++ [⟨asked, asked⟩] }
  | skip {k : ℕ} {l₁ l₂ : List (Thread V O)} {asked rest : List (Todo V O)} {v : V}
      (ht : m.threads = l₁ ++ ⟨asked, .visit v :: rest⟩ :: l₂) (hv : v ∈ m.marked) :
      Step body m (.step k) { m with threads := l₁ ++ ⟨asked, rest⟩ :: l₂ }
  | mark {k : ℕ} {l₁ l₂ : List (Thread V O)} {asked rest : List (Todo V O)} {v : V}
      (ht : m.threads = l₁ ++ ⟨asked, .visit v :: rest⟩ :: l₂) (hv : v ∉ m.marked) :
      Step body m (.step k) { m with
        marked := v :: m.marked
        threads := l₁ ++ ⟨asked, body v ++ rest⟩ :: l₂ }
  | emit {k : ℕ} {l₁ l₂ : List (Thread V O)} {asked rest : List (Todo V O)} {o : O}
      (ht : m.threads = l₁ ++ ⟨asked, .emit o :: rest⟩ :: l₂) :
      Step body m (.step k) { m with
        threads := l₁ ++ ⟨asked, rest⟩ :: l₂
        emitted := m.emitted ++ [o] }

/-- The thread that takes a step, and the others. -/
lemma exists_split {l : List (Thread V O)} {k : ℕ} {th : Thread V O} (hk : l[k]? = some th) :
    ∃ l₁ l₂, l = l₁ ++ th :: l₂ ∧ ∀ th', l.set k th' = l₁ ++ th' :: l₂ := by
  obtain ⟨hlt, rfl⟩ := List.getElem?_eq_some_iff.mp hk
  refine ⟨l.take k, l.drop (k + 1), ?_, fun th' => ?_⟩
  · rw [List.getElem_cons_drop, List.take_append_drop]
  · exact List.set_eq_take_append_cons_drop.trans (if_pos hlt)

/-- **Inversion of `step`.** -/
theorem Step.of_step [DecidableEq V] (h : m.step body a = some m') : Step body m a m' := by
  cases a with
  | spawn asked =>
      cases h
      exact .spawn asked
  | step k =>
      simp only [step] at h
      split at h
      · rename_i asked v rest hk
        obtain ⟨l₁, l₂, ht, hset⟩ := exists_split hk
        split_ifs at h with hv
        · cases h
          rw [hset]
          exact .skip ht hv
        · cases h
          rw [hset]
          exact .mark ht hv
      · rename_i asked o rest hk
        obtain ⟨l₁, l₂, ht, hset⟩ := exists_split hk
        cases h
        rw [hset]
        exact .emit ht
      · cases h

/-! ## What holds in every run -/

/-- A node is marked, or on somebody's list. -/
def Covers (m : Marking V O) (v : V) : Prop := v ∈ m.marked ∨ .visit v ∈ m.todo

/-- What the threads keep. -/
structure Inv (body : V → List (Todo V O)) (m : Marking V O) : Prop where
  nodup : m.marked.Nodup
  /-- Only what can be reached is visited. -/
  reach : ∀ v, m.Covers v → Reach body m v
  asked : ∀ v, .visit v ∈ m.asked → m.Covers v
  closed : ∀ u ∈ m.marked, ∀ v, .visit v ∈ body u → m.Covers v
  emitted : (m.emitted ++ Todo.emits m.todo).Perm
    (Todo.emits m.asked ++ m.marked.flatMap fun v => Todo.emits (body v))

/-- What is to do, with one thread singled out. -/
lemma todo_eq {l₁ l₂ : List (Thread V O)} {asked todo : List (Todo V O)}
    (ht : m.threads = l₁ ++ ⟨asked, todo⟩ :: l₂) :
    m.todo = l₁.flatMap Thread.todo ++ (todo ++ l₂.flatMap Thread.todo) := by
  rw [Marking.todo, ht, List.flatMap_append, List.flatMap_cons]

/-- What was asked for, with one thread singled out. -/
lemma asked_eq {l₁ l₂ : List (Thread V O)} {asked todo : List (Todo V O)}
    (ht : m.threads = l₁ ++ ⟨asked, todo⟩ :: l₂) :
    m.asked = l₁.flatMap Thread.asked ++ (asked ++ l₂.flatMap Thread.asked) := by
  rw [Marking.asked, ht, List.flatMap_append, List.flatMap_cons]

/-- The first thing to do of a thread, among everything there is to do. -/
lemma mem_todo {l₁ l₂ : List (Thread V O)} {asked todo todo' : List (Todo V O)}
    (ht : m.threads = l₁ ++ ⟨asked, todo⟩ :: l₂) (ht' : m'.threads = l₁ ++ ⟨asked, todo'⟩ :: l₂)
    {item : Todo V O} (h : item ∈ m.todo) : item ∈ todo ∨ item ∈ m'.todo := by
  rw [todo_eq ht, List.mem_append, List.mem_append] at h
  rw [todo_eq ht', List.mem_append, List.mem_append]
  rcases h with h | h | h
  · exact Or.inr (Or.inl h)
  · exact Or.inl h
  · exact Or.inr (Or.inr (Or.inr h))

/-- What one thread has to do is to be done. -/
lemma mem_todo_of_mem {l₁ l₂ : List (Thread V O)} {asked todo : List (Todo V O)}
    (ht : m.threads = l₁ ++ ⟨asked, todo⟩ :: l₂) {item : Todo V O} (h : item ∈ todo) :
    item ∈ m.todo := by
  rw [todo_eq ht, List.mem_append, List.mem_append]
  exact Or.inr (Or.inl h)

/-- What was covered stays covered when a thread goes on, if what it had to do does. -/
lemma Covers.advance {l₁ l₂ : List (Thread V O)} {asked todo todo' : List (Todo V O)}
    (ht : m.threads = l₁ ++ ⟨asked, todo⟩ :: l₂) (ht' : m'.threads = l₁ ++ ⟨asked, todo'⟩ :: l₂)
    (hmarked : m.marked ⊆ m'.marked) (hkeep : ∀ u, .visit u ∈ todo → m'.Covers u) {v : V}
    (h : m.Covers v) : m'.Covers v := by
  rcases h with h | h
  · exact Or.inl (hmarked h)
  · rcases mem_todo ht ht' h with hmem | hmem
    · exact hkeep v hmem
    · exact Or.inr hmem

/-- What is reached stays reached when more is asked for. -/
lemma Reach.mono {v : V} (h : Reach body m v) (hasked : m.asked ⊆ m'.asked) : Reach body m' v := by
  obtain ⟨r, hr, hpath⟩ := h
  exact ⟨r, hasked hr, hpath⟩

/-- A new thread keeps the invariant. -/
lemma Inv.spawn (h : Inv body m) (asked : List (Todo V O)) :
    Inv body { m with threads := m.threads ++ [⟨asked, asked⟩] } := by
  have htodo : ∀ emitted, (Marking.mk m.marked (m.threads ++ [⟨asked, asked⟩]) emitted).todo =
      m.todo ++ asked := fun _ => by simp [Marking.todo]
  have hasked : ∀ emitted, (Marking.mk m.marked (m.threads ++ [⟨asked, asked⟩]) emitted).asked =
      m.asked ++ asked := fun _ => by simp [Marking.asked]
  have hcov : ∀ v, m.Covers v →
      (Marking.mk m.marked (m.threads ++ [⟨asked, asked⟩]) m.emitted).Covers v := by
    intro v hv
    rw [Covers, htodo, List.mem_append]
    exact hv.imp_right Or.inl
  refine ⟨h.nodup, fun v hv => ?_, fun v hv => ?_, fun u hu v hv => hcov v (h.closed u hu v hv), ?_⟩
  · rw [Covers, htodo, List.mem_append, ← or_assoc] at hv
    rcases hv with hv | hv
    · exact (h.reach v hv).mono (by simp [hasked])
    · exact ⟨v, by simp [hasked, hv], .refl⟩
  · rw [hasked, List.mem_append] at hv
    rcases hv with hv | hv
    · exact hcov v (h.asked v hv)
    · exact Or.inr (by simp [htodo, hv])
  · rw [htodo, hasked, Todo.emits_append, Todo.emits_append, ← List.append_assoc,
      List.append_assoc (Todo.emits m.asked)]
    exact (h.emitted.append_right _).trans (by
      rw [List.append_assoc]
      exact List.Perm.append_left _ List.perm_append_comm)

section Advance

variable {l₁ l₂ : List (Thread V O)} {asked rest : List (Todo V O)} {v : V} {o : O}

/-- A thread that comes to a marked node keeps the invariant. -/
lemma Inv.skip (h : Inv body m) (ht : m.threads = l₁ ++ ⟨asked, .visit v :: rest⟩ :: l₂)
    (hv : v ∈ m.marked) : Inv body { m with threads := l₁ ++ ⟨asked, rest⟩ :: l₂ } := by
  have ht' : (Marking.mk m.marked (l₁ ++ ⟨asked, rest⟩ :: l₂) m.emitted).threads = _ := rfl
  have hasked := (asked_eq ht').trans (asked_eq ht).symm
  have hcov : ∀ u, m.Covers u →
      (Marking.mk m.marked (l₁ ++ ⟨asked, rest⟩ :: l₂) m.emitted).Covers u := by
    refine fun u => Covers.advance ht ht' (List.Subset.refl _) fun w hw => ?_
    rcases List.mem_cons.mp hw with heq | hw
    · cases heq
      exact Or.inl hv
    · exact Or.inr (mem_todo_of_mem ht' hw)
  have hback : ∀ u, (Marking.mk m.marked (l₁ ++ ⟨asked, rest⟩ :: l₂) m.emitted).Covers u →
      m.Covers u :=
    fun u => Covers.advance ht' ht (List.Subset.refl _) fun w hw =>
      Or.inr (mem_todo_of_mem ht (List.mem_cons_of_mem _ hw))
  refine ⟨h.nodup, fun u hu => (h.reach u (hback u hu)).mono (hasked ▸ List.Subset.refl _),
    fun u hu => hcov u (h.asked u (hasked ▸ hu)), fun u hu w hw => hcov w (h.closed u hu w hw), ?_⟩
  have hemits := h.emitted
  rw [todo_eq ht, Todo.emits_append] at hemits
  rw [todo_eq ht', hasked, Todo.emits_append]
  exact hemits

/-- A thread that marks a node keeps the invariant: it takes on all that the node mentions. -/
lemma Inv.mark (h : Inv body m) (ht : m.threads = l₁ ++ ⟨asked, .visit v :: rest⟩ :: l₂)
    (hv : v ∉ m.marked) : Inv body { m with
      marked := v :: m.marked
      threads := l₁ ++ ⟨asked, body v ++ rest⟩ :: l₂ } := by
  have ht' : (Marking.mk (v :: m.marked) (l₁ ++ ⟨asked, body v ++ rest⟩ :: l₂) m.emitted).threads =
    _ := rfl
  have hasked := (asked_eq ht').trans (asked_eq ht).symm
  have hcov : ∀ u, m.Covers u →
      (Marking.mk (v :: m.marked) (l₁ ++ ⟨asked, body v ++ rest⟩ :: l₂) m.emitted).Covers u := by
    refine fun u => Covers.advance ht ht' (List.subset_cons_self _ _) fun w hw => ?_
    rcases List.mem_cons.mp hw with heq | hw
    · cases heq
      exact Or.inl List.mem_cons_self
    · exact Or.inr (mem_todo_of_mem ht' (List.mem_append_right _ hw))
  have hreach : Reach body m v := h.reach v (Or.inr (mem_todo_of_mem ht List.mem_cons_self))
  refine ⟨List.nodup_cons.mpr ⟨hv, h.nodup⟩, fun u hu => ?_,
    fun u hu => hcov u (h.asked u (hasked ▸ hu)), fun u hu w hw => ?_, ?_⟩
  · refine Reach.mono (m := m) ?_ (hasked ▸ List.Subset.refl _)
    rcases hu with hu | hu
    · rcases List.mem_cons.mp hu with rfl | hu
      · exact hreach
      · exact h.reach u (Or.inl hu)
    · rcases mem_todo ht' ht hu with hmem | hmem
      · rcases List.mem_append.mp hmem with hmem | hmem
        · -- a successor of the node that is marked now
          obtain ⟨r, hr, hpath⟩ := hreach
          exact ⟨r, hr, hpath.tail hmem⟩
        · exact h.reach u (Or.inr (mem_todo_of_mem ht (List.mem_cons_of_mem _ hmem)))
      · exact h.reach u (Or.inr hmem)
  · rcases List.mem_cons.mp hu with rfl | hu
    · exact Or.inr (mem_todo_of_mem ht' (List.mem_append_left _ hw))
    · exact hcov w (h.closed u hu w hw)
  · have hemits := h.emitted
    rw [todo_eq ht, Todo.emits_append] at hemits
    rw [todo_eq ht', hasked, Todo.emits_append, List.append_assoc, Todo.emits_append,
      List.flatMap_cons]
    -- what the body emits is new on both sides
    refine ((List.Perm.of_eq (List.append_assoc _ _ _).symm).trans
      (List.perm_append_comm_assoc _ _ _)).trans ?_
    rw [List.append_assoc]
    exact (hemits.append_left _).trans (List.perm_append_comm_assoc _ _ _)

/-- A thread that emits something keeps the invariant. -/
lemma Inv.emit (h : Inv body m) (ht : m.threads = l₁ ++ ⟨asked, .emit o :: rest⟩ :: l₂) :
    Inv body { m with
      threads := l₁ ++ ⟨asked, rest⟩ :: l₂
      emitted := m.emitted ++ [o] } := by
  have ht' : (Marking.mk m.marked (l₁ ++ ⟨asked, rest⟩ :: l₂) (m.emitted ++ [o])).threads = _ := rfl
  have hasked := (asked_eq ht').trans (asked_eq ht).symm
  have hcov : ∀ u, m.Covers u →
      (Marking.mk m.marked (l₁ ++ ⟨asked, rest⟩ :: l₂) (m.emitted ++ [o])).Covers u := by
    refine fun u => Covers.advance ht ht' (List.Subset.refl _) fun w hw => ?_
    rcases List.mem_cons.mp hw with heq | hw
    · cases heq
    · exact Or.inr (mem_todo_of_mem ht' hw)
  have hback : ∀ u, (Marking.mk m.marked (l₁ ++ ⟨asked, rest⟩ :: l₂) (m.emitted ++ [o])).Covers u →
      m.Covers u :=
    fun u => Covers.advance ht' ht (List.Subset.refl _) fun w hw =>
      Or.inr (mem_todo_of_mem ht (List.mem_cons_of_mem _ hw))
  refine ⟨h.nodup, fun u hu => (h.reach u (hback u hu)).mono (hasked ▸ List.Subset.refl _),
    fun u hu => hcov u (h.asked u (hasked ▸ hu)), fun u hu w hw => hcov w (h.closed u hu w hw), ?_⟩
  have hemits := h.emitted
  rw [todo_eq ht, Todo.emits_append] at hemits
  rw [todo_eq ht', hasked, Todo.emits_append, List.append_assoc, List.singleton_append]
  exact (List.Perm.append_left _ List.perm_middle.symm).trans hemits

end Advance

/-- **One step keeps what the threads keep.** -/
theorem Step.inv (hst : Step body m a m') (h : Inv body m) : Inv body m' := by
  cases hst with
  | spawn asked => exact h.spawn asked
  | skip ht hv => exact h.skip ht hv
  | mark ht hv => exact h.mark ht hv
  | emit ht => exact h.emit ht

/-- **Every run keeps the invariant.** -/
theorem Inv.of_run [DecidableEq V] {tr : List (Marking V O × MarkingAction V O)}
    (h : (system body).Run tr m) : Inv body m := by
  induction h with
  | init =>
      refine ⟨List.nodup_nil, fun v hv => ?_, fun v hv => ?_, fun u hu => ?_, List.Perm.refl _⟩
      · rcases hv with hv | hv <;> exact absurd hv List.not_mem_nil
      · exact absurd hv List.not_mem_nil
      · exact absurd hu List.not_mem_nil
  | step _ hs ih => exact (Step.of_step hs).inv ih

/-- **When nobody has anything left to do**, what can be reached is marked, and everything was
emitted that had to be. -/
theorem of_run [DecidableEq V] {tr : List (Marking V O × MarkingAction V O)}
    (h : (system body).Run tr m) (hdone : m.todo = []) :
    m.marked.Nodup ∧ (∀ v, v ∈ m.marked ↔ Reach body m v) ∧
      m.emitted.Perm (Todo.emits m.asked ++ m.marked.flatMap fun v => Todo.emits (body v)) := by
  have hinv := Inv.of_run h
  have hcov : ∀ {v}, m.Covers v → v ∈ m.marked := by
    intro v hv
    rw [Covers, hdone] at hv
    exact hv.resolve_right List.not_mem_nil
  refine ⟨hinv.nodup, fun v => ⟨fun hv => hinv.reach v (Or.inl hv), ?_⟩, ?_⟩
  · rintro ⟨r, hr, hpath⟩
    induction hpath with
    | refl => exact hcov (hinv.asked r hr)
    | tail _ hedge ih => exact hcov (hinv.closed _ ih _ hedge)
  · have hemits := hinv.emitted
    rw [hdone] at hemits
    simpa [Todo.emits] using hemits

/-! ## How many steps there are -/

variable [DecidableEq V]

/-- The length of the bodies of the nodes of `F` that are not marked. -/
def bodies (body : V → List (Todo V O)) (F : Finset V) (marked : List V) : ℕ :=
  ∑ v ∈ F.filter (· ∉ marked), (body v).length

/-- Marking a node takes its body from what can still be taken on. -/
lemma bodies_cons {F : Finset V} {marked : List V} {v : V} (hF : v ∈ F) (hv : v ∉ marked) :
    bodies body F marked = (body v).length + bodies body F (v :: marked) := by
  have hinsert : F.filter (· ∉ marked) = insert v (F.filter (· ∉ v :: marked)) := by
    ext u
    simp only [Finset.mem_filter, Finset.mem_insert, List.mem_cons, not_or]
    constructor
    · rintro ⟨hu, hne⟩
      by_cases huv : u = v
      · exact Or.inl huv
      · exact Or.inr ⟨hu, huv, hne⟩
    · rintro (rfl | ⟨hu, -, hne⟩)
      · exact ⟨hF, hv⟩
      · exact ⟨hu, hne⟩
  rw [bodies, hinsert, Finset.sum_insert (by simp), bodies]

/-- The steps that are left when the nodes of `F` are all that can be reached: what is on the lists,
and the bodies of the nodes that are not marked. -/
def left (body : V → List (Todo V O)) (F : Finset V) (m : Marking V O) : ℕ :=
  m.todo.length + bodies body F m.marked

omit [DecidableEq V] in
/-- What was asked for stays asked for. -/
lemma Step.asked_subset (hst : Step body m a m') : m.asked ⊆ m'.asked := by
  cases hst with
  | spawn asked =>
      intro item hitem
      simp only [Marking.asked, List.flatMap_append, List.mem_append]
      exact Or.inl hitem
  | skip ht hv =>
      rw [asked_eq ht, asked_eq rfl]
      exact List.Subset.refl _
  | mark ht hv =>
      rw [asked_eq ht, asked_eq rfl]
      exact List.Subset.refl _
  | emit ht =>
      rw [asked_eq ht, asked_eq rfl]
      exact List.Subset.refl _

/-- A step of a thread takes one off what is left, and a new thread brings what it is asked. -/
lemma Step.left {F : Finset V} (hst : Step body m a m') (hinv : Inv body m)
    (hF : ∀ v, Reach body m v → v ∈ F) :
    a.isStep.toNat + left body F m' + m.asked.length = left body F m + m'.asked.length := by
  unfold Marking.left
  cases hst with
  | spawn asked =>
      have htodo : (Marking.mk m.marked (m.threads ++ [⟨asked, asked⟩]) m.emitted).todo =
          m.todo ++ asked := by simp [Marking.todo]
      have hasked : (Marking.mk m.marked (m.threads ++ [⟨asked, asked⟩]) m.emitted).asked =
          m.asked ++ asked := by simp [Marking.asked]
      rw [htodo, hasked, List.length_append, List.length_append]
      simp only [MarkingAction.isStep, Bool.toNat_false]
      omega
  | skip ht hv =>
      rw [asked_eq ht, todo_eq ht, asked_eq rfl, todo_eq rfl]
      simp only [MarkingAction.isStep, Bool.toNat_true, List.length_append, List.length_cons]
      omega
  | @mark k l₁ l₂ asked rest v ht hv =>
      have hreach := hinv.reach v (Or.inr (mem_todo_of_mem ht List.mem_cons_self))
      rw [bodies_cons (hF v hreach) hv, asked_eq ht, todo_eq ht, asked_eq rfl, todo_eq rfl]
      simp only [MarkingAction.isStep, Bool.toNat_true, List.length_append, List.length_cons]
      omega
  | emit ht =>
      rw [asked_eq ht, todo_eq ht, asked_eq rfl, todo_eq rfl]
      simp only [MarkingAction.isStep, Bool.toNat_true, List.length_append, List.length_cons]
      omega

/-- **Every step of a thread is counted.** -/
theorem steps_add {tr : List (Marking V O × MarkingAction V O)} (h : (system body).Run tr m)
    (F : Finset V) (hF : ∀ v, Reach body m v → v ∈ F) :
    tr.countP (fun q => q.2.isStep) + left body F m =
      m.asked.length + ∑ v ∈ F, (body v).length := by
  induction h with
  | init => simp [system, left, bodies, Marking.todo, Marking.asked]
  | @step tr x y a h hs ih =>
      have hst := Step.of_step hs
      have hFx : ∀ v, Reach body x v → v ∈ F := fun v hv => hF v (hv.mono hst.asked_subset)
      have hleft := hst.left (Inv.of_run h) hFx
      have hcount := ih hFx
      rw [List.countP_cons]
      cases hstep : a.isStep <;> simp [hstep] at hleft ⊢ <;> omega

end Marking

end GoLabs.Lib
