import Mathlib

/-!
# Doubly linked lists

Cells with a pointer to the next and one to the previous cell. `Linked L l` says that the cells `l`
are linked in this order. A cell is taken out of its list by `unlink`, which leaves its own pointers
as they are, and so `relink` can put it back where it was: the two are inverse to each other as long
as nothing else happens in between, or only things that are undone in the reverse order
(`Linked.unlink`). `Linked.push_front` puts a new cell in front.
-/

namespace GoLabs.Lib

/-- The pointers of all cells. -/
@[ext]
structure Links where
  next : ℕ → Option ℕ
  prev : ℕ → Option ℕ

namespace Links

/-- No cell points to another. -/
def empty : Links := ⟨fun _ => none, fun _ => none⟩

/-- `a.next = v` -/
def setNext (L : Links) (a : ℕ) (v : Option ℕ) : Links :=
  { L with next := Function.update L.next a v }

/-- `a.prev = v` -/
def setPrev (L : Links) (a : ℕ) (v : Option ℕ) : Links :=
  { L with prev := Function.update L.prev a v }

/-- `setNext` changes `next` at one address. -/
@[simp] lemma setNext_next (L : Links) (a : ℕ) (v : Option ℕ) (b : ℕ) :
    (L.setNext a v).next b = if b = a then v else L.next b := Function.update_apply _ _ _ _

/-- `setNext` leaves `prev` alone. -/
@[simp] lemma setNext_prev (L : Links) (a : ℕ) (v : Option ℕ) (b : ℕ) :
    (L.setNext a v).prev b = L.prev b := rfl

/-- `setPrev` leaves `next` alone. -/
@[simp] lemma setPrev_next (L : Links) (a : ℕ) (v : Option ℕ) (b : ℕ) :
    (L.setPrev a v).next b = L.next b := rfl

/-- `setPrev` changes `prev` at one address. -/
@[simp] lemma setPrev_prev (L : Links) (a : ℕ) (v : Option ℕ) (b : ℕ) :
    (L.setPrev a v).prev b = if b = a then v else L.prev b := Function.update_apply _ _ _ _

/-- `if p != nil { p.prev = v }` -/
def setPrevOf (L : Links) (p : Option ℕ) (v : Option ℕ) : Links :=
  match p with
  | none => L
  | some b => L.setPrev b v

/-- `setPrevOf` leaves `next` alone. -/
@[simp] lemma setPrevOf_next (L : Links) (p v : Option ℕ) (b : ℕ) :
    (L.setPrevOf p v).next b = L.next b := by
  unfold setPrevOf
  split <;> rfl

/-- `setPrevOf` changes `prev` at the address it is given, if there is one. -/
@[simp] lemma setPrevOf_prev (L : Links) (p v : Option ℕ) (b : ℕ) :
    (L.setPrevOf p v).prev b = if p = some b then v else L.prev b := by
  unfold setPrevOf
  split
  · simp
  · simp [eq_comm]

/-- The neighbours of `a` point past it. There is nothing to do without a previous cell, and it is
an error to try. -/
def unlink (L : Links) (a : ℕ) : Option Links :=
  match L.prev a with
  | none => none
  | some p =>
      let L := L.setNext p (L.next a)
      some (L.setPrevOf (L.next a) (L.prev a))

/-- The neighbours of `a` point to it. -/
def relink (L : Links) (a : ℕ) : Option Links :=
  match L.prev a with
  | none => none
  | some p =>
      let L := L.setNext p (some a)
      some (L.setPrevOf (L.next a) (some a))

/-- The cells are linked in this order, and the last one has none after it. -/
def Linked (L : Links) : List ℕ → Prop
  | [] => True
  | [a] => L.next a = none
  | a :: b :: l => L.next a = some b ∧ L.prev b = some a ∧ Linked L (b :: l)

variable {L L' : Links} {a p : ℕ} {l l₁ l₂ : List ℕ}

/-- The first cell points to the second one. -/
lemma Linked.next_head (h : Linked L (a :: l)) : L.next a = l.head? := by
  cases l with
  | nil => exact h
  | cons b l => exact h.1

/-- The cells behind the first one are linked. -/
lemma Linked.tail (h : Linked L (a :: l)) : Linked L l := by
  cases l with
  | nil => trivial
  | cons b l => exact h.2.2

/-- The last cells of a linked list are linked. -/
lemma Linked.append_right (h : Linked L (l₁ ++ l₂)) : Linked L l₂ := by
  induction l₁ with
  | nil => exact h
  | cons a l₁ ih => exact ih h.tail

/-- Whether cells are linked depends on the pointers between them only. -/
lemma Linked.congr (h : Linked L l) (hnext : ∀ a ∈ l, L'.next a = L.next a)
    (hprev : ∀ a ∈ l.tail, L'.prev a = L.prev a) : Linked L' l := by
  induction l with
  | nil => trivial
  | cons a l ih =>
      cases l with
      | nil =>
          show L'.next a = none
          rw [hnext a List.mem_cons_self]
          exact h
      | cons b l =>
          refine ⟨?_, ?_, ih h.tail ?_ ?_⟩
          · rw [hnext a List.mem_cons_self]
            exact h.1
          · rw [hprev b List.mem_cons_self]
            exact h.2.1
          · intro c hc
            exact hnext c (List.mem_cons_of_mem a hc)
          · intro c hc
            exact hprev c (List.mem_cons_of_mem b hc)

/-- The cell before another one. -/
lemma Linked.prev_eq (h : Linked L (l₁ ++ p :: a :: l₂)) : L.prev a = some p :=
  h.append_right.2.1

/-- The cell after another one. -/
lemma Linked.next_eq (h : Linked L (l₁ ++ a :: l₂)) : L.next a = l₂.head? :=
  h.append_right.next_head

/-- The pointers of the list without `a`. -/
def bypass (L : Links) (p a : ℕ) : Links :=
  (L.setNext p (L.next a)).setPrevOf (L.next a) (some p)

/-- A cell that has a cell before it is unlinked by leading that one past it. -/
lemma unlink_eq_bypass (hprev : L.prev a = some p) (hpa : p ≠ a) :
    L.unlink a = some (L.bypass p a) := by
  unfold unlink bypass
  rw [hprev]
  simp only [setNext_next, setNext_prev, hprev, if_neg hpa.symm]

/-- Without `a`, the others are linked as before. By induction on the cells before it. -/
lemma Linked.bypass (h : Linked L (l₁ ++ p :: a :: l₂)) (hl : (l₁ ++ p :: a :: l₂).Nodup) :
    Linked (L.bypass p a) (l₁ ++ p :: l₂) := by
  have hnext : L.next a = l₂.head? := h.append_right.tail.next_head
  induction l₁ with
  | nil =>
      have htail : ∀ b ∈ l₂.tail, L.next a ≠ some b := by
        intro b hb heq
        cases l₂ with
        | nil => cases hb
        | cons c l₂ =>
            obtain rfl := Option.some.inj (hnext.symm.trans heq)
            simp only [List.nil_append, List.nodup_cons] at hl
            exact hl.2.2.1 hb
      have hrest : Linked (L.bypass p a) l₂ := by
        refine h.tail.tail.congr ?_ ?_
        · intro b hb
          have hbp : b ≠ p := by
            rintro rfl
            exact (List.nodup_cons.mp hl).1 (List.mem_cons_of_mem a hb)
          simp [Links.bypass, hbp]
        · intro b hb
          simp [Links.bypass, htail b hb]
      cases l₂ with
      | nil =>
          show (L.bypass p a).next p = none
          simpa [Links.bypass] using hnext
      | cons b l₂ =>
          refine ⟨?_, ?_, hrest⟩
          · simpa [Links.bypass] using hnext
          · have hnext' : L.next a = some b := hnext
            simp [Links.bypass, hnext']
  | cons x l₁ ih =>
      have ih := ih h.tail (List.nodup_cons.mp hl).2
      have hx := (List.nodup_cons.mp hl).1
      have hxp : x ≠ p := by
        rintro rfl
        exact hx (by simp)
      -- the cell after `x` is not the one after `a`
      have hhead : ∀ y ∈ (l₁ ++ [p]).head?, L.next a ≠ some y := by
        intro y hy heq
        have hmem : y ∈ l₁ ++ [p] := List.mem_of_mem_head? hy
        have hmem₂ : y ∈ l₂ := List.mem_of_mem_head? (hnext ▸ heq)
        have hnodup : ((l₁ ++ [p]) ++ a :: l₂).Nodup := by
          simpa using (List.nodup_cons.mp hl).2
        exact (List.nodup_append.mp hnodup).2.2 y hmem y (List.mem_cons_of_mem a hmem₂) rfl
      cases l₁ with
      | nil =>
          refine ⟨?_, ?_, ih⟩
          · simpa [Links.bypass, hxp] using h.1
          · simpa [Links.bypass, hhead p rfl] using h.2.1
      | cons y l₁ =>
          refine ⟨?_, ?_, ih⟩
          · simpa [Links.bypass, hxp] using h.1
          · simpa [Links.bypass, hhead y rfl] using h.2.1

/-- What was taken out can be put back. -/
lemma relink_bypass (hprev : L.prev a = some p) (hpa : p ≠ a) (hpnext : L.next p = some a)
    (hnext : ∀ b, L.next a = some b → L.prev b = some a ∧ b ≠ a) :
    (L.bypass p a).relink a = some L := by
  have hself : L.next a ≠ some a := by
    intro h
    exact (hnext a h).2 rfl
  have hprev' : (L.bypass p a).prev a = some p := by simp [bypass, hself, hprev]
  unfold relink
  rw [hprev']
  refine congrArg some (Links.ext ?_ ?_)
  · funext b
    by_cases hb : b = p
    · simp [hb, hpnext]
    · simp [bypass, hb]
  · funext b
    by_cases hb : L.next a = some b
    · simp [bypass, hpa.symm, hb, (hnext b hb).1]
    · simp [bypass, hpa.symm, hb]

/-- **Taking out a cell and putting it back.** The cell itself still points to where it was. -/
theorem Linked.unlink (h : Linked L (l₁ ++ a :: l₂)) (hl : (l₁ ++ a :: l₂).Nodup) (hl₁ : l₁ ≠ []) :
    ∃ L', L.unlink a = some L' ∧ Linked L' (l₁ ++ l₂) ∧ L'.relink a = some L ∧
      L.prev a ≠ some a ∧ L'.prev a = L.prev a ∧ L'.next a = L.next a := by
  obtain ⟨l, p, rfl⟩ : ∃ l p, l₁ = l ++ [p] := ⟨_, _, (List.dropLast_append_getLast hl₁).symm⟩
  simp only [List.append_assoc, List.singleton_append] at h hl ⊢
  have hright := (List.nodup_append.mp hl).2.1
  have hpa : p ≠ a := by
    rintro rfl
    exact (List.nodup_cons.mp hright).1 List.mem_cons_self
  have hnext : ∀ b, L.next a = some b → L.prev b = some a ∧ b ≠ a := by
    intro b hb
    have hlinked : Linked L (a :: l₂) := h.append_right.tail
    cases l₂ with
    | nil =>
        rw [show L.next a = none from hlinked] at hb
        cases hb
    | cons c l₂ =>
        obtain rfl := Option.some.inj (hlinked.1.symm.trans hb)
        refine ⟨hlinked.2.1, ?_⟩
        rintro rfl
        exact (List.nodup_cons.mp (List.nodup_cons.mp hright).2).1 List.mem_cons_self
  have hself : L.next a ≠ some a := fun hb => (hnext a hb).2 rfl
  refine ⟨L.bypass p a, unlink_eq_bypass h.prev_eq hpa, h.bypass hl, ?_, ?_, ?_, ?_⟩
  · exact relink_bypass h.prev_eq hpa h.append_right.1 hnext
  · rw [h.prev_eq]
    exact fun heq => hpa (Option.some.inj heq)
  · simp [Links.bypass, hself]
  · simp [Links.bypass, hpa.symm]

/-- A new cell in front of the others. -/
lemma Linked.push_front {b : ℕ} (h : Linked L (b :: l)) (ha : a ∉ b :: l)
    (hb : b ∉ l) : Linked ((L.setPrev b (some a)).setNext a (some b)) (a :: b :: l) := by
  refine ⟨by simp, by simp, h.congr ?_ ?_⟩
  · intro c hc
    have hca : c ≠ a := by
      rintro rfl
      exact ha hc
    simp [hca]
  · intro c hc
    have hcb : c ≠ b := by
      rintro rfl
      exact hb hc
    simp [hcb]

end Links

end GoLabs.Lib
