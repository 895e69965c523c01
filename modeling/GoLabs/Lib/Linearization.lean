import Mathlib
import GoLabs.Lib.Partition

/-!
# Linearizability and its locality

A history is a list of operations with the times of their calls and returns. A linearization orders
all of them such that an operation that has returned before another one is called comes first, and
such that a sequential object accepts them in this order.

* `Spec` — a sequential object: from a state, an operation with its answer is accepted or not, and
  leads to the next state.
* `Linearizable` — some linearization exists.
* `Spec.product` — one copy of an object for each key, every operation going to that of its key.

**Locality** (`linearizable_product_iff`): a history of the product is linearizable iff for every
key the operations with this key are. From left to right a linearization is cut into its parts.
From right to left the parts are merged: every operation of a linearization has a point in time
between its call and its return, such that the points go up along the linearization
(`RespectsTime.exists_points`); ordering the operations of all parts by their points keeps each part
as it is and contradicts no part of the real-time order (`exists_merge`).
-/

namespace GoLabs.Lib

variable {α σ τ κ : Type*}

/-! ## Sequential objects -/

/-- A sequential object. -/
structure Spec (σ α : Type*) where
  init : σ
  /-- Whether an operation with its answer is accepted, and the state after it. -/
  step : σ → α → Bool × σ

namespace Spec

/-- The object accepts the operations one after the other. -/
def accepts (P : Spec σ α) : σ → List α → Bool
  | _, [] => true
  | s, a :: l => (P.step s a).1 && P.accepts (P.step s a).2 l

variable [DecidableEq κ]

/-- One object for each key. -/
def product (P : Spec σ α) (key : α → κ) : Spec (κ → σ) α where
  init := fun _ => P.init
  step f a :=
    ((P.step (f (key a)) a).1, Function.update f (key a) (P.step (f (key a)) a).2)

/-- The objects of different keys do not notice each other. -/
lemma accepts_product (P : Spec σ α) (key : α → κ) (f : κ → σ) (l : List α) :
    (P.product key).accepts f l ↔ ∀ k, P.accepts (f k) (l.filter fun a => key a = k) := by
  induction l generalizing f with
  | nil => simp [accepts]
  | cons a l ih =>
      simp only [accepts, product, Bool.and_eq_true] at ih ⊢
      rw [ih]
      constructor
      · rintro ⟨ha, hl⟩ k
        have hk := hl k
        by_cases hak : key a = k
        · subst hak
          rw [Function.update_self] at hk
          simp [accepts, ha, hk]
        · rw [Function.update_of_ne (Ne.symm hak)] at hk
          simpa [hak] using hk
      · intro h
        have ha := h (key a)
        simp only [decide_true, List.filter_cons_of_pos, accepts, Bool.and_eq_true] at ha
        refine ⟨ha.1, fun k => ?_⟩
        by_cases hak : key a = k
        · subst hak
          rw [Function.update_self]
          exact ha.2
        · rw [Function.update_of_ne (Ne.symm hak)]
          simpa [hak] using h k

end Spec

/-! ## Real time -/

section RealTime

variable [LinearOrder τ] (call ret : α → τ)

/-- No operation comes after one that was called when it had already returned. -/
def RespectsTime (l : List α) : Prop := l.Pairwise fun a b => ¬ ret b < call a

/-- All operations of the history can be ordered such that the order respects real time and the
object accepts it. -/
def Linearizable (P : Spec σ α) (history : List α) : Prop :=
  ∃ l, l.Perm history ∧ RespectsTime call ret l ∧ P.accepts P.init l

instance decidableRespectsTime (l : List α) : Decidable (RespectsTime call ret l) :=
  inferInstanceAs (Decidable (l.Pairwise fun a b => ¬ ret b < call a))

/-- All orders can be tried. -/
instance decidableLinearizable (P : Spec σ α) (history : List α) :
    Decidable (Linearizable call ret P history) :=
  decidable_of_iff
    (∃ l ∈ history.permutations', RespectsTime call ret l ∧ P.accepts P.init l)
    (exists_congr fun _ => and_congr_left fun _ => List.mem_permutations')

variable {call ret}

/-- Points in time from `m` on at which the operations can take effect in this order. -/
lemma RespectsTime.exists_points_from {l : List α} (h : RespectsTime call ret l)
    (htime : ∀ a ∈ l, call a ≤ ret a) (m : τ) (hm : ∀ a ∈ l, m ≤ ret a) :
    ∃ ps : List (τ × α), ps.map Prod.snd = l ∧ ps.Pairwise (fun p q => p.1 ≤ q.1) ∧
      ∀ p ∈ ps, m ≤ p.1 ∧ call p.2 ≤ p.1 ∧ p.1 ≤ ret p.2 := by
  induction l generalizing m with
  | nil => exact ⟨[], rfl, List.Pairwise.nil, by simp⟩
  | cons a l ih =>
      obtain ⟨hhead, htail⟩ := List.pairwise_cons.mp h
      -- the earliest point that is left: not before `m` and not before the call
      have hle : ∀ b ∈ l, max m (call a) ≤ ret b := fun b hb =>
        max_le (hm b (List.mem_cons_of_mem _ hb)) (not_lt.mp (hhead b hb))
      obtain ⟨ps, hmap, hsorted, hps⟩ :=
        ih htail (fun b hb => htime b (List.mem_cons_of_mem _ hb)) (max m (call a)) hle
      refine ⟨(max m (call a), a) :: ps, by rw [List.map_cons, hmap], ?_, ?_⟩
      · exact List.pairwise_cons.mpr ⟨fun p hp => (hps p hp).1, hsorted⟩
      · intro p hp
        rcases List.mem_cons.mp hp with rfl | hp
        · exact ⟨le_max_left _ _, le_max_right _ _,
            max_le (hm a List.mem_cons_self) (htime a List.mem_cons_self)⟩
        · obtain ⟨hmp, hcall, hret⟩ := hps p hp
          exact ⟨(le_max_left _ _).trans hmp, hcall, hret⟩

/-- **Linearization points.** -/
lemma RespectsTime.exists_points {l : List α} (h : RespectsTime call ret l)
    (htime : ∀ a ∈ l, call a ≤ ret a) :
    ∃ ps : List (τ × α), ps.map Prod.snd = l ∧ ps.Pairwise (fun p q => p.1 ≤ q.1) ∧
      ∀ p ∈ ps, call p.2 ≤ p.1 ∧ p.1 ≤ ret p.2 := by
  cases l with
  | nil => exact ⟨[], rfl, List.Pairwise.nil, by simp⟩
  | cons a l =>
      have hfirst : ∀ b ∈ a :: l, call a ≤ ret b := by
        intro b hb
        rcases List.mem_cons.mp hb with rfl | hb
        · exact htime b List.mem_cons_self
        · exact not_lt.mp ((List.pairwise_cons.mp h).1 b hb)
      obtain ⟨ps, hmap, hsorted, hps⟩ := h.exists_points_from htime (call a) hfirst
      exact ⟨ps, hmap, hsorted, fun p hp => (hps p hp).2⟩

/-! ## Merging -/

variable [DecidableEq κ] {key : α → κ}

/-- **Merging.** Orders of the operations of each key that respect real time are the parts of one
order of all operations that does. -/
theorem exists_merge {history : List α} (htime : ∀ a ∈ history, call a ≤ ret a)
    {order : κ → List α}
    (hperm : ∀ k, (order k).Perm (history.filter fun a => key a = k))
    (horder : ∀ k, RespectsTime call ret (order k)) :
    ∃ l, l.Perm history ∧ RespectsTime call ret l ∧
      ∀ k, (l.filter fun a => key a = k) = order k := by
  have hkey : ∀ k, ∀ a ∈ order k, key a = k := by
    intro k a ha
    simpa using (List.mem_filter.mp ((hperm k).subset ha)).2
  have hmem : ∀ k, ∀ a ∈ order k, call a ≤ ret a := by
    intro k a ha
    exact htime a (List.mem_of_mem_filter ((hperm k).subset ha))
  choose ps hmap hsorted hps using fun k => (horder k).exists_points (hmem k)
  have hpskey : ∀ k, ∀ p ∈ ps k, key p.2 = k := by
    intro k p hp
    exact hkey k p.2 (hmap k ▸ List.mem_map_of_mem hp)
  -- the operations of all parts, ordered by their points
  obtain ⟨all, hall, hfilter⟩ := exists_ordered hpskey hsorted (List.nodup_dedup (history.map key))
  have hpart : ∀ k, (all.filter fun p => key p.2 = k) = ps k := by
    intro k
    rw [hfilter]
    split_ifs with hk
    · rfl
    · have hnone : history.filter (fun a => key a = k) = [] := by
        rw [List.filter_eq_nil_iff]
        intro a ha heq
        exact hk (List.mem_dedup.mpr (List.mem_map.mpr ⟨a, ha, by simpa using heq⟩))
      have hnil := hperm k
      rw [hnone, List.perm_nil, ← hmap, List.map_eq_nil_iff] at hnil
      exact hnil.symm
  have hparts : ∀ k, ((all.map Prod.snd).filter fun a => key a = k) = order k := by
    intro k
    rw [List.filter_map, ← hmap k, ← hpart k]
    rfl
  refine ⟨all.map Prod.snd, perm_of_filter_perm key fun k => hparts k ▸ hperm k, ?_, hparts⟩
  rw [RespectsTime, List.pairwise_map]
  refine hall.imp_of_mem fun {p q} hp hq hle => not_lt.mpr ?_
  have hbounds : ∀ p ∈ all, call p.2 ≤ p.1 ∧ p.1 ≤ ret p.2 := by
    intro p hp
    refine hps (key p.2) p ?_
    rw [← hpart]
    exact List.mem_filter.mpr ⟨hp, by simp⟩
  calc call p.2 ≤ p.1 := (hbounds p hp).1
    _ ≤ q.1 := hle
    _ ≤ ret q.2 := (hbounds q hq).2

/-- **Locality.** A history of the product is linearizable iff its parts are. -/
theorem linearizable_product_iff (P : Spec σ α) (key : α → κ) {history : List α}
    (htime : ∀ a ∈ history, call a ≤ ret a) :
    Linearizable call ret (P.product key) history ↔
      ∀ k, Linearizable call ret P (history.filter fun a => key a = k) := by
  constructor
  · rintro ⟨l, hperm, hl, hacc⟩ k
    exact ⟨l.filter fun a => key a = k, hperm.filter _, List.Pairwise.filter _ hl,
      (P.accepts_product key _ l).mp hacc k⟩
  · intro h
    choose order hperm horder hacc using h
    obtain ⟨l, hl, htimes, hparts⟩ := exists_merge htime hperm horder
    refine ⟨l, hl, htimes, (P.accepts_product key _ l).mpr fun k => ?_⟩
    rw [hparts k]
    exact hacc k

end RealTime

end GoLabs.Lib
