import Mathlib

/-!
# The bitset of the linearizability checker

The checker keeps the operations that it has linearized in a bitset. `Represents n b S` says that
the bitset `b`, made for `n` positions, has exactly the elements of `S`. A new bitset represents the
empty set, `set` and `clear` add and take out an element, `get` asks for one, `popcnt` counts them
and `equals` compares two sets. So equal sets have one representation only, and one hash.

A slice of Go is a list here, and an index outside of it ends the program: `none`.
-/

namespace GoLabs.Porcupine

/-- Bits 0–63 are in the first word, the next ones in the second, and so on.
Source: `bitset.go` `bitset` -/
abbrev Bitset := List (BitVec 64)

/-- Source: `bitset.go` `newBitset` -/
def newBitset (bits : ℕ) : Bitset :=
  let extra := if bits % 64 ≠ 0 then 1 else 0
  let chunks := bits / 64 + extra
  List.replicate chunks 0

/-- Source: `bitset.go` `bitsetIndex` -/
def bitsetIndex (pos : ℕ) : ℕ × ℕ := (pos / 64, pos % 64)

/-- `bits.OnesCount64` -/
def onesCount64 (v : BitVec 64) : ℕ := ((List.range 64).filter fun k => v.getLsbD k).length

namespace Bitset

/-- A copy. Lists are values, so there is nothing to do.
Source: `bitset.go` `clone` -/
def clone (b : Bitset) : Bitset := b

/-- `b[major] = f(b[major])`, where the index has to be in range. -/
def update (b : Bitset) (pos : ℕ) (f : BitVec 64 → BitVec 64 → BitVec 64) : Option Bitset :=
  let (major, minor) := bitsetIndex pos
  match b[major]? with
  | none => none
  | some v => some (List.set b major (f v (1#64 <<< minor)))

/-- Source: `bitset.go` `set` -/
def set (b : Bitset) (pos : ℕ) : Option Bitset := b.update pos fun v bit => v ||| bit

/-- Source: `bitset.go` `clear` -/
def clear (b : Bitset) (pos : ℕ) : Option Bitset := b.update pos fun v bit => v &&& ~~~bit

/-- Source: `bitset.go` `get` -/
def get (b : Bitset) (pos : ℕ) : Option Bool :=
  let (major, minor) := bitsetIndex pos
  match b[major]? with
  | none => none
  | some v => some (v &&& (1#64 <<< minor) ≠ 0)

/-- Source: `bitset.go` `popcnt` -/
def popcnt (b : Bitset) : ℕ := b.foldl (fun total v => total + onesCount64 v) 0

/-- Source: `bitset.go` `hash` -/
def hash (b : Bitset) : BitVec 64 := b.foldl (fun hash v => hash ^^^ v) (BitVec.ofNat 64 b.popcnt)

/-- Source: `bitset.go` `equals` -/
def equals (b b2 : Bitset) : Bool :=
  if b.length ≠ b2.length then false
  else (b.zip b2).all fun p => p.1 == p.2

/-- `equals` is equality. -/
lemma equals_iff {b b2 : Bitset} : b.equals b2 = true ↔ b = b2 := by
  unfold equals
  constructor
  · intro h
    split_ifs at h with hlen
    refine List.ext_getElem (not_not.mp hlen) fun i hi hi2 => ?_
    have hmem : (b[i], b2[i]) ∈ b.zip b2 := by
      rw [← List.getElem_zip]
      exact List.getElem_mem (by simp; omega)
    simpa using List.all_eq_true.mp h _ hmem
  · rintro rfl
    rw [if_neg (not_not.mpr rfl), List.all_eq_true]
    intro p hp
    rw [List.zip, List.zipWith_self] at hp
    obtain ⟨v, -, rfl⟩ := List.mem_map.mp hp
    exact beq_self_eq_true v

/-! ## The set that a bitset represents -/

/-- The bit at a position. -/
def bit (b : Bitset) (pos : ℕ) : Bool := (b.getD (pos / 64) 0).getLsbD (pos % 64)

/-- `b` has room for `n` positions and its elements are those of `S`. -/
structure Represents (n : ℕ) (b : Bitset) (S : Finset ℕ) : Prop where
  length : b.length = (n + 63) / 64
  bit_eq : ∀ pos, b.bit pos = decide (pos ∈ S)

variable {n pos : ℕ} {b b' : Bitset} {S S' : Finset ℕ}

/-- A new bitset is empty. -/
lemma represents_newBitset (n : ℕ) : Represents n (newBitset n) ∅ where
  length := by
    unfold newBitset
    rw [List.length_replicate]
    split_ifs <;> omega
  bit_eq pos := by simp [bit, newBitset]

/-- The word with one bit set. -/
lemma getLsbD_one_shiftLeft {minor k : ℕ} (hminor : minor < 64) :
    (1#64 <<< minor).getLsbD k = decide (k = minor) := by
  rw [BitVec.getLsbD_shiftLeft]
  by_cases hk : k = minor
  · subst hk
    simp [hminor]
  · simp [hk]
    omega

/-- What happens to the bits when one word is changed. -/
lemma update_eq {f : BitVec 64 → BitVec 64 → BitVec 64} {g : Bool → Bool → Bool}
    (hf : ∀ v bit k, k < 64 → (f v bit).getLsbD k = g (v.getLsbD k) (bit.getLsbD k))
    (hg : ∀ x, g x false = x) (hpos : pos / 64 < b.length) :
    ∃ b' : Bitset, b.update pos f = some b' ∧ b'.length = b.length ∧
      ∀ k, b'.bit k = if k = pos then g (b.bit pos) true else b.bit k := by
  have hget : b[pos / 64]? = some b[pos / 64] := List.getElem?_eq_getElem hpos
  refine ⟨List.set b (pos / 64) (f b[pos / 64] (1#64 <<< (pos % 64))), ?_, List.length_set, ?_⟩
  · unfold update bitsetIndex
    simp only [hget]
  · intro k
    have hk : k % 64 < 64 := Nat.mod_lt _ (by norm_num)
    unfold bit
    rw [List.getD_eq_getElem?_getD, List.getElem?_set]
    by_cases hword : pos / 64 = k / 64
    · -- the word of `pos`: all its bits but one stay
      have hb : b.getD (k / 64) 0 = b[pos / 64] := by
        rw [← hword, List.getD_eq_getElem?_getD, hget]
        rfl
      rw [if_pos hword, if_pos hpos, Option.getD_some, hf _ _ _ hk, List.getD_eq_getElem?_getD,
        hget, getLsbD_one_shiftLeft (Nat.mod_lt _ (by norm_num)), hb]
      by_cases hkp : k = pos
      · simp [hkp]
      · have hmod : k % 64 ≠ pos % 64 := by omega
        simp [hkp, hmod, hg]
    · have hkp : k ≠ pos := by
        rintro rfl
        exact hword rfl
      rw [if_neg hword, if_neg hkp, List.getD_eq_getElem?_getD]

/-- The word of a position is there. -/
lemma Represents.index_lt (h : Represents n b S) (hpos : pos < n) : pos / 64 < b.length := by
  rw [h.length]
  omega

/-- `set` adds an element. -/
lemma Represents.set (h : Represents n b S) (hpos : pos < n) :
    ∃ b', b.set pos = some b' ∧ Represents n b' (insert pos S) := by
  have hor : ∀ v bit : BitVec 64, ∀ k < 64,
      (v ||| bit).getLsbD k = (v.getLsbD k || bit.getLsbD k) := fun v bit k _ => BitVec.getLsbD_or
  obtain ⟨b', hb', hlen, hbit⟩ := update_eq hor Bool.or_false (h.index_lt hpos)
  refine ⟨b', hb', hlen.trans h.length, fun k => ?_⟩
  rw [hbit, h.bit_eq, h.bit_eq]
  by_cases hk : k = pos
  · simp [hk]
  · simp [hk]

/-- `clear` takes an element out. -/
lemma Represents.clear (h : Represents n b S) (hpos : pos < n) :
    ∃ b', b.clear pos = some b' ∧ Represents n b' (S.erase pos) := by
  have hand : ∀ v bit : BitVec 64, ∀ k < 64,
      (v &&& ~~~bit).getLsbD k = (v.getLsbD k && !bit.getLsbD k) := by
    intro v bit k hk
    simp [hk]
  obtain ⟨b', hb', hlen, hbit⟩ :=
    update_eq (g := fun x y => x && !y) hand (by simp) (h.index_lt hpos)
  refine ⟨b', hb', hlen.trans h.length, fun k => ?_⟩
  rw [hbit, h.bit_eq, h.bit_eq]
  by_cases hk : k = pos
  · simp [hk]
  · simp [hk]

/-- `get` asks for an element. -/
lemma Represents.get (h : Represents n b S) (hpos : pos < n) :
    b.get pos = some (decide (pos ∈ S)) := by
  have hlt := h.index_lt hpos
  have hget : b[pos / 64]? = some b[pos / 64] := List.getElem?_eq_getElem hlt
  have hmod : pos % 64 < 64 := Nat.mod_lt _ (by norm_num)
  have hbit : b[pos / 64].getLsbD (pos % 64) = decide (pos ∈ S) := by
    rw [← h.bit_eq]
    simp [bit, hget]
  unfold Bitset.get bitsetIndex
  simp only [hget, Option.some.injEq]
  rw [← hbit, Bool.eq_iff_iff, decide_eq_true_iff]
  constructor
  · intro hne
    by_contra hfalse
    refine hne (BitVec.eq_of_getLsbD_eq fun k hk => ?_)
    rw [BitVec.getLsbD_and, getLsbD_one_shiftLeft hmod]
    by_cases hkm : k = pos % 64
    · simpa [hkm] using hfalse
    · simp [hkm]
  · intro htrue hzero
    have hk := congrArg (fun v => v.getLsbD (pos % 64)) hzero
    simp only [BitVec.getLsbD_and, getLsbD_one_shiftLeft hmod, htrue] at hk
    simp at hk

/-- **Equal sets have one representation.** -/
lemma Represents.equals (h : Represents n b S) (h' : Represents n b' S') :
    b.equals b' = decide (S = S') := by
  rw [Bool.eq_iff_iff, equals_iff, decide_eq_true_iff]
  constructor
  · rintro rfl
    ext pos
    have hpos := (h.bit_eq pos).symm.trans (h'.bit_eq pos)
    simpa using hpos
  · rintro rfl
    refine List.ext_getElem (h.length.trans h'.length.symm) fun i hi hi' => ?_
    refine BitVec.eq_of_getLsbD_eq fun k hk => ?_
    have hbit := (h.bit_eq (64 * i + k)).trans (h'.bit_eq (64 * i + k)).symm
    have hdiv : (64 * i + k) / 64 = i := by omega
    have hmod : (64 * i + k) % 64 = k := by omega
    simpa [bit, hdiv, hmod, hi, hi'] using hbit

/-! ## Counting -/

/-- The positions of the elements. -/
def elements (b : Bitset) : List ℕ := (List.range (64 * b.length)).filter b.bit

/-- The bits of the first word and those of the others. -/
lemma popcnt_cons (v : BitVec 64) (b : Bitset) :
    popcnt (v :: b) = onesCount64 v + popcnt b := by
  have hfold : ∀ (l : Bitset) (total : ℕ),
      l.foldl (fun total v => total + onesCount64 v) total = total + popcnt l := by
    intro l
    induction l with
    | nil => simp [popcnt]
    | cons w l ih =>
        intro total
        unfold popcnt
        rw [List.foldl_cons, List.foldl_cons, ih, ih, Nat.zero_add, Nat.add_assoc]
  show (v :: b).foldl _ 0 = _
  rw [List.foldl_cons, hfold, Nat.zero_add]

/-- `popcnt` counts the elements. -/
lemma popcnt_eq_length (b : Bitset) : b.popcnt = b.elements.length := by
  induction b with
  | nil => rfl
  | cons v b ih =>
      have hfirst : (List.range 64).filter (bit (v :: b)) =
          (List.range 64).filter fun k => v.getLsbD k := by
        refine List.filter_congr fun k hk => ?_
        have hk := List.mem_range.mp hk
        simp [bit, Nat.div_eq_of_lt hk, Nat.mod_eq_of_lt hk]
      have hrest : bit (v :: b) ∘ (64 + ·) = bit b := by
        funext k
        have hdiv : (64 + k) / 64 = k / 64 + 1 := by omega
        have hmod : (64 + k) % 64 = k % 64 := by omega
        simp [bit, hdiv, hmod]
      have hlen : 64 * (v :: b).length = 64 + 64 * b.length := by
        rw [List.length_cons]
        omega
      unfold elements at ih ⊢
      rw [popcnt_cons, ih, hlen, List.range_add, List.filter_append, hfirst, List.filter_map, hrest,
        List.length_append, List.length_map]
      rfl

/-- `popcnt` counts the elements. -/
lemma Represents.popcnt (h : Represents n b S) : b.popcnt = S.card := by
  have hset : b.elements.toFinset = S := by
    ext pos
    rw [List.mem_toFinset, elements, List.mem_filter, List.mem_range, h.bit_eq,
      decide_eq_true_iff]
    refine ⟨fun hpos => hpos.2, fun hpos => ⟨?_, hpos⟩⟩
    -- outside of the words there is no bit
    by_contra hge
    have hbit := h.bit_eq pos
    have hnone : b[pos / 64]? = none := List.getElem?_eq_none (by omega)
    simp [bit, hnone, hpos] at hbit
  have hnodup : b.elements.Nodup := List.nodup_range.filter _
  rw [popcnt_eq_length, ← hset, List.toFinset_card_of_nodup hnodup]

/-! ## Runs -/

/-- What the checker does to its bitset. -/
inductive Change
  | set (pos : ℕ)
  | clear (pos : ℕ)

/-- The position that is changed. -/
def Change.position : Change → ℕ
  | set pos => pos
  | clear pos => pos

/-- The change of a bitset. -/
def change (b : Bitset) : Change → Option Bitset
  | .set pos => b.set pos
  | .clear pos => b.clear pos

/-- What is meant by it. -/
def Change.apply (S : Finset ℕ) : Change → Finset ℕ
  | set pos => insert pos S
  | clear pos => S.erase pos

/-- A change of a position in range does not panic, and changes the set. -/
lemma Represents.change (h : Represents n b S) {c : Change} (hc : c.position < n) :
    ∃ b', b.change c = some b' ∧ Represents n b' (c.apply S) := by
  cases c with
  | set pos => exact h.set hc
  | clear pos => exact h.clear hc

/-- Changes one after the other. -/
lemma Represents.changes (h : Represents n b S) {cs : List Change}
    (hcs : ∀ c ∈ cs, c.position < n) :
    ∃ b', cs.foldlM Bitset.change b = some b' ∧ Represents n b' (cs.foldl Change.apply S) := by
  induction cs generalizing b S with
  | nil => exact ⟨b, rfl, h⟩
  | cons c cs ih =>
      obtain ⟨b', hb', hrep⟩ := h.change (hcs c List.mem_cons_self)
      obtain ⟨b'', hb'', hrep'⟩ := ih hrep fun c hc => hcs c (List.mem_cons_of_mem _ hc)
      refine ⟨b'', ?_, hrep'⟩
      rw [List.foldlM_cons, hb']
      exact hb''

end Bitset

/-- **A bitset is a set of positions.** After any changes within the positions that it was made for,
no index has been out of range, `get` and `popcnt` tell what the set is, and bitsets that went
through different changes are equal iff the sets are. Then they have the same hash. -/
theorem bitset_changes (n : ℕ) (cs : List Bitset.Change) (hcs : ∀ c ∈ cs, c.position < n) :
    ∃ b, cs.foldlM Bitset.change (newBitset n) = some b ∧
      (∀ pos < n, b.get pos = some (decide (pos ∈ cs.foldl Bitset.Change.apply ∅))) ∧
      b.popcnt = (cs.foldl Bitset.Change.apply ∅).card ∧
      ∀ cs' : List Bitset.Change, (∀ c ∈ cs', c.position < n) →
        ∃ b', cs'.foldlM Bitset.change (newBitset n) = some b' ∧
          (b.equals b' = true ↔
            cs.foldl Bitset.Change.apply ∅ = cs'.foldl Bitset.Change.apply ∅) ∧
          (b.equals b' = true → b.hash = b'.hash) := by
  obtain ⟨b, hb, hrep⟩ := (Bitset.represents_newBitset n).changes hcs
  refine ⟨b, hb, fun pos hpos => hrep.get hpos, hrep.popcnt, fun cs' hcs' => ?_⟩
  obtain ⟨b', hb', hrep'⟩ := (Bitset.represents_newBitset n).changes hcs'
  refine ⟨b', hb', ?_, ?_⟩
  · rw [hrep.equals hrep', decide_eq_true_iff]
  · intro h
    rw [Bitset.equals_iff.mp h]

/-- Changes in two words. -/
theorem bitset_changes_two_words :
    (∀ c ∈ [Bitset.Change.set 3, .set 65, .clear 3], c.position < 70) ∧
    ∃ b, [Bitset.Change.set 3, .set 65, .clear 3].foldlM Bitset.change (newBitset 70) = some b ∧
      b.get 3 = some false ∧ b.get 65 = some true ∧ b.popcnt = 1 := by
  have hcs : ∀ c ∈ [Bitset.Change.set 3, .set 65, .clear 3], c.position < 70 := by decide
  obtain ⟨b, hb, hget, hpopcnt, -⟩ :=
    bitset_changes 70 [Bitset.Change.set 3, .set 65, .clear 3] hcs
  exact ⟨hcs, b, hb, hget 3 (by decide), hget 65 (by decide), hpopcnt⟩

end GoLabs.Porcupine
