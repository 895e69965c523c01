import Mathlib

/-!
# Byte strings

A string of Go is a sequence of bytes, and so are the contents of a file. `ascii` gives the bytes of
a literal and `decimal` those of a number. A number is written with digits only
(`digit_of_mem_decimal`), and different numbers are written differently (`decimal_injective`), so
that names which are made from numbers can be told apart.
-/

namespace GoLabs.Lib

/-- A Go string, or the contents of a file: bytes. -/
abbrev Str := List (Fin 256)

/-- The bytes of an ASCII literal. -/
def ascii (s : String) : Str := s.toList.map fun c => Fin.ofNat 256 c.toNat

/-- The end of a line. -/
def newline : Fin 256 := 10

/-- The quote that begins and ends a string of JSON. -/
def quote : Fin 256 := 34

/-- A gap in a file reads as zeros. -/
instance instZeroByte : Zero (Fin 256) := ⟨0⟩

/-- A number in decimal, as `%d` writes it. -/
def decimal (n : ℕ) : Str :=
  if n = 0 then [48] else (Nat.digits 10 n).reverse.map fun d => Fin.ofNat 256 (48 + d)

/-- The byte of a digit is the digit, counted from that of `0`. -/
lemma digit_eq {d : ℕ} (hd : d < 10) : (Fin.ofNat 256 (48 + d)).val = 48 + d :=
  Nat.mod_eq_of_lt (by omega)

/-- `decimal` writes digits only: no `-` and no letter. -/
lemma digit_of_mem_decimal {n : ℕ} {b : Fin 256} (h : b ∈ decimal n) : 48 ≤ b.val ∧ b.val < 58 := by
  unfold decimal at h
  split_ifs at h with hn
  · rw [List.mem_singleton.mp h]
    decide
  · obtain ⟨d, hd, rfl⟩ := List.mem_map.mp h
    have hlt : d < 10 := Nat.digits_lt_base (by omega) (List.mem_reverse.mp hd)
    rw [digit_eq hlt]
    omega

/-- Digits can be read back from their bytes. -/
lemma digits_eq_of_map_eq {l l' : List ℕ} (hl : ∀ d ∈ l, d < 10) (hl' : ∀ d ∈ l', d < 10)
    (h : l.map (fun d => Fin.ofNat 256 (48 + d)) = l'.map fun d => Fin.ofNat 256 (48 + d)) :
    l = l' := by
  have hval : ∀ {l : List ℕ}, (∀ d ∈ l, d < 10) →
      (l.map fun d => Fin.ofNat 256 (48 + d)).map (fun b => b.val - 48) = l := by
    intro l hl
    rw [List.map_map]
    refine (List.map_congr_left fun d hd => ?_).trans (List.map_id l)
    show (Fin.ofNat 256 (48 + d)).val - 48 = d
    rw [digit_eq (hl d hd)]
    omega
  rw [← hval hl, h, hval hl']

/-- Different numbers are written differently. -/
theorem decimal_injective : Function.Injective decimal := by
  -- a positive number is not written as "0", its first digit is not zero
  have hzero : ∀ n, n ≠ 0 → decimal n ≠ [48] := by
    intro n hn h
    rw [decimal, if_neg hn, List.map_reverse, List.reverse_eq_iff] at h
    have hd : (Nat.digits 10 n) = [0] :=
      digits_eq_of_map_eq (fun d hd => Nat.digits_lt_base (by omega) hd) (by simp) h
    have hv := Nat.ofDigits_digits 10 n
    rw [hd] at hv
    exact hn hv.symm
  intro n m h
  by_cases hn : n = 0 <;> by_cases hm : m = 0
  · rw [hn, hm]
  · exact absurd (h.symm.trans (by rw [decimal, if_pos hn])) (hzero m hm)
  · exact absurd (h.trans (by rw [decimal, if_pos hm])) (hzero n hn)
  · rw [decimal, decimal, if_neg hn, if_neg hm] at h
    refine Nat.digits_inj_iff.mp (List.reverse_injective (digits_eq_of_map_eq ?_ ?_ h))
    · exact fun d hd => Nat.digits_lt_base (by omega) (List.mem_reverse.mp hd)
    · exact fun d hd => Nat.digits_lt_base (by omega) (List.mem_reverse.mp hd)

end GoLabs.Lib
