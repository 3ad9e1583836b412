import Mathlib.Data.List.Basic

/-!
# Decimal numerals as byte strings
-/

namespace Library.Decimal

/-- `to_string` of an unsigned number. -/
def toDecimal (n : ℕ) : List UInt8 := (Nat.toDigits 10 n).map fun c => UInt8.ofNat c.toNat

/-- The number a reader gets from a string of digits. -/
def ofDecimal (s : List UInt8) : ℕ :=
  Nat.ofDigitChars 10 (s.map fun b => Char.ofNat b.toNat) 0

theorem digit_bounds {n : ℕ} {c : Char} (h : c ∈ Nat.toDigits 10 n) :
    48 ≤ c.toNat ∧ c.toNat ≤ 57 := by
  have hd := Nat.isDigit_of_mem_toDigits (by decide) (Nat.le_refl 10) h
  simp only [Char.isDigit, Bool.and_eq_true, decide_eq_true_eq] at hd
  exact ⟨UInt32.le_iff_toNat_le.mp hd.1, UInt32.le_iff_toNat_le.mp hd.2⟩

theorem toNat_digit {n : ℕ} {c : Char} (h : c ∈ Nat.toDigits 10 n) :
    (UInt8.ofNat c.toNat).toNat = c.toNat :=
  UInt8.toNat_ofNat_of_lt' (Nat.lt_of_le_of_lt (digit_bounds h).2 (by decide))

@[simp] theorem ofDecimal_toDecimal (n : ℕ) : ofDecimal (toDecimal n) = n := by
  have hback : ∀ c ∈ Nat.toDigits 10 n,
      ((fun b => Char.ofNat b.toNat) ∘ fun c => UInt8.ofNat c.toNat) c = id c := by
    intro c hc
    simp [toNat_digit hc]
  rw [ofDecimal, toDecimal, List.map_map, List.map_congr_left hback, List.map_id,
    Nat.ofDigitChars_ten_toDigits]

/-- A numeral consists of the bytes of the digits. -/
theorem mem_toDecimal {n : ℕ} {b : UInt8} (h : b ∈ toDecimal n) :
    48 ≤ b.toNat ∧ b.toNat ≤ 57 := by
  obtain ⟨c, hc, rfl⟩ := List.mem_map.mp h
  rw [toNat_digit hc]
  exact digit_bounds hc

end Library.Decimal
