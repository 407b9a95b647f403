/-
Module: CodeHighlight.Text.Decimal
Purpose: Decimal numerals as bytes, alone and right-justified in a column, and the number of
  digits without the numeral.
Main exports:
  Decimal.digits, Decimal.rightJustified, Decimal.digitCount, Decimal.digits_ne_nil,
  Decimal.bounds_of_mem_digits, Decimal.mem_rightJustified
-/
import CodeHighlight.Text.Utf8

namespace CodeHighlight.Decimal

/-- The decimal digits of a number, most significant first. -/
def digits (number : Nat) : Bytes :=
  (Nat.toDigits 10 number).map fun digit => digit.toNat.toUInt8

/-- The decimal digits with blanks before them up to `width` columns; a longer number is
written whole. -/
def rightJustified (width number : Nat) : Bytes :=
  (digits number).leftpad width 0x20

/-- Counts on from `count` with each digit that a number has behind its first one: divides by ten
as long as there are two. -/
def countDigits (count number : Nat) : Nat :=
  if 10 ≤ number then countDigits (count + 1) (number / 10) else count
termination_by number
decreasing_by omega

/-- The number of decimal digits. -/
def digitCount (number : Nat) : Nat :=
  countDigits 1 number

theorem digits_ne_nil (number : Nat) : digits number ≠ [] := by
  simp [digits]

theorem length_rightJustified (width number : Nat) :
    (rightJustified width number).length = max width (digits number).length := by
  simp [rightJustified]
  omega

/-- Digits are the bytes from `0` to `9`. -/
theorem bounds_of_mem_digits {number : Nat} {byte : UInt8} (member : byte ∈ digits number) :
    0x30 ≤ byte ∧ byte ≤ 0x39 := by
  unfold digits at member
  obtain ⟨digit, isMember, same⟩ := List.mem_map.mp member
  have decimal := Nat.isDigit_of_mem_toDigits (by decide) (by decide) isMember
  simp only [Char.isDigit, Bool.and_eq_true, decide_eq_true_eq] at decimal
  have lower : 48 ≤ digit.toNat := decimal.1
  have upper : digit.toNat ≤ 57 := decimal.2
  rw [← same, UInt8.le_iff_toNat_le, UInt8.le_iff_toNat_le]
  simp
  omega

/-- A right-justified number holds blanks and digits only. -/
theorem mem_rightJustified {width number : Nat} {byte : UInt8}
    (member : byte ∈ rightJustified width number) :
    byte = 0x20 ∨ 0x30 ≤ byte ∧ byte ≤ 0x39 := by
  unfold rightJustified List.leftpad at member
  rcases List.mem_append.mp member with blank | digit
  · exact Or.inl (List.eq_of_mem_replicate blank)
  · exact Or.inr (bounds_of_mem_digits digit)

end CodeHighlight.Decimal
