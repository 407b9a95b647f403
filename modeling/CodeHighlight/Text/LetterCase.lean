/-
Module: CodeHighlight.Text.LetterCase
Purpose: Lower case for the comparison of a text with names in ASCII letters.
Main exports: lowerLetter, toLower_cases, toLower_toLower, lowerLetter_toLower
-/

namespace CodeHighlight

/-- The lower case of a character, as far as it is an ASCII letter.  Besides the ASCII
capitals one character has such a lower case: the kelvin sign, whose lower case is `k`.  All
others stay as they are.  Where one of them has a lower case of its own, neither is wholly in
ASCII, so a comparison with a name in ASCII letters comes out as it would with that
(`Language.ofCalled?_lowering`). -/
def lowerLetter (character : Char) : Char :=
  if character.toNat = 0x212A then 'k' else character.toLower

/-- A character has itself as its ASCII lower case, unless it is one of the 26 capitals. -/
theorem toLower_cases (character : Char) :
    character.toLower = character ∨
      0x41 ≤ character.toNat ∧ character.toNat ≤ 0x5A ∧
        character.toLower.toNat = character.toNat + 0x20 := by
  unfold Char.toLower
  split
  · rename_i capital
    have upper : character.val.toNat ≤ 0x5A := capital.2
    have step : ('a'.val - 'A'.val).toNat = 0x20 := rfl
    have sum : (character.val + ('a'.val - 'A'.val)).toNat = character.val.toNat + 0x20 := by
      rw [UInt32.toNat_add]
      apply Nat.mod_eq_of_lt
      omega
    exact Or.inr ⟨capital.1, upper, sum⟩
  · exact Or.inl rfl

theorem toLower_toLower (character : Char) : character.toLower.toLower = character.toLower := by
  rcases toLower_cases character with same | ⟨capital, _, small⟩
  · rw [same, same]
  · rcases toLower_cases character.toLower with same | ⟨_, isCapital, _⟩
    · exact same
    · omega

theorem lowerLetter_toLower (character : Char) :
    lowerLetter character.toLower = lowerLetter character := by
  rcases toLower_cases character with same | ⟨_, capital, small⟩
  · rw [same]
  · have notKelvin : character.toNat ≠ 0x212A := by omega
    have notKelvinEither : character.toLower.toNat ≠ 0x212A := by omega
    rw [lowerLetter, lowerLetter, if_neg notKelvin, if_neg notKelvinEither, toLower_toLower]

end CodeHighlight
