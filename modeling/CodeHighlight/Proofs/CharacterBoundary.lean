/-
Module: CodeHighlight.Proofs.CharacterBoundary
Purpose: Where valid UTF-8 can be cut.  A text may be cut before every byte that continues no
  character, and what lies between two such places is valid again.  A byte below 0x80 is a
  character by itself, so a text may also be cut behind every newline.
Main exports:
  Utf8.Valid, Utf8.IsBoundary, Valid.append, valid_of_ascii, character_of_mem,
  mem_toList_of_mem_encode, exists_characters_before, Valid.slice, Valid.of_mem_lines
-/
import CodeHighlight.Proofs.LineLabels
import CodeHighlight.Proofs.Segmentation

namespace CodeHighlight.Utf8

/-! ### Valid texts -/

/-- The bytes are the encoding of some string. -/
def Valid (bytes : Bytes) : Prop :=
  ∃ text : String, bytes = encode text

/-- A position of a text at which no character is cut: its end, or the place of a byte that
continues no character. -/
def IsBoundary (bytes : Bytes) (position : Nat) : Prop :=
  position ≤ bytes.length ∧ ∀ byte ∈ bytes[position]?, isContinuation byte = false

instance (bytes : Bytes) (position : Nat) : Decidable (IsBoundary bytes position) :=
  inferInstanceAs (Decidable (_ ∧ _))

theorem valid_encode (text : String) : Valid (encode text) :=
  ⟨text, rfl⟩

theorem valid_nil : Valid [] :=
  valid_encode ""

theorem Valid.append {first second : Bytes} (one : Valid first) (two : Valid second) :
    Valid (first ++ second) := by
  obtain ⟨text, rfl⟩ := one
  obtain ⟨more, rfl⟩ := two
  exact ⟨text ++ more, (encode_append text more).symm⟩

/-- A text is valid exactly when it is one character after another. -/
theorem valid_iff_characters {bytes : Bytes} :
    Valid bytes ↔ ∃ characters : List Char, bytes = characters.flatMap String.utf8EncodeChar := by
  constructor
  · rintro ⟨text, rfl⟩
    exact ⟨text.toList, rfl⟩
  · rintro ⟨characters, rfl⟩
    exact ⟨String.ofList characters, by rw [encode, String.toList_ofList]⟩

theorem valid_characters (characters : List Char) :
    Valid (characters.flatMap String.utf8EncodeChar) :=
  valid_iff_characters.mpr ⟨characters, rfl⟩

theorem valid_character (character : Char) : Valid (String.utf8EncodeChar character) := by
  rw [← List.flatMap_singleton String.utf8EncodeChar character]
  exact valid_characters [character]

/-! ### The bytes of a character -/

/-- A character is one byte below 0x80, or a byte from 0xC0 on and continuation bytes. -/
theorem character_cases (character : Char) :
    (∃ byte, byte < 0x80 ∧ String.utf8EncodeChar character = [byte]) ∨
      ∃ first rest, String.utf8EncodeChar character = first :: rest ∧ 0xC0 ≤ first ∧
        ∀ byte ∈ rest, isContinuation byte = true := by
  have continued : ∀ bits : Nat, isContinuation (UInt8.ofNat (bits % 64 + 128)) = true := by
    intro bits
    simp only [isContinuation, Bool.and_eq_true, decide_eq_true_eq, UInt8.le_iff_toNat_le]
    simp
    omega
  have leads : ∀ bits : Nat, 192 ≤ bits → bits < 256 → (0xC0 : UInt8) ≤ UInt8.ofNat bits := by
    intro bits lower upper
    simp only [UInt8.le_iff_toNat_le, UInt8.toNat_ofNat']
    simp
    omega
  simp only [String.utf8EncodeChar]
  split
  · rename_i small
    refine Or.inl ⟨_, ?_, rfl⟩
    rw [UInt8.lt_iff_toNat_lt, UInt8.toNat_ofNat']
    exact Nat.lt_of_le_of_lt (Nat.mod_le _ _) (Nat.lt_succ_of_le small)
  · split
    · refine Or.inr ⟨_, _, rfl, leads _ (by omega) (by omega), ?_⟩
      intro byte member
      rw [List.mem_singleton.mp member]
      exact continued _
    · split
      · refine Or.inr ⟨_, _, rfl, leads _ (by omega) (by omega), ?_⟩
        intro byte member
        simp only [List.mem_cons, List.not_mem_nil, or_false] at member
        rcases member with rfl | rfl
        · exact continued _
        · exact continued _
      · refine Or.inr ⟨_, _, rfl, leads _ (by omega) (by omega), ?_⟩
        intro byte member
        simp only [List.mem_cons, List.not_mem_nil, or_false] at member
        rcases member with rfl | rfl | rfl
        · exact continued _
        · exact continued _
        · exact continued _

/-- A byte below 0x80 is a character by itself. -/
theorem character_of_mem {character : Char} {byte : UInt8}
    (member : byte ∈ String.utf8EncodeChar character) (ascii : byte < 0x80) :
    String.utf8EncodeChar character = [byte] := by
  rcases character_cases character with ⟨only, _, whole⟩ | ⟨first, rest, whole, leads, continued⟩
  · rw [whole, List.mem_singleton] at member
    rw [whole, member]
  · rw [whole] at member
    rcases List.mem_cons.mp member with same | later
    · rw [same] at ascii
      have high : (0x80 : UInt8) ≤ first := UInt8.le_trans (by decide) leads
      exact absurd ascii (UInt8.not_lt.mpr high)
    · have continues := continued byte later
      simp only [isContinuation, Bool.and_eq_true, decide_eq_true_eq] at continues
      exact absurd ascii (UInt8.not_lt.mpr continues.1)

/-- A byte below 0x80 in an encoded text is a character of the text. -/
theorem mem_toList_of_mem_encode {text : String} {character : Char} {byte : UInt8}
    (single : String.utf8EncodeChar character = [byte]) (ascii : byte < 0x80)
    (member : byte ∈ encode text) : character ∈ text.toList := by
  obtain ⟨other, isCharacter, inOther⟩ := List.mem_flatMap.mp member
  have same : encode (String.ofList [other]) = encode (String.ofList [character]) := by
    simp only [encode, String.toList_ofList, List.flatMap_singleton, single,
      character_of_mem inOther ascii]
  have sameLists := String.ofList_injective (encode_injective same)
  rw [← List.singleton_inj.mp sameLists]
  exact isCharacter

/-- A character does not begin with a continuation byte. -/
theorem isContinuation_of_head? {character : Char} {byte : UInt8}
    (first : (String.utf8EncodeChar character).head? = some byte) :
    isContinuation byte = false := by
  rcases character_cases character with ⟨only, ascii, whole⟩ | ⟨_, rest, whole, leads, _⟩
  · rw [whole] at first
    cases first
    simp only [isContinuation, Bool.and_eq_false_iff, decide_eq_false_iff_not]
    exact Or.inl (UInt8.not_le.mpr ascii)
  · rw [whole] at first
    cases first
    have beyond : 0xBF < byte := UInt8.lt_of_lt_of_le (by decide) leads
    simp only [isContinuation, Bool.and_eq_false_iff, decide_eq_false_iff_not]
    exact Or.inr (UInt8.not_le.mpr beyond)

/-- Behind its first byte, a character has continuation bytes only. -/
theorem isContinuation_of_getElem? {character : Char} {position : Nat} {byte : UInt8}
    (inside : 0 < position) (found : (String.utf8EncodeChar character)[position]? = some byte) :
    isContinuation byte = true := by
  obtain ⟨before, rfl⟩ := Nat.exists_eq_add_of_lt inside
  rcases character_cases character with ⟨only, _, whole⟩ | ⟨first, rest, whole, _, continued⟩
  · simp [whole] at found
  · rw [whole, Nat.zero_add, List.getElem?_cons_succ] at found
    exact continued byte (List.mem_of_getElem? found)

/-- Bytes below 0x80 are valid. -/
theorem valid_of_ascii {bytes : Bytes} (ascii : ∀ byte ∈ bytes, byte < 0x80) : Valid bytes := by
  induction bytes with
  | nil => exact valid_nil
  | cons byte rest inductionHypothesis =>
      have others := inductionHypothesis fun later member =>
        ascii later (List.mem_cons_of_mem _ member)
      have bound : byte.toNat < 128 := UInt8.lt_iff_toNat_lt.mp (ascii byte List.mem_cons_self)
      have single : String.utf8EncodeChar (Char.ofNat byte.toNat) = [byte] := by
        have isCode : byte.toNat.isValidChar := Or.inl (by omega)
        have code : (Char.ofNat byte.toNat).val.toNat = byte.toNat := by
          rw [Char.ofNat, dif_pos isCode]
          rfl
        have small : byte.toNat ≤ 127 := by omega
        simp only [String.utf8EncodeChar, code, if_pos small, UInt8.ofNat_toNat]
      have first := valid_character (Char.ofNat byte.toNat)
      rw [single] at first
      exact first.append others

/-! ### Cutting a text -/

/-- The characters of a text split at every boundary. -/
theorem exists_characters_before (characters : List Char) {position : Nat}
    (boundary : IsBoundary (characters.flatMap String.utf8EncodeChar) position) :
    ∃ before after, characters = before ++ after ∧
      (before.flatMap String.utf8EncodeChar).length = position := by
  induction characters generalizing position with
  | nil =>
      refine ⟨[], [], rfl, ?_⟩
      exact (Nat.le_zero.mp boundary.1).symm
  | cons character rest inductionHypothesis =>
      rw [List.flatMap_cons] at boundary
      obtain ⟨inside, starts⟩ := boundary
      rcases Nat.eq_zero_or_pos position with none | some
      · exact ⟨[], character :: rest, rfl, none.symm⟩
      · -- A boundary behind the first byte is behind the whole first character.
        have behind : (String.utf8EncodeChar character).length ≤ position := by
          by_contra within
          rw [List.getElem?_append_left (Nat.not_le.mp within)] at starts
          have found := List.getElem?_eq_getElem (Nat.not_le.mp within)
          have continues := isContinuation_of_getElem? some found
          rw [starts _ found] at continues
          cases continues
        have others : IsBoundary (rest.flatMap String.utf8EncodeChar)
            (position - (String.utf8EncodeChar character).length) := by
          constructor
          · rw [List.length_append] at inside
            omega
          · rw [List.getElem?_append_right behind] at starts
            exact starts
        obtain ⟨before, after, split, reached⟩ := inductionHypothesis others
        refine ⟨character :: before, after, ?_, ?_⟩
        · rw [split]
          rfl
        · rw [List.flatMap_cons, List.length_append, reached]
          omega

/-- Both parts of a valid text that is cut at a boundary are valid. -/
theorem Valid.cut {bytes : Bytes} {position : Nat} (valid : Valid bytes)
    (boundary : IsBoundary bytes position) :
    Valid (bytes.take position) ∧ Valid (bytes.drop position) := by
  obtain ⟨characters, rfl⟩ := valid_iff_characters.mp valid
  obtain ⟨before, after, rfl, rfl⟩ := exists_characters_before characters boundary
  rw [List.flatMap_append, List.take_left, List.drop_left]
  exact ⟨valid_characters before, valid_characters after⟩

/-- A valid text begins at a boundary. -/
theorem Valid.isBoundary_zero {bytes : Bytes} (valid : Valid bytes) : IsBoundary bytes 0 := by
  obtain ⟨characters, rfl⟩ := valid_iff_characters.mp valid
  refine ⟨Nat.zero_le _, ?_⟩
  intro byte first
  cases characters with
  | nil => cases first
  | cons character rest =>
      rw [List.flatMap_cons, ← List.head?_eq_getElem?,
        List.head?_append_of_ne_nil _ String.utf8EncodeChar_ne_nil] at first
      exact isContinuation_of_head? first

theorem isBoundary_drop {bytes : Bytes} {start stop : Nat} (ordered : start ≤ stop)
    (boundary : IsBoundary bytes stop) : IsBoundary (bytes.drop start) (stop - start) := by
  obtain ⟨inside, starts⟩ := boundary
  constructor
  · rw [List.length_drop]
    exact Nat.sub_le_sub_right inside start
  · rw [List.getElem?_drop, Nat.add_sub_cancel' ordered]
    exact starts

/-- The part of a valid text between two boundaries is valid. -/
theorem Valid.slice {bytes : Bytes} {start stop : Nat} (valid : Valid bytes)
    (first : IsBoundary bytes start) (second : IsBoundary bytes stop) (ordered : start ≤ stop) :
    Valid (slice bytes start stop) :=
  ((valid.cut first).2.cut (isBoundary_drop ordered second)).1

/-! ### Lines -/

/-- The lines of a valid text are valid. -/
theorem Valid.of_mem_lines {bytes : Bytes} (valid : Valid bytes) :
    ∀ line ∈ lines bytes, Valid line := by
  obtain ⟨characters, rfl⟩ := valid_iff_characters.mp valid
  clear valid
  induction characters with
  | nil =>
      intro line member
      cases member
  | cons character rest inductionHypothesis =>
      have single := valid_character character
      rw [List.flatMap_cons]
      by_cases ends : newline ∈ String.utf8EncodeChar character
      · have whole := character_of_mem ends (by decide)
        rw [whole] at single ⊢
        rw [List.singleton_append, lines_newline_cons]
        intro line member
        rcases List.mem_cons.mp member with same | later
        · rw [same]
          exact single
        · exact inductionHypothesis line later
      · rw [lines_append_of_notMem String.utf8EncodeChar_ne_nil ends]
        intro line member
        rcases List.mem_cons.mp member with same | later
        · rw [same]
          apply single.append
          cases cut : lines (rest.flatMap String.utf8EncodeChar) with
          | nil => exact valid_nil
          | cons first others => exact inductionHypothesis first (cut ▸ List.mem_cons_self)
        · exact inductionHypothesis line (List.mem_of_mem_tail later)

end CodeHighlight.Utf8
