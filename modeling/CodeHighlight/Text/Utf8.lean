/-
Module: CodeHighlight.Text.Utf8
Purpose: Byte texts, their UTF-8 reading, and the display of bytes that are no UTF-8.
  Everything the renderer touches is a list of bytes, because a styled range may begin or
  end inside a character.  Strings appear only at the edges: names, tags, messages.
Main exports:
  Bytes, Utf8.encode, Utf8.size, Utf8.decode?, Utf8.display,
  decode?_encode, encode_injective, encode_eq_of_decode?, decode?_eq_some_iff
-/

namespace CodeHighlight

/-- A text as the bytes that are read and written. -/
abbrev Bytes := List UInt8

namespace Utf8

/-!
### Encoding and strict decoding

A string has exactly one encoding, and a byte text is valid exactly when it is the
encoding of some string.
-/

/-- The UTF-8 encoding of a string, character by character. -/
def encode (text : String) : Bytes :=
  text.toList.flatMap String.utf8EncodeChar

/-- The number of bytes in the encoding of characters. -/
def size (characters : List Char) : Nat :=
  characters.foldl (fun total character => total + character.utf8Size) 0

/-- The string that the bytes encode, or nothing when they are not valid UTF-8. -/
def decode? (bytes : Bytes) : Option String :=
  String.fromUTF8? bytes.toByteArray

theorem encode_append (first second : String) :
    encode (first ++ second) = encode first ++ encode second := by
  simp [encode]

theorem toByteArray_encode (text : String) :
    (encode text).toByteArray = text.toByteArray := by
  rw [← String.utf8Encode_toList]
  rfl

/-- Decoding gives back every string that was encoded. -/
theorem decode?_encode (text : String) : decode? (encode text) = some text := by
  unfold decode? String.fromUTF8?
  rw [toByteArray_encode]
  rw [dif_pos text.isValidUTF8]
  rfl

/-- A string is known by its encoding. -/
theorem encode_injective {first second : String} (same : encode first = encode second) :
    first = second := by
  have decoded := decode?_encode first
  rw [same, decode?_encode] at decoded
  exact (Option.some.inj decoded).symm

/-- What decodes to a string is the encoding of that string. -/
theorem encode_eq_of_decode? {bytes : Bytes} {text : String}
    (decoded : decode? bytes = some text) : encode text = bytes := by
  unfold decode? String.fromUTF8? at decoded
  split at decoded
  · rename_i valid
    have same : text.toByteArray = bytes.toByteArray := by
      rw [← Option.some.inj decoded]
      rfl
    rw [← List.toByteArray_inj, toByteArray_encode, same]
  · cases decoded

theorem decode?_eq_some_iff {bytes : Bytes} {text : String} :
    decode? bytes = some text ↔ bytes = encode text :=
  ⟨fun decoded => (encode_eq_of_decode? decoded).symm, fun same => same ▸ decode?_encode text⟩

/-!
### Display of arbitrary bytes

A text for a person to read shows every ill-formed run as one U+FFFD.  An ill-formed run is
the longest beginning of some well-formed sequence that stands there, and at least one byte.
-/

/-- How many bytes a sequence with this first byte has; zero when no sequence begins so. -/
def sequenceLength (first : UInt8) : Nat :=
  if first < 0x80 then 1
  else if 0xC2 ≤ first ∧ first ≤ 0xDF then 2
  else if 0xE0 ≤ first ∧ first ≤ 0xEF then 3
  else if 0xF0 ≤ first ∧ first ≤ 0xF4 then 4
  else 0

/-- A byte that continues a sequence. -/
def isContinuation (byte : UInt8) : Bool :=
  0x80 ≤ byte && byte ≤ 0xBF

/-- A second byte that some sequence with this first byte has.  Four first bytes allow only
a part of the continuation bytes: the rest would be overlong, a surrogate or too large. -/
def isSecondAfter (first second : UInt8) : Bool :=
  isContinuation second &&
    match first with
    | 0xE0 => 0xA0 ≤ second
    | 0xED => second ≤ 0x9F
    | 0xF0 => 0x90 ≤ second
    | 0xF4 => second ≤ 0x8F
    | _ => true

/-- How many of the bytes after the first one still continue a well-formed sequence. -/
def continuationsAfter (first : UInt8) (rest : Bytes) : Nat :=
  match rest.take (sequenceLength first - 1) with
  | [] => 0
  | second :: others =>
      if isSecondAfter first second then 1 + (others.takeWhile isContinuation).length else 0

/-- The characters of the bytes, with U+FFFD for each ill-formed run. -/
def displayCharacters : Bytes → List Char
  | [] => []
  | first :: rest =>
      let count := continuationsAfter first rest
      let shown := (decode? (first :: rest.take count)).elim [Char.ofNat 0xFFFD] String.toList
      shown ++ displayCharacters (rest.drop count)
termination_by bytes => bytes.length
decreasing_by
  simp only [List.length_drop, List.length_cons]
  omega

/-- The bytes as a text for a person to read. -/
def display (bytes : Bytes) : String :=
  String.ofList (displayCharacters bytes)

end Utf8

end CodeHighlight
