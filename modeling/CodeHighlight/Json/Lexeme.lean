/-
Module: CodeHighlight.Json.Lexeme
Purpose: A JSON text as its lexemes, with comments, and with nothing left out: white space is
  a lexeme too, so that the lexemes of a text spell the text.
Main exports:
  Json.StringPart, Json.Lexeme, Lexeme.bytes, Lexeme.next?, Lexeme.read?, Lexeme.skim,
  Lexeme.bytes_of_next?, Lexeme.bytes_of_read?, Lexeme.bytes_skim
-/
import CodeHighlight.Json.Kind
import CodeHighlight.Text.Line

namespace CodeHighlight.Json

/-! ### The lexemes -/

/-- A piece of a string between its quotes. -/
inductive StringPart where
  /-- A longest run of bytes that stand for themselves. -/
  | content (bytes : Bytes)
  /-- A backslash and this letter. -/
  | escape (letter : UInt8)
deriving Repr, DecidableEq

/-- The byte that begins an escape. -/
def backslash : UInt8 := 0x5C

namespace StringPart

/-- The bytes of the piece. -/
def bytes : StringPart → Bytes
  | content bytes => bytes
  | escape letter => [backslash, letter]

end StringPart

/-- The smallest pieces of a text. -/
inductive Lexeme where
  | blank (bytes : Bytes)
  | comment (bytes : Bytes)
  | mark (symbol : Mark)
  | constant (word : Constant)
  | number (bytes : Bytes)
  | string (parts : List StringPart)
deriving Repr, DecidableEq

namespace Lexeme

/-- The bytes of the lexeme. -/
def bytes : Lexeme → Bytes
  | blank bytes => bytes
  | comment bytes => bytes
  | mark symbol => [symbol.byte]
  | constant word => Utf8.encode word.text
  | number bytes => bytes
  | string parts =>
      [Mark.quote.byte] ++ parts.flatMap StringPart.bytes ++ [Mark.quote.byte]

/-! ### Runs of bytes -/

/-- A byte of white space. -/
def isBlankByte (byte : UInt8) : Bool :=
  byte == 0x20 || (0x09 ≤ byte && byte ≤ 0x0D)

/-- A decimal digit. -/
def isDigit (byte : UInt8) : Bool :=
  0x30 ≤ byte && byte ≤ 0x39

/-- A byte that stands for itself in a string. -/
def isContent (byte : UInt8) : Bool :=
  byte != Mark.quote.byte && byte != backslash && byte != newline

/-- A letter that may follow a backslash: one of `"\/bfnrtu`. -/
def isEscapable (letter : UInt8) : Bool :=
  [0x22, 0x5C, 0x2F, 0x62, 0x66, 0x6E, 0x72, 0x74, 0x75].contains letter

/-! ### Numbers

A number is a sign, an integer part without needless zeros, a fraction whose digits may be
missing, and an exponent.  A letter `e` that no digits follow is not part of the number.
-/

/-- The sign of a number, if it has one, and what follows. -/
def sign : Bytes → Bytes × Bytes
  | 0x2D :: rest => ([0x2D], rest)
  | bytes => ([], bytes)

/-- The integer part of a number and what follows. -/
def integer? : Bytes → Option (Bytes × Bytes)
  | 0x30 :: rest => some ([0x30], rest)
  | first :: rest =>
      if isDigit first then some (first :: rest.takeWhile isDigit, rest.dropWhile isDigit)
      else none
  | [] => none

/-- The fraction of a number, if it has one, and what follows. -/
def fraction : Bytes → Bytes × Bytes
  | 0x2E :: rest => (0x2E :: rest.takeWhile isDigit, rest.dropWhile isDigit)
  | bytes => ([], bytes)

/-- The exponent of a number, if it has one, and what follows. -/
def exponent : Bytes → Bytes × Bytes
  | letter :: rest =>
      if letter == 0x65 || letter == 0x45 then
        let (minus, digits) := sign rest
        match digits.takeWhile isDigit with
        | [] => ([], letter :: rest)
        | power => (letter :: (minus ++ power), digits.dropWhile isDigit)
      else ([], letter :: rest)
  | [] => ([], [])

/-- The number that a text begins with, and what follows. -/
def number? (text : Bytes) : Option (Bytes × Bytes) :=
  let signed := sign text
  (integer? signed.2).map fun (whole, afterWhole) =>
    let fractional := fraction afterWhole
    let exponential := exponent fractional.2
    (signed.1 ++ whole ++ fractional.1 ++ exponential.1, exponential.2)

/-! ### Comments, strings and words -/

/-- A text up to the end of the first `*/`, and what follows.  The bytes already read come
newest first. -/
def blockEnd? (newestFirst : Bytes) : Bytes → Option (Bytes × Bytes)
  | 0x2A :: 0x2F :: rest => some ((0x2F :: 0x2A :: newestFirst).reverse, rest)
  | byte :: rest => blockEnd? (byte :: newestFirst) rest
  | [] => none

/-- The comment after its first slash, and what follows: to the end of the line, or to the
first `*/`. -/
def comment? : Bytes → Option (Bytes × Bytes)
  | 0x2F :: rest =>
      some (0x2F :: 0x2F :: rest.takeWhile (· != newline), rest.dropWhile (· != newline))
  | 0x2A :: rest => blockEnd? [0x2A, 0x2F] rest
  | _ => none

/-- The pieces of a string up to its closing quote, and what follows.  A newline in the
string, or an escape that is none, makes it no string. -/
def parts? (newestFirst : List StringPart) : Bytes → Option (List StringPart × Bytes)
  | [] => none
  | 0x22 :: rest => some (newestFirst.reverse, rest)
  | 0x5C :: letter :: rest =>
      if isEscapable letter then parts? (.escape letter :: newestFirst) rest else none
  | byte :: rest =>
      if isContent byte then
        parts? (.content (byte :: rest.takeWhile isContent) :: newestFirst)
          (rest.dropWhile isContent)
      else none
termination_by text => text.length
decreasing_by
  · simp only [List.length_cons]
    omega
  · exact Nat.lt_succ_of_le (List.dropWhile_suffix (l := rest) isContent).length_le

/-- The word that a text begins with, and what follows. -/
def constant? (text : Bytes) : Option (Constant × Bytes) :=
  match Constant.all.find? fun word => (Utf8.encode word.text).isPrefixOf text with
  | none => none
  | some word => some (word, text.drop (Utf8.encode word.text).length)

/-! ### The next lexeme -/

/-- The lexeme that a text begins with, and what follows. -/
def next? : Bytes → Option (Lexeme × Bytes)
  | [] => none
  | first :: rest =>
      if isBlankByte first then
        some (.blank (first :: rest.takeWhile isBlankByte), rest.dropWhile isBlankByte)
      else if first = Mark.quote.byte then
        (parts? [] rest).map fun (parts, after) => (.string parts, after)
      else if first = 0x2F then
        (comment? rest).map fun (body, after) => (.comment body, after)
      else
        match Mark.ofByte? first, constant? (first :: rest) with
        | some symbol, _ => some (.mark symbol, rest)
        | none, some (word, after) => some (.constant word, after)
        | none, none =>
            (number? (first :: rest)).map fun (digits, after) => (.number digits, after)

/-!
### Nothing is left out

Each reader splits its text into the bytes it took and the bytes that follow.
-/

theorem sign_append (text : Bytes) : (sign text).1 ++ (sign text).2 = text := by
  unfold sign
  split <;> rfl

theorem fraction_append (text : Bytes) : (fraction text).1 ++ (fraction text).2 = text := by
  unfold fraction
  split <;> simp [List.takeWhile_append_dropWhile]

theorem exponent_append (text : Bytes) : (exponent text).1 ++ (exponent text).2 = text := by
  unfold exponent
  split
  · rename_i letter rest
    split
    · have signed := sign_append rest
      split
      rename_i minus digits isSign
      rw [isSign] at signed
      have whole := List.takeWhile_append_dropWhile (p := isDigit) (l := digits)
      split
      · rfl
      · simp [whole, signed]
    · rfl
  · rfl

theorem bytes_of_integer? {text whole rest : Bytes} (found : integer? text = some (whole, rest)) :
    whole ++ rest = text ∧ whole ≠ [] := by
  unfold integer? at found
  split at found
  · cases found
    simp
  · split at found
    · cases found
      simp [List.takeWhile_append_dropWhile]
    · cases found
  · cases found

theorem bytes_of_number? {text number rest : Bytes}
    (found : number? text = some (number, rest)) :
    number ++ rest = text ∧ number ≠ [] := by
  obtain ⟨⟨whole, afterWhole⟩, isWhole, same⟩ := Option.map_eq_some_iff.mp found
  obtain ⟨spelled, nonempty⟩ := bytes_of_integer? isWhole
  simp only [Prod.mk.injEq] at same
  obtain ⟨rfl, rfl⟩ := same
  constructor
  · rw [List.append_assoc, exponent_append, List.append_assoc, fraction_append,
      List.append_assoc, spelled, sign_append]
  · simp [nonempty]

theorem bytes_of_blockEnd? {newestFirst text comment rest : Bytes}
    (found : blockEnd? newestFirst text = some (comment, rest)) :
    comment ++ rest = newestFirst.reverse ++ text ∧ comment ≠ [] := by
  fun_induction blockEnd? newestFirst text with
  | case1 => cases found; simp
  | case2 newestFirst byte following _ inductionHypothesis =>
      simpa using inductionHypothesis found
  | case3 => cases found

theorem bytes_of_comment? {text comment rest : Bytes}
    (found : comment? text = some (comment, rest)) :
    comment ++ rest = 0x2F :: text ∧ comment ≠ [] := by
  unfold comment? at found
  split at found
  · cases found
    simp [List.takeWhile_append_dropWhile]
  · simpa using bytes_of_blockEnd? found
  · cases found

theorem bytes_of_parts? {newestFirst parts : List StringPart} {text rest : Bytes}
    (found : parts? newestFirst text = some (parts, rest)) :
    parts.flatMap StringPart.bytes ++ 0x22 :: rest =
      newestFirst.reverse.flatMap StringPart.bytes ++ text := by
  fun_induction parts? newestFirst text with
  | case1 => cases found
  | case2 => cases found; rfl
  | case3 newestFirst letter following _ inductionHypothesis =>
      rw [inductionHypothesis found]
      simp [StringPart.bytes, backslash]
  | case4 => cases found
  | case5 newestFirst byte following _ _ _ inductionHypothesis =>
      rw [inductionHypothesis found]
      simp [StringPart.bytes, List.takeWhile_append_dropWhile]
  | case6 => cases found

theorem encode_constant_ne_nil (word : Constant) : Utf8.encode word.text ≠ [] := by
  cases word <;> decide +kernel

theorem bytes_of_constant? {text : Bytes} {word : Constant} {rest : Bytes}
    (found : constant? text = some (word, rest)) :
    Utf8.encode word.text ++ rest = text := by
  unfold constant? at found
  split at found
  · cases found
  · rename_i candidate isWord
    cases found
    have begins := List.find?_some isWord
    rw [List.isPrefixOf_iff_prefix] at begins
    obtain ⟨after, same⟩ := begins
    rw [← same]
    simp

/-- The next lexeme and what follows are the text, and the lexeme is not empty. -/
theorem bytes_of_next? {text : Bytes} {lexeme : Lexeme} {rest : Bytes}
    (found : next? text = some (lexeme, rest)) :
    lexeme.bytes ++ rest = text ∧ lexeme.bytes ≠ [] := by
  unfold next? at found
  split at found
  · cases found
  · rename_i first following
    split at found
    · cases found
      simp [bytes, List.takeWhile_append_dropWhile]
    · split at found
      · rename_i isQuote
        obtain ⟨⟨parts, after⟩, isParts, same⟩ := Option.map_eq_some_iff.mp found
        cases same
        have spelled := bytes_of_parts? isParts
        constructor
        · simp only [bytes, isQuote, List.append_assoc, List.cons_append, List.nil_append]
          simpa [Mark.byte] using spelled
        · simp [bytes]
      · split at found
        · rename_i isSlash
          obtain ⟨⟨comment, after⟩, isComment, same⟩ := Option.map_eq_some_iff.mp found
          cases same
          rw [isSlash]
          exact bytes_of_comment? isComment
        · split at found
          · rename_i symbol isMark
            cases found
            simp [bytes, Mark.byte_of_ofByte? isMark]
          · rename_i word after _ isWord
            cases found
            exact ⟨bytes_of_constant? isWord, encode_constant_ne_nil word⟩
          · obtain ⟨⟨number, after⟩, isNumber, same⟩ := Option.map_eq_some_iff.mp found
            cases same
            exact bytes_of_number? isNumber

theorem length_lt_of_next? {text : Bytes} {lexeme : Lexeme} {rest : Bytes}
    (found : next? text = some (lexeme, rest)) : rest.length < text.length := by
  obtain ⟨spelled, nonempty⟩ := bytes_of_next? found
  rw [← spelled, List.length_append]
  have := List.length_pos_iff.mpr nonempty
  omega

/-! ### All lexemes -/

/-- The lexemes of a text after those already read, which come newest first. -/
def readAfter? (newestFirst : List Lexeme) (text : Bytes) : Option (List Lexeme) :=
  if text.isEmpty then some newestFirst.reverse
  else
    match _found : next? text with
    | none => none
    | some (lexeme, rest) => readAfter? (lexeme :: newestFirst) rest
termination_by text.length
decreasing_by exact length_lt_of_next? _found

/-- The lexemes of a text, or nothing when it does not consist of lexemes. -/
def read? (text : Bytes) : Option (List Lexeme) :=
  readAfter? [] text

theorem bytes_of_readAfter? {newestFirst lexemes : List Lexeme} {text : Bytes}
    (found : readAfter? newestFirst text = some lexemes) :
    lexemes.flatMap bytes = newestFirst.reverse.flatMap bytes ++ text := by
  fun_induction readAfter? newestFirst text with
  | case1 newestFirst text isEmpty =>
      cases found
      simp [List.isEmpty_iff.mp isEmpty]
  | case2 => cases found
  | case3 newestFirst text _ lexeme rest isNext inductionHypothesis =>
      rw [inductionHypothesis found]
      simp [(bytes_of_next? isNext).1]

/-- The lexemes of a text spell the text. -/
theorem bytes_of_read? {text : Bytes} {lexemes : List Lexeme}
    (found : read? text = some lexemes) : lexemes.flatMap bytes = text := by
  simpa using bytes_of_readAfter? found

/-! ### Lexemes among other bytes -/

/-- The lexemes of any text after those already read, which come newest first.  A byte that
begins no lexeme passes for white space. -/
def skimAfter (newestFirst : List Lexeme) (text : Bytes) : List Lexeme :=
  match text with
  | [] => newestFirst.reverse
  | first :: rest =>
      match _found : next? (first :: rest) with
      | some (lexeme, after) => skimAfter (lexeme :: newestFirst) after
      | none => skimAfter (.blank [first] :: newestFirst) rest
termination_by text.length
decreasing_by
  · exact length_lt_of_next? _found
  · exact Nat.lt_succ_self rest.length

/-- The lexemes of any text. -/
def skim (text : Bytes) : List Lexeme :=
  skimAfter [] text

theorem bytes_skimAfter (newestFirst : List Lexeme) (text : Bytes) :
    (skimAfter newestFirst text).flatMap bytes = newestFirst.reverse.flatMap bytes ++ text := by
  fun_induction skimAfter newestFirst text with
  | case1 => simp
  | case2 newestFirst first rest lexeme after isNext inductionHypothesis =>
      rw [inductionHypothesis]
      simp [(bytes_of_next? isNext).1]
  | case3 newestFirst first rest _ inductionHypothesis =>
      rw [inductionHypothesis]
      simp [bytes]

/-- The lexemes of any text spell the text. -/
theorem bytes_skim (text : Bytes) : (skim text).flatMap bytes = text :=
  bytes_skimAfter [] text

end Lexeme

end CodeHighlight.Json
