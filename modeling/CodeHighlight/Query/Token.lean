/-
Module: CodeHighlight.Query.Token
Purpose: The text of a query as tokens, each with its byte offset.  White space and comments,
  which a semicolon begins, stand between tokens.
Main exports: Query.TokenForm, Query.Token, Query.tokens
-/
import CodeHighlight.Text.Utf8

namespace CodeHighlight.Query

/-- What a token is. -/
inductive TokenForm where
  | openGroup
  | closeGroup
  | openChoice
  | closeChoice
  | name (text : List Char)
  /-- A quoted text as it is written between its quotes, and what it stands for. -/
  | quoted (written meant : List Char)
  /-- A capture; its name is empty when none follows the `@`. -/
  | capture (name : List Char)
  /-- A character that begins no token, or a quote that is never closed. -/
  | stray (character : Char)
deriving Repr, DecidableEq

namespace TokenForm

/-- The number of bytes that the token takes. -/
def size : TokenForm → Nat
  | openGroup | closeGroup | openChoice | closeChoice => 1
  | name text => Utf8.size text
  | quoted written _ => 2 + Utf8.size written
  | capture called => 1 + Utf8.size called
  | stray character => character.utf8Size

end TokenForm

/-- A token at its byte offset. -/
structure Token where
  form : TokenForm
  offset : Nat
deriving Repr, DecidableEq

/-! ### Characters -/

/-- White space between tokens. -/
def isSpace (character : Char) : Bool :=
  character == ' ' || ('\t' ≤ character && character ≤ '\r')

/-- A character that a name may begin with. -/
def beginsName (character : Char) : Bool :=
  character.isAlphanum || character == '_' || character == '-'

/-- A character that a name may go on with. -/
def continuesName (character : Char) : Bool :=
  beginsName character || character == '.'

/-- What a character after a backslash stands for. -/
def unescaped : Char → Char
  | 'n' => '\n'
  | 'r' => '\r'
  | 't' => '\t'
  | '0' => Char.ofNat 0
  | character => character

/-! ### Tokens -/

/-- A quoted text up to its closing quote: as written, as meant, and what follows.  Both come
newest first until then.  It must end in the line it begins in. -/
def quoted? (written meant : List Char) : List Char → Option (List Char × List Char × List Char)
  | [] => none
  | '"' :: rest => some (written.reverse, meant.reverse, rest)
  | '\\' :: character :: rest =>
      quoted? (character :: '\\' :: written) (unescaped character :: meant) rest
  | character :: rest =>
      if character = '\n' then none else quoted? (character :: written) (character :: meant) rest

/-- The token that a text begins with, and what follows; nothing follows a quote that is never
closed. -/
def tokenAt (first : Char) (rest : List Char) : TokenForm × List Char :=
  match first with
  | '(' => (.openGroup, rest)
  | ')' => (.closeGroup, rest)
  | '[' => (.openChoice, rest)
  | ']' => (.closeChoice, rest)
  | '@' =>
      if (rest.head?.map beginsName).getD false then
        (.capture (rest.takeWhile continuesName), rest.dropWhile continuesName)
      else (.capture [], rest)
  | '"' =>
      match quoted? [] [] rest with
      | some (written, meant, after) => (.quoted written meant, after)
      | none => (.stray first, [])
  | _ =>
      if beginsName first then
        (.name (first :: rest.takeWhile continuesName), rest.dropWhile continuesName)
      else (.stray first, rest)

theorem length_le_of_quoted? {written meant text body value after : List Char}
    (found : quoted? written meant text = some (body, value, after)) :
    after.length ≤ text.length := by
  fun_induction quoted? written meant text with
  | case1 => cases found
  | case2 => cases found; simp
  | case3 _ _ _ _ inductionHypothesis =>
      have shorter := inductionHypothesis found
      simp
      omega
  | case4 => cases found
  | case5 _ _ _ _ _ _ _ inductionHypothesis =>
      have shorter := inductionHypothesis found
      simp
      omega

/-- What follows a token is no longer than what follows its first character. -/
theorem length_tokenAt_le (first : Char) (rest : List Char) :
    (tokenAt first rest).2.length ≤ rest.length := by
  have shorter := (List.dropWhile_suffix (l := rest) continuesName).length_le
  unfold tokenAt
  split
  · exact Nat.le_refl _
  · exact Nat.le_refl _
  · exact Nat.le_refl _
  · exact Nat.le_refl _
  · split
    · exact shorter
    · exact Nat.le_refl _
  · split
    · rename_i found
      exact length_le_of_quoted? found
    · exact Nat.zero_le _
  · split
    · exact shorter
    · exact Nat.le_refl _

/-- The tokens of a text after those already read, which come newest first.  The offset is the
one of the text. -/
def tokensFrom (newestFirst : List Token) (offset : Nat) (text : List Char) : List Token :=
  match text with
  | [] => newestFirst.reverse
  | first :: rest =>
      if isSpace first then tokensFrom newestFirst (offset + 1) rest
      else if first = ';' then
        tokensFrom newestFirst (offset + 1 + Utf8.size (rest.takeWhile (· != '\n')))
          (rest.dropWhile (· != '\n'))
      else
        match _split : tokenAt first rest with
        | (form, after) => tokensFrom (⟨form, offset⟩ :: newestFirst) (offset + form.size) after
termination_by text.length
decreasing_by
  · simp
  · exact Nat.lt_succ_of_le (List.dropWhile_suffix (l := rest) (· != '\n')).length_le
  · have bound := length_tokenAt_le first rest
    rw [_split] at bound
    exact Nat.lt_succ_of_le bound

/-- The tokens of a text. -/
def tokens (text : List Char) : List Token :=
  tokensFrom [] 0 text

end CodeHighlight.Query
