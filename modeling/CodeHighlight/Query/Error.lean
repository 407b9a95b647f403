/-
Module: CodeHighlight.Query.Error
Purpose: What is wrong with a query, and where.  An offset in the query becomes a row and a
  column.  The message of a malformed query shows the line with a caret under the place; the
  message about an unknown kind shows what is written for it.
Main exports:
  QueryErrorKind, QueryErrorKind.title, QueryError, QueryError.ofFault, Query.Fault,
  Query.locate, Query.excerpt, Query.writtenAt
-/
import CodeHighlight.Text.Blank
import CodeHighlight.Text.Line

namespace CodeHighlight

/-- The ways in which a query can be refused. -/
inductive QueryErrorKind where
  /-- The text is no query. -/
  | malformed
  /-- No node can be of the kind. -/
  | unknownKind
  | unknownField
  | unknownCapture
  | badPredicate
  /-- No tree can have nodes placed like this. -/
  | impossiblePattern
  | unsupportedLanguage
deriving Repr, DecidableEq

namespace QueryErrorKind

/-- All kinds. -/
def all : List QueryErrorKind :=
  [malformed, unknownKind, unknownField, unknownCapture, badPredicate, impossiblePattern,
    unsupportedLanguage]

/-- The kind as messages name it. -/
def title : QueryErrorKind → String
  | malformed => "Syntax"
  | unknownKind => "NodeType"
  | unknownField => "Field"
  | unknownCapture => "Capture"
  | badPredicate => "Predicate"
  | impossiblePattern => "Structure"
  | unsupportedLanguage => "Language"

end QueryErrorKind

/-- A refusal of a query.  The offset, row and column count bytes and lines from zero. -/
structure QueryError where
  kind : QueryErrorKind
  offset : Nat
  row : Nat
  column : Nat
  message : String
deriving Repr, DecidableEq

namespace Query

/-! ### Rows and columns -/

/-- A line without the newline that ends it, or the carriage return and newline. -/
def withoutEnd (line : List Char) : List Char :=
  match line.reverse with
  | '\n' :: '\r' :: rest => rest.reverse
  | '\n' :: rest => rest.reverse
  | _ => line

/-- A row and a column, with the line in that row if there is one. -/
structure Location where
  row : Nat
  column : Nat
  line : Option (List Char)
deriving Repr, DecidableEq

/-- Looks for an offset in lines, the first of which has the given row and begins at the given
offset.  A line reaches up to the byte after it; its end counts as one byte. -/
def locateFrom (offset row start : Nat) : List (List Char) → Location
  | [] => { row := row, column := offset - start, line := none }
  | line :: rest =>
      let next := start + Utf8.size line + 1
      if offset < next then { row := row, column := offset - start, line := some line }
      else locateFrom offset (row + 1) next rest

/-- The row and column of an offset in a text. -/
def locate (text : List Char) (offset : Nat) : Location :=
  locateFrom offset 0 0 ((cutAfter (· == '\n') text).map withoutEnd)

/-! ### Errors of reading -/

/-- What stops the reading of a query. -/
inductive Fault where
  /-- Nothing that may stand here. -/
  | malformed (offset : Nat)
  /-- A name, in parentheses or in quotes, that no kind of node has. -/
  | unknownKind (isQuoted : Bool) (offset : Nat)
deriving Repr, DecidableEq

namespace Fault

/-- Where reading stopped. -/
def offset : Fault → Nat
  | malformed offset => offset
  | unknownKind _ offset => offset

/-- The kind of error that this is. -/
def kind : Fault → QueryErrorKind
  | malformed _ => .malformed
  | unknownKind _ _ => .unknownKind

end Fault

/-- The line with a caret below the column, or the remark that the text is over. -/
def excerpt (location : Location) : String :=
  match location.line with
  | some line => String.ofList (line ++ ['\n'] ++ List.replicate location.column ' ' ++ ['^'])
  | none => "Unexpected EOF"

/-! ### What is written for a kind

A message about an unknown kind shows the text from the kind on, up to where the kind seems to
end.  The end is looked for in one line only, and without one all that follows is shown.
-/

/-- A text from an offset on. -/
def textFrom (offset : Nat) : List Char → List Char
  | [] => []
  | first :: rest =>
      if offset = 0 then first :: rest else textFrom (offset - first.utf8Size) rest

/-- A text before the first character that is an end at its offset, or nothing when there is
none.  What was passed already comes newest first. -/
def beforeEnd? (isEnd : Nat → Char → Bool) (newestFirst : List Char) (offset : Nat) :
    List Char → Option (List Char)
  | [] => none
  | first :: rest =>
      if isEnd offset first then some newestFirst.reverse
      else beforeEnd? isEnd (first :: newestFirst) (offset + first.utf8Size) rest

/-- A name in parentheses ends before white space, a parenthesis or a colon. -/
def endsName (character : Char) : Bool :=
  isBlank character || character == '(' || character == ')' || character == ':'

/-- A quoted text, which is never empty here, ends before a quote without a backslash in front.
The character in front is looked up by the offset in bytes, and so further on where the text is
not ASCII. -/
def endsQuoted (text : Array Char) (offset : Nat) (character : Char) : Bool :=
  character == '"' && text[offset - 1]? != some '\\'

/-- What a message shows for the kind at an offset of a text. -/
def writtenAt (isQuoted : Bool) (text : List Char) (offset : Nat) : List Char :=
  let following := textFrom offset text
  let isEnd :=
    if isQuoted then endsQuoted following.toArray else fun _ character => endsName character
  (beforeEnd? isEnd [] 0 (following.takeWhile (· != '\n'))).getD following

end Query

namespace QueryError

/-- The error for what stopped the reading of a text. -/
def ofFault (text : List Char) (fault : Query.Fault) : QueryError :=
  let location := Query.locate text fault.offset
  { kind := fault.kind
    offset := fault.offset
    row := location.row
    column := location.column
    message := match fault with
      | .malformed _ => Query.excerpt location
      | .unknownKind isQuoted offset => String.ofList (Query.writtenAt isQuoted text offset) }

end QueryError

end CodeHighlight
