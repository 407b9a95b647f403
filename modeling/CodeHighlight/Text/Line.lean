/-
Module: CodeHighlight.Text.Line
Purpose: A text as its lines, each with the newline that ends it.
Main exports: newline, cutAfter, lines, endsLine, newlineCount
-/
import CodeHighlight.Text.Utf8

namespace CodeHighlight

/-- The byte that ends a line. -/
def newline : UInt8 := 0x0A

/-- A list cut after every item that ends a piece.  Nothing follows an end at the very end,
and the empty list has no pieces. -/
def cutAfter {Item : Type} (isEnd : Item → Bool) (items : List Item) : List (List Item) :=
  items.splitBy fun item _ => !isEnd item

/-- The lines of a text, each with the newline that ends it. -/
def lines (text : Bytes) : List Bytes :=
  cutAfter (· == newline) text

/-- Whether a piece of text ends with a newline. -/
def endsLine (piece : Bytes) : Bool :=
  piece.getLast? == some newline

/-- The number of newlines in a text. -/
def newlineCount (text : Bytes) : Nat :=
  text.count newline

example : lines [0x61, newline, newline, 0x62] = [[0x61, newline], [newline], [0x62]] := by
  decide

example : lines [0x61, newline] = [[0x61, newline]] := by decide

end CodeHighlight
