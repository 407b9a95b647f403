/-
Module: CodeHighlight.Event
Purpose: What a writer is told: runs that open and close, text, and line labels.
Main exports: Event, Event.textBytes
-/
import CodeHighlight.Text.Utf8
import CodeHighlight.Theme

namespace CodeHighlight

/-- One instruction to a writer. -/
inductive Event where
  | openRun (style : TagStyle)
  | closeRun
  /-- Bytes of the source. -/
  | text (bytes : Bytes)
  /-- The number of a line, in a column of the given width. -/
  | label (line width : Nat)
deriving Repr, DecidableEq

namespace Event

/-- The source bytes that the instruction carries. -/
def textBytes : Event → Bytes
  | text bytes => bytes
  | _ => []

end Event

end CodeHighlight
