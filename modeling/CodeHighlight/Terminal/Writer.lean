/-
Module: CodeHighlight.Terminal.Writer
Purpose: Events as text for a terminal.  A run is its style's control sequence, its bytes and
  a reset.  A label inside a run resets the style and selects it again.
Main exports: Terminal.Writer, Terminal.label, Terminal.write
-/
import CodeHighlight.Event
import CodeHighlight.Transducer

namespace CodeHighlight.Terminal

/-- The style of the run that is open, if one is. -/
abbrev Writer := Option Style

/-- The bar between a line's number and its text. -/
def bar : Bytes :=
  Utf8.encode "│"

/-- A line label: the number and a bar in the label style, then a reset and a blank. -/
def label (labelStyle : Style) (line width : Nat) : Bytes :=
  labelStyle.sequence ++ Decimal.rightJustified width line ++ bar ++ resetSequence ++ [0x20]

/-- Writes an event. -/
def write (labelStyle : Style) : Transducer Writer Event UInt8
  | _, .openRun style => (some style.terminal, style.terminal.sequence)
  | _, .closeRun => (none, resetSequence)
  | active, .text bytes => (active, bytes)
  | active, .label line width =>
      (active, label labelStyle line width ++ active.elim [] Style.sequence)

end CodeHighlight.Terminal
