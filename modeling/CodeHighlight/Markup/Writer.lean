/-
Module: CodeHighlight.Markup.Writer
Purpose: Events as markup.  A run whose tag has a class is a span of that class, and a label
  is a span of its own.
Main exports: Markup.Writer, Markup.label, Markup.write
-/
import CodeHighlight.Event
import CodeHighlight.Markup.Escape
import CodeHighlight.Transducer

namespace CodeHighlight.Markup

/-- Whether a span is to be closed when the run closes. -/
abbrev Writer := Bool

/-- The tag that begins a span of a class. -/
def spanStart (className : String) : Bytes :=
  Utf8.encode "<span class=\"" ++ Utf8.encode className ++ Utf8.encode "\">"

/-- The tag that ends a span. -/
def spanEnd : Bytes :=
  Utf8.encode "</span>"

/-- The class of the spans that hold line labels. -/
def labelClass : String :=
  "line-number"

/-- A line label. -/
def label (line width : Nat) : Bytes :=
  spanStart labelClass ++ Decimal.rightJustified width line ++ spanEnd

/-- Writes an event. -/
def write : Transducer Writer Event UInt8
  | spanOpen, .openRun style =>
      match style.markup with
      | some highlightClass => (true, spanStart highlightClass.styleName)
      | none => (spanOpen, [])
  | spanOpen, .closeRun => (false, if spanOpen then spanEnd else [])
  | spanOpen, .text bytes => (spanOpen, escape bytes)
  | spanOpen, .label line width => (spanOpen, label line width)

end CodeHighlight.Markup
