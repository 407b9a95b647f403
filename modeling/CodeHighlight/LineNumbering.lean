/-
Module: CodeHighlight.LineNumbering
Purpose: Labels at line starts.  All source bytes pass through here on their way to a writer.
  The label of a line comes right before its first byte, or right before the run that its
  first byte opens; a line without a byte has no label.
Main exports:
  LineNumbering, labelWidth, LineNumbering.start, LineNumbering.labelsWritten,
  LineNumbering.mark, LineNumbering.write, LineNumbering.readSegment
-/
import CodeHighlight.Event
import CodeHighlight.Segment
import CodeHighlight.Text.Line
import CodeHighlight.Transducer

namespace CodeHighlight

/-- The width of the label column of a source: room for the number of its last line, counting
the empty one after a final newline, and at least four columns. -/
def labelWidth (source : Bytes) : Nat :=
  max 4 (Decimal.digitCount (newlineCount source + 1))

/-- How far the numbering of a source has come. -/
structure LineNumbering where
  enabled : Bool
  width : Nat
  /-- The line that the next byte belongs to, counted from one. -/
  line : Nat
  /-- Whether the label of that line is still to come. -/
  pending : Bool
deriving Repr, DecidableEq

namespace LineNumbering

/-- The numbering of a source before its first byte. -/
def start (source : Bytes) (enabled : Bool) : LineNumbering where
  enabled := enabled
  width := if enabled then labelWidth source else 0
  line := 1
  pending := true

/-- The number of labels that were written. -/
def labelsWritten (numbering : LineNumbering) : Nat :=
  if numbering.pending then numbering.line - 1 else numbering.line

/-- Writes the label of the line if it is still to come. -/
def mark (numbering : LineNumbering) : LineNumbering × List Event :=
  if numbering.enabled && numbering.pending then
    ({ numbering with pending := false }, [.label numbering.line numbering.width])
  else
    (numbering, [])

/-- Goes on to the next line. -/
def nextLine (numbering : LineNumbering) : LineNumbering :=
  { numbering with line := numbering.line + 1, pending := true }

/-- Writes a piece of one line, after the label if it is still to come. -/
def writePiece : Transducer LineNumbering Bytes Event := fun numbering piece =>
  let (marked, events) := numbering.mark
  (if endsLine piece then marked.nextLine else marked, events ++ [.text piece])

/-- Writes source bytes.  Without numbering they pass as they are. -/
def write : Transducer LineNumbering Bytes Event := fun numbering bytes =>
  if numbering.enabled then writePiece.run numbering (lines bytes)
  else (numbering, [.text bytes])

/-- Writes a piece of the source.  A tagged one is a run, and the label of the line it begins
stands outside it. -/
def readSegment (theme : Theme) : Transducer LineNumbering Segment Event
  | numbering, .plain bytes => numbering.write bytes
  | numbering, .tagged tag bytes =>
      let (marked, labels) := numbering.mark
      let (after, body) := marked.write bytes
      (after, labels ++ [.openRun (theme.tagStyle tag)] ++ body ++ [.closeRun])

end LineNumbering

end CodeHighlight
