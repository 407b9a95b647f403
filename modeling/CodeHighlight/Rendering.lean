/-
Module: CodeHighlight.Rendering
Purpose: A source and the matches found in it as highlighted output.  Three machines stand in
  a row: captures become segments of the source, segments become events with line labels, and
  a writer turns events into bytes.
Main exports:
  OutputFormat, RenderSettings, Statistics, Walk, Walk.readMatch, Walk.finish, writeEvents,
  render, renderWithStatistics
-/
import CodeHighlight.LineNumbering
import CodeHighlight.Markup.Writer
import CodeHighlight.Resolution
import CodeHighlight.Terminal.Writer

namespace CodeHighlight

/-- The two kinds of output. -/
inductive OutputFormat where
  | terminal
  | markup
deriving Repr, DecidableEq

/-- How to render. -/
structure RenderSettings where
  format : OutputFormat
  lineNumbers : Bool
deriving Repr, DecidableEq

/-- What a rendering did with its matches, and how many line labels it wrote. -/
structure Statistics extends Tally where
  lineLabels : Nat
deriving Repr, DecidableEq

/-! ### From matches to events -/

/-- A rendering under way, up to the writer. -/
abbrev Walk := Resolution × LineNumbering

namespace Walk

/-- A rendering before its first match. -/
def start (source : Bytes) (lineNumbers : Bool) : Walk :=
  (.start source, .start source lineNumbers)

/-- Reads a match. -/
def readMatch (theme : Theme) : Transducer Walk Match Event :=
  Resolution.readMatch.compose (LineNumbering.readSegment theme)

/-- Writes what is left of the source. -/
def finish (theme : Theme) (walk : Walk) : Statistics × List Event :=
  let (numbering, events) := (LineNumbering.readSegment theme).run walk.2 walk.1.rest
  ({ walk.1.tally with lineLabels := numbering.labelsWritten }, events)

/-- Reads all matches and finishes. -/
def complete (theme : Theme) (walk : Walk) (found : List Match) : Statistics × List Event :=
  let (reached, events) := (readMatch theme).run walk found
  let (statistics, remaining) := reached.finish theme
  (statistics, events ++ remaining)

end Walk

/-! ### From events to bytes -/

/-- The bytes that the writer of a format makes of events. -/
def writeEvents (theme : Theme) (events : List Event) : OutputFormat → Bytes
  | .terminal => ((Terminal.write theme.labelStyle).run none events).2
  | .markup => (Markup.write.run false events).2

/-- Renders a source with the matches found in it, and tells what became of them. -/
def renderWithStatistics (source : Bytes) (found : List Match) (theme : Theme)
    (settings : RenderSettings) : Bytes × Statistics :=
  let (statistics, events) := (Walk.start source settings.lineNumbers).complete theme found
  (writeEvents theme events settings.format, statistics)

/-- Renders a source with the matches found in it. -/
def render (source : Bytes) (found : List Match) (theme : Theme) (settings : RenderSettings) :
    Bytes :=
  (renderWithStatistics source found theme settings).1

end CodeHighlight
