/-
Module: CodeHighlight.Resolution
Purpose: Which capture owns which byte.  Captures are read one after another and the source
  is cut in one pass: a capture takes its range when it is valid and begins at or after the
  end of everything taken so far, and is dropped otherwise.  A byte that was taken once never
  changes hands.
Main exports:
  Tally, Resolution, Resolution.start, Resolution.readCapture, Resolution.readMatch,
  Resolution.rest
-/
import CodeHighlight.Segment
import CodeHighlight.Transducer

namespace CodeHighlight

/-- How many matches were read, and what became of their captures. -/
structure Tally where
  matchCount : Nat
  /-- Captures that took their range. -/
  styled : Nat
  /-- Captures dropped because they are empty or leave the source. -/
  invalid : Nat
  /-- Captures dropped because their start was already passed. -/
  overlapped : Nat
deriving Repr, DecidableEq

/-- A pass over a source that has come as far as `cursor`. -/
structure Resolution where
  source : Bytes
  size : Nat
  cursor : Nat
  /-- The source from the cursor on. -/
  remaining : Bytes
  tally : Tally
  size_eq : size = source.length
  remaining_eq : remaining = source.drop cursor

namespace Resolution

/-- A pass that has read nothing. -/
def start (source : Bytes) : Resolution where
  source := source
  size := source.length
  cursor := 0
  remaining := source
  tally := { matchCount := 0, styled := 0, invalid := 0, overlapped := 0 }
  size_eq := rfl
  remaining_eq := rfl

/-- Changes the counts only. -/
def recount (state : Resolution) (change : Tally → Tally) : Resolution :=
  { state with tally := change state.tally }

/-- Moves the cursor forward by some bytes. -/
def advance (state : Resolution) (count : Nat) : Resolution :=
  { state with
    cursor := state.cursor + count
    remaining := state.remaining.drop count
    remaining_eq := by rw [state.remaining_eq, List.drop_drop] }

/-- The next bytes as a plain piece, if there are any. -/
def plainBefore (state : Resolution) (count : Nat) : List Segment :=
  if count = 0 then [] else [.plain (state.remaining.take count)]

/-- Reads a capture.  One that takes its range leaves the bytes before it plain. -/
def readCapture : Transducer Resolution Capture Segment := fun state capture =>
  if capture.ValidFor state.size then
    if capture.start < state.cursor then
      (state.recount fun tally => { tally with overlapped := tally.overlapped + 1 }, [])
    else
      let gap := capture.start - state.cursor
      let width := capture.stop - capture.start
      let reached := state.advance gap
      let after := reached.advance width
      (after.recount fun tally => { tally with styled := tally.styled + 1 },
        state.plainBefore gap ++ [.tagged capture.tag (reached.remaining.take width)])
  else
    (state.recount fun tally => { tally with invalid := tally.invalid + 1 }, [])

/-- Reads the captures of a match by their starts. -/
def readMatch : Transducer Resolution Match Segment := fun state captures =>
  readCapture.run
    (state.recount fun tally => { tally with matchCount := tally.matchCount + 1 })
    captures.inOrder

/-- What is left of the source is plain. -/
def rest (state : Resolution) : List Segment :=
  state.plainBefore (state.size - state.cursor)

end Resolution

end CodeHighlight
