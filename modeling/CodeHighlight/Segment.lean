/-
Module: CodeHighlight.Segment
Purpose: The source cut into pieces that are plain or belong to one capture.
Main exports: Segment, Segment.bytes
-/
import CodeHighlight.Capture
import CodeHighlight.Text.Utf8

namespace CodeHighlight

/-- A piece of the source. -/
inductive Segment where
  /-- Bytes that no capture covers. -/
  | plain (bytes : Bytes)
  /-- The whole range of one capture. -/
  | tagged (tag : Tag) (bytes : Bytes)
deriving Repr, DecidableEq

namespace Segment

/-- The source bytes of the piece. -/
def bytes : Segment → Bytes
  | plain bytes => bytes
  | tagged _ bytes => bytes

end Segment

end CodeHighlight
