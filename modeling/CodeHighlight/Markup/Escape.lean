/-
Module: CodeHighlight.Markup.Escape
Purpose: Source bytes as character data of a markup document.  Bytes that stay as they are are
  copied in whole stretches: the text is read once, and a stretch is written when the byte after it
  has an entity, or at the end.
Main exports:
  Markup.entity?, Markup.escaped, Markup.Copying, Markup.appendEscaped, Markup.escape,
  Markup.appendEscaped_eq, Markup.escape_eq, Markup.escape_append
-/
import CodeHighlight.Text.Utf8

namespace CodeHighlight.Markup

/-- The entity of a byte that could begin or end markup.  Quotes have none, since source text never
stands inside a tag. -/
def entity? (byte : UInt8) : Option Bytes :=
  if byte = 0x26 then some (Utf8.encode "&amp;")
  else if byte = 0x3C then some (Utf8.encode "&lt;")
  else if byte = 0x3E then some (Utf8.encode "&gt;")
  else none

/-- A byte as character data: its entity, or the byte itself. -/
def escaped (byte : UInt8) : Bytes :=
  (entity? byte).getD [byte]

/-- How far escaping has come. -/
structure Copying where
  /-- What was written, its last byte first. -/
  newestFirst : Bytes
  /-- The text from the beginning of the stretch that is still to be written. -/
  uncopied : Bytes
  /-- The number of bytes that were read since that beginning. -/
  count : Nat

namespace Copying

/-- Reads a byte.  One with an entity ends the stretch, and the next stretch begins after it. -/
def read (state : Copying) (byte : UInt8) : Copying :=
  match entity? byte with
  | none => { state with count := state.count + 1 }
  | some entity =>
      { newestFirst :=
          entity.reverseAux ((state.uncopied.take state.count).reverseAux state.newestFirst)
        uncopied := state.uncopied.drop (state.count + 1)
        count := 0 }

/-- Writes the last stretch. -/
def finish (state : Copying) : Bytes :=
  (state.uncopied.reverseAux state.newestFirst).reverse

end Copying

/-- Appends bytes as character data to what was written before. -/
def appendEscaped (written bytes : Bytes) : Bytes :=
  (bytes.foldl Copying.read
    { newestFirst := written.reverse, uncopied := bytes, count := 0 }).finish

/-- Bytes as character data. -/
def escape (bytes : Bytes) : Bytes :=
  appendEscaped [] bytes

/-!
### Byte by byte

Between two bytes the stretch that is still to be written was read exactly as far as `count` says,
and the bytes to be read follow it.  No byte is lost or written twice where a stretch ends.
-/

theorem finish_foldl_read (newestFirst stretch rest : Bytes) :
    (rest.foldl Copying.read ⟨newestFirst, stretch ++ rest, stretch.length⟩).finish =
      newestFirst.reverse ++ stretch ++ rest.flatMap escaped := by
  induction rest generalizing newestFirst stretch with
  | nil => simp [Copying.finish, List.reverseAux_eq]
  | cons byte rest inductionHypothesis =>
      rw [List.foldl_cons, List.flatMap_cons]
      cases found : entity? byte with
      | none =>
          have longer := inductionHypothesis newestFirst (stretch ++ [byte])
          rw [List.append_assoc, List.singleton_append, List.length_append,
            List.length_singleton] at longer
          simp only [Copying.read, found]
          rw [longer]
          simp [escaped, found]
      | some entity =>
          have afresh := inductionHypothesis
            (entity.reverse ++ (stretch.reverse ++ newestFirst)) []
          have reached : (stretch ++ byte :: rest).drop (stretch.length + 1) = rest := by
            simp
          have copied : (stretch ++ byte :: rest).take stretch.length = stretch :=
            List.take_left
          simp only [Copying.read, found, reached, copied, List.reverseAux_eq]
          simp only [List.nil_append, List.length_nil] at afresh
          rw [afresh]
          simp [escaped, found]

/-- What is appended is every byte as character data, in order. -/
theorem appendEscaped_eq (written bytes : Bytes) :
    appendEscaped written bytes = written ++ bytes.flatMap escaped := by
  have read := finish_foldl_read written.reverse [] bytes
  rw [List.reverse_reverse, List.append_nil] at read
  exact read

theorem escape_eq (bytes : Bytes) : escape bytes = bytes.flatMap escaped :=
  appendEscaped_eq [] bytes

@[simp] theorem escape_nil : escape [] = [] := rfl

theorem escape_cons (byte : UInt8) (rest : Bytes) :
    escape (byte :: rest) = escaped byte ++ escape rest := by
  rw [escape_eq, escape_eq, List.flatMap_cons]

theorem escape_append (first second : Bytes) :
    escape (first ++ second) = escape first ++ escape second := by
  rw [escape_eq, escape_eq, escape_eq, List.flatMap_append]

end CodeHighlight.Markup
