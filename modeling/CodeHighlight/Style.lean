/-
Module: CodeHighlight.Style
Purpose: The look of a run of text in a terminal, and the control sequence that selects it.
Main exports:
  Style, Style.plain, Style.ofForeground, Style.parameters, Style.sequence,
  Style.appendSequence, graphicSequence, resetSequence, Style.needed_eq_nil_iff
-/
import CodeHighlight.Color
import CodeHighlight.Text.Decimal

namespace CodeHighlight

/-- A foreground and three attributes. -/
structure Style where
  foreground : Color
  bold : Bool
  italic : Bool
  underline : Bool
deriving Repr, DecidableEq

/-- The byte that begins every control sequence. -/
def escapeByte : UInt8 := 0x1B

/-- The control sequence that applies graphic parameters in order: escape, `[`, the decimal
parameters with `;` between them, `m`. -/
def graphicSequence (parameters : List Nat) : Bytes :=
  escapeByte :: 0x5B :: (List.intercalate [0x3B] (parameters.map Decimal.digits) ++ [0x6D])

/-- The control sequence that clears the foreground and every attribute. -/
def resetSequence : Bytes :=
  graphicSequence [0]

namespace Style

/-- The look of text to which nothing was applied. -/
def plain : Style where
  foreground := .standard
  bold := false
  italic := false
  underline := false

/-- A foreground without attributes. -/
def ofForeground (foreground : Color) : Style :=
  { plain with foreground := foreground }

/-- The graphic parameters of a foreground.  The standard one needs none. -/
def foregroundParameters : Color → List Nat
  | .standard => []
  | .named color => [color.code]
  | .indexed entry => [38, 5, entry.toNat]
  | .rgb color => [38, 2, color.red.toNat, color.green.toNat, color.blue.toNat]

/-- The graphic parameters of what a style has and plain text has not: the foreground, then the
attributes. -/
def needed (style : Style) : List Nat :=
  foregroundParameters style.foreground ++
    (if style.bold then [1] else []) ++
    (if style.italic then [3] else []) ++
    (if style.underline then [4] else [])

/-- The graphic parameters that turn plain text into this style.  When none is needed there is
the one that clears all. -/
def parameters (style : Style) : List Nat :=
  if style.needed.isEmpty then [0] else style.needed

/-- The control sequence that selects the style. -/
def sequence (style : Style) : Bytes :=
  graphicSequence style.parameters

/-- Appends the control sequence that selects the style to what was written before. -/
def appendSequence (written : Bytes) (style : Style) : Bytes :=
  written ++ style.sequence

theorem sequence_plain : plain.sequence = resetSequence := rfl

theorem foregroundParameters_eq_nil_iff {color : Color} :
    foregroundParameters color = [] ↔ color = .standard := by
  cases color <;> simp [foregroundParameters]

/-- Only the plain style has nothing that plain text has not. -/
theorem needed_eq_nil_iff {style : Style} : style.needed = [] ↔ style = plain := by
  obtain ⟨foreground, bold, italic, underline⟩ := style
  simp only [needed, List.append_eq_nil_iff, foregroundParameters_eq_nil_iff, plain, mk.injEq,
    and_assoc]
  cases bold <;> cases italic <;> cases underline <;> simp

theorem parameters_of_ne_plain {style : Style} (notPlain : style ≠ plain) :
    style.parameters = style.needed := by
  have some : style.needed ≠ [] := fun none => notPlain (needed_eq_nil_iff.mp none)
  rw [parameters, if_neg (by simpa using some)]

end Style

end CodeHighlight
