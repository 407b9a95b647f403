/-
Module: CodeHighlight.Palette
Purpose: One value for each highlight class.
Main exports: Palette, Palette.get, Palette.map, Palette.get_map
-/
import CodeHighlight.HighlightClass

namespace CodeHighlight

/-- A value for each highlight class. -/
structure Palette (Value : Type) where
  functionBuiltin : Value
  function : Value
  string : Value
  comment : Value
  keyword : Value
  keywordControl : Value
  type : Value
  variableName : Value
  constant : Value
  literal : Value
deriving Repr, DecidableEq

namespace Palette

variable {Value Image : Type}

/-- The value for a class. -/
def get (palette : Palette Value) : HighlightClass → Value
  | .functionBuiltin => palette.functionBuiltin
  | .function => palette.function
  | .string => palette.string
  | .comment => palette.comment
  | .keyword => palette.keyword
  | .keywordControl => palette.keywordControl
  | .type => palette.type
  | .variableName => palette.variableName
  | .constant => palette.constant
  | .literal => palette.literal

/-- Applies a function to every value. -/
def map (image : Value → Image) (palette : Palette Value) : Palette Image where
  functionBuiltin := image palette.functionBuiltin
  function := image palette.function
  string := image palette.string
  comment := image palette.comment
  keyword := image palette.keyword
  keywordControl := image palette.keywordControl
  type := image palette.type
  variableName := image palette.variableName
  constant := image palette.constant
  literal := image palette.literal

@[simp] theorem get_map (image : Value → Image) (palette : Palette Value)
    (highlightClass : HighlightClass) :
    (palette.map image).get highlightClass = image (palette.get highlightClass) := by
  cases highlightClass <;> rfl

end Palette

end CodeHighlight
