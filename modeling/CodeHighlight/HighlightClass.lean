/-
Module: CodeHighlight.HighlightClass
Purpose: The ten categories of source text that a theme colors.
Main exports:
  HighlightClass, HighlightClass.all, position, tag, styleName, all_getElem?_position
-/

namespace CodeHighlight

/-- A category of source text that every theme has a color for. -/
inductive HighlightClass where
  | functionBuiltin
  | function
  | string
  | comment
  | keyword
  | keywordControl
  | type
  | variableName
  | constant
  | literal
deriving Repr, DecidableEq

namespace HighlightClass

/-- The classes in the order in which palettes list them. -/
def all : List HighlightClass :=
  [functionBuiltin, function, string, comment, keyword, keywordControl, type, variableName,
    constant, literal]

/-- Where `all` has the class. -/
def position : HighlightClass → Nat
  | functionBuiltin => 0
  | function => 1
  | string => 2
  | comment => 3
  | keyword => 4
  | keywordControl => 5
  | type => 6
  | variableName => 7
  | constant => 8
  | literal => 9

/-- The capture tag that stands for the class. -/
def tag : HighlightClass → String
  | functionBuiltin => "function.builtin"
  | function => "function"
  | string => "string"
  | comment => "comment"
  | keyword => "keyword"
  | keywordControl => "keyword.control"
  | type => "type"
  | variableName => "variable"
  | constant => "constant"
  | literal => "literal"

/-- The name of the class in a stylesheet. -/
def styleName : HighlightClass → String
  | functionBuiltin => "function-builtin"
  | function => "function"
  | string => "string"
  | comment => "comment"
  | keyword => "keyword"
  | keywordControl => "keyword-control"
  | type => "type"
  | variableName => "variable"
  | constant => "constant"
  | literal => "literal"

theorem mem_all (highlightClass : HighlightClass) : highlightClass ∈ all := by
  cases highlightClass <;> decide

theorem all_getElem?_position (highlightClass : HighlightClass) :
    all[highlightClass.position]? = some highlightClass := by
  cases highlightClass <;> rfl

end HighlightClass

end CodeHighlight
