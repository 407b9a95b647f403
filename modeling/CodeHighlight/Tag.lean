/-
Module: CodeHighlight.Tag
Purpose: Capture tags and the highlight classes they stand for.  A tag is a dotted name such
  as `string.special.path`; one that is not known itself stands for what its longest known
  dotted beginning stands for.
Main exports:
  Tag, TagClasses, knownTags, known?, parent?, classify, length_lt_of_parent?
-/
import CodeHighlight.HighlightClass

namespace CodeHighlight

/-- The name of a capture. -/
abbrev Tag := String

/-- The classes of a tag, one for each kind of output. -/
structure TagClasses where
  terminal : HighlightClass
  markup : HighlightClass
deriving Repr, DecidableEq

namespace Tag

/-- One class for both outputs. -/
def both (highlightClass : HighlightClass) : TagClasses where
  terminal := highlightClass
  markup := highlightClass

/-- The tags with classes of their own.  Only `keyword.type` differs between the outputs: a
keyword in the terminal, a type in markup. -/
def knownTags : List (Tag × TagClasses) :=
  [("function.builtin", both .functionBuiltin),
    ("function", both .function),
    ("function.call", both .function),
    ("string", both .string),
    ("comment", both .comment),
    ("keyword.control", both .keywordControl),
    ("keyword", both .keyword),
    ("keyword.function", both .keyword),
    ("keyword.import", both .keyword),
    ("keyword.return", both .keyword),
    ("keyword.type", { terminal := .keyword, markup := .type }),
    ("type", both .type),
    ("variable", both .variableName),
    ("constant", both .constant),
    ("constant.builtin", both .constant),
    ("literal", both .literal),
    ("number", both .literal)]

/-- The classes that a tag has of its own. -/
def known? (tag : List Char) : Option TagClasses :=
  knownTags.lookup (String.ofList tag)

/-- The tag without its last dot and what follows it; nothing when it has no dot. -/
def parent? (tag : List Char) : Option (List Char) :=
  match tag.reverse.dropWhile (· != '.') with
  | [] => none
  | _ :: shorter => some shorter.reverse

theorem length_lt_of_parent? {tag shorter : List Char} (isParent : parent? tag = some shorter) :
    shorter.length < tag.length := by
  unfold parent? at isParent
  have bound := (List.dropWhile_suffix (l := tag.reverse) (· != '.')).length_le
  split at isParent
  · cases isParent
  · rename_i split
    rw [split] at bound
    cases isParent
    simp at bound
    simp
    omega

/-- The classes of the longest dotted beginning that has classes of its own. -/
def classifyCharacters (tag : List Char) : Option TagClasses :=
  match known? tag with
  | some classes => some classes
  | none =>
      match _isParent : parent? tag with
      | none => none
      | some shorter => classifyCharacters shorter
termination_by tag.length
decreasing_by exact length_lt_of_parent? _isParent

/-- The classes that a tag stands for; nothing when no dotted beginning of it is known. -/
def classify (tag : Tag) : Option TagClasses :=
  classifyCharacters tag.toList

end Tag

end CodeHighlight
