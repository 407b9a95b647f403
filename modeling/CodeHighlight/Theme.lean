/-
Module: CodeHighlight.Theme
Purpose: Color themes, and the look a theme gives to a capture tag in each output.
Main exports:
  TagStyle, TagStyle.fallback, Theme, Theme.tagStyle
-/
import CodeHighlight.Palette
import CodeHighlight.Style
import CodeHighlight.Tag

namespace CodeHighlight

/-- The look of a run: a terminal style, and in markup a class with its color. -/
structure TagStyle where
  terminal : Style
  markup : Option HighlightClass
  color : Option Rgb
deriving Repr, DecidableEq

namespace TagStyle

/-- The look of a run whose tag stands for no class: plain, and without markup. -/
def fallback : TagStyle where
  terminal := .plain
  markup := none
  color := none

end TagStyle

/-- A named set of colors for both outputs. -/
structure Theme where
  name : String
  terminal : Palette Style
  markup : Palette Rgb
  /-- The terminal style of line labels. -/
  labelStyle : Style
  /-- The page color of line labels. -/
  labelColor : Rgb
  background : Rgb
  /-- The page color of text that no class covers. -/
  foreground : Rgb
deriving Repr, DecidableEq

namespace Theme

/-- The look of a tag under the theme. -/
def tagStyle (theme : Theme) (tag : Tag) : TagStyle :=
  match Tag.classify tag with
  | none => .fallback
  | some classes =>
      { terminal := theme.terminal.get classes.terminal
        markup := some classes.markup
        color := some (theme.markup.get classes.markup) }

end Theme

end CodeHighlight
