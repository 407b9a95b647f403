/-
Module: CodeHighlight.Page.Stylesheet
Purpose: The rules that color a page.  The rules of a theme apply inside an element of the
  class `theme-` with its name, so that one stylesheet serves all themes.
Main exports: Rule, Rule.text, Page.baseRules, Page.gutterRule, Page.themeRules
-/
import CodeHighlight.Markup.Writer
import CodeHighlight.Theme

namespace CodeHighlight

/-- Declarations, each a property with its value, for what a selector selects. -/
structure Rule where
  selector : String
  declarations : List (String × String)
deriving Repr, DecidableEq

namespace Rule

/-- The rule as one line of a stylesheet. -/
def text (rule : Rule) : String :=
  let declarations := rule.declarations.map fun (name, value) => name ++ ": " ++ value ++ "; "
  rule.selector ++ " \x7b " ++ String.join declarations ++ "\x7d\n"

example : text { selector := ".a", declarations := [("color", "red"), ("margin", "0")] } =
    ".a \x7b color: red; margin: 0; \x7d\n" := by
  decide +kernel

end Rule

namespace Page

/-- The layout of a page, which no theme changes. -/
def baseRules : List Rule :=
  [⟨"body",
      [("margin", "20px"),
        ("font-family", "'JetBrains Mono', 'Fira Code', 'Consolas', monospace")]⟩,
    ⟨"pre",
      [("margin", "0"), ("line-height", "1.4"), ("white-space", "pre-wrap"),
        ("word-wrap", "break-word")]⟩,
    ⟨".controls",
      [("margin-bottom", "1em")]⟩,
    ⟨".controls button",
      [("margin-right", "10px"), ("padding", "8px 15px")]⟩,
    ⟨".controls select",
      [("padding", "8px"), ("border-radius", "4px")]⟩,
    ⟨".code-container",
      [("border", "1px solid #333"), ("padding", "10px"), ("border-radius", "5px"),
        ("overflow-x", "auto")]⟩]

/-- The rule for line labels that are `width` columns wide. -/
def gutterRule (width : Nat) : Rule where
  selector := "." ++ Markup.labelClass
  declarations :=
    [("display", "inline-block"), ("min-width", toString width ++ "ch"),
      ("text-align", "right"), ("padding-right", "1em"), ("margin-right", "1em"),
      ("border-right", "1px solid #333"), ("user-select", "none"),
      ("-webkit-user-select", "none")]

/-- The class of the element that a theme colors. -/
def themeClass (theme : Theme) : String :=
  "theme-" ++ theme.name

/-- What a class has besides its color, whatever the theme. -/
def decorations : HighlightClass → List (String × String)
  | .comment => [("font-style", "italic")]
  | .keywordControl => [("font-weight", "bold")]
  | _ => []

/-- The rule of a theme for the runs of a class. -/
def classRule (theme : Theme) (highlightClass : HighlightClass) : Rule where
  selector := "." ++ themeClass theme ++ " ." ++ highlightClass.styleName
  declarations :=
    ("color", (theme.markup.get highlightClass).text) :: decorations highlightClass

/-- The rules of a theme: the page itself, each class, and the line labels. -/
def themeRules (theme : Theme) : List Rule :=
  let scope := "." ++ themeClass theme
  [{ selector := scope
     declarations :=
      [("background", theme.background.text), ("color", theme.foreground.text)] }] ++
    HighlightClass.all.map (classRule theme) ++
    [{ selector := scope ++ " ." ++ Markup.labelClass
       declarations := [("color", theme.labelColor.text)] }]

end Page

end CodeHighlight
