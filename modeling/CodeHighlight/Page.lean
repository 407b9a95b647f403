/-
Module: CodeHighlight.Page
Purpose: Rendered markup inside a page of its own, or inside a bare code block.  A page holds
  the colors of every theme, so that its reader can change the theme without rendering again.
Main exports: Page, Page.ofTheme, Page.wrap
-/
import CodeHighlight.Page.Script
import CodeHighlight.Page.Stylesheet
import CodeHighlight.Theme.Builtin

namespace CodeHighlight

/-- How rendered markup is presented. -/
structure Page where
  /-- The theme that the page opens with. -/
  theme : Theme
  /-- The width of the line labels, when there are any. -/
  gutterWidth : Option Nat
  /-- Only the code block, without a page around it. -/
  fragment : Bool
deriving Repr, DecidableEq

namespace Page

/-- A whole page without line labels. -/
def ofTheme (theme : Theme) : Page where
  theme := theme
  gutterWidth := none
  fragment := false

/-- The rules of the page: the layout, the gutter if there is one, and all themes. -/
def rules (page : Page) : List Rule :=
  baseRules ++ page.gutterWidth.toList.map gutterRule ++ Theme.builtin.flatMap themeRules

/-- The entry of a theme in the list to choose from. -/
def themeOption (page : Page) (theme : Theme) : String :=
  let selected := if theme.name = page.theme.name then " selected" else ""
  "    <option value=\"" ++ theme.name ++ "\"" ++ selected ++ ">" ++ theme.name ++ "</option>\n"

/-- The page up to its code. -/
def head (page : Page) : String :=
  String.join
    ["<!DOCTYPE html>\n<html>\n<head>\n",
      "<meta charset=\"utf-8\">\n",
      "<title>Highlighted Code</title>\n",
      "<style>\n", String.join (page.rules.map Rule.text), "</style>\n",
      "<script>\n", script, "</script>\n",
      "</head>\n",
      "<body class=\"", themeClass page.theme, "\">\n",
      "<div class=\"controls\">\n",
      "  <button onclick=\"copyCode()\">Copy Code</button>\n",
      "  <label for=\"theme-select\">Theme:</label>\n",
      "  <select id=\"theme-select\" onchange=\"applyTheme(this.value)\">\n",
      String.join (Theme.builtin.map page.themeOption),
      "  </select>\n",
      "</div>\n",
      "<div class=\"code-container\">\n",
      "<pre><code id=\"code-content\">"]

/-- The page after its code. -/
def foot : String :=
  "</code></pre>\n</div>\n</body>\n</html>\n"

/-- Puts rendered markup into the page, or into the bare code block. -/
def wrap (page : Page) (body : Bytes) : Bytes :=
  if page.fragment then
    Utf8.encode "<pre><code>" ++ body ++ Utf8.encode "</code></pre>\n"
  else
    Utf8.encode page.head ++ body ++ Utf8.encode foot

end Page

end CodeHighlight
