/-
Module: CodeHighlight.Proofs.CodeBlock
Purpose: A page and the markup inside it agree.  The markup neither begins nor ends a code block,
  so the first code block of the page is the only one, and it holds the markup.  Every class that
  a run is written with has one rule for each theme, with the color that the theme gives to the
  tag of the run, and the gutter is as wide as the numbers of the labels.
Main exports:
  Page.codeStart, Page.codeEnd, Page.codeOf, Page.stylesheetOf, Page.Declares,
  Page.wrap_eq, Page.occurrences_wrap, Page.codeOf_wrap, Page.stylesheetOf_wrap,
  Page.declares_color, Page.declares_gutter, Page.wrap_render
-/
import CodeHighlight.Page
import CodeHighlight.Proofs.MarkupMarks

namespace CodeHighlight

/-! ### Encoded strings -/

namespace Utf8

theorem encode_eq_toList (text : String) : encode text = text.toByteArray.data.toList := by
  rw [← toByteArray_encode]
  simp

theorem encode_join (texts : List String) :
    encode (String.join texts) = texts.flatMap encode := by
  rw [encode, String.toList_join, List.flatMap_assoc]
  rfl

/-- The encoding of a numeral is its digits. -/
theorem encode_toString (number : Nat) : encode (toString number) = Decimal.digits number := by
  rw [Nat.toString_eq_ofList_toDigits, encode, String.toList_ofList, Decimal.digits,
    List.map_eq_flatMap]
  apply List.flatMap_congr
  intro digit member
  have decimal := Nat.isDigit_of_mem_toDigits (by decide) (by decide) member
  simp only [Char.isDigit, Bool.and_eq_true, decide_eq_true_eq] at decimal
  have small : digit.val.toNat ≤ 0x7F := Nat.le_trans decimal.2 (by decide)
  exact if_pos small

end Utf8

/-! ### Text without tags -/

/-- The text has no `<`, so it is no markup. -/
def Tagless (text : String) : Prop :=
  (0x3C : UInt8) ∉ Utf8.encode text

-- The stored bytes are read as they are: spelling out characters to encode them again is slow.
instance (text : String) : Decidable (Tagless text) :=
  decidable_of_iff ((0x3C : UInt8) ∉ text.toByteArray.data.toList)
    (by rw [Tagless, Utf8.encode_eq_toList])

theorem Tagless.append {first second : String} (one : Tagless first) (two : Tagless second) :
    Tagless (first ++ second) := by
  unfold Tagless at *
  rw [Utf8.encode_append, List.mem_append]
  rintro (inFirst | inSecond)
  · exact one inFirst
  · exact two inSecond

theorem tagless_join {texts : List String} (each : ∀ text ∈ texts, Tagless text) :
    Tagless (String.join texts) := by
  rw [Tagless, Utf8.encode_join]
  intro member
  obtain ⟨text, among, inText⟩ := List.mem_flatMap.mp member
  exact each text among inText

theorem tagless_toString (number : Nat) : Tagless (toString number) := by
  rw [Tagless, Utf8.encode_toString]
  intro member
  have bounds := Decimal.bounds_of_mem_digits member
  revert bounds
  decide

theorem Rgb.tagless_text (color : Rgb) : Tagless color.text := by
  have digits : ∀ digit < 16, (0x3C : UInt8) ∉
      String.utf8EncodeChar (Nat.digitChar digit).toUpper := by
    decide
  have each : ∀ byte : UInt8, ∀ character ∈ hexadecimal byte,
      (0x3C : UInt8) ∉ String.utf8EncodeChar character := by
    intro byte character member
    have bound := byte.toNat_lt
    rcases List.mem_pair.mp member with high | low
    · rw [high]
      exact digits _ (by omega)
    · rw [low]
      exact digits _ (Nat.mod_lt _ (by decide))
  rw [Tagless, text, Utf8.encode, String.toList_ofList, List.flatMap_cons, List.mem_append]
  rintro (sign | inDigits)
  · exact absurd sign (by decide)
  · obtain ⟨character, among, inCharacter⟩ := List.mem_flatMap.mp inDigits
    obtain ⟨byte, _, ofByte⟩ := List.mem_flatMap.mp among
    exact each byte character ofByte inCharacter

/-- A rule is tagless when its selector and its declarations are. -/
theorem Rule.tagless_text {rule : Rule} (selector : Tagless rule.selector)
    (declarations : ∀ declaration ∈ rule.declarations,
      Tagless declaration.1 ∧ Tagless declaration.2) :
    Tagless rule.text := by
  have opening : Tagless " \x7b " := by decide
  have closing : Tagless "\x7d\n" := by decide
  have between : Tagless ": " := by decide
  have after : Tagless "; " := by decide
  apply Tagless.append _ closing
  apply (selector.append opening).append
  apply tagless_join
  intro text member
  obtain ⟨⟨name, value⟩, among, rfl⟩ := List.mem_map.mp member
  obtain ⟨ofName, ofValue⟩ := declarations _ among
  exact ((ofName.append between).append ofValue).append after

/-! ### The rules of a page -/

namespace Page

theorem tagless_labelClass : Tagless Markup.labelClass := by decide

theorem tagless_name {theme : Theme} (member : theme ∈ Theme.builtin) : Tagless theme.name := by
  revert theme
  decide +kernel

theorem tagless_styleName (highlightClass : HighlightClass) :
    Tagless highlightClass.styleName := by
  cases highlightClass <;> decide

theorem tagless_decorations (highlightClass : HighlightClass) :
    ∀ declaration ∈ decorations highlightClass, Tagless declaration.1 ∧ Tagless declaration.2 := by
  cases highlightClass <;> decide

theorem tagless_of_mem_baseRules {rule : Rule} (member : rule ∈ baseRules) :
    Tagless rule.text := by
  apply Rule.tagless_text
  · revert rule
    decide +kernel
  · revert rule
    decide +kernel

theorem tagless_gutterRule (width : Nat) : Tagless (gutterRule width).text := by
  have column : Tagless (toString width ++ "ch") := (tagless_toString width).append (by decide)
  apply Rule.tagless_text
  · exact (by decide : Tagless ("." ++ Markup.labelClass))
  · intro declaration member
    simp only [gutterRule, List.mem_cons, List.not_mem_nil, or_false] at member
    have name : Tagless "min-width" := by decide
    rcases member with rfl | rfl | rfl | rfl | rfl | rfl | rfl | rfl
    · decide
    · exact ⟨name, column⟩
    all_goals decide

theorem tagless_of_mem_themeRules {theme : Theme} (known : theme ∈ Theme.builtin) {rule : Rule}
    (member : rule ∈ themeRules theme) : Tagless rule.text := by
  have scope : Tagless ("." ++ themeClass theme) := by
    apply Tagless.append (by decide)
    exact Tagless.append (by decide) (tagless_name known)
  have inside : Tagless " ." := by decide
  have color : Tagless "color" := by decide
  have background : Tagless "background" := by decide
  simp only [themeRules, List.mem_append, List.mem_singleton, List.mem_map] at member
  rcases member with (rfl | ⟨highlightClass, _, rfl⟩) | rfl
  · apply Rule.tagless_text
    · exact scope
    · intro declaration among
      rcases List.mem_pair.mp among with rfl | rfl
      · exact ⟨background, Rgb.tagless_text _⟩
      · exact ⟨color, Rgb.tagless_text _⟩
  · apply Rule.tagless_text
    · exact (scope.append inside).append (tagless_styleName highlightClass)
    · intro declaration among
      rcases List.mem_cons.mp among with rfl | decoration
      · exact ⟨color, Rgb.tagless_text _⟩
      · exact tagless_decorations highlightClass declaration decoration
  · apply Rule.tagless_text
    · exact (scope.append inside).append tagless_labelClass
    · intro declaration among
      rw [List.mem_singleton.mp among]
      exact ⟨color, Rgb.tagless_text _⟩

/-- The text of the stylesheet. -/
def stylesheet (page : Page) : String :=
  String.join (page.rules.map Rule.text)

theorem tagless_stylesheet (page : Page) : Tagless page.stylesheet := by
  apply tagless_join
  intro text member
  obtain ⟨rule, among, rfl⟩ := List.mem_map.mp member
  simp only [rules, List.mem_append, List.mem_map, List.mem_flatMap] at among
  rcases among with (base | ⟨width, _, rfl⟩) | ⟨theme, known, ofTheme⟩
  · exact tagless_of_mem_baseRules base
  · exact tagless_gutterRule width
  · exact tagless_of_mem_themeRules known ofTheme

/-! ### The code block of a page -/

/-- What every tag that begins a code block begins with. -/
def codeStart : Bytes :=
  Utf8.encode "<code"

/-- The tag that ends a code block. -/
def codeEnd : Bytes :=
  Utf8.encode "</code>"

/-- What stands in the first code block of a page. -/
def codeOf (text : Bytes) : Bytes :=
  beforeFirst codeEnd (afterFirst (Utf8.encode ">") (afterFirst codeStart text))

/-- What stands in the first style element of a page. -/
def stylesheetOf (text : Bytes) : Bytes :=
  beforeFirst (Utf8.encode "</style>") (afterFirst (Utf8.encode "<style>\n") text)

instance (mark : Bytes) (text : String) : Decidable (Excludes mark (Utf8.encode text)) :=
  decidable_of_iff (Excludes mark text.toByteArray.data.toList)
    (by rw [Utf8.encode_eq_toList])

/-- The text neither begins nor ends a code block. -/
def Codeless (text : Bytes) : Prop :=
  Excludes codeStart text ∧ Excludes codeEnd text

theorem Codeless.append {first second : Bytes} (one : Codeless first) (two : Codeless second) :
    Codeless (first ++ second) :=
  ⟨excludes_append one.1 two.1, excludes_append one.2 two.2⟩

theorem codeless_flatMap {Piece : Type} {pieces : List Piece} {image : Piece → Bytes}
    (each : ∀ piece ∈ pieces, Codeless (image piece)) : Codeless (pieces.flatMap image) :=
  ⟨excludes_flatMap fun piece member => (each piece member).1,
    excludes_flatMap fun piece member => (each piece member).2⟩

theorem codeless_of_tagless {text : String} (tagless : Tagless text) :
    Codeless (Utf8.encode text) :=
  ⟨excludes_of_notMem rfl tagless, excludes_of_notMem rfl tagless⟩

instance (text : String) : Decidable (Codeless (Utf8.encode text)) :=
  inferInstanceAs (Decidable (Excludes _ (Utf8.encode text) ∧ Excludes _ (Utf8.encode text)))

/-- The pieces of a page before its stylesheet. -/
def preamble : List String :=
  ["<!DOCTYPE html>\n<html>\n<head>\n",
    "<meta charset=\"utf-8\">\n",
    "<title>Highlighted Code</title>\n"]

/-- The pieces of a page between its stylesheet and its code. -/
def controls (page : Page) : List String :=
  ["<script>\n"] ++ [script] ++
    ["</script>\n",
      "</head>\n",
      "<body class=\""] ++
    [themeClass page.theme] ++
    ["\">\n",
      "<div class=\"controls\">\n",
      "  <button onclick=\"copyCode()\">Copy Code</button>\n",
      "  <label for=\"theme-select\">Theme:</label>\n",
      "  <select id=\"theme-select\" onchange=\"applyTheme(this.value)\">\n"] ++
    [String.join (Theme.builtin.map page.themeOption)] ++
    ["  </select>\n",
      "</div>\n",
      "<div class=\"code-container\">\n"]

theorem head_eq (page : Page) :
    page.head = String.join (preamble ++ ["<style>\n", page.stylesheet, "</style>\n"] ++
      page.controls ++ ["<pre><code id=\"code-content\">"]) :=
  rfl

/-- What a page has before its code block. -/
def front (page : Page) : Bytes :=
  if page.fragment then Utf8.encode "<pre>"
  else
    preamble.flatMap Utf8.encode ++ (Utf8.encode "<style>\n" ++ (Utf8.encode page.stylesheet ++
      (Utf8.encode "</style>" ++ (Utf8.encode "\n" ++ (page.controls.flatMap Utf8.encode ++
        Utf8.encode "<pre>")))))

/-- The attributes of the code block of a page. -/
def attributes (page : Page) : Bytes :=
  Utf8.encode (if page.fragment then "" else " id=\"code-content\"")

/-- What a page has after its code block. -/
def back (page : Page) : Bytes :=
  Utf8.encode (if page.fragment then "</pre>\n" else "</pre>\n</div>\n</body>\n</html>\n")

theorem wrap_eq (page : Page) (body : Bytes) :
    page.wrap body = page.front ++ (codeStart ++ (page.attributes ++ (Utf8.encode ">" ++
      (body ++ (codeEnd ++ page.back))))) := by
  unfold wrap front attributes back codeStart codeEnd
  cases page.fragment with
  | true =>
      have opening : Utf8.encode "<pre><code>" =
          Utf8.encode "<pre>" ++ (Utf8.encode "<code" ++ (Utf8.encode "" ++ Utf8.encode ">")) := by
        decide +kernel
      have closing : Utf8.encode "</code></pre>\n" =
          Utf8.encode "</code>" ++ Utf8.encode "</pre>\n" := by
        decide +kernel
      rw [if_pos rfl, if_pos rfl, if_pos rfl, if_pos rfl, opening, closing]
      simp only [List.append_assoc]
  | false =>
      have opening : Utf8.encode "<pre><code id=\"code-content\">" =
          Utf8.encode "<pre>" ++ (Utf8.encode "<code" ++
            (Utf8.encode " id=\"code-content\"" ++ Utf8.encode ">")) := by
        decide +kernel
      have style : Utf8.encode "</style>\n" = Utf8.encode "</style>" ++ Utf8.encode "\n" := by
        decide +kernel
      have closing : Utf8.encode foot =
          Utf8.encode "</code>" ++ Utf8.encode "</pre>\n</div>\n</body>\n</html>\n" := by
        decide +kernel
      rw [if_neg Bool.false_ne_true, if_neg Bool.false_ne_true, if_neg Bool.false_ne_true,
        if_neg Bool.false_ne_true, head_eq, Utf8.encode_join]
      simp only [List.flatMap_append, List.flatMap_cons, List.flatMap_nil, List.append_nil, opening,
        style, closing, List.append_assoc]

theorem codeless_themeOption (page : Page) {theme : Theme} (known : theme ∈ Theme.builtin) :
    Codeless (Utf8.encode (page.themeOption theme)) := by
  have name := codeless_of_tagless (tagless_name known)
  have selected : Codeless (Utf8.encode
      (if theme.name = page.theme.name then " selected" else "")) := by
    split
    · decide
    · decide
  have opening : Codeless (Utf8.encode "    <option value=\"") := by decide
  have quote : Codeless (Utf8.encode "\"") := by decide
  have close : Codeless (Utf8.encode ">") := by decide
  have closing : Codeless (Utf8.encode "</option>\n") := by decide
  unfold themeOption
  rw [Utf8.encode_append, Utf8.encode_append, Utf8.encode_append, Utf8.encode_append,
    Utf8.encode_append, Utf8.encode_append]
  exact (((((opening.append name).append quote).append selected).append close).append
    name).append closing

theorem codeless_controls {page : Page} (known : page.theme ∈ Theme.builtin) :
    ∀ piece ∈ page.controls, Codeless (Utf8.encode piece) := by
  have lines : Tagless script := by
    apply tagless_join
    intro text member
    obtain ⟨line, among, rfl⟩ := List.mem_map.mp member
    have each : ∀ line ∈ scriptLines, Tagless line := by decide +kernel
    exact (each line among).append (by decide)
  have className : Tagless (themeClass page.theme) :=
    Tagless.append (by decide) (tagless_name known)
  have options : Codeless (Utf8.encode (String.join (Theme.builtin.map page.themeOption))) := by
    rw [Utf8.encode_join, List.flatMap_map]
    apply codeless_flatMap
    intro theme member
    exact codeless_themeOption page member
  intro piece member
  simp only [controls, List.mem_append] at member
  rcases member with (((((opening | isScript) | body) | isClass) | choice) | isOptions) | closing
  · rw [List.mem_singleton.mp opening]
    decide
  · rw [List.mem_singleton.mp isScript]
    exact codeless_of_tagless lines
  · revert piece
    decide +kernel
  · rw [List.mem_singleton.mp isClass]
    exact codeless_of_tagless className
  · revert piece
    decide +kernel
  · rw [List.mem_singleton.mp isOptions]
    exact options
  · revert piece
    decide +kernel

theorem codeless_front {page : Page} (known : page.theme ∈ Theme.builtin) :
    Codeless page.front := by
  unfold front
  split
  · decide
  · have opening : Codeless (preamble.flatMap Utf8.encode) := by
      apply codeless_flatMap
      decide +kernel
    have inside := codeless_flatMap (codeless_controls known)
    have sheet := codeless_of_tagless page.tagless_stylesheet
    apply opening.append
    apply Codeless.append (by decide)
    apply sheet.append
    apply Codeless.append (by decide)
    apply Codeless.append (by decide)
    exact inside.append (by decide)

/-- Markup neither begins nor ends a code block, whatever the source and the tags are. -/
theorem codeless_run_write (spanOpen : Markup.Writer) (events : List Event) :
    Codeless (Markup.write.run spanOpen events).2 := by
  have ofClass : ∀ highlightClass : HighlightClass,
      Codeless (Markup.spanStart highlightClass.styleName) := by
    intro highlightClass
    apply Codeless.append
    · apply Codeless.append (by decide)
      exact codeless_of_tagless (tagless_styleName highlightClass)
    · decide
  have ofLabel : Codeless (Utf8.encode "<span class=\"line-number\">") := by decide
  have ofEnd : Codeless (Utf8.encode "</span>") := by decide
  apply Transducer.holds_run Markup.write Codeless ⟨True.intro, True.intro⟩
  · intro first second one two
    exact one.append two
  · intro event _ state
    constructor
    · apply Markup.excludes_write rfl _ ofLabel.1 ofEnd.1
      exact fun highlightClass => (ofClass highlightClass).1
    · apply Markup.excludes_write rfl _ ofLabel.2 ofEnd.2
      exact fun highlightClass => (ofClass highlightClass).2

theorem occurrences_wrap {page : Page} (known : page.theme ∈ Theme.builtin) {body : Bytes}
    (codeless : Codeless body) :
    occurrences codeStart (page.wrap body) = 1 ∧ occurrences codeEnd (page.wrap body) = 1 := by
  obtain ⟨frontStart, frontEnd⟩ := codeless_front known
  obtain ⟨bodyStart, bodyEnd⟩ := codeless
  have attributes : Codeless page.attributes := by
    unfold Page.attributes
    split
    · decide
    · decide
  have back : Codeless page.back := by
    unfold Page.back
    split
    · decide
    · decide
  have close : Codeless (Utf8.encode ">") := by decide
  have ending : Excludes codeStart codeEnd := by decide
  have beginning : Excludes codeEnd codeStart := by decide
  rw [wrap_eq]
  constructor
  · have once : ∀ following, occurrences codeStart (codeStart ++ following) =
        1 + occurrences codeStart following :=
      occurrences_mark rfl (by decide)
    rw [occurrences_append frontStart, once, occurrences_append attributes.1,
      occurrences_append close.1, occurrences_append bodyStart, occurrences_append ending,
      occurrences_of_excludes back.1]
  · have once : ∀ following, occurrences codeEnd (codeEnd ++ following) =
        1 + occurrences codeEnd following :=
      occurrences_mark rfl (by decide)
    rw [occurrences_append frontEnd, occurrences_append beginning, occurrences_append attributes.2,
      occurrences_append close.2, occurrences_append bodyEnd, once,
      occurrences_of_excludes back.2]

/-- The code block of a page holds what the page was put around. -/
theorem codeOf_wrap {page : Page} (known : page.theme ∈ Theme.builtin) {body : Bytes}
    (codeless : Codeless body) : codeOf (page.wrap body) = body := by
  have attributes : Excludes (Utf8.encode ">") page.attributes := by
    unfold Page.attributes
    split
    · decide
    · decide
  rw [codeOf, wrap_eq, afterFirst_of_excludes (codeless_front known).1,
    afterFirst_mark (by decide), afterFirst_of_excludes attributes, afterFirst_mark (by decide),
    beforeFirst_of_excludes codeless.2, beforeFirst_mark (by decide), List.append_nil]

theorem stylesheetOf_wrap {page : Page} (whole : page.fragment = false) (body : Bytes) :
    stylesheetOf (page.wrap body) = Utf8.encode page.stylesheet := by
  have opening : Excludes (Utf8.encode "<style>\n") (preamble.flatMap Utf8.encode) := by
    apply excludes_flatMap
    decide +kernel
  have sheet : Excludes (Utf8.encode "</style>") (Utf8.encode page.stylesheet) :=
    excludes_of_notMem rfl page.tagless_stylesheet
  have front : page.front = _ := if_neg (Bool.eq_false_iff.mp whole)
  rw [stylesheetOf, wrap_eq, front]
  simp only [List.append_assoc]
  rw [afterFirst_of_excludes opening, afterFirst_mark (by decide),
    beforeFirst_of_excludes sheet, beforeFirst_mark (by decide), List.append_nil]

/-! ### The rules for runs and labels -/

/-- The page has one rule for the selector, and that rule gives the property one value. -/
def Declares (page : Page) (selector property value : String) : Prop :=
  ∃ rule, (∀ other, other ∈ page.rules ∧ other.selector = selector ↔ other = rule) ∧
    ∀ given, (property, given) ∈ rule.declarations ↔ given = value

/-- What separates the two classes of a selector. -/
def descendant : Bytes :=
  Utf8.encode " ."

theorem excludes_descendant_scope {theme : Theme} (known : theme ∈ Theme.builtin) :
    Excludes descendant (Utf8.encode ("." ++ themeClass theme)) := by
  revert theme
  decide +kernel

theorem encode_selector (theme : Theme) (name : String) :
    Utf8.encode ("." ++ themeClass theme ++ " ." ++ name) =
      Utf8.encode ("." ++ themeClass theme) ++ (descendant ++ Utf8.encode name) := by
  rw [Utf8.encode_append, Utf8.encode_append _ " .", List.append_assoc]
  rfl

/-- The selector of a class within a theme tells both. -/
theorem selector_injective {theme other : Theme} (known : theme ∈ Theme.builtin)
    (otherKnown : other ∈ Theme.builtin) {name otherName : String}
    (same : "." ++ themeClass theme ++ " ." ++ name =
      "." ++ themeClass other ++ " ." ++ otherName) :
    theme = other ∧ name = otherName := by
  have separated : descendant ≠ [] := by decide
  have bytes := congrArg Utf8.encode same
  rw [encode_selector, encode_selector] at bytes
  have scopes := congrArg (beforeFirst descendant) bytes
  have names := congrArg (afterFirst descendant) bytes
  rw [beforeFirst_of_excludes (excludes_descendant_scope known), beforeFirst_mark separated,
    beforeFirst_of_excludes (excludes_descendant_scope otherKnown), beforeFirst_mark separated,
    List.append_nil, List.append_nil] at scopes
  rw [afterFirst_of_excludes (excludes_descendant_scope known), afterFirst_mark separated,
    afterFirst_of_excludes (excludes_descendant_scope otherKnown), afterFirst_mark separated]
    at names
  constructor
  · have sameClass := (String.append_right_inj _).mp (Utf8.encode_injective scopes)
    have sameName := (String.append_right_inj _).mp sameClass
    have found := Theme.ofName?_name known
    rw [sameName, Theme.ofName?_name otherKnown] at found
    exact (Option.some.inj found).symm
  · exact Utf8.encode_injective names

/-- A selector without a descendant is none of a class within a theme. -/
theorem ne_selector_of_excludes {selector name : String} {theme : Theme}
    (known : theme ∈ Theme.builtin) (excluded : Excludes descendant (Utf8.encode selector)) :
    selector ≠ "." ++ themeClass theme ++ " ." ++ name := by
  intro same
  have none := occurrences_of_excludes excluded
  rw [same, encode_selector, occurrences_append (excludes_descendant_scope known),
    occurrences_mark rfl (by decide)] at none
  omega

/-- A theme has rules for itself, for each class, and for the line labels. -/
theorem selector_of_mem_themeRules {theme : Theme} {rule : Rule}
    (member : rule ∈ themeRules theme) :
    rule.selector = "." ++ themeClass theme ∨
      (∃ highlightClass, rule = classRule theme highlightClass) ∨
      rule.selector = "." ++ themeClass theme ++ " ." ++ Markup.labelClass := by
  simp only [themeRules, List.mem_append, List.mem_singleton, List.mem_map] at member
  rcases member with (rfl | ⟨highlightClass, _, rfl⟩) | rfl
  · exact Or.inl rfl
  · exact Or.inr (Or.inl ⟨highlightClass, rfl⟩)
  · exact Or.inr (Or.inr rfl)

theorem styleName_injective {first second : HighlightClass}
    (same : first.styleName = second.styleName) : first = second := by
  cases first <;> cases second <;> first | rfl | exact absurd same (by decide)

theorem styleName_ne_labelClass (highlightClass : HighlightClass) :
    highlightClass.styleName ≠ Markup.labelClass := by
  cases highlightClass <;> decide

/-- The rule of a class within a theme is the only one with its selector. -/
theorem eq_classRule_of_selector {page : Page} {theme : Theme} (known : theme ∈ Theme.builtin)
    {highlightClass : HighlightClass} {rule : Rule} (member : rule ∈ page.rules)
    (same : rule.selector = (classRule theme highlightClass).selector) :
    rule = classRule theme highlightClass := by
  simp only [rules, List.mem_append, List.mem_map, List.mem_flatMap] at member
  rcases member with (base | ⟨width, _, rfl⟩) | ⟨other, otherKnown, ofTheme⟩
  · have excluded : ∀ rule ∈ baseRules, Excludes descendant (Utf8.encode rule.selector) := by
      decide +kernel
    exact absurd same (ne_selector_of_excludes known (excluded rule base))
  · have excluded : Excludes descendant (Utf8.encode ("." ++ Markup.labelClass)) := by decide
    exact absurd same (ne_selector_of_excludes known excluded)
  · rcases selector_of_mem_themeRules ofTheme with scope | ⟨otherClass, rfl⟩ | label
    · have excluded := excludes_descendant_scope otherKnown
      rw [← scope] at excluded
      exact absurd same (ne_selector_of_excludes known excluded)
    · obtain ⟨rfl, sameName⟩ := selector_injective otherKnown known same
      rw [styleName_injective sameName]
    · have sameName := (selector_injective otherKnown known (label.symm.trans same)).2
      exact absurd sameName.symm (styleName_ne_labelClass highlightClass)

/-- Every class has one rule within every theme, with the color of the theme. -/
theorem declares_color (page : Page) {theme : Theme} (known : theme ∈ Theme.builtin)
    (highlightClass : HighlightClass) :
    page.Declares ("." ++ themeClass theme ++ " ." ++ highlightClass.styleName) "color"
      (theme.markup.get highlightClass).text := by
  refine ⟨classRule theme highlightClass, ?_, ?_⟩
  · intro other
    constructor
    · rintro ⟨member, same⟩
      exact eq_classRule_of_selector known member same
    · rintro rfl
      refine ⟨List.mem_append_right _ (List.mem_flatMap.mpr ⟨theme, known, ?_⟩), rfl⟩
      apply List.mem_append_left
      apply List.mem_append_right
      exact List.mem_map_of_mem (HighlightClass.mem_all highlightClass)
  · intro given
    have undecorated : ("color", given) ∉ decorations highlightClass := by
      cases highlightClass <;> simp [decorations]
    simp [classRule, undecorated]

/-- The rules of a theme are for elements inside the class of the theme. -/
theorem exists_selector_of_mem_themeRules {theme : Theme} {rule : Rule}
    (member : rule ∈ themeRules theme) : ∃ rest, rule.selector = "." ++ ("theme-" ++ rest) := by
  rcases selector_of_mem_themeRules member with scope | ⟨highlightClass, rfl⟩ | label
  · exact ⟨theme.name, scope⟩
  · refine ⟨theme.name ++ (" ." ++ highlightClass.styleName), ?_⟩
    simp only [classRule, themeClass, String.append_assoc]
  · refine ⟨theme.name ++ (" ." ++ Markup.labelClass), ?_⟩
    simp only [label, themeClass, String.append_assoc]

/-- The rule of the gutter is the only one for all line labels. -/
theorem eq_gutterRule_of_selector {page : Page} {width : Nat}
    (given : page.gutterWidth = some width) {rule : Rule} (member : rule ∈ page.rules)
    (same : rule.selector = (gutterRule width).selector) :
    rule = gutterRule width := by
  simp only [rules, given, List.mem_append, List.mem_map, List.mem_flatMap] at member
  rcases member with (base | ⟨other, isWidth, rfl⟩) | ⟨theme, known, ofTheme⟩
  · have others : ∀ rule ∈ baseRules, rule.selector ≠ "." ++ Markup.labelClass := by
      decide +kernel
    exact absurd same (others rule base)
  · rw [List.mem_singleton.mp isWidth]
  · obtain ⟨rest, isSelector⟩ := exists_selector_of_mem_themeRules ofTheme
    have names := (String.append_right_inj _).mp (isSelector.symm.trans same)
    have bytes := congrArg Utf8.encode names
    rw [Utf8.encode_append] at bytes
    have heads : (0x74 : UInt8) = 0x6C := Option.some.inj (congrArg List.head? bytes)
    exact absurd heads (by decide)

theorem declares_gutter {page : Page} {width : Nat} (given : page.gutterWidth = some width) :
    page.Declares ("." ++ Markup.labelClass) "min-width" (toString width ++ "ch") := by
  refine ⟨gutterRule width, ?_, ?_⟩
  · intro other
    constructor
    · rintro ⟨member, same⟩
      exact eq_gutterRule_of_selector given member same
    · rintro rfl
      refine ⟨List.mem_append_left _ (List.mem_append_right _ ?_), rfl⟩
      rw [given]
      exact List.mem_singleton_self _
  · intro value
    simp [gutterRule]

/-! ### A rendering in a page -/

/-- The tag of a run's class tells the class. -/
theorem markup_of_write_openRun {spanOpen : Markup.Writer} {style : TagStyle} {className : String}
    (written : (Markup.write spanOpen (.openRun style)).2 = Markup.spanStart className) :
    ∃ highlightClass, style.markup = some highlightClass ∧
      highlightClass.styleName = className := by
  cases markup : style.markup with
  | none =>
      simp only [Markup.write, markup] at written
      cases written
  | some highlightClass =>
      simp only [Markup.write, markup] at written
      have inside := List.append_cancel_left (List.append_cancel_right written)
      exact ⟨highlightClass, rfl, Utf8.encode_injective inside⟩

/-- The class of a tag and its color under a theme are those of one highlight class. -/
theorem color_tagStyle {theme : Theme} {tag : Tag} {highlightClass : HighlightClass}
    (isClass : (theme.tagStyle tag).markup = some highlightClass) (other : Theme) :
    (other.tagStyle tag).color = some (other.markup.get highlightClass) := by
  unfold Theme.tagStyle at *
  cases classified : Tag.classify tag with
  | none =>
      rw [classified] at isClass
      cases isClass
  | some classes =>
      rw [classified] at isClass
      cases isClass
      rfl

/-- A rendering inside a page is the content of the only code block there, and the source can be
read back from it.  A whole page has one rule for each class that a run was written with and each
theme, with the color of the run's tag, and one for the gutter, as wide as the labels' numbers. -/
theorem wrap_render {page : Page} (known : page.theme ∈ Theme.builtin) (source : Bytes)
    (found : List Match) (theme : Theme) (lineNumbers : Bool) :
    let body := render source found theme ⟨.markup, lineNumbers⟩
    let text := page.wrap body
    (occurrences codeStart text = 1 ∧ occurrences codeEnd text = 1 ∧ codeOf text = body ∧
      Markup.unescape (Markup.withoutTags (Markup.withoutLabels (codeOf text))) = source) ∧
    (page.fragment = false →
      stylesheetOf text = Utf8.encode (String.join (page.rules.map Rule.text)) ∧
      (∀ other ∈ Theme.builtin, ∀ tag spanOpen className,
        (Markup.write spanOpen (.openRun (theme.tagStyle tag))).2 = Markup.spanStart className →
        ∃ color, (other.tagStyle tag).color = some color ∧
          page.Declares (".theme-" ++ other.name ++ " ." ++ className) "color" color.text) ∧
      (page.gutterWidth = some (labelWidth source) →
        page.Declares ".line-number" "min-width" (toString (labelWidth source) ++ "ch") ∧
        ∀ number ∈ Markup.labelNumbers (codeOf text), number.length = labelWidth source)) := by
  intro body text
  have codeless : Codeless body := codeless_run_write false _
  have content : codeOf text = body := codeOf_wrap known codeless
  have told : body =
      (Markup.write.run false ((Walk.start source lineNumbers).complete theme found).2).2 := rfl
  rw [content]
  constructor
  · obtain ⟨starts, ends⟩ := occurrences_wrap known codeless
    refine ⟨starts, ends, rfl, ?_⟩
    rw [told, Markup.unescape_run_write, Walk.textOf_complete]
  · intro whole
    refine ⟨stylesheetOf_wrap whole body, ?_, ?_⟩
    · intro other otherKnown tag spanOpen className written
      obtain ⟨highlightClass, isClass, rfl⟩ := markup_of_write_openRun written
      refine ⟨_, color_tagStyle isClass other, ?_⟩
      have scope : ".theme-" ++ other.name = "." ++ themeClass other := by
        have cut : ".theme-" = "." ++ "theme-" := by decide
        rw [cut, String.append_assoc]
        rfl
      rw [scope]
      exact page.declares_color otherKnown highlightClass
    · intro given
      constructor
      · exact declares_gutter given
      · intro number member
        exact Markup.length_of_mem_labelNumbers member

/-- The source would end the code block if it were not escaped.  Its type is colored by every
theme, and its two labels fill the gutter of four columns. -/
theorem wrap_render_closing_tag :
    let source := Utf8.encode "</code>\n<code"
    let page : Page := ⟨Theme.standard, some (labelWidth source), false⟩
    let body := render source [[⟨"keyword.type", 2, 6⟩]] Theme.standard ⟨.markup, true⟩
    page.theme ∈ Theme.builtin ∧ page.fragment = false ∧
      page.gutterWidth = some (labelWidth source) ∧
      occurrences codeStart (page.wrap body) = 1 ∧ occurrences codeEnd (page.wrap body) = 1 ∧
      codeOf (page.wrap body) = body ∧
      Markup.unescape (Markup.withoutTags (Markup.withoutLabels body)) = source ∧
      (∀ other ∈ Theme.builtin, ∃ color, (other.tagStyle "keyword.type").color = some color ∧
        page.Declares (".theme-" ++ other.name ++ " ." ++ "type") "color" color.text) ∧
      page.Declares ".line-number" "min-width" (toString (labelWidth source) ++ "ch") ∧
      ∀ number ∈ Markup.labelNumbers body, number.length = labelWidth source := by
  intro source page body
  have known : page.theme ∈ Theme.builtin := by decide
  obtain ⟨⟨starts, ends, content, text⟩, whole⟩ :=
    wrap_render known source [[⟨"keyword.type", 2, 6⟩]] Theme.standard true
  obtain ⟨_, classes, gutter⟩ := whole rfl
  obtain ⟨declared, numbers⟩ := gutter rfl
  rw [content] at text numbers
  refine ⟨known, rfl, rfl, starts, ends, content, text, ?_, declared, numbers⟩
  intro other otherKnown
  exact classes other otherKnown "keyword.type" false "type" (by decide +kernel)

end Page

end CodeHighlight
