/-
Module: CodeHighlight.Proofs.GraphicParameters
Purpose: What graphic parameters say.  Read from left to right they change a style one after
  another, where a foreground takes the parameters behind it as its operands.  The parameters of a
  style put it on top of whatever style there was, so the control sequence of a style, read from
  the plain style, gives that style back.
Main exports:
  Style.over, Terminal.select, Terminal.select_parameters, Terminal.readParameters,
  Terminal.readParameters_intercalate, Style.parameterText, Style.sequence_injective,
  Style.appendSequence_decodes
-/
import CodeHighlight.Proofs.TerminalText

namespace CodeHighlight

/-! ### Styles on top of each other -/

/-- What a style makes of text that has another style already: its own foreground if it names
one, and the attributes of both.  The plain style clears the other one. -/
def Style.over (style under : Style) : Style :=
  if style = plain then plain
  else
    { foreground := if style.foreground = .standard then under.foreground else style.foreground
      bold := under.bold || style.bold
      italic := under.italic || style.italic
      underline := under.underline || style.underline }

theorem Style.over_plain (style : Style) : style.over .plain = style := by
  by_cases isPlain : style = plain
  · rw [Style.over, if_pos isPlain, isPlain]
  · rw [Style.over, if_neg isPlain]
    by_cases standard : style.foreground = .standard
    · rw [if_pos standard]
      simp [plain, ← standard]
    · rw [if_neg standard]
      simp [plain]

namespace Terminal

/-! ### Graphic parameters -/

/-- The named color that a parameter selects. -/
def namedColor? : Nat → Option NamedColor
  | 30 => some .black
  | 31 => some .red
  | 32 => some .green
  | 33 => some .yellow
  | 34 => some .blue
  | 35 => some .magenta
  | 36 => some .cyan
  | 37 => some .white
  | 90 => some .brightBlack
  | 91 => some .brightRed
  | 92 => some .brightGreen
  | 93 => some .brightYellow
  | 94 => some .brightBlue
  | 95 => some .brightMagenta
  | 96 => some .brightCyan
  | 97 => some .brightWhite
  | _ => none

/-- What a parameter with no operands makes of a style. -/
def selectOne (style : Style) : Nat → Style
  | 0 => .plain
  | 1 => { style with bold := true }
  | 3 => { style with italic := true }
  | 4 => { style with underline := true }
  | parameter =>
      (namedColor? parameter).elim style fun color => { style with foreground := .named color }

/-- What graphic parameters, applied from left to right, make of a style. -/
def select (style : Style) : List Nat → Style
  | [] => style
  | 38 :: 5 :: entry :: rest =>
      select { style with foreground := .indexed entry.toUInt8 } rest
  | 38 :: 2 :: red :: green :: blue :: rest =>
      select { style with foreground := .rgb ⟨red.toUInt8, green.toUInt8, blue.toUInt8⟩ } rest
  | parameter :: rest => select (selectOne style parameter) rest

theorem select_named (style : Style) (color : NamedColor) (rest : List Nat) :
    select style (color.code :: rest) =
      select { style with foreground := .named color } rest := by
  cases color <;> rfl

/-- The parameters of a foreground replace the foreground. -/
theorem select_foreground (style : Style) (color : Color) (rest : List Nat) :
    select style (Style.foregroundParameters color ++ rest) =
      select { style with
        foreground := if color = .standard then style.foreground else color } rest := by
  cases color with
  | standard => rfl
  | named color => exact select_named style color rest
  | indexed entry => simp [Style.foregroundParameters, select]
  | rgb color => simp [Style.foregroundParameters, select]

theorem select_attribute (style : Style) (set : Bool) (parameter : Nat) (rest : List Nat)
    (single : select style (parameter :: rest) = select (selectOne style parameter) rest) :
    select style ((if set then [parameter] else []) ++ rest) =
      select (if set then selectOne style parameter else style) rest := by
  cases set with
  | false => rfl
  | true => exact single

/-- The parameters of a style put it on top of the style that was selected. -/
theorem select_parameters (under style : Style) :
    select under style.parameters = style.over under := by
  by_cases isPlain : style = .plain
  · rw [isPlain]
    rfl
  · have ending : style.parameters = Style.foregroundParameters style.foreground ++
        ((if style.bold then [1] else []) ++ ((if style.italic then [3] else []) ++
          ((if style.underline then [4] else []) ++ []))) := by
      rw [Style.parameters_of_ne_plain isPlain, Style.needed]
      simp only [List.append_assoc, List.append_nil]
    rw [ending, select_foreground, select_attribute _ _ 1 _ rfl, select_attribute _ _ 3 _ rfl,
      select_attribute _ _ 4 _ rfl, select, Style.over, if_neg isPlain]
    cases style.bold <;> cases style.italic <;> cases style.underline <;> simp [selectOne]

/-! ### Reading parameters -/

/-- The number that decimal digits spell; no digits spell zero. -/
def numeral (digits : Bytes) : Nat :=
  digits.foldl (fun value digit => 10 * value + (digit.toNat - 0x30)) 0

/-- The parameters in a control sequence: numerals with `;` between them. -/
def readParameters (text : Bytes) : List Nat :=
  (text.splitOn 0x3B).map numeral

theorem foldl_digits (characters : List Char) (value : Nat)
    (small : ∀ character ∈ characters, character.toNat < 256) :
    (characters.map fun character => character.toNat.toUInt8).foldl
        (fun value digit => 10 * value + (digit.toNat - 0x30)) value =
      Nat.ofDigitChars 10 characters value := by
  induction characters generalizing value with
  | nil => rfl
  | cons character rest inductionHypothesis =>
      have byte : character.toNat.toUInt8.toNat = character.toNat :=
        Nat.mod_eq_of_lt (small character List.mem_cons_self)
      rw [List.map_cons, List.foldl_cons, byte,
        inductionHypothesis _ fun later member => small later (List.mem_cons_of_mem _ member)]
      rfl

theorem numeral_digits (number : Nat) : numeral (Decimal.digits number) = number := by
  have small : ∀ character ∈ Nat.toDigits 10 number, character.toNat < 256 := by
    intro character member
    have decimal := Nat.isDigit_of_mem_toDigits (by decide) (by decide) member
    simp only [Char.isDigit, Bool.and_eq_true, decide_eq_true_eq] at decimal
    have upper : character.toNat ≤ 57 := decimal.2
    omega
  rw [numeral, Decimal.digits, foldl_digits _ _ small,
    Nat.ofDigitChars_toDigits (by decide) (by decide)]

/-- Parameters are read back as they were written. -/
theorem readParameters_intercalate {parameters : List Nat} (nonempty : parameters ≠ []) :
    readParameters (List.intercalate [0x3B] (parameters.map Decimal.digits)) = parameters := by
  have separate : ∀ digits ∈ parameters.map Decimal.digits, (0x3B : UInt8) ∉ digits := by
    intro digits member separator
    obtain ⟨parameter, _, same⟩ := List.mem_map.mp member
    rw [← same] at separator
    have kinds := Decimal.bounds_of_mem_digits separator
    revert kinds
    decide
  have someDigits : parameters.map Decimal.digits ≠ [] :=
    fun empty => nonempty (List.map_eq_nil_iff.mp empty)
  rw [readParameters, List.splitOn_intercalate 0x3B separate someDigits, List.map_map]
  have back : numeral ∘ Decimal.digits = id := funext numeral_digits
  rw [back, List.map_id]

theorem parameters_ne_nil (style : Style) : style.parameters ≠ [] := by
  intro empty
  have selected := select_parameters .plain style
  rw [empty, select, Style.over_plain] at selected
  rw [← selected] at empty
  exact absurd empty (by decide)

end Terminal

/-! ### The sequence of a style -/

namespace Style

open Terminal

/-- The text between the two ends of the control sequence that selects a style. -/
def parameterText (style : Style) : Bytes :=
  List.intercalate [0x3B] (style.parameters.map Decimal.digits)

theorem sequence_eq (style : Style) :
    style.sequence = sequenceStart ++ style.parameterText ++ sequenceEnd := rfl

/-- Read from the plain style, the parameters of a style give the style. -/
theorem select_readParameters_parameterText (style : Style) :
    select .plain (readParameters style.parameterText) = style := by
  rw [parameterText, readParameters_intercalate (parameters_ne_nil style), select_parameters,
    over_plain]

/-- A style is known by its control sequence. -/
theorem sequence_injective : Function.Injective sequence := by
  intro first second same
  rw [sequence_eq, sequence_eq, List.append_cancel_right_eq, List.append_cancel_left_eq] at same
  calc
    first = select .plain (readParameters first.parameterText) :=
      (select_readParameters_parameterText first).symm
    _ = select .plain (readParameters second.parameterText) := by rw [same]
    _ = second := select_readParameters_parameterText second

theorem sequence_eq_resetSequence_iff {style : Style} :
    style.sequence = resetSequence ↔ style = plain := by
  rw [← sequence_plain]
  exact sequence_injective.eq_iff

theorem resetSequence_eq : resetSequence = Utf8.encode "\x1b[0m" := by
  decide

/-- Selecting a style keeps what was written before and appends one control sequence, with digits
and semicolons between its ends.  Its parameters, read from left to right from the plain style, give
exactly the style.  So no two styles append the same, and only the plain one appends the reset. -/
theorem appendSequence_decodes (written : Bytes) (style : Style) :
    (∃ text, style.appendSequence written =
          written ++ (sequenceStart ++ text ++ sequenceEnd) ∧
        (∀ byte ∈ text, byte = 0x3B ∨ 0x30 ≤ byte ∧ byte ≤ 0x39) ∧
        select .plain (readParameters text) = style) ∧
      (∀ other : Style, other.appendSequence written = style.appendSequence written →
        other = style) ∧
      (style.appendSequence written = written ++ Utf8.encode "\x1b[0m" ↔ style = .plain) := by
  refine ⟨⟨style.parameterText, ?_, ?_, select_readParameters_parameterText style⟩, ?_, ?_⟩
  · rw [appendSequence, sequence_eq]
  · intro byte member
    exact mem_intercalate_digits member
  · intro other same
    exact sequence_injective (List.append_cancel_left same)
  · rw [← resetSequence_eq, appendSequence, List.append_cancel_left_eq]
    exact sequence_eq_resetSequence_iff

/-- The strengths of a color are read as its operands, whatever they are as parameters. -/
example : select .plain (readParameters (Utf8.encode "38;2;1;4;38;3")) =
    { plain with foreground := .rgb ⟨1, 4, 38⟩, italic := true } := by
  decide

end Style

end CodeHighlight
