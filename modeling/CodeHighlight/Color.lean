/-
Module: CodeHighlight.Color
Purpose: The colors of the two outputs: 24-bit colors for pages, and the foregrounds that a
  terminal knows.
Main exports:
  Rgb, Rgb.ofPacked, Rgb.text, NamedColor, NamedColor.code, Color
-/
import CodeHighlight.Text.Utf8

namespace CodeHighlight

/-! ### 24-bit colors -/

/-- A color as the strengths of its three primaries. -/
structure Rgb where
  red : UInt8
  green : UInt8
  blue : UInt8
deriving Repr, DecidableEq

namespace Rgb

/-- The color packed as `0xRRGGBB`; anything above those three bytes is ignored. -/
def ofPacked (packed : Nat) : Rgb where
  red := (packed / 0x10000).toUInt8
  green := (packed / 0x100).toUInt8
  blue := packed.toUInt8

/-- The two upper-case hexadecimal digits of a byte. -/
def hexadecimal (byte : UInt8) : List Char :=
  [(byte.toNat / 16).digitChar.toUpper, (byte.toNat % 16).digitChar.toUpper]

/-- The color as a stylesheet spells it, `#RRGGBB`. -/
def text (color : Rgb) : String :=
  String.ofList ('#' :: [color.red, color.green, color.blue].flatMap hexadecimal)

end Rgb

/-! ### Terminal foregrounds -/

/-- The sixteen colors every terminal has. -/
inductive NamedColor where
  | black
  | red
  | green
  | yellow
  | blue
  | magenta
  | cyan
  | white
  | brightBlack
  | brightRed
  | brightGreen
  | brightYellow
  | brightBlue
  | brightMagenta
  | brightCyan
  | brightWhite
deriving Repr, DecidableEq

namespace NamedColor

/-- The graphic parameter that selects the color: 30 to 37, or 90 to 97 for the bright ones. -/
def code : NamedColor → Nat
  | black => 30
  | red => 31
  | green => 32
  | yellow => 33
  | blue => 34
  | magenta => 35
  | cyan => 36
  | white => 37
  | brightBlack => 90
  | brightRed => 91
  | brightGreen => 92
  | brightYellow => 93
  | brightBlue => 94
  | brightMagenta => 95
  | brightCyan => 96
  | brightWhite => 97

end NamedColor

/-- A terminal foreground. -/
inductive Color where
  /-- The foreground the terminal starts with. -/
  | standard
  | named (color : NamedColor)
  /-- An entry of the terminal's table of 256 colors. -/
  | indexed (entry : UInt8)
  | rgb (color : Rgb)
deriving Repr, DecidableEq

end CodeHighlight
