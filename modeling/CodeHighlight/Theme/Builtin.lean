/-
Module: CodeHighlight.Theme.Builtin
Purpose: The twelve themes that come with the program.
Main exports:
  Theme.builtin, Theme.standard, Theme.ofName?, Theme.ofName?_name
-/
import CodeHighlight.Theme

namespace CodeHighlight.Theme

/-!
Palettes are written in the order of `HighlightClass.all`.  The standard theme uses the
sixteen named colors and leaves their exact shades to the terminal; all others use the table
of 256 colors.
-/

/-- The styles of a palette of table entries.  Control keywords are bold. -/
def indexedPalette (entries : Palette UInt8) : Palette Style :=
  let styles := entries.map fun entry => Style.ofForeground (.indexed entry)
  { styles with keywordControl := { styles.keywordControl with bold := true } }

/-- The colors of a palette of packed colors. -/
def packedPalette (packed : Palette Nat) : Palette Rgb :=
  packed.map Rgb.ofPacked

/-- A named foreground. -/
def named (color : NamedColor) : Style :=
  .ofForeground (.named color)

/-- A named foreground in bold. -/
def boldNamed (color : NamedColor) : Style :=
  { named color with bold := true }

/-- The theme in force when none is chosen. -/
def standard : Theme where
  name := "default"
  terminal :=
    ⟨named .magenta, named .blue, named .green, named .brightBlack, named .red,
      boldNamed .red, named .cyan, named .yellow, boldNamed .magenta, boldNamed .green⟩
  markup := packedPalette
    ⟨0xB28CFF, 0x66B2FF, 0x9CCC65, 0x7F7F7F, 0xCC7832, 0xCC7832, 0xDA70D6,
      0xFFFFFF, 0x9C9CFF, 0x6A8759⟩
  labelStyle := named .brightBlack
  labelColor := .ofPacked 0x7F7F7F
  background := .ofPacked 0x1E1E1E
  foreground := .ofPacked 0xD4D4D4

def gruvbox : Theme where
  name := "gruvbox"
  terminal := indexedPalette ⟨142, 109, 108, 245, 167, 167, 142, 223, 175, 208⟩
  markup := packedPalette
    ⟨0xA9B665, 0x89B482, 0xA9B665, 0x928374, 0xFE8019, 0xFE8019, 0xD3869B,
      0xEBDBB2, 0xD8A657, 0xFABD2F⟩
  labelStyle := .ofForeground (.indexed 245)
  labelColor := .ofPacked 0x928374
  background := .ofPacked 0x282828
  foreground := .ofPacked 0xEBDBB2

def tokyonightNight : Theme where
  name := "tokyonight-night"
  terminal := indexedPalette ⟨73, 110, 158, 102, 175, 175, 117, 188, 215, 215⟩
  markup := packedPalette
    ⟨0x7DCFFF, 0x7AA87B, 0x9ECCBB, 0x565F89, 0xBB9AFD, 0xBB9AFD, 0x73DACA,
      0xC0CAF5, 0xBB9AFD, 0xFF9E64⟩
  labelStyle := .ofForeground (.indexed 102)
  labelColor := .ofPacked 0x565F89
  background := .ofPacked 0x1A1B26
  foreground := .ofPacked 0xA9B1D6

def tokyonightStorm : Theme where
  name := "tokyonight-storm"
  terminal := indexedPalette ⟨73, 75, 114, 102, 176, 176, 117, 188, 215, 215⟩
  markup := packedPalette
    ⟨0x7DCFFF, 0x7AA87B, 0x9ECCBB, 0x565F89, 0xBB9AFD, 0xBB9AFD, 0x73DACA,
      0xC0CAF5, 0xBB9AFD, 0xFF9E64⟩
  labelStyle := .ofForeground (.indexed 102)
  labelColor := .ofPacked 0x565F89
  background := .ofPacked 0x24283B
  foreground := .ofPacked 0xC0CAF5

def catppuccinMocha : Theme where
  name := "catppuccin-mocha"
  terminal := indexedPalette ⟨117, 75, 114, 102, 176, 176, 117, 188, 215, 215⟩
  markup := packedPalette
    ⟨0x89B4FA, 0x89B4FA, 0xA6E3A1, 0x6C7086, 0xCBA6F7, 0xCBA6F7, 0xF5C2E7,
      0xCDD6F4, 0xF38BA8, 0xFAB387⟩
  labelStyle := .ofForeground (.indexed 102)
  labelColor := .ofPacked 0x6C7086
  background := .ofPacked 0x1E1E2E
  foreground := .ofPacked 0xCDD6F4

def dracula : Theme where
  name := "dracula"
  terminal := indexedPalette ⟨141, 117, 228, 102, 212, 212, 117, 255, 141, 215⟩
  markup := packedPalette
    ⟨0xBD93F9, 0x50FA7B, 0xF1FA8C, 0x6272A4, 0xFF79C6, 0xFF79C6, 0x8BE9FD,
      0xF8F8F2, 0xBD93F9, 0xFFB86C⟩
  labelStyle := .ofForeground (.indexed 102)
  labelColor := .ofPacked 0x6272A4
  background := .ofPacked 0x282A36
  foreground := .ofPacked 0xF8F8F2

def nord : Theme where
  name := "nord"
  terminal := indexedPalette ⟨116, 81, 108, 59, 81, 81, 116, 188, 180, 209⟩
  markup := packedPalette
    ⟨0x88C0D0, 0x88C0D0, 0xA3BE8C, 0x4C566A, 0x81A1C1, 0x81A1C1, 0x8FBCBB,
      0xD8DEE9, 0xB48EAD, 0xD08770⟩
  labelStyle := .ofForeground (.indexed 59)
  labelColor := .ofPacked 0x4C566A
  background := .ofPacked 0x2E3440
  foreground := .ofPacked 0xD8DEE9

def solarizedDark : Theme where
  name := "solarized-dark"
  terminal := indexedPalette ⟨37, 33, 37, 240, 64, 64, 136, 254, 125, 166⟩
  markup := packedPalette
    ⟨0x268BD2, 0x268BD2, 0x859900, 0x586E75, 0xCB4B16, 0xCB4B16, 0xB58900,
      0x93A1A1, 0x6C71C4, 0xDC322F⟩
  labelStyle := .ofForeground (.indexed 240)
  labelColor := .ofPacked 0x586E75
  background := .ofPacked 0x002B36
  foreground := .ofPacked 0x839496

def solarizedLight : Theme where
  name := "solarized-light"
  terminal := indexedPalette ⟨37, 33, 37, 244, 64, 64, 136, 235, 125, 166⟩
  markup := packedPalette
    ⟨0x268BD2, 0x268BD2, 0x859900, 0x93A1A1, 0xCB4B16, 0xCB4B16, 0xB58900,
      0x586E75, 0x6C71C4, 0xDC322F⟩
  labelStyle := .ofForeground (.indexed 244)
  labelColor := .ofPacked 0x93A1A1
  background := .ofPacked 0xFDF6E3
  foreground := .ofPacked 0x586E75

def oneDark : Theme where
  name := "one-dark"
  terminal := indexedPalette ⟨39, 75, 114, 59, 176, 176, 39, 145, 215, 215⟩
  markup := packedPalette
    ⟨0x61AFEF, 0x61AFEF, 0x98C379, 0x5C6370, 0xC678DD, 0xC678DD, 0xE5C07B,
      0xABB2BF, 0xD19A66, 0xE06C75⟩
  labelStyle := .ofForeground (.indexed 59)
  labelColor := .ofPacked 0x5C6370
  background := .ofPacked 0x282C34
  foreground := .ofPacked 0xABB2BF

def monokai : Theme where
  name := "monokai"
  terminal := indexedPalette ⟨81, 148, 186, 102, 197, 197, 81, 255, 141, 208⟩
  markup := packedPalette
    ⟨0xA6E22E, 0xA6E22E, 0xE6DB74, 0x75715E, 0xF92672, 0xF92672, 0x66D9EF,
      0xF8F8F2, 0xAE81FF, 0xFD971F⟩
  labelStyle := .ofForeground (.indexed 102)
  labelColor := .ofPacked 0x75715E
  background := .ofPacked 0x272822
  foreground := .ofPacked 0xF8F8F2

def githubDark : Theme where
  name := "github-dark"
  terminal := indexedPalette ⟨117, 183, 150, 102, 204, 204, 117, 188, 117, 215⟩
  markup := packedPalette
    ⟨0x88B0EF, 0x88B0EF, 0x7BB97F, 0x6A737D, 0xD19A66, 0xD19A66, 0xE6C07B,
      0xC0CAF5, 0xD19A66, 0xF8F8F2⟩
  labelStyle := .ofForeground (.indexed 102)
  labelColor := .ofPacked 0x6A737D
  background := .ofPacked 0x22272E
  foreground := .ofPacked 0xADBAC7

/-- All themes that come with the program, the standard one first. -/
def builtin : List Theme :=
  [standard, gruvbox, tokyonightNight, tokyonightStorm, catppuccinMocha, dracula,
    nord, solarizedDark, solarizedLight, oneDark, monokai, githubDark]

/-- The theme with exactly this name. -/
def ofName? (name : String) : Option Theme :=
  builtin.find? fun theme => theme.name == name

/-- Every theme is found by its name, so no two share one. -/
theorem ofName?_name {theme : Theme} (member : theme ∈ builtin) :
    ofName? theme.name = some theme := by
  revert theme
  decide +kernel

end CodeHighlight.Theme
