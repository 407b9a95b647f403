/-
Module: CodeHighlight.CommandLine
Purpose: The command line: what the program can be asked to do, and what it declares of the
  arguments in which it is asked.
Main exports:
  Invocation, Invocation.readTheme, Invocation.readLanguage, Invocation.command,
  Invocation.ofMatches, Invocation.parse
-/
import CodeHighlight.CommandLine.Declaration
import CodeHighlight.Language
import CodeHighlight.Theme.Builtin

namespace CodeHighlight

open CommandLine

/-- What the program is asked to do. -/
structure Invocation where
  file : FilePath
  /-- A query to use instead of the one for the language. -/
  query : Option FilePath
  theme : Theme
  /-- The language, if it is not to be found by the extension of the file. -/
  language : Option Language
  /-- Where to write instead of printing. -/
  output : Option FilePath
  html : Bool
  /-- Only the code block of a page. -/
  fragment : Bool
  lineNumbers : Bool
  verbose : Bool
deriving Repr, DecidableEq

namespace Invocation

/-! ### The declaration -/

/-- The values that may be given, for a message. -/
def available (names : List String) : String :=
  " (available: " ++ String.intercalate ", " names ++ ")"

/-- The theme with a name. -/
def readTheme (name : String) : Except String Theme :=
  match Theme.ofName? name with
  | some theme => .ok theme
  | none => .error ("unknown theme '" ++ name ++ "'" ++ available (Theme.builtin.map Theme.name))

/-- The language with a name. -/
def readLanguage (name : String) : Except String Language :=
  match Language.ofName? name with
  | some language => .ok language
  | none =>
      .error ("unsupported language '" ++ name ++ "'" ++ available (Language.all.map Language.name))

/-- What the value of an option is. -/
abbrev Value : ValueOption → Type
  | .query => FilePath
  | .theme => Theme
  | .language => Language
  | .output => FilePath

/-- The options that take a value. -/
def option : (which : ValueOption) → ValueDeclaration (Value which)
  | .query => { longName := "query", letter := 'q', reader := .path, standard := none }
  | .theme =>
      { longName := "theme", letter := 'c', reader := .text readTheme
        standard := some Theme.standard.name }
  | .language =>
      { longName := "language", letter := 'l', reader := .text readLanguage, standard := none }
  | .output => { longName := "output", letter := 'o', reader := .path, standard := none }

/-- The flags.  A code block cannot be asked for without its page. -/
def flag : Flag → FlagDeclaration
  | .html => { longName := "html", letter := none, requires := [] }
  | .fragment => { longName := "fragment", letter := none, requires := [.html] }
  | .lineNumbers => { longName := "line-numbers", letter := some 'n', requires := [] }
  | .verbose => { longName := "verbose", letter := some 'v', requires := [] }

/-- What the program declares of its arguments. -/
abbrev command : Command where
  file := .path
  Value := Value
  option := option
  flag := flag

/-! ### Arguments -/

/-- What is asked for by what was found in the arguments. -/
def ofMatches (found : ArgumentMatches command) : Except UsageError Invocation :=
  match found.value .theme with
  | none => .error .missingArgument
  | some theme =>
      .ok {
        file := found.file
        query := found.value .query
        theme := theme
        language := found.value .language
        output := found.value .output
        html := found.sets .html
        fragment := found.sets .fragment
        lineNumbers := found.sets .lineNumbers
        verbose := found.sets .verbose }

/-- What a list of arguments asks for. -/
def parse (parser : ArgumentParser) (arguments : List Bytes) : Except UsageError Invocation := do
  ofMatches (← parser.parse command arguments)

end Invocation

end CodeHighlight
