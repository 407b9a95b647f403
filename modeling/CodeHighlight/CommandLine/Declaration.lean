/-
Module: CodeHighlight.CommandLine.Declaration
Purpose: What a program declares of its command line, and what it takes from a parser that reads
  arguments by such a declaration.  The parser is a parameter of everything that uses it, so
  nothing is said here about how it works.
Main exports:
  CommandLine.ValueOption, CommandLine.Flag, CommandLine.Reader, CommandLine.ValueDeclaration,
  CommandLine.FlagDeclaration, CommandLine.Command, CommandLine.UsageError,
  CommandLine.UsageError.exitCode, CommandLine.UsageError.explanation,
  CommandLine.ArgumentMatches, CommandLine.ArgumentParser
-/
import CodeHighlight.FilePath

namespace CodeHighlight.CommandLine

/-! ### Options -/

/-- The options that take a value. -/
inductive ValueOption where
  | query
  | theme
  | language
  | output
deriving Repr, DecidableEq

/-- The options that are given or not. -/
inductive Flag where
  | html
  | fragment
  | lineNumbers
  | verbose
deriving Repr, DecidableEq

/-- The options that show something about the program instead of running it. -/
inductive Report where
  | help
  | version
deriving Repr, DecidableEq

/-- All options that take a value. -/
def ValueOption.all : List ValueOption :=
  [query, theme, language, output]

/-- All flags. -/
def Flag.all : List Flag :=
  [html, fragment, lineNumbers, verbose]

/-- The byte that options begin with. -/
def dash : UInt8 := 0x2D

/-- The byte between the name of an option and a value attached to it. -/
def equalsSign : UInt8 := 0x3D

/-! ### Declarations -/

/-- What the bytes of a value are to be read as. -/
inductive Reader : Type → Type 1 where
  /-- A path, which may have any bytes but has some. -/
  | path : Reader FilePath
  /-- A text with a meaning.  A text that has none comes with an explanation. -/
  | text {Value : Type} (meaning : String → Except String Value) : Reader Value

/-- What is declared of an option that takes a value. -/
structure ValueDeclaration (Value : Type) where
  longName : String
  letter : Char
  reader : Reader Value
  /-- The text that counts as given when the option is not. -/
  standard : Option String

/-- What is declared of a flag. -/
structure FlagDeclaration where
  longName : String
  letter : Option Char
  /-- The flags without which this one must not be given. -/
  requires : List Flag

/-- What a program declares.  It is about a file, whose path has to be given and has no name. -/
structure Command where
  file : Reader FilePath
  Value : ValueOption → Type
  option : (which : ValueOption) → ValueDeclaration (Value which)
  flag : Flag → FlagDeclaration

/-! ### What a parser makes of arguments -/

/-- Why arguments do not lead to a run. -/
inductive UsageError where
  /-- Something about the program is to be shown instead. -/
  | shown (report : Report)
  /-- An option that does not exist, or a second file. -/
  | unknownArgument
  /-- A value attached to an option that takes none. -/
  | unexpectedValue
  /-- An option that was given before. -/
  | repeated
  | missingValue
  /-- A path with no bytes. -/
  | emptyPath
  /-- A text that is not UTF-8. -/
  | undecodable
  /-- A text without a meaning, and why it has none. -/
  | meaningless (explanation : String)
  /-- Something that has to be given is not there. -/
  | missingArgument
  /-- A flag without another that it requires. -/
  | unmetRequirement
deriving Repr, DecidableEq

namespace UsageError

/-- What the program ends with: to have shown something is a success. -/
def exitCode : UsageError → Nat
  | shown _ => 0
  | _ => 2

/-- The explanation of an error that has one of its own. -/
def explanation : UsageError → Option String
  | meaningless explanation => some explanation
  | _ => none

end UsageError

/-- What was found in the arguments. -/
structure ArgumentMatches (command : Command) where
  file : FilePath
  /-- The values that were given, or count as given. -/
  value : (which : ValueOption) → Option (command.Value which)
  sets : Flag → Bool

/-- A parser of arguments, for any program. -/
structure ArgumentParser where
  parse : (command : Command) → List Bytes → Except UsageError (ArgumentMatches command)

end CodeHighlight.CommandLine
