/-
Module: CodeHighlight.Proofs.DocumentedParser
Purpose: What is assumed of a parser of arguments.  Arguments say a list of things: a file, a value
  of an option, a flag.  What admits a list of things, and what is then found, is told by what the
  program declares.  Nothing is assumed of other arguments but that what is found in them is checked.
Main exports:
  CommandLine.Reader.Reads, CommandLine.Reader.Reads.unique, CommandLine.Occurrence,
  CommandLine.Occurrence.place, CommandLine.Command.Writes, CommandLine.Command.Spells, CommandLine.Command.Admits,
  CommandLine.ArgumentMatches.Reports, CommandLine.ArgumentMatches.Checked,
  CommandLine.ArgumentParser.Documented
-/
import CodeHighlight.CommandLine.Declaration
import Mathlib.Data.List.Forall2

namespace CodeHighlight.CommandLine

/-! ### Values -/

/-- What bytes are read as: those of a path as themselves, if there are any, and those of a text as
what it means. -/
def Reader.Reads : {Value : Type} → Reader Value → Bytes → Value → Prop
  | _, path, bytes, value => bytes ≠ [] ∧ value = bytes
  | _, text meaning, bytes, value =>
      ∃ decoded, bytes = Utf8.encode decoded ∧ meaning decoded = .ok value

/-- Bytes are read as one value only. -/
theorem Reader.Reads.unique {Value : Type} {reader : Reader Value} {bytes : Bytes}
    {first second : Value} (one : reader.Reads bytes first) (two : reader.Reads bytes second) :
    first = second := by
  cases reader with
  | path => exact one.2.trans two.2.symm
  | text meaning =>
      obtain ⟨decoded, same, told⟩ := one
      obtain ⟨other, otherSame, otherTold⟩ := two
      have sameText : decoded = other := Utf8.encode_injective (same.symm.trans otherSame)
      rw [← sameText, told] at otherTold
      exact Except.ok.inj otherTold

/-! ### What arguments say -/

/-- One thing that arguments say. -/
inductive Occurrence where
  | file (path : Bytes)
  | option (which : ValueOption) (value : Bytes)
  | flag (which : Flag)
deriving Repr, DecidableEq

/-- What something that arguments say is about. -/
inductive Place where
  | file
  | option (which : ValueOption)
  | flag (which : Flag)
deriving Repr, DecidableEq

/-- What it is about. -/
def Occurrence.place : Occurrence → Place
  | file _ => .file
  | option which _ => .option which
  | flag which => .flag which

/-- A long name as an argument. -/
def longArgument (name : String) : Bytes :=
  dash :: dash :: Utf8.encode name

/-- A short name as an argument. -/
def shortArgument (letter : Char) : Bytes :=
  [dash, letter.toUInt8]

/-- A text that does not begin like an option. -/
def Undashed (text : Bytes) : Prop :=
  text.head? ≠ some dash

instance (text : Bytes) : Decidable (Undashed text) :=
  inferInstanceAs (Decidable (_ ≠ _))

namespace Command

variable (command : Command)

/-- The arguments that say one thing.  A value may be attached to the long name of its option by an
equals sign; or it follows the long or the short name, unless it looks like an option. -/
inductive Writes : Occurrence → List Bytes → Prop
  | attached (which : ValueOption) (value : Bytes) :
      Writes (.option which value)
        [longArgument (command.option which).longName ++ equalsSign :: value]
  | afterLong (which : ValueOption) {value : Bytes} (undashed : Undashed value) :
      Writes (.option which value) [longArgument (command.option which).longName, value]
  | afterShort (which : ValueOption) {value : Bytes} (undashed : Undashed value) :
      Writes (.option which value) [shortArgument (command.option which).letter, value]
  | longFlag (which : Flag) : Writes (.flag which) [longArgument (command.flag which).longName]
  | shortFlag {which : Flag} {letter : Char} (named : (command.flag which).letter = some letter) :
      Writes (.flag which) [shortArgument letter]
  | file {path : Bytes} (undashed : Undashed path) : Writes (.file path) [path]

/-- The arguments that say one thing after another.  After a separator a file may stand last that
looks like an option. -/
inductive Spells : List Occurrence → List Bytes → Prop
  | among {occurrences : List Occurrence} {texts : List (List Bytes)}
      (written : List.Forall₂ command.Writes occurrences texts) :
      Spells occurrences texts.flatten
  | fileLast {occurrences : List Occurrence} {texts : List (List Bytes)}
      (written : List.Forall₂ command.Writes occurrences texts) (path : Bytes) :
      Spells (occurrences ++ [.file path]) (texts.flatten ++ [[dash, dash], path])

/-- Nothing is said twice, the file is there, every value can be read, and no flag lacks another that
it requires. -/
structure Admits (occurrences : List Occurrence) : Prop where
  once : (occurrences.map Occurrence.place).Nodup
  hasFile : ∃ bytes, .file bytes ∈ occurrences
  readable_file : ∀ bytes, .file bytes ∈ occurrences → ∃ path, command.file.Reads bytes path
  readable : ∀ which bytes, .option which bytes ∈ occurrences →
    ∃ value, (command.option which).reader.Reads bytes value
  standard_readable : ∀ which text, (command.option which).standard = some text →
    ∃ value, (command.option which).reader.Reads (Utf8.encode text) value
  required : ∀ which, .flag which ∈ occurrences →
    ∀ needed ∈ (command.flag which).requires, .flag needed ∈ occurrences

end Command

/-! ### What is found -/

namespace ArgumentMatches

variable {command : Command} (found : ArgumentMatches command)

/-- What was found is what was said.  An option of which nothing was said has the value of its
standard text, if there is one. -/
structure Reports (occurrences : List Occurrence) : Prop where
  file : ∃ bytes, .file bytes ∈ occurrences ∧ command.file.Reads bytes found.file
  given : ∀ which bytes, .option which bytes ∈ occurrences →
    ∃ value, (command.option which).reader.Reads bytes value ∧ found.value which = some value
  standard : ∀ which, (∀ bytes, .option which bytes ∉ occurrences) → ∀ value,
    found.value which = some value ↔ ∃ text, (command.option which).standard = some text ∧
      (command.option which).reader.Reads (Utf8.encode text) value
  sets_iff : ∀ which, found.sets which = true ↔ .flag which ∈ occurrences

/-- What was found was checked: the file and all values were read as declared, and no flag lacks
another that it requires. -/
structure Checked : Prop where
  read_file : ∃ bytes, command.file.Reads bytes found.file
  read : ∀ which value, found.value which = some value →
    ∃ bytes, (command.option which).reader.Reads bytes value
  required : ∀ which, found.sets which = true →
    ∀ needed ∈ (command.flag which).requires, found.sets needed = true

end ArgumentMatches

/-- A parser takes the arguments of a program as documented: it accepts those that say what can be
admitted and reports what they say, and whatever it accepts it has checked. -/
structure ArgumentParser.Documented (parser : ArgumentParser) (command : Command) : Prop where
  accepts : ∀ {occurrences arguments}, command.Spells occurrences arguments →
    command.Admits occurrences →
      ∃ found, parser.parse command arguments = .ok found ∧ found.Reports occurrences
  checks : ∀ {arguments found}, parser.parse command arguments = .ok found → found.Checked

end CodeHighlight.CommandLine
