/-
Module: CodeHighlight.CommandLine.Parser
Purpose: A parser of arguments.  It takes the arguments one after another, by the names that the
  program declares, and checks each of them as soon as the next one settles that it is complete.
Main exports:
  CommandLine.Meaning, CommandLine.Argument, CommandLine.Argument.ofBytes, CommandLine.Given,
  CommandLine.Reading, CommandLine.Reading.readArgument, CommandLine.Reading.finish,
  CommandLine.parser
-/
import CodeHighlight.CommandLine.Declaration

namespace CodeHighlight.CommandLine

/-! ### Names -/

/-- What the name of an option stands for. -/
inductive Meaning where
  | valued (option : ValueOption)
  | flag (flag : Flag)
  | report (report : Report)
deriving Repr, DecidableEq

namespace Command

/-- The long names, which must be given in full. -/
def longNames (command : Command) : List (String × Meaning) :=
  ValueOption.all.map (fun which => ((command.option which).longName, .valued which)) ++
    Flag.all.map (fun which => ((command.flag which).longName, .flag which)) ++
    [("help", .report .help), ("version", .report .version)]

/-- The short names.  Not every flag has one. -/
def shortNames (command : Command) : List (Char × Meaning) :=
  ValueOption.all.map (fun which => ((command.option which).letter, .valued which)) ++
    Flag.all.filterMap (fun which =>
      (command.flag which).letter.map fun letter => (letter, .flag which)) ++
    [('h', .report .help), ('V', .report .version)]

/-- What a long name stands for. -/
def ofLong? (command : Command) (name : Bytes) : Option Meaning :=
  (command.longNames.find? fun (known, _) => Utf8.encode known == name).map Prod.snd

/-- What a short name stands for. -/
def ofShort? (command : Command) (letter : UInt8) : Option Meaning :=
  (command.shortNames.find? fun (known, _) => known.toNat == letter.toNat).map Prod.snd

end Command

/-! ### Forms of arguments -/

/-- An argument by its form. -/
inductive Argument where
  /-- Two dashes alone: only plain arguments follow. -/
  | separator
  /-- Two dashes and a long name, perhaps with a value attached to it. -/
  | long (name : Bytes) (value : Option Bytes)
  /-- A dash and short names, perhaps with a value attached to the last one. -/
  | short (first : UInt8) (rest : Bytes)
  /-- Anything else, a dash alone included. -/
  | plain (text : Bytes)
deriving Repr, DecidableEq

namespace Argument

/-- What follows the equals sign that a text begins with, if it is not empty. -/
def afterSign? : Bytes → Option Bytes
  | [] => none
  | _ :: value => some value

/-- The form of an argument. -/
def ofBytes : Bytes → Argument
  | [0x2D, 0x2D] => separator
  | 0x2D :: 0x2D :: name =>
      long (name.takeWhile (· != equalsSign)) (afterSign? (name.dropWhile (· != equalsSign)))
  | 0x2D :: first :: rest => short first rest
  | text => plain text

/-- The value attached to a short name, if anything follows it.  An equals sign in front of
the value is left out. -/
def attachedToShort? : Bytes → Option Bytes
  | [] => none
  | first :: rest => some (if first = equalsSign then rest else first :: rest)

end Argument

/-! ### Values -/

/-- Reads the bytes of a value. -/
def Reader.read : {Value : Type} → Reader Value → Bytes → Except UsageError Value
  | _, path, value => if value.isEmpty then .error .emptyPath else .ok value
  | _, text meaning, value =>
      match Utf8.decode? value with
      | none => .error .undecodable
      | some decoded => (meaning decoded).mapError .meaningless

/-- What has been given so far. -/
structure Given (command : Command) where
  file : Option FilePath
  value : (which : ValueOption) → Option (command.Value which)
  sets : Flag → Bool

namespace Given

variable {command : Command}

/-- Nothing has been given. -/
def nothing : Given command where
  file := none
  value _ := none
  sets _ := false

/-- Fails when something was given before. -/
def unlessGiven (before : Bool) : Except UsageError Unit :=
  if before then .error .repeated else .ok ()

/-- What has been given, with a value of an option. -/
def put (given : Given command) (which : ValueOption) (value : command.Value which) :
    Given command :=
  { given with
    value := fun other => if same : which = other then some (same ▸ value) else given.value other }

/-- What has been given, with a flag. -/
def raise (given : Given command) (which : Flag) : Given command :=
  { given with sets := fun other => which == other || given.sets other }

/-- Sets an option to a value. -/
def setValue (given : Given command) (which : ValueOption) (value : Bytes) :
    Except UsageError (Given command) := do
  unlessGiven (given.value which).isSome
  return given.put which (← (command.option which).reader.read value)

/-- Sets a flag. -/
def setFlag (given : Given command) (which : Flag) : Except UsageError (Given command) := do
  unlessGiven (given.sets which)
  return given.raise which

/-- Sets the file. -/
def setFile (given : Given command) (file : Bytes) : Except UsageError (Given command) := do
  return { given with file := some (← command.file.read file) }

/-- The value of an option.  One that was not given has the value of its standard text. -/
def valueOrStandard (given : Given command) (which : ValueOption) :
    Option (command.Value which) :=
  let declared := command.option which
  given.value which <|>
    declared.standard.bind fun text => (declared.reader.read (Utf8.encode text)).toOption

/-- Whether a flag was given without another that it requires. -/
def lacksRequired (given : Given command) (which : Flag) : Bool :=
  given.sets which && !(command.flag which).requires.all given.sets

end Given

/-! ### Reading arguments

A plain argument is the file or the value of the option before it.  Such an argument is only
checked when the next one settles that it is complete; an argument that is wrong by itself is
reported first.
-/

/-- What is not yet checked. -/
inductive Pending where
  | nothing
  /-- An option and the argument after it, if there was one. -/
  | valued (option : ValueOption) (value : Option Bytes)
  | file (path : Bytes)
deriving Repr, DecidableEq

/-- Arguments that have been read in part. -/
structure Reading (command : Command) where
  given : Given command
  pending : Pending
  /-- Whether the file was there. -/
  fileSeen : Bool
  /-- Whether only plain arguments may follow. -/
  plainOnly : Bool

namespace Reading

variable {command : Command}

/-- Nothing has been read. -/
def start : Reading command where
  given := .nothing
  pending := .nothing
  fileSeen := false
  plainOnly := false

/-- Checks what is pending. -/
def settle (reading : Reading command) : Except UsageError (Reading command) :=
  match reading.pending with
  | .nothing => .ok reading
  | .valued _ none => .error .missingValue
  | .valued which (some value) => do
      return { reading with given := ← reading.given.setValue which value, pending := .nothing }
  | .file path => do
      return { reading with given := ← reading.given.setFile path, pending := .nothing }

/-- Reads an option with the value attached to it, if there is one. -/
def readValued (reading : Reading command) (which : ValueOption) (value : Option Bytes) :
    Except UsageError (Reading command) := do
  let settled ← reading.settle
  match value with
  | some value => return { settled with given := ← settled.given.setValue which value }
  | none => return { settled with pending := .valued which none }

/-- Reads a flag. -/
def readFlag (reading : Reading command) (which : Flag) :
    Except UsageError (Reading command) := do
  let settled ← reading.settle
  return { settled with given := ← settled.given.setFlag which }

/-- Reads an option that shows something. -/
def readReport (reading : Reading command) (report : Report) :
    Except UsageError (Reading command) := do
  let _ ← reading.settle
  .error (.shown report)

/-- Reads a long option. -/
def readLong (reading : Reading command) (name : Bytes) (value : Option Bytes) :
    Except UsageError (Reading command) :=
  match command.ofLong? name, value with
  | none, _ => .error .unknownArgument
  | some (.valued which), _ => reading.readValued which value
  | some (.flag _), some _ | some (.report _), some _ => .error .unexpectedValue
  | some (.flag which), none => reading.readFlag which
  | some (.report report), none => reading.readReport report

/-- Reads short options.  What follows one that takes a value is its value. -/
def readShort (reading : Reading command) (letter : UInt8) (rest : Bytes) :
    Except UsageError (Reading command) :=
  match command.ofShort? letter with
  | none => .error .unknownArgument
  | some (.valued which) => reading.readValued which (Argument.attachedToShort? rest)
  | some (.report report) => reading.readReport report
  | some (.flag which) => do
      let next ← reading.readFlag which
      match rest with
      | [] => return next
      | following :: others => next.readShort following others
termination_by rest.length

/-- Reads the file. -/
def readFile (reading : Reading command) (path : Bytes) :
    Except UsageError (Reading command) := do
  if reading.fileSeen then .error .unknownArgument
  else
    let settled ← reading.settle
    return { settled with pending := .file path, fileSeen := true }

/-- Reads an argument. -/
def readArgument (reading : Reading command) (argument : Bytes) :
    Except UsageError (Reading command) :=
  if reading.plainOnly then reading.readFile argument
  else
    match Argument.ofBytes argument with
    | .separator => .ok { reading with plainOnly := true }
    | .long name value => reading.readLong name value
    | .short first rest => reading.readShort first rest
    | .plain text =>
        match reading.pending with
        | .valued which none => .ok { reading with pending := .valued which (some text) }
        | _ => reading.readFile text

/-- What was found when all arguments have been read. -/
def finish (reading : Reading command) : Except UsageError (ArgumentMatches command) := do
  let given := (← reading.settle).given
  match given.file with
  | none => .error .missingArgument
  | some file =>
      if Flag.all.any given.lacksRequired then .error .unmetRequirement
      else return { file := file, value := given.valueOrStandard, sets := given.sets }

end Reading

/-- The parser that reads arguments one after another. -/
def parser : ArgumentParser where
  parse _ arguments := do
    let reading ← arguments.foldlM Reading.readArgument .start
    reading.finish

end CodeHighlight.CommandLine
