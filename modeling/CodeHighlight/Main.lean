/-
Module: CodeHighlight.Main
Purpose: The program: a run over the files of the system, with its arguments, its messages
  and its exit code.
Main exports: main
-/
import CodeHighlight.CommandLine.Parser
import CodeHighlight.Json.Library
import CodeHighlight.Run

namespace CodeHighlight.Program

/-- How the program is used. -/
def usage : String :=
  String.intercalate "\n"
    ["Syntax-highlight a source file for the terminal or the browser",
      "",
      "Usage: codetint [OPTIONS] <FILE>",
      "",
      "Options:",
      "  -q, --query <FILE>     Use an external highlight query instead of the bundled one",
      "  -c, --theme <THEME>    Color theme [default: default]",
      "  -l, --language <LANG>  Language, overriding detection from the file extension",
      "  -o, --output <FILE>    Write to FILE instead of stdout",
      "      --html             Output HTML instead of ANSI colors",
      "      --fragment         With --html, emit only the <pre><code> block",
      "  -n, --line-numbers     Show line numbers",
      "  -v, --verbose          Verbose logging on stderr",
      "  -h, --help             Print help",
      "  -V, --version          Print version"]

/-- What a failed action of the system means for a file. -/
def ofSystemError : IO.Error → FileError
  | .noFileOrDirectory .. => .notFound
  | error => .other (toString error)

/-- Does something with the file at a path. -/
def withFile {Value : Type} (path : FilePath) (action : String → IO Value) :
    IO (Except FileError Value) := do
  match Utf8.decode? path with
  | none => return .error (.other "file name is not valid UTF-8")
  | some name =>
      try
        return .ok (← action name)
      catch error =>
        return .error (ofSystemError error)

/-- Prints bytes. -/
def printBytes (bytes : Bytes) : IO (Except FileError Unit) := do
  try
    let output ← IO.getStdout
    output.write bytes.toByteArray
    output.flush
    return .ok ()
  catch error =>
    return .error (ofSystemError error)

/-- The files of the system. -/
def surroundings : Surroundings IO where
  read path := withFile path fun name => return (← IO.FS.readBinFile name).toList
  write path contents := withFile path fun name => IO.FS.writeBinFile name contents.toByteArray
  print := printBytes

/-- Shows why the arguments do not lead to a run. -/
def showUsage (error : CommandLine.UsageError) : IO UInt32 := do
  match error with
  | .shown .help => IO.println usage
  | .shown .version => IO.println "codetint 0.1.0"
  | other =>
      IO.eprintln ("error: " ++ other.explanation.getD "invalid arguments")
      IO.eprintln usage
  return error.exitCode.toUInt32

end CodeHighlight.Program

open CodeHighlight in
/-- Runs the program; the exit code is 0, 1 for a failed run, or 2 for wrong arguments. -/
def main (arguments : List String) : IO UInt32 := do
  match Invocation.parse CommandLine.parser (arguments.map Utf8.encode) with
  | .error error => Program.showUsage error
  | .ok invocation =>
      match ← (run Json.library Program.surroundings invocation).run with
      | .ok () => return 0
      | .error error =>
          IO.eprintln ("codetint: " ++ error.message)
          return 1
