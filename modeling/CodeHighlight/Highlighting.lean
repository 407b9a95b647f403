/-
Module: CodeHighlight.Highlighting
Purpose: From a source text and a query to highlighted output.  Trees and queries belong to a
  language; what parses the one and compiles the other is a library that is given.
Main exports:
  SyntaxTree, SyntaxTree.parse, SyntaxError, SyntaxError.message, SyntaxError.report,
  bundledText, HighlightQuery, HighlightQuery.compile, HighlightQuery.standard,
  HighlightQuery.captureOf?, HighlightQuery.run, highlight
-/
import CodeHighlight.Rendering
import CodeHighlight.SyntaxLibrary

namespace CodeHighlight

/-! ### Errors -/

/-- Why a text could not be highlighted. -/
inductive SyntaxError where
  /-- The parser cannot use the grammar, for a reason in the words of the library. -/
  | unloadable (language : Language) (reason : String)
  /-- The text has no tree. -/
  | unparsed (language : Language)
  /-- The query was refused. -/
  | invalidQuery (language : Language) (error : QueryError)
  /-- The query is for another language than the tree. -/
  | languageMismatch (query tree : Language)
deriving Repr, DecidableEq

namespace SyntaxError

/-- The error as a text.  Lines and columns are counted from one there. -/
def message : SyntaxError → String
  | unloadable language reason => "cannot load the " ++ language.name ++ " grammar: " ++ reason
  | unparsed language => "failed to parse input as " ++ language.name
  | invalidQuery language error =>
      "invalid " ++ language.name ++ " query at line " ++ toString (error.row + 1) ++
        ", column " ++ toString (error.column + 1) ++ " (byte " ++ toString error.offset ++
        ", " ++ error.kind.title ++ "): " ++ error.message
  | languageMismatch query tree =>
      query.name ++ " query cannot run over a " ++ tree.name ++ " syntax tree"

/-- The error as a text, followed by the error behind it if there is one. -/
def report : SyntaxError → String
  | unloadable language reason => (unloadable language reason).message ++ ": " ++ reason
  | error => error.message

end SyntaxError

/-! ### Trees -/

/-- The tree of a source text in a language. -/
structure SyntaxTree (library : SyntaxLibrary) where
  language : Language
  tree : library.Tree

namespace SyntaxTree

/-- Parses a text by the grammar of a language. -/
def parse (library : SyntaxLibrary) (language : Language) (source : Bytes) :
    Except SyntaxError (SyntaxTree library) :=
  let grammar := library.grammar language
  match library.loadFailure? grammar with
  | some reason => .error (.unloadable language reason)
  | none =>
      match library.parse? grammar source with
      | some tree => .ok { language := language, tree := tree }
      | none => .error (.unparsed language)

/-- Whether the parser had to recover from errors. -/
def hasError {library : SyntaxLibrary} (tree : SyntaxTree library) : Bool :=
  library.hasError tree.tree

end SyntaxTree

/-! ### Queries for a language -/

/-- A query and the one that extends it. -/
def layered (base extension : String) : String :=
  base ++ "\n" ++ extension

/-- The query that is used for a language when none is given.  Some grammars come with a query for
what they add to another grammar, whose query then comes first. -/
def bundledText (library : SyntaxLibrary) : Language → String
  | .cpp => layered (library.highlights .c) (library.highlights .cpp)
  | .typeScript => layered (library.highlights .javaScript) (library.highlights .typeScript)
  | .tsx => layered (library.highlights .javaScript) (library.highlights .typeScript)
  | language => library.highlights language

/-- A query that was compiled for a language. -/
structure HighlightQuery (library : SyntaxLibrary) where
  language : Language
  compiled : library.Compiled

namespace HighlightQuery

/-- Compiles a query for a language. -/
def compile (library : SyntaxLibrary) (language : Language) (text : String) :
    Except SyntaxError (HighlightQuery library) :=
  match library.compile (library.grammar language) text with
  | .ok compiled => .ok { language := language, compiled := compiled }
  | .error error => .error (.invalidQuery language error)

/-- Compiles the query that is used for a language when none is given. -/
def standard (library : SyntaxLibrary) (language : Language) :
    Except SyntaxError (HighlightQuery library) :=
  compile library language (bundledText library language)

variable {library : SyntaxLibrary} (query : HighlightQuery library)

/-- The names that the query gives to captures. -/
def names : List Tag :=
  library.captureNames query.compiled

/-- The query in short. -/
def summary : String :=
  "HighlightQuery \x7b language: " ++ query.language.title ++ ", patterns: " ++
    toString (library.patternCount query.compiled) ++ ", captures: " ++
    toString query.names.length ++ " \x7d"

/-- A capture with its name, if the query has a name of that index. -/
def captureOf? (found : NodeCapture library.Node) : Option Capture := do
  let tag ← query.names[found.index]?
  return { tag := tag, start := library.startByte found.node, stop := library.endByte found.node }

/-- The matches of the query in the tree of a source, if the tree is of its language. -/
def run (tree : SyntaxTree library) (source : Bytes) : Except SyntaxError (List Match) :=
  if tree.language = query.language then
    .ok ((library.findMatches query.compiled tree.tree source).map
      (List.filterMap query.captureOf?))
  else .error (.languageMismatch query.language tree.language)

end HighlightQuery

/-! ### Highlighting -/

/-- Parses a source, runs a query over its tree and renders what it finds. -/
def highlight {library : SyntaxLibrary} (language : Language) (source : Bytes)
    (query : HighlightQuery library) (theme : Theme) (settings : RenderSettings) :
    Except SyntaxError (Bytes × Statistics) := do
  let tree ← SyntaxTree.parse library language source
  let found ← query.run tree source
  return renderWithStatistics source found theme settings

end CodeHighlight
