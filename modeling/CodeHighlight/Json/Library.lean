/-
Module: CodeHighlight.Json.Library
Purpose: A syntax library for JSON.  Of the other languages it knows nothing: their texts have trees
  without nodes, no kind of node has a name there, and no query comes with them.
Main exports: Json.Parsed, Json.Parsed.ofText, Json.highlightsText, Json.library
-/
import CodeHighlight.Query

namespace CodeHighlight.Json

/-- The nodes of a text, parents before children, and whether it breaks the grammar. -/
structure Parsed where
  nodes : List Node
  hasError : Bool
deriving Repr, DecidableEq

/-- What is made out of a text.  One that breaks the grammar has the nodes that can be told. -/
def Parsed.ofText : Language → Bytes → Parsed
  | .json, source =>
      match Document.parse? source with
      | some document => { nodes := document.nodes, hasError := false }
      | none => { nodes := (Document.salvage source).nodes, hasError := true }
  | _, _ => { nodes := [], hasError := false }

/-- The kinds of nodes in the trees of a language. -/
def vocabulary : Language → Query.Vocabulary
  | .json => Kind.all
  | _ => []

/-- The query that comes with the grammar of JSON. -/
def highlightsText : String :=
  String.intercalate "\n"
    ["(pair", "  key: (_) @string.special.key)", "", "(string) @string", "",
      "(number) @number", "", "[", "  (null)", "  (true)", "  (false)", "] @constant.builtin", "",
      "(escape_sequence) @escape", "", "(comment) @comment", ""]

/-- The patterns of a query for a language.  The query that comes with the grammar is told by its
text, since it names a field of a node, and fields are not read. -/
def patternsOf (language : Language) (text : String) : Except QueryError Query :=
  if language = .json ∧ text = highlightsText then .ok .standard
  else Query.read (vocabulary language) text

/-- The library. -/
def library : SyntaxLibrary where
  Grammar := Language
  Tree := Parsed
  Node := Nat × Nat
  Compiled := Query
  grammar := id
  highlights
    | .json => highlightsText
    | _ => ""
  loadFailure? _ := none
  parse? language source := some (.ofText language source)
  hasError := Parsed.hasError
  compile := patternsOf
  patternCount := List.length
  captureNames := Query.names
  findMatches query parsed _ := query.find parsed.nodes
  startByte := Prod.fst
  endByte := Prod.snd

end CodeHighlight.Json
