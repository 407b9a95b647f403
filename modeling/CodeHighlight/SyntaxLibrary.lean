/-
Module: CodeHighlight.SyntaxLibrary
Purpose: What highlighting takes from outside: a library that parses texts by the grammars of the
  languages, and compiles queries and runs them over trees.  It is a parameter of everything that
  uses it, so nothing is said here about how it works.
Main exports: NodeCapture, SyntaxLibrary
-/
import CodeHighlight.Capture
import CodeHighlight.Language
import CodeHighlight.Query.Error

namespace CodeHighlight

/-- A capture as the library reports it: which of the query's names it has, and a node. -/
structure NodeCapture (Node : Type) where
  index : Nat
  node : Node
deriving Repr, DecidableEq

/-- A library for parsing and for queries, with the grammars of all languages. -/
structure SyntaxLibrary where
  Grammar : Type
  Tree : Type
  Node : Type
  /-- A query that was compiled for a grammar. -/
  Compiled : Type
  grammar : Language → Grammar
  /-- The query that comes with the grammar of a language. -/
  highlights : Language → String
  /-- Why the parser cannot use a grammar, if it cannot. -/
  loadFailure? : Grammar → Option String
  /-- The tree of a text, unless parsing is given up. -/
  parse? : Grammar → Bytes → Option Tree
  /-- Whether the parser had to recover from errors. -/
  hasError : Tree → Bool
  compile : Grammar → String → Except QueryError Compiled
  patternCount : Compiled → Nat
  /-- The names of captures, in the order of their indices. -/
  captureNames : Compiled → List Tag
  /-- The captures of each match in a tree, from its root on. -/
  findMatches : Compiled → Tree → Bytes → List (List (NodeCapture Node))
  startByte : Node → Nat
  endByte : Node → Nat

end CodeHighlight
