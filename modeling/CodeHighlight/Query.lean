/-
Module: CodeHighlight.Query
Purpose: Queries over the tree of a JSON text: patterns that select nodes by their kind and
  give them names.
Main exports:
  Pattern, Pattern.capturesAt?, Query, Query.names, Query.find, Query.read, Query.standard
-/
import CodeHighlight.Json.Document
import CodeHighlight.Query.Token
import CodeHighlight.SyntaxLibrary

namespace CodeHighlight

/-! ### Patterns and what they find -/

/-- Which range a pattern captures. -/
inductive Focus where
  /-- The selected node. -/
  | node
  /-- The first child of the selected node, if it has one. -/
  | firstChild
deriving Repr, DecidableEq

/-- Selects the nodes of some kinds, and names what it captures. -/
structure Pattern where
  kinds : List Json.Kind
  focus : Focus
  names : List Tag
deriving Repr, DecidableEq

namespace Pattern

/-- The range that the pattern captures at a node. -/
def rangeAt? (pattern : Pattern) (node : Json.Node) : Option (Nat × Nat) :=
  if pattern.kinds.contains node.kind then
    match pattern.focus with
    | .node => some node.range
    | .firstChild => node.first
  else none

/-- How many captures a match holds at most. -/
def captureLimit : Nat := 3

/-- The captures of the pattern at a node, when names have these indices: one for each of its
names, in order and up to the limit, all for one range. -/
def capturesAt? (names : List Tag) (pattern : Pattern) (node : Json.Node) :
    Option (List (NodeCapture (Nat × Nat))) :=
  (pattern.rangeAt? node).map fun range =>
    (pattern.names.take captureLimit).map fun name =>
      { index := names.idxOf name, node := range }

end Pattern

/-- Patterns in the order in which they are tried. -/
abbrev Query := List Pattern

namespace Query

/-- The names that the patterns use, each once, by their first use. -/
def names (query : Query) : List Tag :=
  (query.flatMap Pattern.names).eraseDups

/-- The captures of each match at nodes: node by node, and at each node pattern by pattern. -/
def find (query : Query) (nodes : List Json.Node) : List (List (NodeCapture (Nat × Nat))) :=
  nodes.flatMap fun node => query.filterMap fun pattern => pattern.capturesAt? query.names node

/-! ### Reading a query

A selector is a kind in parentheses, a quoted kind, an underscore, or a choice of selectors in
brackets.  Parentheses around a selector change nothing.  A pattern is a selector and the
captures after it.  Reading keeps the selectors that are still open, the innermost first.
-/

/-- What a selector tries, in this order: each alternative takes the nodes of some kinds. -/
abbrev Selector := List (List Json.Kind)

namespace Selector

/-- The selector of a choice.  The last part keeps all its alternatives; of a part before that
only the first one is tried, and then the next part. -/
def choice (last : Selector) (earlierNewestFirst : List Selector) : Selector :=
  earlierNewestFirst.reverse.filterMap List.head? ++ last

end Selector

/-- The kinds of nodes in the trees of a language. -/
abbrev Vocabulary := List Json.Kind

namespace Vocabulary

/-- The selector of every node. -/
def everything (vocabulary : Vocabulary) : Selector :=
  [vocabulary]

/-- The selector of the kind that has a name, or that is quoted like it.  A beginning of
`ERROR`, and so also no text at all, stands for what breaks the grammar, which is no kind of
node here. -/
def kind? (vocabulary : Vocabulary) (isNamed : Bool) (text : List Char) : Option Selector :=
  if text.isPrefixOf "ERROR".toList then some [[]]
  else (Json.Kind.find? vocabulary isNamed (String.ofList text)).map fun kind => [[kind]]

/-- The selector of a name in parentheses.  An underscore stands for all kinds that have such a
name. -/
def named? (vocabulary : Vocabulary) (name : List Char) : Option Selector :=
  if name = ['_'] then some [vocabulary.filter Json.Kind.named] else vocabulary.kind? true name

/-- The selector of a quoted text. -/
def quoted? (vocabulary : Vocabulary) (text : List Char) : Option Selector :=
  vocabulary.kind? false text

end Vocabulary

/-- A selector that is still open. -/
inductive Frame where
  /-- After a parenthesis: a name or a selector. -/
  | group
  /-- After the content of parentheses: their end. -/
  | filled (selector : Selector)
  /-- After a bracket and these selectors, the newest first: a selector, or the end. -/
  | choice (newestFirst : List Selector)
deriving Repr, DecidableEq

/-- A query that has been read in part. -/
structure Draft where
  frames : List Frame
  newestFirst : List Pattern
deriving Repr, DecidableEq

namespace Draft

/-- Adds a whole selector to what is open, or begins a pattern with it. -/
def complete (draft : Draft) (selector : Selector) : Draft :=
  match draft.frames with
  | .group :: outer => { draft with frames := .filled selector :: outer }
  | .choice others :: outer => { draft with frames := .choice (selector :: others) :: outer }
  | _ =>
      let pattern := { kinds := selector.flatten, focus := .node, names := [] }
      { draft with newestFirst := pattern :: draft.newestFirst }

/-- Opens a selector. -/
def openWith (draft : Draft) (frame : Frame) : Draft :=
  { draft with frames := frame :: draft.frames }

/-- Names the capture of the newest pattern. -/
def addName (draft : Draft) (name : List Char) : Option Draft :=
  match draft.frames, draft.newestFirst with
  | [], pattern :: older =>
      some
        { draft with
          newestFirst :=
            { pattern with names := pattern.names ++ [String.ofList name] } :: older }
  | _, _ => none

/-- Whether a selector may begin here. -/
def awaitsSelector (draft : Draft) : Bool :=
  match draft.frames with
  | .filled _ :: _ => false
  | _ => true

/-- Takes underscores that stand outside parentheses, each a selector of its own.  No other
name may stand there. -/
def takeBare (vocabulary : Vocabulary) (draft : Draft) (offset : Nat) (name : List Char) :
    Except Fault Draft :=
  let underscores := name.takeWhile (· == '_')
  if draft.awaitsSelector && underscores == name then
    .ok (underscores.foldl (fun taken _ => taken.complete vocabulary.everything) draft)
  else if draft.awaitsSelector then .error (.malformed (offset + underscores.length))
  else .error (.malformed offset)

/-- Takes a token. -/
def take (vocabulary : Vocabulary) (draft : Draft) (token : Token) : Except Fault Draft :=
  let refused := Except.error (Fault.malformed token.offset)
  match token.form, draft.frames with
  | .openGroup, _ => if draft.awaitsSelector then .ok (draft.openWith .group) else refused
  | .openChoice, _ => if draft.awaitsSelector then .ok (draft.openWith (.choice [])) else refused
  | .quoted _ meant, _ =>
      if draft.awaitsSelector then
        match vocabulary.quoted? meant with
        | some selector => .ok (draft.complete selector)
        | none => .error (.unknownKind true (token.offset + 1))
      else refused
  | .name text, .group :: _ =>
      match vocabulary.named? text with
      | some selector => .ok (draft.complete selector)
      | none => .error (.unknownKind false token.offset)
  | .name text, _ => draft.takeBare vocabulary token.offset text
  | .closeGroup, .filled selector :: outer =>
      .ok (complete { draft with frames := outer } selector)
  | .closeChoice, .choice (last :: earlier) :: outer =>
      .ok (complete { draft with frames := outer } (Selector.choice last earlier))
  | .capture name, _ =>
      match draft.addName name with
      | some named => if name.isEmpty then .error (.malformed (token.offset + 1)) else .ok named
      | none => refused
  | _, _ => refused

end Draft

/-- Reads a query for trees with these kinds of nodes. -/
def readTokens (vocabulary : Vocabulary) (text : List Char) : Except Fault Query := do
  let draft ← (tokens text).foldlM (Draft.take vocabulary) { frames := [], newestFirst := [] }
  if draft.frames.isEmpty then .ok draft.newestFirst.reverse
  else .error (.malformed (Utf8.size text))

/-- Reads a query; an error tells where it is wrong. -/
def read (vocabulary : Vocabulary) (text : String) : Except QueryError Query :=
  (readTokens vocabulary text.toList).mapError (QueryError.ofFault text.toList)

/-! ### The query for JSON -/

/-- Highlights keys, strings, numbers, the three words, escapes and comments. -/
def standard : Query :=
  [{ kinds := [.pair], focus := .firstChild, names := ["string.special.key"] },
    { kinds := [.string], focus := .node, names := ["string"] },
    { kinds := [.number], focus := .node, names := ["number"] },
    { kinds := [.constant .nullWord, .constant .trueWord, .constant .falseWord]
      focus := .node
      names := ["constant.builtin"] },
    { kinds := [.escape], focus := .node, names := ["escape"] },
    { kinds := [.comment], focus := .node, names := ["comment"] }]

end Query

end CodeHighlight
