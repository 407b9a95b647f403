/-
Module: CodeHighlight.Json.Document
Purpose: Reading a JSON text.  A stack of open constructs takes the lexemes one after another;
  what may come next is the place of the topmost one.
Main exports:
  Json.Place, Json.Frame, Json.takeLexeme?, Json.Document, Document.parse?,
  Document.salvage, Document.nodes
-/
import CodeHighlight.Json.Tree

namespace CodeHighlight.Json

/-! ### Open constructs -/

/-- Where reading stands in a construct that is still open. -/
inductive Place where
  /-- In the document: a value. -/
  | document
  /-- In an array without values: a value or the end. -/
  | arrayStart
  /-- In an array after a comma: a value. -/
  | arrayValue
  /-- In an array after a value: a comma or the end. -/
  | arrayNext
  /-- In an object without pairs: a key or the end. -/
  | objectStart
  /-- In an object after a comma: a key. -/
  | objectKey
  /-- In an object after a key or a pair: a comma or the end. -/
  | objectNext
  /-- In a pair after its key: a colon. -/
  | pairColon
  /-- In a pair after its colon: a value. -/
  | pairValue
deriving Repr, DecidableEq

/-- An open construct with what it holds so far, newest first. -/
structure Frame where
  place : Place
  newestFirst : List Tree
deriving Repr

namespace Frame

/-- Adds a tree and goes to a place. -/
def add (frame : Frame) (tree : Tree) (place : Place) : Frame where
  place := place
  newestFirst := tree :: frame.newestFirst

/-- What the frame holds, followed by one more tree, as one construct. -/
def close (frame : Frame) (kind : Kind) (last : Tree) : Tree :=
  .branch kind (last :: frame.newestFirst).reverse

end Frame

/-- Open constructs, the innermost first. -/
abbrev Frames := List Frame

/-- A value may come here. -/
def awaitsValue : Place → Bool
  | .document | .arrayStart | .arrayValue | .pairValue => true
  | _ => false

/-- Adds a whole value.  The value of a pair completes the pair, and the pair belongs to the
object around it. -/
def takeValue? (value : Tree) : Frames → Option Frames
  | frame :: outer =>
      match frame.place, outer with
      | .document, _ => some (frame.add value .document :: outer)
      | .arrayStart, _ | .arrayValue, _ => some (frame.add value .arrayNext :: outer)
      | .pairValue, object :: rest =>
          some (object.add (frame.close .pair value) .objectNext :: rest)
      | _, _ => none
  | [] => none

/-- Opens an array or an object where a value may come. -/
def openWith? (place : Place) (token : Tree) : Frames → Option Frames
  | frame :: outer =>
      if awaitsValue frame.place then
        some ({ place := place, newestFirst := [token] } :: frame :: outer)
      else none
  | [] => none

/-- Takes one of the marks. -/
def takeMark? (symbol : Mark) : Frames → Option Frames
  | frame :: outer =>
      let token := Tree.ofMark symbol
      match symbol, frame.place with
      | .openBracket, _ => openWith? .arrayStart token (frame :: outer)
      | .openBrace, _ => openWith? .objectStart token (frame :: outer)
      | .closeBracket, .arrayStart | .closeBracket, .arrayNext =>
          takeValue? (frame.close .array token) outer
      | .closeBrace, .objectStart | .closeBrace, .objectNext =>
          takeValue? (frame.close .object token) outer
      | .comma, .arrayNext => some (frame.add token .arrayValue :: outer)
      | .comma, .objectNext => some (frame.add token .objectKey :: outer)
      | .colon, .pairColon => some (frame.add token .pairValue :: outer)
      | _, _ => none
  | [] => none

/-- Takes a string: a key opens a pair, any other is a value. -/
def takeString? (tree : Tree) : Frames → Option Frames
  | frame :: outer =>
      match frame.place with
      | .objectStart | .objectKey =>
          some ({ place := .pairColon, newestFirst := [tree] } ::
            { frame with place := .objectNext } :: outer)
      | _ => takeValue? tree (frame :: outer)
  | [] => none

/-- Takes a lexeme.  White space and comments may come anywhere. -/
def takeLexeme? (frames : Frames) (lexeme : Lexeme) : Option Frames :=
  match lexeme, frames with
  | .blank _, frame :: outer | .comment _, frame :: outer =>
      some (frame.add (Tree.ofLexeme lexeme) frame.place :: outer)
  | .mark symbol, _ => takeMark? symbol frames
  | .string _, _ => takeString? (Tree.ofLexeme lexeme) frames
  | .constant _, _ | .number _, _ => takeValue? (Tree.ofLexeme lexeme) frames
  | _, [] => none

/-! ### Documents -/

/-- A text with the structure of JSON: values, comments and white space. -/
structure Document where
  items : List Tree
deriving Repr

namespace Document

/-- The document that lexemes make up, or nothing when they break the grammar. -/
def ofLexemes? (lexemes : List Lexeme) : Option Document := do
  let frames ← lexemes.foldlM takeLexeme? [{ place := .document, newestFirst := [] }]
  match frames with
  | [frame] => if frame.place = .document then some ⟨frame.newestFirst.reverse⟩ else none
  | _ => none

/-- The document of a text, or nothing when the text is no JSON. -/
def parse? (source : Bytes) : Option Document := do
  let lexemes ← Lexeme.read? source
  ofLexemes? lexemes

/-- What can be made of a text that is no JSON: the document of its lexemes, or if these break
the grammar, the lexemes side by side. -/
def salvage (source : Bytes) : Document :=
  let lexemes := Lexeme.skim source
  (ofLexemes? lexemes).getD { items := lexemes.map Tree.ofLexeme }

/-- The text of the document. -/
def bytes (document : Document) : Bytes :=
  document.items.flatMap Tree.bytes

/-- The nodes of the document in the order of the text, each before its children.  The first
one is the document itself.  It begins with its first token and takes the white space after its
last one with it, so it ends where the text ends; without tokens it is empty and stands there. -/
def nodes (document : Document) : List Node :=
  let stop := Tree.sizeOfAll document.items
  let (_, nodes) := document.items.foldr Tree.prependNodes (stop, [])
  let start := (nodes.head?.map Node.start).getD stop
  ⟨.document, start, stop, nodes.head?.map Node.range⟩ :: nodes

end Document

end CodeHighlight.Json
