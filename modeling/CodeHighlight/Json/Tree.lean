/-
Module: CodeHighlight.Json.Tree
Purpose: The tree of a JSON text.  Like the lexemes it leaves nothing out, so where a node
  stands follows from what comes before it, and a node always holds its children.
Main exports:
  Json.Tree, Tree.bytes, Tree.prependNodes, Json.Node, Tree.ofLexeme
-/
import CodeHighlight.Json.Lexeme

namespace CodeHighlight.Json

/-- A text, or a part of one, with its structure. -/
inductive Tree where
  /-- White space, which is no node. -/
  | blank (bytes : Bytes)
  /-- A node without children. -/
  | leaf (kind : Kind) (bytes : Bytes)
  /-- A node made of its children. -/
  | branch (kind : Kind) (children : List Tree)
deriving Repr

/-- A node at its place in the text, from `start` up to but without `stop`. -/
structure Node where
  kind : Kind
  start : Nat
  stop : Nat
  /-- The range of the first child, if there is one. -/
  first : Option (Nat × Nat)
deriving Repr, DecidableEq

namespace Node

/-- Where the node stands. -/
def range (node : Node) : Nat × Nat :=
  (node.start, node.stop)

end Node

namespace Tree

/-- The text of the tree. -/
def bytes : Tree → Bytes
  | blank bytes => bytes
  | leaf _ bytes => bytes
  | branch _ children => children.flatMap bytes

/-- The number of bytes of the tree. -/
def size : Tree → Nat
  | blank bytes => bytes.length
  | leaf _ bytes => bytes.length
  | branch _ children => children.foldl (fun total child => total + child.size) 0

/-- The number of bytes of trees in a row. -/
def sizeOfAll (trees : List Tree) : Nat :=
  trees.foldl (fun total tree => total + tree.size) 0

/-- The nodes of a tree that ends where the given nodes begin, put before them: each node
before its children, and children in the order of the text.  The number is the end of the
tree, and in the answer its beginning. -/
def prependNodes (tree : Tree) (following : Nat × List Node) : Nat × List Node :=
  match tree with
  | blank bytes => (following.1 - bytes.length, following.2)
  | leaf kind bytes =>
      let start := following.1 - bytes.length
      (start, ⟨kind, start, following.1, none⟩ :: following.2)
  | branch kind children =>
      let (start, nodes) := children.foldr (fun child => child.prependNodes) following
      (start, ⟨kind, start, following.1, nodes.head?.map Node.range⟩ :: nodes)

/-- The tree of a piece of a string. -/
def ofStringPart : StringPart → Tree
  | .content bytes => leaf .content bytes
  | .escape letter => leaf .escape [backslash, letter]

/-- The tree of a mark. -/
def ofMark (symbol : Mark) : Tree :=
  leaf (.mark symbol) [symbol.byte]

/-- The tree of a string. -/
def ofParts (parts : List StringPart) : Tree :=
  branch .string ([ofMark .quote] ++ parts.map ofStringPart ++ [ofMark .quote])

/-- The tree of a lexeme by itself. -/
def ofLexeme : Lexeme → Tree
  | .blank bytes => blank bytes
  | .comment bytes => leaf .comment bytes
  | .mark symbol => ofMark symbol
  | .constant word => leaf (.constant word) (Utf8.encode word.text)
  | .number bytes => leaf .number bytes
  | .string parts => ofParts parts

theorem bytes_ofStringPart (part : StringPart) : (ofStringPart part).bytes = part.bytes := by
  cases part <;> simp [ofStringPart, bytes, StringPart.bytes]

/-- The tree of a lexeme has the text of the lexeme. -/
theorem bytes_ofLexeme (lexeme : Lexeme) : (ofLexeme lexeme).bytes = lexeme.bytes := by
  cases lexeme <;>
    simp [ofLexeme, ofParts, ofMark, bytes, Lexeme.bytes, bytes_ofStringPart, List.flatMap_map]

end Tree

end CodeHighlight.Json
