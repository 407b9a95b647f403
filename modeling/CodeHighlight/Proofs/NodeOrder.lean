/-
Module: CodeHighlight.Proofs.NodeOrder
Purpose: Where the nodes of a document stand.  Its nodes are found from the end of the text back to
  its beginning; seen from the beginning, each tree starts where the trees before it end, and a
  node stands before its children and over all of them.
Main exports:
  Node.seen, Tree.preorder, Tree.preorderOfAll, Tree.isBlank, Document.start,
  Tree.prependNodes_eq_preorder, Document.flatMap_nodes
-/
import CodeHighlight.Proofs.DocumentText

namespace CodeHighlight.Json

/-- What a view of kinds and ranges shows of a node. -/
def Node.seen {Image : Type} (view : Kind → Nat → Nat → List Image) (node : Node) : List Image :=
  view node.kind node.start node.stop

/-- White space, which is no node. -/
def Tree.isBlank : Tree → Bool
  | blank _ => true
  | _ => false

/-- Where the first token of a document begins: behind the white space in front. -/
def Document.start (document : Document) : Nat :=
  Tree.sizeOfAll (document.items.takeWhile Tree.isBlank)

namespace Tree

section Order

variable {Image : Type} (view : Kind → Nat → Nat → List Image)

mutual

/-- A view of the nodes of a tree that begins at a position, each node before its children. -/
def preorder (start : Nat) : Tree → List Image
  | blank _ => []
  | leaf kind bytes => view kind start (start + bytes.length)
  | branch kind children =>
      view kind start (start + sizeOfAll children) ++ preorderOfAll start children

/-- A view of the nodes of trees in a row, the first of which begins at a position. -/
def preorderOfAll (start : Nat) : List Tree → List Image
  | [] => []
  | tree :: rest => preorder start tree ++ preorderOfAll (start + tree.size) rest

end

mutual

/-- The nodes that are found backwards from the end of a tree are those of the tree in order, and
the search stops where the tree begins. -/
theorem prependNodes_eq_preorder (start : Nat) (following : List Node) : (tree : Tree) →
    (tree.prependNodes (start + tree.size, following)).1 = start ∧
      (tree.prependNodes (start + tree.size, following)).2.flatMap (Node.seen view) =
        tree.preorder view start ++ following.flatMap (Node.seen view)
  | blank bytes => by
      rw [prependNodes, size, preorder]
      exact ⟨Nat.add_sub_cancel start bytes.length, rfl⟩
  | leaf kind bytes => by
      have begins : start + bytes.length - bytes.length = start :=
        Nat.add_sub_cancel start bytes.length
      simp only [prependNodes, size, preorder, begins]
      exact ⟨trivial, rfl⟩
  | branch kind children => by
      obtain ⟨begins, found⟩ := foldr_prependNodes_eq_preorderOfAll start following children
      simp only [prependNodes, size_branch, preorder, begins]
      constructor
      · trivial
      · rw [List.flatMap_cons, found, List.append_assoc]
        rfl

theorem foldr_prependNodes_eq_preorderOfAll (start : Nat) (following : List Node) :
    (trees : List Tree) →
      (trees.foldr prependNodes (start + sizeOfAll trees, following)).1 = start ∧
        (trees.foldr prependNodes (start + sizeOfAll trees, following)).2.flatMap
            (Node.seen view) =
          preorderOfAll view start trees ++ following.flatMap (Node.seen view)
  | [] => ⟨rfl, rfl⟩
  | tree :: rest => by
      obtain ⟨begins, found⟩ :=
        foldr_prependNodes_eq_preorderOfAll (start + tree.size) following rest
      rw [sizeOfAll_cons, ← Nat.add_assoc, List.foldr_cons]
      -- The search through the trees behind this one ends where this one ends.
      generalize rest.foldr prependNodes _ = behind at begins found
      obtain ⟨position, nodes⟩ := behind
      simp only at begins found
      rw [begins]
      obtain ⟨starts, all⟩ := prependNodes_eq_preorder start nodes tree
      constructor
      · exact starts
      · rw [all, found, preorderOfAll, List.append_assoc]

end

end Order

/-- The first node of trees in a row begins behind the white space in front of it. -/
theorem head?_preorderOfAll_start (start : Nat) (trees : List Tree) :
    (preorderOfAll (fun _ start _ => [start]) start trees).head?.getD (start + sizeOfAll trees) =
      start + sizeOfAll (trees.takeWhile isBlank) := by
  induction trees generalizing start with
  | nil => rfl
  | cons tree rest inductionHypothesis =>
      rw [preorderOfAll]
      cases tree with
      | blank bytes =>
          rw [preorder, List.nil_append, List.takeWhile_cons_of_pos rfl, sizeOfAll_cons,
            sizeOfAll_cons, ← Nat.add_assoc, ← Nat.add_assoc]
          exact inductionHypothesis (start + (blank bytes).size)
      | leaf kind bytes =>
          rw [preorder, List.takeWhile_cons_of_neg Bool.false_ne_true]
          rfl
      | branch kind children =>
          rw [preorder, List.takeWhile_cons_of_neg Bool.false_ne_true]
          rfl

end Tree

namespace Document

/-- The document comes first among its nodes, from its first token to the end of the text. -/
theorem flatMap_nodes {Image : Type} (view : Kind → Nat → Nat → List Image)
    (document : Document) :
    document.nodes.flatMap (Node.seen view) =
      view .document document.start document.bytes.length ++
        Tree.preorderOfAll view 0 document.items := by
  have ends : 0 + Tree.sizeOfAll document.items = document.bytes.length := by
    rw [length_bytes, Nat.zero_add]
  obtain ⟨_, found⟩ := Tree.foldr_prependNodes_eq_preorderOfAll view 0 [] document.items
  obtain ⟨_, starts⟩ :=
    Tree.foldr_prependNodes_eq_preorderOfAll (fun _ start _ => [start]) 0 [] document.items
  have first := Tree.head?_preorderOfAll_start 0 document.items
  rw [ends] at found starts first
  rw [List.flatMap_nil, List.append_nil] at found starts
  rw [nodes, ← length_bytes, List.flatMap_cons, found]
  generalize document.items.foldr Tree.prependNodes (document.bytes.length, []) = read at starts
  -- The document takes its beginning from the first node in it.
  have begins : (read.2.head?.map Node.start).getD document.bytes.length = document.start := by
    have inOrder : read.2.map Node.start = _ := List.map_eq_flatMap.trans starts
    rw [← List.head?_map, inOrder, first, Nat.zero_add]
    rfl
  rw [Node.seen, begins]

end Document

end CodeHighlight.Json
