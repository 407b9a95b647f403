/-
Module: CodeHighlight.Proofs.StandardCaptures
Purpose: What the standard query captures in a JSON text, in the order in which it is read: at a
  pair its key, before anything in the pair, and at a string the string, before the escapes in it.
Main exports:
  Node.captures, standard_run, feedOrder_singletons, Tree.captures, Tree.capturesOfAll,
  Tree.InOrder, Regular.inOrder, Tree.CapturesValid, Regular.capturesValid,
  Document.flatMap_captures_nodes
-/
import CodeHighlight.Proofs.QueryMatches
import CodeHighlight.Proofs.TokenSegments

namespace CodeHighlight.Json

/-! ### Captures at nodes -/

/-- What the standard query captures at a node.  At a pair it captures the key. -/
def Node.captures (node : Node) : List Capture :=
  if node.kind = .pair then
    node.first.toList.map fun (start, stop) => { tag := keyTag, start := start, stop := stop }
  else Query.capturesNamed node.kind.tag?.toList node.start node.stop

theorem standard_matchesAt (node : Node) :
    (Query.standard.filterMap fun pattern => pattern.matchAt? node) =
      node.captures.map fun capture => [capture] := by
  obtain ⟨kind, start, stop, first⟩ := node
  cases kind with
  | pair => cases first <;> rfl
  | constant word => cases word <;> rfl
  | _ => rfl

/-- Every match of the standard query is one capture. -/
theorem standard_run (nodes : List Node) :
    Query.standard.run nodes =
      (nodes.flatMap Node.captures).map fun capture => [capture] := by
  rw [Query.run, List.map_flatMap, funext standard_matchesAt]

theorem feedOrder_singletons (captures : List Capture) :
    feedOrder (captures.map fun capture => [capture]) = captures := by
  induction captures with
  | nil => rfl
  | cons capture rest inductionHypothesis =>
      rw [List.map_cons, feedOrder, List.flatMap_cons, ← feedOrder, inductionHypothesis,
        Match.inOrder, List.mergeSort_singleton, List.singleton_append]

/-! ### Captures in trees -/

namespace Tree

/-- The capture of the key of a pair. -/
def keyCaptures (start : Nat) (children : List Tree) : List Capture :=
  children.head?.toList.map fun key =>
    { tag := keyTag, start := start, stop := start + key.size }

mutual

/-- What the standard query captures in a tree that begins at a position, in order. -/
def captures (start : Nat) : Tree → List Capture
  | blank _ => []
  | leaf kind bytes => Query.capturesNamed kind.tag?.toList start (start + bytes.length)
  | branch kind children =>
      (if kind = .pair then keyCaptures start children
        else Query.capturesNamed kind.tag?.toList start (start + sizeOfAll children)) ++
        capturesOfAll start children

/-- What the standard query captures in trees in a row. -/
def capturesOfAll (start : Nat) : List Tree → List Capture
  | [] => []
  | tree :: rest => captures start tree ++ capturesOfAll (start + tree.size) rest

end

/-- The nodes that are found backwards from the end of a tree have its captures in order. -/
def InOrder (tree : Tree) : Prop :=
  ∀ start following, (tree.prependNodes (start + tree.size, following)).2.flatMap Node.captures =
    tree.captures start ++ following.flatMap Node.captures

theorem fst_prependNodes (tree : Tree) (start : Nat) (following : List Node) :
    (tree.prependNodes (start + tree.size, following)).1 = start :=
  (prependNodes_eq_preorder (fun _ _ _ => ([] : List Unit)) start following tree).1

theorem fst_foldr_prependNodes (trees : List Tree) (start : Nat) (following : List Node) :
    (trees.foldr prependNodes (start + sizeOfAll trees, following)).1 = start :=
  (foldr_prependNodes_eq_preorderOfAll (fun _ _ _ => ([] : List Unit)) start following trees).1

/-- The first node of a branch is the branch. -/
theorem head?_prependNodes_branch (kind : Kind) (children : List Tree) (start : Nat)
    (following : List Node) :
    ((branch kind children).prependNodes
        (start + (branch kind children).size, following)).2.head?.map Node.range =
      some (start, start + (branch kind children).size) := by
  have begins := fst_prependNodes (branch kind children) start following
  rw [prependNodes] at begins ⊢
  exact congrArg (fun first => some (first, start + (branch kind children).size)) begins

/-- The search through trees in a row goes on from the first of them where the others begin. -/
theorem foldr_prependNodes_cons (tree : Tree) (rest : List Tree) (start : Nat)
    (following : List Node) :
    (tree :: rest).foldr prependNodes (start + sizeOfAll (tree :: rest), following) =
      tree.prependNodes (start + tree.size,
        (rest.foldr prependNodes (start + tree.size + sizeOfAll rest, following)).2) := by
  rw [sizeOfAll_cons, ← Nat.add_assoc, List.foldr_cons]
  have begins := fst_foldr_prependNodes rest (start + tree.size) following
  generalize rest.foldr prependNodes _ = behind at begins
  rw [← begins]

theorem flatMap_captures_foldr_prependNodes {trees : List Tree}
    (inOrder : ∀ tree ∈ trees, tree.InOrder) (start : Nat) (following : List Node) :
    (trees.foldr prependNodes (start + sizeOfAll trees, following)).2.flatMap Node.captures =
      capturesOfAll start trees ++ following.flatMap Node.captures := by
  induction trees generalizing start with
  | nil => rfl
  | cons tree rest inductionHypothesis =>
      have others := inductionHypothesis
        (fun later member => inOrder later (List.mem_cons_of_mem _ member)) (start + tree.size)
      rw [foldr_prependNodes_cons, inOrder tree List.mem_cons_self, others, capturesOfAll,
        List.append_assoc]

theorem inOrder_blank (bytes : Bytes) : (blank bytes).InOrder := by
  intro start following
  rw [captures, prependNodes, List.nil_append]

theorem inOrder_leaf (kind : Kind) (bytes : Bytes) : (leaf kind bytes).InOrder := by
  intro start following
  have begins : start + bytes.length - bytes.length = start :=
    Nat.add_sub_cancel start bytes.length
  simp only [prependNodes, size, captures, begins, List.flatMap_cons]
  by_cases isPair : kind = .pair
  · rw [isPair]
    rfl
  · rw [Node.captures, if_neg isPair]

theorem inOrder_branch {kind : Kind} {children : List Tree} (notPair : kind ≠ .pair)
    (inOrder : ∀ tree ∈ children, tree.InOrder) : (branch kind children).InOrder := by
  intro start following
  have found := flatMap_captures_foldr_prependNodes inOrder start following
  have begins := fst_foldr_prependNodes children start following
  simp only [prependNodes, size_branch, captures, List.flatMap_cons, found, begins,
    Node.captures, if_neg notPair, List.append_assoc]

/-- What a string is made of: quotes and pieces. -/
def InString (tree : Tree) : Prop :=
  tree = ofMark .quote ∨ ∃ part, tree = ofStringPart part

theorem inString_of_mem {parts : List StringPart} {tree : Tree}
    (member : tree ∈ [ofMark .quote] ++ parts.map ofStringPart ++ [ofMark .quote]) :
    tree.InString := by
  rcases List.mem_append.mp member with front | last
  · rcases List.mem_append.mp front with first | inner
    · exact .inl (List.mem_singleton.mp first)
    · obtain ⟨part, _, isPart⟩ := List.mem_map.mp inner
      exact .inr ⟨part, isPart.symm⟩
  · exact .inl (List.mem_singleton.mp last)

theorem inOrder_ofParts (parts : List StringPart) : (ofParts parts).InOrder := by
  apply inOrder_branch (by decide)
  intro tree member
  rcases inString_of_mem member with isQuote | ⟨part, isPart⟩
  · rw [isQuote]
    exact inOrder_leaf _ _
  · rw [isPart]
    cases part <;> exact inOrder_leaf _ _

theorem inOrder_pair {parts : List StringPart} {rest : List Tree}
    (inOrder : ∀ tree ∈ rest, tree.InOrder) :
    (branch .pair (ofParts parts :: rest)).InOrder := by
  intro start following
  have all : ∀ tree ∈ ofParts parts :: rest, tree.InOrder := by
    intro tree member
    rcases List.mem_cons.mp member with isKey | later
    · rw [isKey]
      exact inOrder_ofParts parts
    · exact inOrder tree later
  have found := flatMap_captures_foldr_prependNodes all start following
  have begins := fst_foldr_prependNodes (ofParts parts :: rest) start following
  -- The first node in the pair is its key.
  have key : ((ofParts parts :: rest).foldr prependNodes
      (start + sizeOfAll (ofParts parts :: rest), following)).2.head?.map Node.range =
        some (start, start + (ofParts parts).size) := by
    rw [foldr_prependNodes_cons]
    exact head?_prependNodes_branch .string _ start _
  simp only [prependNodes, size_branch, captures, List.flatMap_cons, found, key,
    Node.captures, if_pos, keyCaptures, List.head?_cons, Option.toList_some, List.map_cons,
    List.map_nil, List.append_assoc]

theorem Regular.inOrder {tree : Tree} (regular : tree.Regular) : tree.InOrder := by
  induction regular with
  | lexeme lexeme nonempty =>
      cases lexeme with
      | blank bytes => exact inOrder_blank bytes
      | string parts => exact inOrder_ofParts parts
      | _ => exact inOrder_leaf _ _
  | pair parts rest regular inductionHypothesis => exact inOrder_pair inductionHypothesis
  | group kind noTag notPair children regular inductionHypothesis =>
      exact inOrder_branch notPair inductionHypothesis

/-! ### Valid captures -/

/-- The captures in a tree are valid, wherever it begins, and stay inside of it. -/
def CapturesValid (tree : Tree) : Prop :=
  ∀ start, ∀ capture ∈ tree.captures start, capture.ValidFor (start + tree.size)

theorem validFor_of_mem_capturesOfAll {trees : List Tree}
    (valid : ∀ tree ∈ trees, tree.CapturesValid) (start : Nat) :
    ∀ capture ∈ capturesOfAll start trees, capture.ValidFor (start + sizeOfAll trees) := by
  induction trees generalizing start with
  | nil =>
      intro capture member
      cases member
  | cons tree rest inductionHypothesis =>
      intro capture member
      rw [sizeOfAll_cons]
      rcases List.mem_append.mp member with here | later
      · have inside := valid tree List.mem_cons_self start capture here
        exact ⟨inside.1, Nat.le_trans inside.2 (by omega)⟩
      · have inside := inductionHypothesis
          (fun other member => valid other (List.mem_cons_of_mem _ member)) _ capture later
        exact ⟨inside.1, Nat.le_trans inside.2 (by omega)⟩

theorem capturesValid_leaf (kind : Kind) {bytes : Bytes} (nonempty : bytes ≠ []) :
    (leaf kind bytes).CapturesValid := by
  intro start capture member
  rw [captures] at member
  obtain ⟨name, _, isCapture⟩ := List.mem_map.mp member
  have positive := List.length_pos_iff.mpr nonempty
  rw [← isCapture, size]
  exact ⟨by simpa using positive, Nat.le_refl _⟩

/-- A string is captured, and then the escapes in it. -/
theorem exists_captures_ofParts (parts : List StringPart) (start : Nat) :
    ∃ escapes, (ofParts parts).captures start =
        { tag := stringTag, start := start, stop := start + (ofParts parts).size } :: escapes ∧
      ∀ capture ∈ escapes, capture.ValidFor (start + (ofParts parts).size) := by
  have inside : ∀ tree ∈ [ofMark .quote] ++ parts.map ofStringPart ++ [ofMark .quote],
      tree.CapturesValid := by
    intro tree member
    rcases inString_of_mem member with isQuote | ⟨part, isPart⟩
    · rw [isQuote]
      exact capturesValid_leaf _ (List.cons_ne_nil _ _)
    · rw [isPart]
      cases part with
      | escape letter => exact capturesValid_leaf _ (List.cons_ne_nil _ _)
      | content bytes =>
          -- What stands for itself in a string is not captured.
          intro start capture captured
          rw [ofStringPart, captures] at captured
          cases captured
  refine ⟨capturesOfAll start ([ofMark .quote] ++ parts.map ofStringPart ++ [ofMark .quote]),
    ?_, ?_⟩
  · rw [ofParts, captures, if_neg (by decide), size_branch]
    rfl
  · rw [ofParts, size_branch]
    exact validFor_of_mem_capturesOfAll inside start

theorem capturesValid_ofParts (parts : List StringPart) : (ofParts parts).CapturesValid := by
  intro start capture member
  obtain ⟨escapes, captured, valid⟩ := exists_captures_ofParts parts start
  rw [captured] at member
  rcases List.mem_cons.mp member with isString | isEscape
  · rw [isString]
    exact ⟨Nat.lt_add_of_pos_right (size_ofParts_pos parts), Nat.le_refl _⟩
  · exact valid capture isEscape

theorem captures_pair (parts : List StringPart) (rest : List Tree) (start : Nat) :
    (branch .pair (ofParts parts :: rest)).captures start =
      { tag := keyTag, start := start, stop := start + (ofParts parts).size } ::
        ((ofParts parts).captures start ++
          capturesOfAll (start + (ofParts parts).size) rest) := by
  rw [captures, if_pos rfl, capturesOfAll]
  rfl

theorem captures_group {kind : Kind} (noTag : kind.tag? = none) (notPair : kind ≠ .pair)
    (children : List Tree) (start : Nat) :
    (branch kind children).captures start = capturesOfAll start children := by
  rw [captures, if_neg notPair, noTag]
  rfl

theorem Regular.capturesValid {tree : Tree} (regular : tree.Regular) : tree.CapturesValid := by
  induction regular with
  | lexeme lexeme nonempty =>
      cases lexeme with
      | blank bytes =>
          intro start capture member
          rw [ofLexeme, captures] at member
          cases member
      | string parts => exact capturesValid_ofParts parts
      | _ => exact capturesValid_leaf _ nonempty
  | pair parts rest regular inductionHypothesis =>
      intro start capture member
      rw [captures_pair] at member
      rw [size_branch, sizeOfAll_cons]
      rcases List.mem_cons.mp member with isKey | inner
      · have positive := size_ofParts_pos parts
        rw [isKey]
        constructor
        · exact Nat.lt_add_of_pos_right positive
        · exact Nat.add_le_add_left (Nat.le_add_right _ _) start
      · rcases List.mem_append.mp inner with again | later
        · have inside := capturesValid_ofParts parts start capture again
          exact ⟨inside.1, Nat.le_trans inside.2 (by omega)⟩
        · have inside := validFor_of_mem_capturesOfAll inductionHypothesis _ capture later
          exact ⟨inside.1, Nat.le_trans inside.2 (by omega)⟩
  | group kind noTag notPair children regular inductionHypothesis =>
      intro start capture member
      rw [captures_group noTag notPair] at member
      rw [size_branch]
      exact validFor_of_mem_capturesOfAll inductionHypothesis start capture member

end Tree

namespace Document

variable {document : Document}

/-- The captures of the standard query are read tree by tree; the document has none itself. -/
theorem flatMap_captures_nodes (regular : ∀ tree ∈ document.items, tree.Regular) :
    document.nodes.flatMap Node.captures = Tree.capturesOfAll 0 document.items := by
  have found := Tree.flatMap_captures_foldr_prependNodes
    (fun tree member => (regular tree member).inOrder) 0 []
  rw [Nat.zero_add, List.flatMap_nil, List.append_nil] at found
  rw [nodes, List.flatMap_cons, found]
  rfl

end Document

end CodeHighlight.Json
