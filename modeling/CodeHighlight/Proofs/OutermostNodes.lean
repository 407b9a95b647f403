/-
Module: CodeHighlight.Proofs.OutermostNodes
Purpose: What a query highlights in a JSON text.  Nodes come parents first, so a node that has a
  name takes its range before the nodes inside of it can: exactly the outermost nodes with a name
  are highlighted, each over its whole range and by its first name.
Main exports:
  runOver?, Tree.outermost, Tree.outermostOfAll, Document.outermost, selectFrom_named_append,
  Tree.selectFrom_preorder, Document.selected_run, highlight_of_run, highlight_outermost
-/
import CodeHighlight.Proofs.DocumentedLibrary
import CodeHighlight.Proofs.GreedyResolution
import CodeHighlight.Theme.Builtin

namespace CodeHighlight

/-- A run over a range that has a name and is not empty. -/
def runOver? (name : Option Tag) (start stop : Nat) : Option Capture :=
  if start < stop then name.map fun tag => { tag := tag, start := start, stop := stop } else none

namespace Json

/-!
### The outermost nodes

The rule as one reads it from the tree: a node that has a name is a run, and one that has none
leaves its range to its children.
-/

section Outermost

variable (nameOf? : Kind → Option Tag)

namespace Tree

mutual

/-- The runs over the outermost nodes with a name in a tree that begins at a position. -/
def outermost (start : Nat) : Tree → List Capture
  | blank _ => []
  | leaf kind bytes => (runOver? (nameOf? kind) start (start + bytes.length)).toList
  | branch kind children =>
      match runOver? (nameOf? kind) start (start + sizeOfAll children) with
      | some run => [run]
      | none => outermostOfAll start children

/-- The runs over the outermost nodes with a name in trees in a row. -/
def outermostOfAll (start : Nat) : List Tree → List Capture
  | [] => []
  | tree :: rest => outermost start tree ++ outermostOfAll (start + tree.size) rest

end

end Tree

/-- The runs over the outermost nodes with a name in a document, which is a node itself. -/
def Document.outermost (document : Document) : List Capture :=
  match runOver? (nameOf? .document) document.start document.bytes.length with
  | some run => [run]
  | none => Tree.outermostOfAll nameOf? 0 document.items

end Outermost

end Json

/-! ### Selection in nested ranges -/

section Selection

variable {size reach limit : Nat} {captures : List Capture}

/-- Nothing that ends where the pass stands, or before, is taken. -/
theorem selectFrom_eq_nil (behind : ∀ capture ∈ captures, capture.stop ≤ reach) :
    selectFrom size reach captures = [] := by
  induction captures with
  | nil => rfl
  | cons capture rest inductionHypothesis =>
      have ends : capture.stop ≤ reach := behind capture List.mem_cons_self
      have notTaken : ¬ (capture.ValidFor size ∧ reach ≤ capture.start) := by
        rintro ⟨valid, begins⟩
        exact absurd (Nat.le_trans ends begins) (Nat.not_le.mpr valid.1)
      rw [selectFrom, if_neg notTaken]
      exact inductionHypothesis fun later member => behind later (List.mem_cons_of_mem _ member)

/-- A pass does not come farther than the captures that it reads. -/
theorem reachAfter_selectFrom_le (within : ∀ capture ∈ captures, capture.stop ≤ limit)
    (inside : reach ≤ limit) :
    reachAfter reach (selectFrom size reach captures) ≤ limit := by
  induction captures generalizing reach with
  | nil => exact inside
  | cons capture rest inductionHypothesis =>
      have others : ∀ later ∈ rest, later.stop ≤ limit :=
        fun later member => within later (List.mem_cons_of_mem _ member)
      rw [selectFrom]
      split
      · exact inductionHypothesis others (within capture List.mem_cons_self)
      · exact inductionHypothesis others inside

/-- Of captures over one range the first is taken, and nothing inside of the range after it. -/
theorem selectFrom_named_append {names : List Tag} {start stop : Nat} (begins : reach ≤ start)
    (inside : stop ≤ size) (within : ∀ capture ∈ captures, capture.stop ≤ stop) :
    selectFrom size reach (Query.capturesNamed names start stop ++ captures) =
      match runOver? names.head? start stop with
      | some run => [run]
      | none => selectFrom size reach captures := by
  by_cases nonempty : start < stop
  · cases names with
    | nil =>
        rw [runOver?, if_pos nonempty]
        rfl
    | cons name others =>
        have taken : Capture.ValidFor ⟨name, start, stop⟩ size ∧ reach ≤ start :=
          ⟨⟨nonempty, inside⟩, begins⟩
        -- The pass then stands at the end of the range, and all that follows ends there or before.
        have behind : ∀ capture ∈ Query.capturesNamed others start stop ++ captures,
            capture.stop ≤ stop := by
          intro capture member
          rcases List.mem_append.mp member with same | further
          · obtain ⟨other, _, isCapture⟩ := List.mem_map.mp same
            rw [← isCapture]
          · exact within capture further
        rw [runOver?, if_pos nonempty, Query.capturesNamed_cons, List.cons_append, selectFrom,
          if_pos taken, selectFrom_eq_nil behind]
        rfl
  · -- An empty range is never valid, whatever names it has.
    rw [runOver?, if_neg nonempty]
    induction names with
    | nil => rfl
    | cons name others inductionHypothesis =>
        have notTaken : ¬ (Capture.ValidFor ⟨name, start, stop⟩ size ∧ reach ≤ start) :=
          fun both => nonempty both.1.1
        rw [Query.capturesNamed_cons, List.cons_append, selectFrom, if_neg notTaken]
        exact inductionHypothesis

end Selection

namespace Json

namespace Tree

/-! ### Selection in a tree -/

mutual

/-- Captures at the nodes of a tree end where the tree ends, or before. -/
theorem stop_le_of_mem_preorder (query : Query) (start : Nat) : (tree : Tree) →
    ∀ capture ∈ tree.preorder query.capturesOver start, capture.stop ≤ start + tree.size
  | blank bytes => by
      intro capture member
      rw [preorder] at member
      cases member
  | leaf kind bytes => by
      intro capture member
      rw [preorder] at member
      obtain ⟨name, _, isCapture⟩ := List.mem_map.mp member
      rw [← isCapture, size]
  | branch kind children => by
      intro capture member
      rw [preorder] at member
      rw [size_branch]
      rcases List.mem_append.mp member with own | inner
      · obtain ⟨name, _, isCapture⟩ := List.mem_map.mp own
        rw [← isCapture]
      · exact stop_le_of_mem_preorderOfAll query start children capture inner

theorem stop_le_of_mem_preorderOfAll (query : Query) (start : Nat) : (trees : List Tree) →
    ∀ capture ∈ preorderOfAll query.capturesOver start trees,
      capture.stop ≤ start + sizeOfAll trees
  | [] => by
      intro capture member
      cases member
  | tree :: rest => by
      intro capture member
      rw [sizeOfAll_cons]
      rw [preorderOfAll] at member
      rcases List.mem_append.mp member with first | later
      · have ends := stop_le_of_mem_preorder query start tree capture first
        omega
      · have ends :=
          stop_le_of_mem_preorderOfAll query (start + tree.size) rest capture later
        omega

end

mutual

/-- A pass that comes to a tree takes the outermost nodes with a name. -/
theorem selectFrom_preorder (query : Query) {total : Nat} (start reach : Nat) : (tree : Tree) →
    reach ≤ start → start + tree.size ≤ total →
      selectFrom total reach (tree.preorder query.capturesOver start) =
        tree.outermost query.nameOf? start
  | blank bytes, _, _ => by
      rw [preorder, outermost]
      rfl
  | leaf kind bytes, begins, inside => by
      rw [size] at inside
      have nothing : ∀ capture ∈ ([] : List Capture), capture.stop ≤ start + bytes.length := by
        intro capture member
        cases member
      rw [preorder, outermost, Query.capturesOver, ← List.append_nil (Query.capturesNamed _ _ _),
        selectFrom_named_append begins inside nothing, Query.head?_namesOf]
      cases runOver? (query.nameOf? kind) start (start + bytes.length) with
      | none => rfl
      | some run => rfl
  | branch kind children, begins, inside => by
      rw [size_branch] at inside
      rw [preorder, outermost, Query.capturesOver,
        selectFrom_named_append begins inside (stop_le_of_mem_preorderOfAll query start children),
        Query.head?_namesOf, selectFrom_preorderOfAll query start reach children begins inside]

theorem selectFrom_preorderOfAll (query : Query) {total : Nat} (start reach : Nat) :
    (trees : List Tree) → reach ≤ start → start + sizeOfAll trees ≤ total →
      selectFrom total reach (preorderOfAll query.capturesOver start trees) =
        outermostOfAll query.nameOf? start trees
  | [], _, _ => rfl
  | tree :: rest, begins, inside => by
      rw [sizeOfAll_cons] at inside
      have here : start + tree.size ≤ total := by omega
      have others : start + tree.size + sizeOfAll rest ≤ total := by omega
      -- Whatever was taken in this tree, the pass is not yet inside of the next one.
      have reached : reachAfter reach (selectFrom total reach
          (tree.preorder query.capturesOver start)) ≤ start + tree.size :=
        reachAfter_selectFrom_le (stop_le_of_mem_preorder query start tree) (by omega)
      rw [preorderOfAll, outermostOfAll, selectFrom_append,
        selectFrom_preorderOfAll query (start + tree.size) _ rest reached others,
        selectFrom_preorder query start reach tree begins here]

end

end Tree

/-! ### Selection in a document -/

/-- Of the captures of a query in a document, those over the outermost nodes with a name are
selected. -/
theorem Document.selected_run {query : Query} (captures : query.CapturesNodes)
    (document : Document) :
    selected document.bytes.length (feedOrder (query.run document.nodes)) =
      document.outermost query.nameOf? := by
  have ends : 0 + Tree.sizeOfAll document.items = document.bytes.length := by
    rw [length_bytes, Nat.zero_add]
  have within : ∀ capture ∈ Tree.preorderOfAll query.capturesOver 0 document.items,
      capture.stop ≤ document.bytes.length := by
    rw [← ends]
    exact Tree.stop_le_of_mem_preorderOfAll query 0 document.items
  rw [selected_eq_selectFrom, Query.feedOrder_run captures, flatMap_nodes, Query.capturesOver,
    selectFrom_named_append (Nat.zero_le _) (Nat.le_refl _) within, Query.head?_namesOf,
    Tree.selectFrom_preorderOfAll query 0 0 _ (Nat.le_refl 0) (Nat.le_of_eq ends),
    outermost]

end Json

/-! ### Highlighting -/

section Highlighting

variable {library : SyntaxLibrary} {source : Bytes} {document : Json.Document}

/-- Highlighting renders what the query finds in the tree of the source. -/
theorem highlight_of_run {language : Language} {query : HighlightQuery library}
    {tree : SyntaxTree library} {found : List Match}
    (parsed : SyntaxTree.parse library language source = .ok tree)
    (ran : query.run tree source = .ok found) (theme : Theme) (settings : RenderSettings) :
    let walked := (Walk.start source settings.lineNumbers).complete theme found
    highlight language source query theme settings =
      .ok (writeEvents theme walked.2 settings.format, walked.1) := by
  rw [highlight, parsed]
  simp only [bind, Except.bind, ran]
  rfl

/-- With a library that does what is documented, a query of the supported subset compiles and runs
over the tree of every valid JSON text.  Highlighting by it tells the writer, labels aside, of one
run for each outermost node with a name, over its whole range, and of all other bytes as plain text.
The runs are not empty and stand one behind the other. -/
theorem highlight_outermost (parsing : library.ParsesJson) (compiling : library.CompilesPatterns)
    {text : String} {patterns : Query} (parsed : Json.Document.parse? source = some document)
    (supported : Query.read Json.Kind.all text = .ok patterns) (theme : Theme)
    (settings : RenderSettings) :
    let runs := document.outermost patterns.nameOf?
    ∃ query tree found, HighlightQuery.compile library .json text = .ok query ∧
      SyntaxTree.parse library .json source = .ok tree ∧ query.run tree source = .ok found ∧
      let walked := (Walk.start source settings.lineNumbers).complete theme found
      highlight .json source query theme settings =
          .ok (writeEvents theme walked.2 settings.format, walked.1) ∧
        bytewise (unlabelled walked.2) = bytewise (script theme source 0 runs) ∧
        Consecutive source.length 0 runs := by
  intro runs
  obtain ⟨compiled, isCompiled, follows⟩ := compiling supported
  let query : HighlightQuery library := ⟨.json, compiled⟩
  have isQuery : HighlightQuery.compile library .json text = .ok query := by
    rw [HighlightQuery.compile, isCompiled]
  obtain ⟨tree, isTree, ran⟩ :=
    HighlightQuery.exists_run_of_follows parsing query follows rfl parsed
  have taken : selected source.length (feedOrder (patterns.run document.nodes)) = runs := by
    have inDocument := document.selected_run (Query.capturesNodes_of_read supported)
    rw [Json.Document.bytes_of_parse? parsed] at inDocument
    exact inDocument
  refine ⟨query, tree, patterns.run document.nodes, isQuery, isTree, ran, ?_, ?_, ?_⟩
  · exact highlight_of_run isTree ran theme settings
  · rw [Walk.bytewise_unlabelled_complete, taken]
  · rw [← taken]
    exact consecutive_selected _ _

/-- A pair in an object without a name: it is a run by the first of its names, and the number in it
is part of that run, while the number after the object is a run of its own. -/
theorem highlight_outermost_pair :
    let source : Bytes := Utf8.encode "\x7b\"a\":1\x7d 2"
    let text := "(object) (number) @constant (pair) @keyword @string"
    Json.library.ParsesJson ∧ Json.library.CompilesPatterns ∧
      (∃ document, Json.Document.parse? source = some document) ∧
      (∃ patterns, Query.read Json.Kind.all text = .ok patterns) ∧
      ∃ query tree found, HighlightQuery.compile Json.library .json text = .ok query ∧
        SyntaxTree.parse Json.library .json source = .ok tree ∧
        query.run tree source = .ok found ∧
        let walked := (Walk.start source true).complete Theme.standard found
        highlight .json source query Theme.standard ⟨.terminal, true⟩ =
            .ok (writeEvents Theme.standard walked.2 .terminal, walked.1) ∧
          bytewise (unlabelled walked.2) =
            bytewise (script Theme.standard source 0 [⟨"keyword", 1, 6⟩, ⟨"constant", 8, 9⟩]) := by
  intro source text
  let document : Json.Document :=
    { items :=
        [.branch .object
          [.ofMark .openBrace,
            .branch .pair [.ofParts [.content [0x61]], .ofMark .colon, .leaf .number [0x31]],
            .ofMark .closeBrace],
        .blank [0x20], .leaf .number [0x32]] }
  let patterns : Query :=
    [⟨[.object], .node, []⟩, ⟨[.number], .node, ["constant"]⟩,
      ⟨[.pair], .node, ["keyword", "string"]⟩]
  have isRead : Json.Lexeme.read? source =
      some [.mark .openBrace, .string [.content [0x61]], .mark .colon, .number [0x31],
        .mark .closeBrace, .blank [0x20], .number [0x32]] := by decide +kernel
  have parsed : Json.Document.parse? source = some document := by
    rw [Json.Document.parse?, isRead]
    rfl
  have supported : Query.read Json.Kind.all text = .ok patterns := by decide +kernel
  have runs : document.outermost patterns.nameOf? =
      [⟨"keyword", 1, 6⟩, ⟨"constant", 8, 9⟩] := by
    simp [document, patterns, Query.nameOf?, runOver?, Json.Document.outermost,
      Json.Document.start, Json.Document.bytes, Json.Tree.outermost, Json.Tree.outermostOfAll,
      Json.Tree.size, Json.Tree.sizeOfAll, Json.Tree.bytes, Json.Tree.ofMark, Json.Tree.ofParts,
      Json.Tree.ofStringPart]
  obtain ⟨query, tree, found, compiled, isTree, ran, highlighted, styled, _⟩ :=
    highlight_outermost Json.library_parsesJson Json.library_compilesPatterns parsed supported
      Theme.standard ⟨.terminal, true⟩
  rw [runs] at styled
  exact ⟨Json.library_parsesJson, Json.library_compilesPatterns, ⟨document, parsed⟩,
    ⟨patterns, supported⟩, query, tree, found, compiled, isTree, ran, highlighted, styled⟩

end Highlighting

end CodeHighlight
