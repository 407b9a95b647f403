/-
Module: CodeHighlight.Proofs.StandardQuery
Purpose: What the standard query highlights in a JSON text: exactly its tokens.  A string that is a
  key comes too late, since the pair has the key captured before, and so does an escape, which is
  in a string: these are all the captures that take no range.
Main exports:
  Tree.TokensTaken, Regular.tokensTaken, Tree.Counted, Regular.counted,
  Document.selected_captures_nodes, Walk.accounted_standard, highlight_standard
-/
import CodeHighlight.Proofs.CaptureAccounting
import CodeHighlight.Proofs.OutermostNodes
import CodeHighlight.Proofs.StandardCaptures
import CodeHighlight.Proofs.TokenReading

namespace CodeHighlight

theorem runsOf_over (tag : Option Tag) (start : Nat) (bytes : Bytes) :
    runsOf start [.over tag bytes] =
      Query.capturesNamed tag.toList start (start + bytes.length) := by
  cases tag <;> rfl

/-- A range that is free is taken, and the pass goes on at its end. -/
theorem selectFrom_cons_of_free (tag : Tag) {start length reach total : Nat} (positive : 0 < length)
    (begins : reach ≤ start) (inside : start + length ≤ total) (captures : List Capture) :
    selectFrom total reach ({ tag := tag, start := start, stop := start + length } :: captures) =
      { tag := tag, start := start, stop := start + length } ::
        selectFrom total (start + length) captures := by
  have free : Capture.ValidFor ⟨tag, start, start + length⟩ total ∧ reach ≤ start :=
    ⟨⟨Nat.lt_add_of_pos_right positive, inside⟩, begins⟩
  rw [selectFrom, if_pos free]

namespace Json

namespace Tree

/-! ### Selection -/

section Selection

variable {total : Nat}

/-- A pass that comes to a tree takes its tokens. -/
def TokensTaken (total : Nat) (tree : Tree) : Prop :=
  ∀ start reach, reach ≤ start → start + tree.size ≤ total →
    selectFrom total reach (tree.captures start) = runsOf start tree.segments

theorem selectFrom_capturesOfAll {trees : List Tree}
    (valid : ∀ tree ∈ trees, tree.CapturesValid) (taken : ∀ tree ∈ trees, tree.TokensTaken total)
    {start reach : Nat} (begins : reach ≤ start) (inside : start + sizeOfAll trees ≤ total) :
    selectFrom total reach (capturesOfAll start trees) =
      runsOf start (trees.flatMap segments) := by
  induction trees generalizing start reach with
  | nil => rfl
  | cons tree rest inductionHypothesis =>
      rw [sizeOfAll_cons] at inside
      have here := taken tree List.mem_cons_self start reach begins (by omega)
      -- Whatever was taken in this tree, the pass is not yet inside of the next one.
      have reached : reachAfter reach (selectFrom total reach (tree.captures start)) ≤
          start + tree.size := by
        apply reachAfter_selectFrom_le
        · intro capture member
          exact (valid tree List.mem_cons_self start capture member).2
        · omega
      have others := inductionHypothesis
        (fun later member => valid later (List.mem_cons_of_mem _ member))
        (fun later member => taken later (List.mem_cons_of_mem _ member))
        reached (by omega)
      rw [capturesOfAll, selectFrom_append, others, here, List.flatMap_cons, runsOf_append,
        length_bytes_segments]

theorem tokensTaken_leaf (kind : Kind) {bytes : Bytes} (nonempty : bytes ≠ []) :
    (leaf kind bytes).TokensTaken total := by
  intro start reach begins inside
  have positive := List.length_pos_iff.mpr nonempty
  rw [size] at inside
  rw [captures, segments, runsOf_over]
  cases kind.tag? with
  | none => rfl
  | some tag => exact selectFrom_cons_of_free tag positive begins inside []

/-- Of a string the escapes come too late. -/
theorem tokensTaken_ofParts (parts : List StringPart) : (ofParts parts).TokensTaken total := by
  intro start reach begins inside
  obtain ⟨escapes, captured, valid⟩ := exists_captures_ofParts parts start
  have behind : ∀ capture ∈ escapes, capture.stop ≤ start + (ofParts parts).size :=
    fun capture member => (valid capture member).2
  rw [captured, selectFrom_cons_of_free _ (size_ofParts_pos parts) begins inside,
    selectFrom_eq_nil behind, segments_ofParts, size_ofParts]
  rfl

/-- Of a pair the string that is its key, and what is in it, come too late. -/
theorem tokensTaken_pair {parts : List StringPart} {rest : List Tree}
    (valid : ∀ tree ∈ rest, tree.CapturesValid)
    (taken : ∀ tree ∈ rest, tree.TokensTaken total) :
    (branch .pair (ofParts parts :: rest)).TokensTaken total := by
  intro start reach begins inside
  rw [size_branch, sizeOfAll_cons] at inside
  have behind : ∀ capture ∈ (ofParts parts).captures start,
      capture.stop ≤ start + (ofParts parts).size :=
    fun capture member => (capturesValid_ofParts parts start capture member).2
  rw [captures_pair, segments_pair,
    selectFrom_cons_of_free _ (size_ofParts_pos parts) begins (by omega), selectFrom_append,
    selectFrom_eq_nil behind, List.nil_append, reachAfter,
    selectFrom_capturesOfAll valid taken (Nat.le_refl _) (by omega), runsOf, size_ofParts]

theorem Regular.tokensTaken {tree : Tree} (regular : tree.Regular) :
    tree.TokensTaken total := by
  induction regular with
  | lexeme lexeme nonempty =>
      cases lexeme with
      | blank bytes =>
          intro start reach _ _
          rw [ofLexeme, captures, segments]
          rfl
      | string parts => exact tokensTaken_ofParts parts
      | _ => exact tokensTaken_leaf _ nonempty
  | pair parts rest regular inductionHypothesis =>
      exact tokensTaken_pair (fun tree member => (regular tree member).capturesValid)
        inductionHypothesis
  | group kind noTag notPair children regular inductionHypothesis =>
      intro start reach begins inside
      rw [size_branch] at inside
      rw [captures_group noTag notPair, segments_group noTag notPair]
      exact selectFrom_capturesOfAll (fun tree member => (regular tree member).capturesValid)
        inductionHypothesis begins inside

end Selection

/-! ### How many captures there are -/

section Counting

/-- The view that shows the kinds of nodes. -/
abbrev kindView : Kind → Nat → Nat → List Kind :=
  fun kind _ _ => [kind]

theorem count_kindView_of_ne {kind other : Kind} (different : kind ≠ other) (start stop : Nat) :
    (kindView kind start stop).count other = 0 := by
  simp [different]

/-- A tree has a capture for every token, and one more for every pair and every escape. -/
def Counted (tree : Tree) : Prop :=
  ∀ start, (tree.captures start).length =
    tree.segments.countP Segment.isTagged +
      (tree.preorder kindView start).count .pair + (tree.preorder kindView start).count .escape

theorem length_capturesOfAll {trees : List Tree} (counted : ∀ tree ∈ trees, tree.Counted)
    (start : Nat) :
    (capturesOfAll start trees).length =
      (trees.flatMap segments).countP Segment.isTagged +
        (preorderOfAll kindView start trees).count .pair +
        (preorderOfAll kindView start trees).count .escape := by
  induction trees generalizing start with
  | nil => rfl
  | cons tree rest inductionHypothesis =>
      have here := counted tree List.mem_cons_self start
      have others := inductionHypothesis
        (fun later member => counted later (List.mem_cons_of_mem _ member)) (start + tree.size)
      rw [capturesOfAll, List.length_append, here, others, List.flatMap_cons, List.countP_append,
        preorderOfAll, List.count_append, List.count_append]
      omega

/-- Of what is in a string only the escapes are captured. -/
theorem length_captures_inString {tree : Tree} (inString : tree.InString) (start : Nat) :
    (tree.captures start).length = (tree.preorder kindView start).count .escape ∧
      (tree.preorder kindView start).count .pair = 0 := by
  rcases inString with isQuote | ⟨part, isPart⟩
  · rw [isQuote]
    exact ⟨rfl, rfl⟩
  · rw [isPart]
    cases part with
    | content bytes => exact ⟨rfl, rfl⟩
    | escape letter => exact ⟨rfl, rfl⟩

theorem length_capturesOfAll_inString {trees : List Tree}
    (inString : ∀ tree ∈ trees, tree.InString) (start : Nat) :
    (capturesOfAll start trees).length = (preorderOfAll kindView start trees).count .escape ∧
      (preorderOfAll kindView start trees).count .pair = 0 := by
  induction trees generalizing start with
  | nil => exact ⟨rfl, rfl⟩
  | cons tree rest inductionHypothesis =>
      obtain ⟨here, noPairHere⟩ :=
        length_captures_inString (inString tree List.mem_cons_self) start
      obtain ⟨others, noPair⟩ := inductionHypothesis
        (fun later member => inString later (List.mem_cons_of_mem _ member)) (start + tree.size)
      rw [capturesOfAll, preorderOfAll, List.length_append, List.count_append, List.count_append]
      constructor
      · rw [here, others]
      · rw [noPairHere, noPair]

theorem counted_ofParts (parts : List StringPart) : (ofParts parts).Counted := by
  intro start
  have inString : ∀ tree ∈ [ofMark .quote] ++ parts.map ofStringPart ++ [ofMark .quote],
      tree.InString := fun _ => inString_of_mem
  obtain ⟨counted, noPair⟩ := length_capturesOfAll_inString inString start
  rw [segments_ofParts, ofParts, captures, if_neg (by decide), preorder, List.length_append,
    List.count_append, List.count_append, counted, noPair]
  simp [Kind.tag?, Query.capturesNamed, Segment.isTagged]

theorem counted_leaf {kind : Kind} (bytes : Bytes) (notPair : kind ≠ .pair)
    (notEscape : kind ≠ .escape) : (leaf kind bytes).Counted := by
  intro start
  rw [captures, segments, preorder, count_kindView_of_ne notPair, count_kindView_of_ne notEscape]
  cases kind.tag? with
  | none => rfl
  | some tag => rfl

theorem counted_pair {parts : List StringPart} {rest : List Tree}
    (counted : ∀ tree ∈ rest, tree.Counted) : (branch .pair (ofParts parts :: rest)).Counted := by
  intro start
  have key := counted_ofParts parts start
  have others := length_capturesOfAll counted (start + (ofParts parts).size)
  -- The key is one token, and the pair and the string that is the key are captured both.
  rw [segments_ofParts, List.countP_singleton, Segment.isTagged] at key
  rw [captures_pair, segments_pair, preorder, preorderOfAll, List.length_cons, List.length_append,
    List.countP_cons_of_pos rfl, List.count_append, List.count_append, List.count_append,
    List.count_append, List.count_singleton, List.count_singleton, key, others]
  simp
  omega

theorem Regular.counted {tree : Tree} (regular : tree.Regular) : tree.Counted := by
  induction regular with
  | lexeme lexeme nonempty =>
      cases lexeme with
      | blank bytes =>
          intro start
          rw [ofLexeme, captures, segments, preorder]
          rfl
      | string parts => exact counted_ofParts parts
      | _ => exact counted_leaf _ Kind.noConfusion Kind.noConfusion
  | pair parts rest regular inductionHypothesis => exact counted_pair inductionHypothesis
  | group kind noTag notPair children regular inductionHypothesis =>
      intro start
      have notEscape : kind ≠ .escape := by
        intro isEscape
        rw [isEscape] at noTag
        cases noTag
      rw [captures_group noTag notPair, segments_group noTag notPair, preorder, List.count_append,
        List.count_append, count_kindView_of_ne notPair, count_kindView_of_ne notEscape,
        length_capturesOfAll inductionHypothesis, Nat.zero_add, Nat.zero_add]

end Counting

end Tree

namespace Document

variable {document : Document}

theorem map_kind_nodes (document : Document) :
    document.nodes.map Node.kind =
      .document :: Tree.preorderOfAll Tree.kindView 0 document.items := by
  rw [List.map_eq_flatMap]
  exact flatMap_nodes Tree.kindView document

/-- The standard query has a match for every token, every pair and every escape. -/
theorem length_captures_nodes (regular : ∀ tree ∈ document.items, tree.Regular) :
    (document.nodes.flatMap Node.captures).length =
      (runsOf 0 (document.items.flatMap Tree.segments)).length +
        (document.nodes.map Node.kind).count .pair +
        (document.nodes.map Node.kind).count .escape := by
  have counted := Tree.length_capturesOfAll (fun tree member => (regular tree member).counted) 0
  rw [flatMap_captures_nodes regular, counted, length_runsOf, map_kind_nodes,
    List.count_cons_of_ne (by decide), List.count_cons_of_ne (by decide)]

/-- All captures of the standard query are valid. -/
theorem validFor_of_mem_captures_nodes (regular : ∀ tree ∈ document.items, tree.Regular) :
    ∀ capture ∈ document.nodes.flatMap Node.captures,
      capture.ValidFor document.bytes.length := by
  have valid := Tree.validFor_of_mem_capturesOfAll
    (fun tree member => (regular tree member).capturesValid) 0
  rw [Nat.zero_add, ← length_bytes] at valid
  rw [flatMap_captures_nodes regular]
  exact valid

/-- The tokens are selected. -/
theorem selected_captures_nodes (regular : ∀ tree ∈ document.items, tree.Regular) :
    selected document.bytes.length (document.nodes.flatMap Node.captures) =
      runsOf 0 (document.items.flatMap Tree.segments) := by
  have inside : 0 + Tree.sizeOfAll document.items ≤ document.bytes.length := by
    rw [length_bytes, Nat.zero_add]
  rw [flatMap_captures_nodes regular, selected_eq_selectFrom]
  exact Tree.selectFrom_capturesOfAll (fun tree member => (regular tree member).capturesValid)
    (fun tree member => (regular tree member).tokensTaken) (Nat.le_refl 0) inside

end Document

end Json

/-! ### Highlighting -/

section Highlighting

variable {source : Bytes} {document : Json.Document}

/-- The counts of a rendering of a JSON text by the standard query. -/
theorem Walk.accounted_standard (parsed : Json.Document.parse? source = some document)
    (regular : ∀ tree ∈ document.items, tree.Regular) (theme : Theme) (lineNumbers : Bool) :
    let statistics :=
      ((start source lineNumbers).complete theme (Query.standard.run document.nodes)).1
    let kinds := document.nodes.map Json.Node.kind
    statistics.styled = (runsOf 0 (document.items.flatMap Json.Tree.segments)).length ∧
      statistics.invalid = 0 ∧
      statistics.overlapped = kinds.count .pair + kinds.count .escape ∧
      statistics.matchCount = statistics.styled + statistics.overlapped := by
  obtain ⟨matchCount, styled, invalid, all⟩ :=
    accounted_complete theme source lineNumbers (Query.standard.run document.nodes)
  have read : feedOrder (Query.standard.run document.nodes) =
      document.nodes.flatMap Json.Node.captures := by
    rw [Json.standard_run, Json.feedOrder_singletons]
  have sameCount : (Query.standard.run document.nodes).length =
      (document.nodes.flatMap Json.Node.captures).length := by
    rw [Json.standard_run, List.length_map]
  have taken := Json.Document.selected_captures_nodes regular
  have valid := Json.Document.validFor_of_mem_captures_nodes regular
  rw [Json.Document.bytes_of_parse? parsed] at taken valid
  have noneInvalid : (document.nodes.flatMap Json.Node.captures).countP
      (fun capture => ¬ capture.ValidFor source.length) = 0 := by
    rw [List.countP_eq_zero]
    intro capture member
    simpa using valid capture member
  have length := Json.Document.length_captures_nodes regular
  rw [sameCount] at matchCount
  rw [read, taken] at styled
  rw [read, noneInvalid] at invalid
  rw [read] at all
  dsimp only
  generalize (complete theme _ _).1 = statistics at *
  refine ⟨styled, invalid, ?_, ?_⟩
  · omega
  · omega

/-- With a library that does what is documented, the query that comes with the grammar of JSON
compiles and runs over the tree of every valid JSON text.  Highlighting by it tells the writer,
labels aside, of one run for each of the text's tokens in order, over the whole token, and of all
other bytes as plain text.  A key is a string that a colon follows, which is the same as the first
child of a pair.  No capture is invalid.  One capture for each pair, and one for each escape, comes
too late, and no other capture does. -/
theorem highlight_standard {library : SyntaxLibrary} (parsing : library.ParsesJson)
    (bundling : library.BundlesStandard)
    (parsed : Json.Document.parse? source = some document) (theme : Theme)
    (settings : RenderSettings) :
    ∃ lexemes, Json.Lexeme.read? source = some lexemes ∧
      let tokens := Json.Lexeme.tokenSegments lexemes
      let runs := runsOf 0 tokens
      let kinds := document.nodes.map Json.Node.kind
      tokens.flatMap Segment.bytes = source ∧
        tokens = document.items.flatMap Json.Tree.segments ∧
        ∃ query tree found, HighlightQuery.standard library .json = .ok query ∧
          SyntaxTree.parse library .json source = .ok tree ∧ query.run tree source = .ok found ∧
          let walked := (Walk.start source settings.lineNumbers).complete theme found
          highlight .json source query theme settings =
              .ok (writeEvents theme walked.2 settings.format, walked.1) ∧
            bytewise (unlabelled walked.2) = bytewise (script theme source 0 runs) ∧
            Consecutive source.length 0 runs ∧
            walked.1.styled = runs.length ∧
            walked.1.invalid = 0 ∧
            walked.1.overlapped = kinds.count .pair + kinds.count .escape ∧
            walked.1.matchCount = walked.1.styled + walked.1.overlapped := by
  obtain ⟨lexemes, isRead, sameTokens, regular⟩ := Json.Document.tokenSegments_of_parse? parsed
  refine ⟨lexemes, isRead, ?_⟩
  obtain ⟨compiled, isCompiled, follows⟩ := bundling
  let query : HighlightQuery library := ⟨.json, compiled⟩
  have isQuery : HighlightQuery.standard library .json = .ok query := by
    rw [HighlightQuery.standard, HighlightQuery.compile, bundledText, isCompiled]
    · exact Language.noConfusion
    · exact Language.noConfusion
    · exact Language.noConfusion
  obtain ⟨tree, isTree, ran⟩ :=
    HighlightQuery.exists_run_of_follows parsing query follows rfl parsed
  have taken : selected source.length (feedOrder (Query.standard.run document.nodes)) =
      runsOf 0 (Json.Lexeme.tokenSegments lexemes) := by
    have inDocument := Json.Document.selected_captures_nodes regular
    rw [Json.Document.bytes_of_parse? parsed, sameTokens] at inDocument
    rw [Json.standard_run, Json.feedOrder_singletons, inDocument]
  have counted := Walk.accounted_standard parsed regular theme settings.lineNumbers
  rw [sameTokens] at counted
  dsimp only at counted ⊢
  refine ⟨?_, sameTokens.symm, query, tree, Query.standard.run document.nodes, isQuery, isTree, ran,
    ?_, ?_, ?_, counted⟩
  · rw [Json.Lexeme.bytes_tokenSegments, Json.Lexeme.bytes_of_read? isRead]
  · exact highlight_of_run isTree ran theme settings
  · rw [Walk.bytewise_unlabelled_complete, taken]
  · rw [← taken]
    exact consecutive_selected _ _

/-- A key with an escape in it, a number and a comment: the string that is the key and the escape
come too late. -/
theorem highlight_standard_escaped_key :
    let source : Bytes := Utf8.encode "\x7b\"a\\n\":1\x7d // c"
    Json.library.ParsesJson ∧ Json.library.BundlesStandard ∧
      (∃ document, Json.Document.parse? source = some document) ∧
      ∃ query tree found, HighlightQuery.standard Json.library .json = .ok query ∧
        SyntaxTree.parse Json.library .json source = .ok tree ∧
        query.run tree source = .ok found ∧
        let walked := (Walk.start source true).complete Theme.standard found
        highlight .json source query Theme.standard ⟨.terminal, true⟩ =
            .ok (writeEvents Theme.standard walked.2 .terminal, walked.1) ∧
          bytewise (unlabelled walked.2) =
            bytewise (script Theme.standard source 0
              [⟨"string.special.key", 1, 6⟩, ⟨"number", 7, 8⟩, ⟨"comment", 10, 14⟩]) ∧
          walked.1.styled = 3 ∧ walked.1.invalid = 0 ∧ walked.1.overlapped = 2 ∧
          walked.1.matchCount = 5 := by
  intro source
  let document : Json.Document :=
    { items :=
        [.branch .object
          [.ofMark .openBrace,
            .branch .pair
              [.ofParts [.content [0x61], .escape 0x6E], .ofMark .colon, .leaf .number [0x31]],
            .ofMark .closeBrace],
        .blank [0x20], .leaf .comment [0x2F, 0x2F, 0x20, 0x63]] }
  have isRead : Json.Lexeme.read? source =
      some [.mark .openBrace, .string [.content [0x61], .escape 0x6E], .mark .colon,
        .number [0x31], .mark .closeBrace, .blank [0x20],
        .comment [0x2F, 0x2F, 0x20, 0x63]] := by decide +kernel
  have parsed : Json.Document.parse? source = some document := by
    rw [Json.Document.parse?, isRead]
    rfl
  have kinds : document.nodes.map Json.Node.kind =
      [.document, .object, .mark .openBrace, .pair, .string, .mark .quote, .content, .escape,
        .mark .quote, .mark .colon, .number, .mark .closeBrace, .comment] := by
    rw [Json.Document.map_kind_nodes]
    rfl
  obtain ⟨lexemes, tokens, _, _, query, tree, found, isQuery, isTree, ran, highlighted⟩ :=
    highlight_standard Json.library_parsesJson Json.library_bundlesStandard parsed Theme.standard
      ⟨.terminal, true⟩
  rw [isRead] at tokens
  cases tokens
  have runs : runsOf 0 (Json.Lexeme.tokenSegments
      [.mark .openBrace, .string [.content [0x61], .escape 0x6E], .mark .colon, .number [0x31],
        .mark .closeBrace, .blank [0x20], .comment [0x2F, 0x2F, 0x20, 0x63]]) =
      [⟨"string.special.key", 1, 6⟩, ⟨"number", 7, 8⟩, ⟨"comment", 10, 14⟩] := rfl
  dsimp only at highlighted ⊢
  rw [runs, kinds] at highlighted
  obtain ⟨output, told, _, styled, invalid, overlapped, matchCount⟩ := highlighted
  rw [styled, overlapped] at matchCount
  exact ⟨Json.library_parsesJson, Json.library_bundlesStandard, ⟨document, parsed⟩, query, tree,
    found, isQuery, isTree, ran, output, told, styled, invalid, overlapped, matchCount⟩

end Highlighting

end CodeHighlight
