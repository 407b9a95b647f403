/-
Module: CodeHighlight.Proofs.DocumentedLibrary
Purpose: What is assumed of a syntax library, each assumption by itself.  On JSON it visits the nodes
  of a tree in document order, parents first, and tries the patterns of a query in order at each of
  them; a capture has the number of its name.  The names are looked up here, so what comes of a run
  is said in captures with names.  The library for JSON does all that is assumed.
Main exports:
  SyntaxLibrary.located, SyntaxLibrary.ParsesJson, SyntaxLibrary.Follows,
  SyntaxLibrary.CompilesPatterns, SyntaxLibrary.BundlesStandard, SyntaxLibrary.NeverFails,
  HighlightQuery.captureOf?_eq, Query.map_captures_find, HighlightQuery.exists_run_of_follows,
  Json.library_parsesJson, Json.library_compilesPatterns, Json.library_bundlesStandard,
  Json.library_neverFails
-/
import CodeHighlight.Highlighting
import CodeHighlight.Json.Library
import CodeHighlight.Proofs.QueryMatches
import Mathlib.Data.List.Basic

namespace CodeHighlight

namespace SyntaxLibrary

variable (library : SyntaxLibrary)

/-! ### Assumptions -/

/-- A capture with the range of its node. -/
def located (found : NodeCapture library.Node) : NodeCapture (Nat × Nat) where
  index := found.index
  node := (library.startByte found.node, library.endByte found.node)

/-- The parser can use the grammar of JSON, and a text that is valid by it has a tree. -/
structure ParsesJson : Prop where
  loads : library.loadFailure? (library.grammar .json) = none
  parses : ∀ {source : Bytes} {document : Json.Document},
    Json.Document.parse? source = some document →
      ∃ tree, library.parse? (library.grammar .json) source = some tree

/-- A compiled query does what patterns say.  Its names are numbered by their first use.  In the tree
of a valid JSON text the nodes are visited in document order, parents before their children; at each
node the patterns are tried in order; and one that selects the node has a match there, with one
capture for each of its names in order, all over one range. -/
structure Follows (compiled : library.Compiled) (patterns : Query) : Prop where
  captureNames_eq : library.captureNames compiled = patterns.names
  finds : ∀ {source : Bytes} {document : Json.Document} {tree : library.Tree},
    Json.Document.parse? source = some document →
      library.parse? (library.grammar .json) source = some tree →
        (library.findMatches compiled tree source).map (List.map library.located) =
          patterns.find document.nodes

/-- A query of the supported subset is compiled for JSON, and does what its patterns say. -/
def CompilesPatterns : Prop :=
  ∀ {text : String} {patterns : Query}, Query.read Json.Kind.all text = .ok patterns →
    ∃ compiled, library.compile (library.grammar .json) text = .ok compiled ∧
      library.Follows compiled patterns

/-- The query that comes with the grammar of JSON is compiled, and does what the six standard
patterns say. -/
def BundlesStandard : Prop :=
  ∃ compiled, library.compile (library.grammar .json) (library.highlights .json) = .ok compiled ∧
    library.Follows compiled .standard

/-- No text is given up, and what is used without being asked for can be used: the grammars, and the
queries that come with them. -/
structure NeverFails : Prop where
  loads : ∀ language, library.loadFailure? (library.grammar language) = none
  parses : ∀ language source, ∃ tree, library.parse? (library.grammar language) source = some tree
  bundles : ∀ language,
    ∃ compiled, library.compile (library.grammar language) (bundledText library language) =
      .ok compiled

end SyntaxLibrary

/-! ### Looking up names -/

/-- A capture with the name that its index means, if there is one. -/
def NodeCapture.named? (names : List Tag) (found : NodeCapture (Nat × Nat)) : Option Capture :=
  names[found.index]?.map fun tag => { tag := tag, start := found.node.1, stop := found.node.2 }

section Names

variable {library : SyntaxLibrary}

/-- Of a node only its range is used. -/
theorem HighlightQuery.captureOf?_eq (query : HighlightQuery library) :
    query.captureOf? = NodeCapture.named? query.names ∘ library.located := by
  funext found
  rw [captureOf?, Function.comp_apply, NodeCapture.named?, SyntaxLibrary.located]
  cases query.names[found.index]? <;> rfl

/-- The names of a pattern are found again by their numbers. -/
theorem filterMap_named?_idxOf {names wanted : List Tag} (known : ∀ name ∈ wanted, name ∈ names)
    (range : Nat × Nat) :
    (wanted.map fun name => (⟨names.idxOf name, range⟩ : NodeCapture (Nat × Nat))).filterMap
        (NodeCapture.named? names) =
      wanted.map fun name => { tag := name, start := range.1, stop := range.2 } := by
  rw [List.filterMap_map, ← List.filterMap_eq_map]
  apply List.filterMap_congr
  intro name member
  rw [Function.comp_apply, NodeCapture.named?, List.getElem?_idxOf (known name member)]
  rfl

/-- With names looked up, the captures that patterns find are their matches. -/
theorem Query.map_captures_find (query : Query) (nodes : List Json.Node) :
    (query.find nodes).map (List.filterMap (NodeCapture.named? query.names)) =
      query.run nodes := by
  rw [find, run, List.map_flatMap]
  apply List.flatMap_congr
  intro node _
  rw [List.map_filterMap]
  apply List.filterMap_congr
  intro pattern member
  rw [Pattern.capturesAt?, Pattern.matchAt?, Option.map_map]
  congr 1
  funext range
  apply filterMap_named?_idxOf
  intro name among
  exact mem_names member (List.mem_of_mem_take among)

/-- A query that does what patterns say runs over the tree of every valid JSON text, and finds the
matches of the patterns. -/
theorem HighlightQuery.exists_run_of_follows (parsing : library.ParsesJson)
    (query : HighlightQuery library) {patterns : Query}
    (follows : library.Follows query.compiled patterns) (language : query.language = .json)
    {source : Bytes} {document : Json.Document}
    (parsed : Json.Document.parse? source = some document) :
    ∃ tree, SyntaxTree.parse library .json source = .ok tree ∧
      query.run tree source = .ok (patterns.run document.nodes) := by
  obtain ⟨tree, isTree⟩ := parsing.parses parsed
  refine ⟨⟨.json, tree⟩, ?_, ?_⟩
  · simp only [SyntaxTree.parse, parsing.loads, isTree]
  · have names : query.names = patterns.names := follows.captureNames_eq
    rw [run, language, if_pos rfl, captureOf?_eq, names, ← Query.map_captures_find,
      ← follows.finds parsed isTree, List.map_map]
    congr 2
    funext found
    rw [Function.comp_apply, List.filterMap_map]

end Names

/-! ### The library for JSON -/

namespace Json

theorem library_parsesJson : library.ParsesJson where
  loads := rfl
  parses _ := ⟨_, rfl⟩

/-- The nodes of the library are ranges. -/
theorem map_located_library (found : List (List (NodeCapture (Nat × Nat)))) :
    found.map (List.map library.located) = found := by
  have unmoved : List.map library.located = id := funext List.map_id
  exact (congrArg (List.map · found) unmoved).trans (List.map_id found)

/-- Its compiled queries are patterns, and do what these say. -/
theorem library_follows (patterns : Query) : library.Follows patterns patterns where
  captureNames_eq := rfl
  finds := by
    intro source document tree parsed isTree
    have ofText : Parsed.ofText .json source = { nodes := document.nodes, hasError := false } := by
      rw [Parsed.ofText, parsed]
    cases isTree
    exact (map_located_library _).trans
      (congrArg (fun parsed : Parsed => patterns.find parsed.nodes) ofText)

theorem library_compilesPatterns : library.CompilesPatterns := by
  intro text patterns isRead
  refine ⟨patterns, ?_, library_follows patterns⟩
  -- The query that is told by its text is none of those that are read.
  have unread : (Query.read Kind.all highlightsText).toOption = none := by decide +kernel
  have another : text ≠ highlightsText := by
    intro same
    rw [← same, isRead] at unread
    cases unread
  exact (if_neg fun both => another both.2).trans isRead

theorem compile_library (language : Language) (text : String) :
    library.compile (library.grammar language) text = patternsOf language text := rfl

theorem compile_library_highlights :
    library.compile (library.grammar .json) (library.highlights .json) = .ok Query.standard := by
  have text : library.highlights .json = highlightsText := rfl
  rw [compile_library, text]
  exact if_pos ⟨rfl, rfl⟩

theorem library_bundlesStandard : library.BundlesStandard :=
  ⟨Query.standard, compile_library_highlights, library_follows .standard⟩

/-- For another language than JSON only a query without patterns is read. -/
theorem compile_library_of_ne {language : Language} (other : language ≠ .json) (text : String) :
    library.compile (library.grammar language) text = Query.read [] text := by
  have noKinds : vocabulary language = [] := by
    cases language with
    | json => exact absurd rfl other
    | _ => rfl
  rw [compile_library, patternsOf, noKinds]
  exact if_neg fun both => other both.1

theorem library_neverFails : library.NeverFails where
  loads _ := rfl
  parses _ _ := ⟨_, rfl⟩
  bundles language := by
    have blank : ∀ language ≠ .json, Query.read [] (bundledText library language) = .ok [] := by
      intro language other
      cases language with
      | json => exact absurd rfl other
      | _ => decide +kernel
    by_cases isJson : language = .json
    · rw [isJson]
      exact ⟨_, compile_library_highlights⟩
    · exact ⟨_, (compile_library_of_ne isJson _).trans (blank language isJson)⟩

end Json

end CodeHighlight
