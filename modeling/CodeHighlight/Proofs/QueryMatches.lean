/-
Module: CodeHighlight.Proofs.QueryMatches
Purpose: What a query that was read finds once the names of its captures are looked up.  Its patterns
  capture the nodes that they select, so all captures at a node have the range of the node, and they
  are read in the order of the patterns and of their names.
Main exports:
  Query.CapturesNodes, Query.capturesNodes_of_read, Pattern.matchAt?, Query.run,
  Query.mem_names, Query.namesOf, Query.nameOf?, Query.capturesOver, Query.head?_namesOf,
  Query.feedOrder_run
-/
import CodeHighlight.Proofs.NodeOrder
import CodeHighlight.Proofs.Selection
import CodeHighlight.Query

namespace CodeHighlight

namespace Query

/-! ### Patterns that are read -/

/-- Every pattern captures the nodes that it selects. -/
def CapturesNodes (query : Query) : Prop :=
  ∀ pattern ∈ query, pattern.focus = .node

section Reading

variable {vocabulary : Vocabulary} {draft next : Draft}

theorem Draft.capturesNodes_complete (captures : CapturesNodes draft.newestFirst)
    (selector : Selector) : CapturesNodes (draft.complete selector).newestFirst := by
  unfold complete
  split
  · exact captures
  · exact captures
  · intro pattern member
    rcases List.mem_cons.mp member with new | old
    · rw [new]
    · exact captures pattern old

theorem Draft.capturesNodes_foldl_complete {names : List Char}
    (captures : CapturesNodes draft.newestFirst) (selector : Selector) :
    CapturesNodes (names.foldl (fun taken _ => taken.complete selector) draft).newestFirst := by
  induction names generalizing draft with
  | nil => exact captures
  | cons _ rest inductionHypothesis =>
      exact inductionHypothesis (capturesNodes_complete captures selector)

theorem Draft.capturesNodes_addName {name : List Char} (captures : CapturesNodes draft.newestFirst)
    (named : draft.addName name = some next) : CapturesNodes next.newestFirst := by
  unfold addName at named
  split at named
  · rename_i newest older _ isNewest
    cases named
    rw [isNewest] at captures
    intro pattern member
    rcases List.mem_cons.mp member with new | old
    · rw [new]
      exact captures newest List.mem_cons_self
    · exact captures pattern (List.mem_cons_of_mem _ old)
  · cases named

theorem Draft.capturesNodes_takeBare {offset : Nat} {name : List Char}
    (captures : CapturesNodes draft.newestFirst)
    (taken : draft.takeBare vocabulary offset name = .ok next) :
    CapturesNodes next.newestFirst := by
  simp only [takeBare] at taken
  split at taken
  · cases taken
    exact capturesNodes_foldl_complete captures _
  · split at taken
    · cases taken
    · cases taken

/-- A token begins a pattern that captures its nodes, or leaves what patterns capture. -/
theorem Draft.capturesNodes_take {token : Token} (captures : CapturesNodes draft.newestFirst)
    (taken : draft.take vocabulary token = .ok next) : CapturesNodes next.newestFirst := by
  simp only [take] at taken
  split at taken
  · split at taken
    · cases taken
      exact captures
    · cases taken
  · split at taken
    · cases taken
      exact captures
    · cases taken
  · split at taken
    · split at taken
      · cases taken
        exact capturesNodes_complete captures _
      · cases taken
    · cases taken
  · split at taken
    · cases taken
      exact capturesNodes_complete captures _
    · cases taken
  · exact capturesNodes_takeBare captures taken
  · cases taken
    apply capturesNodes_complete
    exact captures
  · cases taken
    apply capturesNodes_complete
    exact captures
  · split at taken
    · rename_i named isNamed
      split at taken
      · cases taken
      · cases taken
        exact capturesNodes_addName captures isNamed
    · cases taken
  · cases taken

theorem Draft.capturesNodes_foldlM {tokens : List Token}
    (captures : CapturesNodes draft.newestFirst)
    (taken : tokens.foldlM (take vocabulary) draft = .ok next) :
    CapturesNodes next.newestFirst := by
  induction tokens generalizing draft with
  | nil =>
      cases taken
      exact captures
  | cons token rest inductionHypothesis =>
      rw [List.foldlM_cons] at taken
      cases first : take vocabulary draft token with
      | error fault =>
          rw [first] at taken
          cases taken
      | ok between =>
          rw [first] at taken
          exact inductionHypothesis (capturesNodes_take captures first) taken

theorem capturesNodes_of_readTokens {text : List Char} {query : Query}
    (found : readTokens vocabulary text = .ok query) : query.CapturesNodes := by
  have empty : CapturesNodes [] := by
    intro pattern member
    cases member
  unfold readTokens at found
  cases taken : (tokens text).foldlM (Draft.take vocabulary) ⟨[], []⟩ with
  | error fault =>
      rw [taken] at found
      cases found
  | ok draft =>
      rw [taken] at found
      simp only [bind, Except.bind] at found
      split at found
      · cases found
        intro pattern member
        exact Draft.capturesNodes_foldlM empty taken pattern (List.mem_reverse.mp member)
      · cases found

/-- The patterns of a query that is read capture the nodes that they select. -/
theorem capturesNodes_of_read {text : String} {query : Query}
    (found : Query.read vocabulary text = .ok query) : query.CapturesNodes := by
  unfold Query.read at found
  cases isRead : readTokens vocabulary text.toList with
  | error fault =>
      rw [isRead] at found
      cases found
  | ok patterns =>
      rw [isRead] at found
      cases found
      exact capturesNodes_of_readTokens isRead

end Reading

end Query

/-! ### What patterns find -/

/-- The match of the pattern at a node, if it selects the node: its names, in order and up to the
limit, for one range. -/
def Pattern.matchAt? (pattern : Pattern) (node : Json.Node) : Option Match :=
  (pattern.rangeAt? node).map fun (start, stop) =>
    (pattern.names.take captureLimit).map fun name => { tag := name, start := start, stop := stop }

/-- The matches at nodes, with the names of their captures. -/
def Query.run (query : Query) (nodes : List Json.Node) : List Match :=
  nodes.flatMap fun node => query.filterMap fun pattern => pattern.matchAt? node

/-- Every name of a pattern is one of the query. -/
theorem Query.mem_names {query : Query} {pattern : Pattern} (member : pattern ∈ query) {name : Tag}
    (isName : name ∈ pattern.names) : name ∈ query.names := by
  rw [names, List.mem_eraseDups]
  exact List.mem_flatMap.mpr ⟨pattern, member, isName⟩

/-- The names that a match of the pattern gives to a node of a kind. -/
def Pattern.namesFor (pattern : Pattern) (kind : Json.Kind) : List Tag :=
  if pattern.kinds.contains kind then pattern.names.take Pattern.captureLimit else []

namespace Query

/-- The names that patterns give to a node of a kind, pattern by pattern. -/
def namesOf (query : Query) (kind : Json.Kind) : List Tag :=
  query.flatMap fun pattern => pattern.namesFor kind

/-- The first name of the first pattern that selects nodes of a kind and has a name. -/
def nameOf? (query : Query) (kind : Json.Kind) : Option Tag :=
  query.findSome? fun pattern =>
    if pattern.kinds.contains kind then pattern.names.head? else none

theorem head?_namesOf (query : Query) (kind : Json.Kind) :
    (query.namesOf kind).head? = query.nameOf? kind := by
  have atPattern : ∀ pattern : Pattern, (pattern.namesFor kind).head? =
      if pattern.kinds.contains kind then pattern.names.head? else none := by
    intro pattern
    unfold Pattern.namesFor
    split
    · rw [List.head?_take, if_neg (by decide)]
    · rfl
  rw [namesOf, List.head?_flatMap, funext atPattern, nameOf?]

/-- Captures over one range, with these names. -/
def capturesNamed (names : List Tag) (start stop : Nat) : List Capture :=
  names.map fun name => { tag := name, start := start, stop := stop }

theorem capturesNamed_cons (name : Tag) (others : List Tag) (start stop : Nat) :
    capturesNamed (name :: others) start stop =
      { tag := name, start := start, stop := stop } :: capturesNamed others start stop := rfl

/-- The captures at a node of a kind and a range. -/
def capturesOver (query : Query) (kind : Json.Kind) (start stop : Nat) : List Capture :=
  capturesNamed (query.namesOf kind) start stop

theorem capturesOver_cons (pattern : Pattern) (rest : Query) (kind : Json.Kind)
    (start stop : Nat) :
    capturesOver (pattern :: rest) kind start stop =
      capturesNamed (pattern.namesFor kind) start stop ++ capturesOver rest kind start stop :=
  List.map_append

/-- Captures over one range are in order. -/
theorem inOrder_capturesNamed (names : List Tag) (start stop : Nat) :
    Match.inOrder (capturesNamed names start stop) = capturesNamed names start stop := by
  apply List.mergeSort_of_pairwise
  apply List.Pairwise.map
  · intro first second _
    exact decide_eq_true (Nat.le_refl start)
  · exact List.pairwise_of_forall fun _ _ => trivial

theorem feedOrder_matchesAt {query : Query} (captures : query.CapturesNodes) (node : Json.Node) :
    feedOrder (query.filterMap fun pattern => pattern.matchAt? node) =
      node.seen query.capturesOver := by
  induction query with
  | nil => rfl
  | cons pattern rest inductionHypothesis =>
      have others := inductionHypothesis fun later member =>
        captures later (List.mem_cons_of_mem _ member)
      have focus : pattern.focus = .node := captures pattern List.mem_cons_self
      -- A pattern that does not select the node has no match there, and no names for it.
      have cut : node.seen (capturesOver (pattern :: rest)) =
          capturesNamed (pattern.namesFor node.kind) node.start node.stop ++
            node.seen (capturesOver rest) := capturesOver_cons pattern rest _ _ _
      rw [cut, ← others]
      by_cases selects : pattern.kinds.contains node.kind = true
      · have here : pattern.matchAt? node =
            some (capturesNamed (pattern.namesFor node.kind) node.start node.stop) := by
          rw [Pattern.matchAt?, Pattern.rangeAt?, Pattern.namesFor, if_pos selects,
            if_pos selects, focus]
          rfl
        simp only [List.filterMap_cons, here]
        rw [feedOrder, List.flatMap_cons, inOrder_capturesNamed, ← feedOrder]
      · have nothing : pattern.matchAt? node = none := by
          rw [Pattern.matchAt?, Pattern.rangeAt?, if_neg selects]
          rfl
        simp only [List.filterMap_cons, nothing]
        rw [Pattern.namesFor, if_neg selects]
        rfl

/-- The captures of a query are read node by node. -/
theorem feedOrder_run {query : Query} (captures : query.CapturesNodes) (nodes : List Json.Node) :
    feedOrder (query.run nodes) = nodes.flatMap (Json.Node.seen query.capturesOver) := by
  induction nodes with
  | nil => rfl
  | cons node rest inductionHypothesis =>
      rw [run, List.flatMap_cons, feedOrder_append, ← run, inductionHypothesis,
        feedOrder_matchesAt captures, List.flatMap_cons]

end Query

end CodeHighlight
