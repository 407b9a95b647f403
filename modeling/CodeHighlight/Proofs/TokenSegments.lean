/-
Module: CodeHighlight.Proofs.TokenSegments
Purpose: The tokens of a JSON text as pieces of the text, read off its lexemes and off its tree.
  Among lexemes a string is a key when a colon comes after it, white space and comments aside; in
  a tree it is one when it is the first child of a pair.
Main exports:
  Segment.over, Segment.isTagged, runsOf, Lexeme.tag?, Lexeme.colonNext, Lexeme.tokenSegments,
  Kind.tag?, Tree.segments, Tree.bytes_segments, Tree.Regular, Tree.segments_ofLexeme
-/
import CodeHighlight.Proofs.DocumentText
import CodeHighlight.Segment

namespace CodeHighlight

/-! ### Pieces and runs -/

/-- A piece of the source with a tag, if it has one. -/
def Segment.over (tag : Option Tag) (bytes : Bytes) : Segment :=
  match tag with
  | some tag => .tagged tag bytes
  | none => .plain bytes

@[simp] theorem Segment.bytes_over (tag : Option Tag) (bytes : Bytes) :
    (Segment.over tag bytes).bytes = bytes := by
  cases tag <;> rfl

/-- The pieces with a tag as runs over their ranges.  The first piece begins at the position. -/
def runsOf (start : Nat) : List Segment → List Capture
  | [] => []
  | .plain bytes :: rest => runsOf (start + bytes.length) rest
  | .tagged tag bytes :: rest =>
      { tag := tag, start := start, stop := start + bytes.length } ::
        runsOf (start + bytes.length) rest

/-- The piece has a tag. -/
def Segment.isTagged : Segment → Bool
  | .tagged _ _ => true
  | .plain _ => false

theorem length_runsOf (start : Nat) (segments : List Segment) :
    (runsOf start segments).length = segments.countP Segment.isTagged := by
  induction segments generalizing start with
  | nil => rfl
  | cons segment rest inductionHypothesis =>
      cases segment with
      | plain bytes => exact inductionHypothesis (start + bytes.length)
      | tagged tag bytes =>
          rw [runsOf, List.length_cons, inductionHypothesis, List.countP_cons_of_pos rfl]

theorem runsOf_append (start : Nat) (first second : List Segment) :
    runsOf start (first ++ second) =
      runsOf start first ++ runsOf (start + (first.flatMap Segment.bytes).length) second := by
  induction first generalizing start with
  | nil => rfl
  | cons segment rest inductionHypothesis =>
      rw [List.flatMap_cons, List.length_append, ← Nat.add_assoc]
      cases segment with
      | plain bytes => exact inductionHypothesis (start + bytes.length)
      | tagged tag bytes =>
          exact congrArg (List.cons _) (inductionHypothesis (start + bytes.length))

namespace Json

/-- The tag of the strings that are keys. -/
def keyTag : Tag :=
  "string.special.key"

/-- The tag of the strings that are no keys. -/
def stringTag : Tag :=
  "string"

/-! ### Tokens among lexemes -/

namespace Lexeme

/-- The tag of a lexeme.  White space and marks have none. -/
def tag? (isKey : Bool) : Lexeme → Option Tag
  | blank _ => none
  | mark _ => none
  | comment _ => some "comment"
  | constant _ => some "constant.builtin"
  | number _ => some "number"
  | string _ => some (if isKey then keyTag else stringTag)

/-- Whether a colon comes next, white space and comments aside. -/
def colonNext : List Lexeme → Bool
  | [] => false
  | blank _ :: rest => colonNext rest
  | comment _ :: rest => colonNext rest
  | lexeme :: _ => lexeme == mark .colon

/-- The lexemes as pieces of the source.  A string with a colon after it is a key. -/
def tokenSegments : List Lexeme → List Segment
  | [] => []
  | lexeme :: rest => .over (lexeme.tag? (colonNext rest)) lexeme.bytes :: tokenSegments rest

/-- No lexeme of a text is empty. -/
theorem bytes_ne_nil_of_mem_readAfter? {newestFirst lexemes : List Lexeme} {text : Bytes}
    (found : readAfter? newestFirst text = some lexemes)
    (before : ∀ lexeme ∈ newestFirst, lexeme.bytes ≠ []) :
    ∀ lexeme ∈ lexemes, lexeme.bytes ≠ [] := by
  fun_induction readAfter? newestFirst text with
  | case1 newestFirst text isEmpty =>
      cases found
      intro lexeme member
      exact before lexeme (List.mem_reverse.mp member)
  | case2 => cases found
  | case3 newestFirst text _ lexeme rest isNext inductionHypothesis =>
      apply inductionHypothesis found
      intro other member
      rcases List.mem_cons.mp member with same | older
      · rw [same]
        exact (bytes_of_next? isNext).2
      · exact before other older

theorem bytes_tokenSegments (lexemes : List Lexeme) :
    (tokenSegments lexemes).flatMap Segment.bytes = lexemes.flatMap bytes := by
  induction lexemes with
  | nil => rfl
  | cons lexeme rest inductionHypothesis =>
      rw [tokenSegments, List.flatMap_cons, Segment.bytes_over, inductionHypothesis,
        List.flatMap_cons]

end Lexeme

/-! ### Tokens in a tree -/

/-- The tag of a node of a kind by itself. -/
def Kind.tag? : Kind → Option Tag
  | string => some stringTag
  | number => some "number"
  | constant _ => some "constant.builtin"
  | escape => some "escape"
  | comment => some "comment"
  | _ => none

/-- Makes the first piece a key. -/
def asKey : List Segment → List Segment
  | [] => []
  | first :: rest => .tagged keyTag first.bytes :: rest

theorem asKey_append {first : List Segment} (nonempty : first ≠ []) (second : List Segment) :
    asKey (first ++ second) = asKey first ++ second := by
  cases first with
  | nil => exact absurd rfl nonempty
  | cons segment rest => rfl

theorem bytes_asKey (segments : List Segment) :
    (asKey segments).flatMap Segment.bytes = segments.flatMap Segment.bytes := by
  cases segments <;> rfl

namespace Tree

/-- The tokens of a tree and what is between them.  A string is one token, whatever it is made of,
and the first child of a pair is a key. -/
def segments : Tree → List Segment
  | blank bytes => [.plain bytes]
  | leaf kind bytes => [.over kind.tag? bytes]
  | branch kind children =>
      if kind = .string then [.tagged stringTag (children.flatMap bytes)]
      else if kind = .pair then asKey (children.flatMap segments)
      else children.flatMap segments

mutual

/-- The tokens of a tree and what is between them make up its text. -/
theorem bytes_segments : (tree : Tree) → tree.segments.flatMap Segment.bytes = tree.bytes
  | blank bytes => by
      rw [segments, Tree.bytes]
      exact List.append_nil bytes
  | leaf kind bytes => by
      rw [segments, Tree.bytes, List.flatMap_singleton, Segment.bytes_over]
  | branch kind children => by
      rw [segments, Tree.bytes]
      split
      · exact List.append_nil _
      · split
        · rw [bytes_asKey, bytes_flatMap_segments children]
        · exact bytes_flatMap_segments children

theorem bytes_flatMap_segments : (trees : List Tree) →
    (trees.flatMap segments).flatMap Segment.bytes = trees.flatMap Tree.bytes
  | [] => rfl
  | tree :: rest => by
      rw [List.flatMap_cons, List.flatMap_append, bytes_segments tree,
        bytes_flatMap_segments rest, List.flatMap_cons]

end

theorem length_bytes_segments (tree : Tree) :
    (tree.segments.flatMap Segment.bytes).length = tree.size := by
  rw [bytes_segments, size_eq_length]

/-- A tree as reading builds it. -/
inductive Regular : Tree → Prop where
  | lexeme (lexeme : Lexeme) (nonempty : lexeme.bytes ≠ []) : Regular (ofLexeme lexeme)
  /-- A pair begins with a string. -/
  | pair (parts : List StringPart) (rest : List Tree) (regular : ∀ tree ∈ rest, Regular tree) :
      Regular (branch .pair (ofParts parts :: rest))
  /-- An array or an object is no token by itself. -/
  | group (kind : Kind) (noTag : kind.tag? = none) (notPair : kind ≠ .pair)
      (children : List Tree) (regular : ∀ tree ∈ children, Regular tree) :
      Regular (branch kind children)

theorem segments_ofLexeme (lexeme : Lexeme) :
    (ofLexeme lexeme).segments = [.over (lexeme.tag? false) lexeme.bytes] := by
  cases lexeme with
  | string parts =>
      have text := bytes_ofLexeme (.string parts)
      rw [ofLexeme, ofParts, Tree.bytes] at text
      rw [ofLexeme, ofParts, segments, if_pos rfl, text]
      rfl
  | _ => simp [ofLexeme, ofMark, segments, Lexeme.tag?, Kind.tag?, Segment.over, Lexeme.bytes]

theorem segments_ofParts (parts : List StringPart) :
    (ofParts parts).segments = [.tagged stringTag (Lexeme.string parts).bytes] :=
  segments_ofLexeme (.string parts)

theorem regular_ofMark (symbol : Mark) : (ofMark symbol).Regular := by
  apply Regular.lexeme (.mark symbol)
  exact List.cons_ne_nil _ _

theorem regular_ofParts (parts : List StringPart) : (ofParts parts).Regular := by
  apply Regular.lexeme (.string parts)
  exact List.cons_ne_nil _ _

theorem size_ofParts (parts : List StringPart) :
    (ofParts parts).size = (Lexeme.string parts).bytes.length := by
  rw [size_eq_length, ← bytes_ofLexeme]
  rfl

theorem size_ofParts_pos (parts : List StringPart) : 0 < (ofParts parts).size := by
  rw [size_ofParts]
  exact Nat.succ_pos _

theorem segments_pair (parts : List StringPart) (rest : List Tree) :
    (branch .pair (ofParts parts :: rest)).segments =
      .tagged keyTag (Lexeme.string parts).bytes :: rest.flatMap segments := by
  rw [segments, if_neg (by decide), if_pos rfl, List.flatMap_cons, segments_ofParts]
  rfl

theorem segments_group {kind : Kind} (noTag : kind.tag? = none) (notPair : kind ≠ .pair)
    (children : List Tree) : (branch kind children).segments = children.flatMap segments := by
  have notString : kind ≠ .string := by
    intro isString
    rw [isString] at noTag
    cases noTag
  rw [segments, if_neg notString, if_neg notPair]

end Tree

end Json

end CodeHighlight
