/-
Module: CodeHighlight.Proofs.DocumentText
Purpose: Nothing of a JSON text is lost in its document.  Open constructs always hold the text that
  was read so far, whatever lexeme is taken, and so the document in which reading ends holds the
  whole text; and the size of a tree is the length of its text.
Main exports:
  Json.Frame.bytes, Json.textOfFrames, textOfFrames_takeLexeme?, Document.bytes_of_parse?,
  Tree.size_eq_length, Document.length_bytes
-/
import CodeHighlight.Json.Document

namespace CodeHighlight.Json

/-! ### The text of open constructs -/

/-- The text that an open construct holds. -/
def Frame.bytes (frame : Frame) : Bytes :=
  frame.newestFirst.reverse.flatMap Tree.bytes

/-- The text that was read into open constructs, from the outermost one on. -/
def textOfFrames (frames : Frames) : Bytes :=
  frames.reverse.flatMap Frame.bytes

theorem textOfFrames_cons (frame : Frame) (outer : Frames) :
    textOfFrames (frame :: outer) = textOfFrames outer ++ frame.bytes := by
  simp [textOfFrames]

theorem Frame.bytes_add (frame : Frame) (tree : Tree) (place : Place) :
    (frame.add tree place).bytes = frame.bytes ++ tree.bytes := by
  simp [Frame.bytes, Frame.add]

theorem Frame.bytes_close (frame : Frame) (kind : Kind) (last : Tree) :
    (frame.close kind last).bytes = frame.bytes ++ last.bytes := by
  simp [Frame.bytes, Frame.close, Tree.bytes]

/-! ### What a step does to the text -/

section Steps

variable {frames next : Frames}

/-- A construct that takes a value stays open or becomes part of the one around it. -/
theorem textOfFrames_takeValue? {value : Tree} (taken : takeValue? value frames = some next) :
    textOfFrames next = textOfFrames frames ++ value.bytes := by
  unfold takeValue? at taken
  split at taken
  · split at taken
    · cases taken
      simp [textOfFrames_cons, Frame.bytes_add]
    · cases taken
      simp [textOfFrames_cons, Frame.bytes_add]
    · cases taken
      simp [textOfFrames_cons, Frame.bytes_add]
    · cases taken
      simp [textOfFrames_cons, Frame.bytes_add, Frame.bytes_close]
    · cases taken
  · cases taken

theorem textOfFrames_openWith? {place : Place} {token : Tree}
    (opened : openWith? place token frames = some next) :
    textOfFrames next = textOfFrames frames ++ token.bytes := by
  unfold openWith? at opened
  split at opened
  · split at opened
    · cases opened
      simp [textOfFrames_cons, Frame.bytes]
    · cases opened
  · cases opened

/-- A closed construct is a value of the one around it. -/
theorem textOfFrames_takeValue?_close {frame : Frame} {outer : Frames} {kind : Kind} {last : Tree}
    (taken : takeValue? (frame.close kind last) outer = some next) :
    textOfFrames next = textOfFrames (frame :: outer) ++ last.bytes := by
  rw [textOfFrames_takeValue? taken, Frame.bytes_close, textOfFrames_cons, List.append_assoc]

theorem textOfFrames_takeMark? {symbol : Mark} (taken : takeMark? symbol frames = some next) :
    textOfFrames next = textOfFrames frames ++ (Tree.ofMark symbol).bytes := by
  unfold takeMark? at taken
  split at taken
  · simp only at taken
    split at taken
    · exact textOfFrames_openWith? taken
    · exact textOfFrames_openWith? taken
    · exact textOfFrames_takeValue?_close taken
    · exact textOfFrames_takeValue?_close taken
    · exact textOfFrames_takeValue?_close taken
    · exact textOfFrames_takeValue?_close taken
    · cases taken
      simp [textOfFrames_cons, Frame.bytes_add]
    · cases taken
      simp [textOfFrames_cons, Frame.bytes_add]
    · cases taken
      simp [textOfFrames_cons, Frame.bytes_add]
    · cases taken
  · cases taken

theorem textOfFrames_takeString? {tree : Tree} (taken : takeString? tree frames = some next) :
    textOfFrames next = textOfFrames frames ++ tree.bytes := by
  unfold takeString? at taken
  split at taken
  · split at taken
    · cases taken
      simp [textOfFrames_cons, Frame.bytes]
    · cases taken
      simp [textOfFrames_cons, Frame.bytes]
    · exact textOfFrames_takeValue? taken
  · cases taken

/-- Taking a lexeme adds its text. -/
theorem textOfFrames_takeLexeme? {lexeme : Lexeme}
    (taken : takeLexeme? frames lexeme = some next) :
    textOfFrames next = textOfFrames frames ++ lexeme.bytes := by
  rw [← Tree.bytes_ofLexeme]
  unfold takeLexeme? at taken
  split at taken
  · cases taken
    simp [textOfFrames_cons, Frame.bytes_add]
  · cases taken
    simp [textOfFrames_cons, Frame.bytes_add]
  · exact textOfFrames_takeMark? taken
  · exact textOfFrames_takeString? taken
  · exact textOfFrames_takeValue? taken
  · exact textOfFrames_takeValue? taken
  · cases taken

theorem textOfFrames_foldlM {lexemes : List Lexeme}
    (taken : lexemes.foldlM takeLexeme? frames = some next) :
    textOfFrames next = textOfFrames frames ++ lexemes.flatMap Lexeme.bytes := by
  induction lexemes generalizing frames with
  | nil =>
      cases taken
      simp
  | cons lexeme rest inductionHypothesis =>
      rw [List.foldlM_cons] at taken
      obtain ⟨between, first, others⟩ := Option.bind_eq_some_iff.mp taken
      rw [inductionHypothesis others, textOfFrames_takeLexeme? first, List.flatMap_cons,
        List.append_assoc]

end Steps

/-! ### Documents -/

namespace Document

theorem bytes_of_ofLexemes? {lexemes : List Lexeme} {document : Document}
    (found : ofLexemes? lexemes = some document) :
    document.bytes = lexemes.flatMap Lexeme.bytes := by
  obtain ⟨frames, taken, ended⟩ := Option.bind_eq_some_iff.mp found
  have read := textOfFrames_foldlM taken
  split at ended
  · split at ended
    · cases ended
      simpa [textOfFrames, Frame.bytes, Document.bytes] using read
    · cases ended
  · cases ended

/-- The document of a text holds the whole text. -/
theorem bytes_of_parse? {source : Bytes} {document : Document}
    (found : parse? source = some document) : document.bytes = source := by
  obtain ⟨lexemes, isRead, made⟩ := Option.bind_eq_some_iff.mp found
  rw [bytes_of_ofLexemes? made, Lexeme.bytes_of_read? isRead]

end Document

/-! ### Sizes -/

namespace Tree

theorem foldl_size (trees : List Tree) (total : Nat) :
    trees.foldl (fun total tree => total + tree.size) total = total + sizeOfAll trees := by
  induction trees generalizing total with
  | nil => rfl
  | cons tree rest inductionHypothesis =>
      rw [sizeOfAll, List.foldl_cons, List.foldl_cons, inductionHypothesis,
        inductionHypothesis (0 + tree.size)]
      omega

theorem sizeOfAll_cons (tree : Tree) (rest : List Tree) :
    sizeOfAll (tree :: rest) = tree.size + sizeOfAll rest := by
  rw [sizeOfAll, List.foldl_cons, foldl_size, Nat.zero_add]

theorem size_branch (kind : Kind) (children : List Tree) :
    (branch kind children).size = sizeOfAll children := by
  rw [size, sizeOfAll]

mutual

/-- The size of a tree is the length of its text. -/
theorem size_eq_length : (tree : Tree) → tree.size = tree.bytes.length
  | blank bytes => by rw [size, Tree.bytes]
  | leaf kind bytes => by rw [size, Tree.bytes]
  | branch kind children => by rw [size_branch, Tree.bytes, sizeOfAll_eq_length children]

theorem sizeOfAll_eq_length : (trees : List Tree) →
    sizeOfAll trees = (trees.flatMap Tree.bytes).length
  | [] => rfl
  | tree :: rest => by
      rw [sizeOfAll_cons, List.flatMap_cons, List.length_append, size_eq_length tree,
        sizeOfAll_eq_length rest]

end

end Tree

/-- The sizes of the items of a document make up the length of its text. -/
theorem Document.length_bytes (document : Document) :
    document.bytes.length = Tree.sizeOfAll document.items :=
  (Tree.sizeOfAll_eq_length document.items).symm

end CodeHighlight.Json
