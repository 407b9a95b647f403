/-
Module: CodeHighlight.Proofs.LineLabels
Purpose: Where line labels stand.  Apart from labels, numbering passes on what it reads.  Apart
  from the runs, what it writes depends on the source bytes alone and not on how they are cut
  into pieces and runs: every line is written after its label.
Main exports:
  cutAfter_cons_of_isEnd, cutAfter_cons_of_not_isEnd, flatten_lines, Segment.events,
  bytewise_unlabelled_run, textOf_run_readSegment, openAfter_run_readSegment, write_append,
  mark_write, isBracket_write, run_readSegment_unbracketed, labelledFrom, write_start_true,
  write_start_false
-/
import CodeHighlight.LineNumbering
import CodeHighlight.Proofs.EventView
import Mathlib.Data.List.SplitBy

namespace CodeHighlight

/-! ### Pieces, each up to an end -/

section Pieces

variable {Item : Type} {isEnd : Item → Bool}

theorem flatten_cutAfter (items : List Item) : (cutAfter isEnd items).flatten = items :=
  List.flatten_splitBy _ items

/-- No piece is empty. -/
theorem ne_nil_of_mem_cutAfter {items piece : List Item} (member : piece ∈ cutAfter isEnd items) :
    piece ≠ [] := by
  intro empty
  rw [empty] at member
  exact List.nil_notMem_splitBy _ items member

/-- An item that is an end is a piece of its own. -/
theorem cutAfter_cons_of_isEnd {item : Item} (ends : isEnd item = true) (rest : List Item) :
    cutAfter isEnd (item :: rest) = [item] :: cutAfter isEnd rest := by
  have between : ∀ last ∈ [item].getLast?, ∀ next ∈ rest.head?, (!isEnd last) = false := by
    intro last member next _
    rw [← Option.some.inj member]
    simp [ends]
  exact List.splitBy_append between

/-- An item that is no end belongs to the piece of the item after it. -/
theorem cutAfter_cons_of_not_isEnd {item : Item} {items first : List Item}
    {others : List (List Item)} (goesOn : isEnd item = false)
    (cut : cutAfter isEnd items = first :: others) :
    cutAfter isEnd (item :: items) = (item :: first) :: others := by
  have goesOnTest : (!isEnd item) = true := by rw [goesOn]; rfl
  obtain ⟨joined, noEmpty, within, between⟩ := List.splitBy_eq_iff.mp cut
  have nonempty : first ≠ [] := by
    intro empty
    rw [empty] at noEmpty
    exact noEmpty List.mem_cons_self
  refine List.splitBy_eq_iff.mpr ⟨?_, ?_, ?_, ?_⟩
  · rw [joined]
    rfl
  · intro member
    rcases List.mem_cons.mp member with same | later
    · cases same
    · exact noEmpty (List.mem_cons_of_mem _ later)
  · intro piece member
    rcases List.mem_cons.mp member with same | later
    · rw [same]
      refine List.isChain_cons.mpr ⟨?_, within first List.mem_cons_self⟩
      intro next _
      exact goesOnTest
    · exact within piece (List.mem_cons_of_mem _ later)
  · rw [List.isChain_cons] at between ⊢
    refine ⟨?_, between.2⟩
    intro next member
    obtain ⟨firstNonempty, nextNonempty, ends⟩ := between.1 next member
    refine ⟨List.cons_ne_nil _ _, nextNonempty, ?_⟩
    rw [List.getLast_cons firstNonempty]
    exact ends

end Pieces

/-! ### The lines of a text -/

theorem flatten_lines (text : Bytes) : (lines text).flatten = text :=
  flatten_cutAfter text

theorem lines_singleton (byte : UInt8) : lines [byte] = [[byte]] := rfl

theorem lines_newline_cons (rest : Bytes) :
    lines (newline :: rest) = [newline] :: lines rest :=
  cutAfter_cons_of_isEnd rfl rest

/-- A byte that ends no line belongs to the line of the byte after it. -/
theorem lines_cons_of_ne {byte : UInt8} {text first : Bytes} {others : List Bytes}
    (inLine : byte ≠ newline) (cut : lines text = first :: others) :
    lines (byte :: text) = (byte :: first) :: others :=
  cutAfter_cons_of_not_isEnd (beq_false_of_ne inLine) cut

/-- Bytes without a newline belong to the first line of what follows them. -/
theorem lines_append_of_notMem {front : Bytes} (nonempty : front ≠ [])
    (inLine : newline ∉ front) (rest : Bytes) :
    lines (front ++ rest) = (front ++ (lines rest).head?.getD []) :: (lines rest).tail := by
  induction front with
  | nil => exact absurd rfl nonempty
  | cons byte others inductionHypothesis =>
      have notFirst : byte ≠ newline := Ne.symm (List.ne_of_not_mem_cons inLine)
      cases others with
      | nil =>
          cases cut : lines rest with
          | nil =>
              have empty : rest = [] := by rw [← flatten_lines rest, cut]; rfl
              rw [empty]
              rfl
          | cons line more => exact lines_cons_of_ne notFirst cut
      | cons next more =>
          have follows := inductionHypothesis (List.cons_ne_nil _ _)
            fun member => inLine (List.mem_cons_of_mem _ member)
          exact lines_cons_of_ne notFirst follows

/-- Every line but the last ends with a newline. -/
theorem isChain_lines (text : Bytes) :
    (lines text).IsChain fun line _ => endsLine line = true := by
  refine (List.isChain_getLast_head_splitBy (fun item _ => !(item == newline)) text).imp ?_
  intro line next between
  obtain ⟨nonempty, _, ends⟩ := between
  have last : line.getLast nonempty = newline := by simpa using ends
  rw [endsLine, List.getLast?_eq_some_getLast nonempty, last]
  rfl

/-- A line cannot be cut further. -/
theorem lines_of_mem_lines {text line : Bytes} (member : line ∈ lines text) :
    lines line = [line] :=
  List.splitBy_of_isChain (ne_nil_of_mem_cutAfter member) (List.isChain_of_mem_splitBy member)

/-- Behind a text that ends with a newline there begins a line. -/
theorem lines_append_of_endsLine {front : Bytes} (ends : endsLine front = true) (rest : Bytes) :
    lines (front ++ rest) = lines front ++ lines rest := by
  apply List.splitBy_append
  intro last isLast _ _
  have isNewline : last = newline := by
    rw [endsLine, isLast] at ends
    simpa using ends
  simp [isNewline]

theorem endsLine_cons (byte : UInt8) {line : Bytes} (nonempty : line ≠ []) :
    endsLine (byte :: line) = endsLine line := by
  rw [endsLine, endsLine, List.getLast?_cons_of_ne_nil nonempty]

namespace LineNumbering

/-! ### Apart from labels -/

theorem unlabelled_mark (numbering : LineNumbering) : unlabelled numbering.mark.2 = [] := by
  unfold mark
  split <;> rfl

theorem bytewise_text_flatten (pieces : List Bytes) :
    bytewise [.text pieces.flatten] = pieces.flatMap fun piece => bytewise [.text piece] := by
  induction pieces with
  | nil => rfl
  | cons piece rest inductionHypothesis =>
      rw [List.flatten_cons, bytewise_text_append, inductionHypothesis, List.flatMap_cons]

theorem bytewise_unlabelled_write (numbering : LineNumbering) (bytes : Bytes) :
    bytewise (unlabelled (numbering.write bytes).2) = bytewise [.text bytes] := by
  unfold write
  split
  · have pieceByPiece := Transducer.view_run writePiece
      (fun events => bytewise (unlabelled events)) (fun piece => bytewise [.text piece]) rfl
      (by intro first second; simp)
      (by
        intro state piece
        simp only [writePiece, unlabelled_append, unlabelled_mark]
        rfl)
      numbering (lines bytes)
    rw [pieceByPiece, ← bytewise_text_flatten, flatten_lines]
  · rfl

theorem textOf_write (numbering : LineNumbering) (bytes : Bytes) :
    textOf (numbering.write bytes).2 = bytes := by
  rw [← textOf_unlabelled, ← textOf_bytewise, bytewise_unlabelled_write, textOf_bytewise]
  exact List.append_nil bytes

end LineNumbering

/-- What a writer is told of a segment, labels aside. -/
def Segment.events (theme : Theme) : Segment → List Event
  | plain bytes => [.text bytes]
  | tagged tag bytes => [.openRun (theme.tagStyle tag), .text bytes, .closeRun]

namespace LineNumbering

theorem bytewise_unlabelled_readSegment (theme : Theme) (numbering : LineNumbering)
    (segment : Segment) :
    bytewise (unlabelled (readSegment theme numbering segment).2) =
      bytewise (segment.events theme) := by
  cases segment with
  | plain bytes => exact bytewise_unlabelled_write numbering bytes
  | tagged tag bytes =>
      simp only [readSegment, unlabelled_append, unlabelled_mark, bytewise_append,
        bytewise_unlabelled_write]
      simp [bytewise, unlabelled, Event.isLabel, Segment.events]

theorem bytewise_unlabelled_run (theme : Theme) (numbering : LineNumbering)
    (segments : List Segment) :
    bytewise (unlabelled ((readSegment theme).run numbering segments).2) =
      segments.flatMap fun segment => bytewise (segment.events theme) :=
  Transducer.view_run (readSegment theme) (fun events => bytewise (unlabelled events)) _ rfl
    (by intro first second; simp) (bytewise_unlabelled_readSegment theme) numbering segments

theorem textOf_run_readSegment (theme : Theme) (numbering : LineNumbering)
    (segments : List Segment) :
    textOf ((readSegment theme).run numbering segments).2 = segments.flatMap Segment.bytes := by
  have text : ∀ segment : Segment,
      textOf (bytewise (segment.events theme)) = segment.bytes := by
    intro segment
    rw [textOf_bytewise]
    cases segment with
    | plain bytes => exact List.append_nil bytes
    | tagged tag bytes => exact List.append_nil bytes
  rw [← textOf_unlabelled, ← textOf_bytewise, bytewise_unlabelled_run]
  induction segments with
  | nil => rfl
  | cons segment rest inductionHypothesis =>
      rw [List.flatMap_cons, textOf_append, text, inductionHypothesis, List.flatMap_cons]

/-- Runs open and close in turn along segments, and none is left open. -/
theorem openAfter_run_readSegment (theme : Theme) (numbering : LineNumbering)
    (segments : List Segment) :
    openAfter ((readSegment theme).run numbering segments).2 = some false := by
  rw [← openAfter_unlabelled, ← openAfter_bytewise, bytewise_unlabelled_run]
  induction segments with
  | nil => rfl
  | cons segment rest inductionHypothesis =>
      have closed : (bytewise (segment.events theme)).foldlM Event.bracket false = some false := by
        rw [foldlM_bracket_bytewise]
        cases segment with
        | plain bytes => rfl
        | tagged tag bytes => rfl
      rw [openAfter, List.flatMap_cons, List.foldlM_append, closed]
      exact inductionHypothesis

/-!
### However the bytes are cut

Written in two pieces, bytes have the same effect as in one, up to how the text is cut.  The
induction is on the first piece: the byte in front either ends a line, and so does the piece
that it is, or belongs to the line of what follows, whose label is then already written.
-/

theorem enabled_mark (numbering : LineNumbering) :
    numbering.mark.1.enabled = numbering.enabled := by
  unfold mark
  split <;> rfl

theorem mark_mark (numbering : LineNumbering) :
    numbering.mark.1.mark = (numbering.mark.1, []) := by
  by_cases due : (numbering.enabled && numbering.pending) = true
  · simp [mark, due]
  · simp [mark, due]

theorem enabled_writePiece (numbering : LineNumbering) (piece : Bytes) :
    (writePiece numbering piece).1.enabled = numbering.enabled := by
  rw [← enabled_mark numbering]
  simp only [writePiece]
  split <;> rfl

theorem write_of_disabled {numbering : LineNumbering} (disabled : numbering.enabled = false)
    (bytes : Bytes) : numbering.write bytes = (numbering, [.text bytes]) := by
  simp [write, disabled]

theorem write_of_enabled {numbering : LineNumbering} (enabled : numbering.enabled = true)
    (bytes : Bytes) : numbering.write bytes = writePiece.run numbering (lines bytes) := by
  simp [write, enabled]

/-- A byte in the middle of a line leaves the label written and the line unchanged. -/
theorem writePiece_of_ne {numbering : LineNumbering} {byte : UInt8} (inLine : byte ≠ newline) :
    writePiece numbering [byte] = (numbering.mark.1, numbering.mark.2 ++ [.text [byte]]) := by
  have goesOn : endsLine [byte] = false := by simpa [endsLine] using inLine
  simp [writePiece, goesOn]

theorem fst_mark {numbering : LineNumbering} (enabled : numbering.enabled = true) :
    numbering.mark.1 = { numbering with pending := false } := by
  obtain ⟨_, width, line, pending⟩ := numbering
  cases enabled
  cases pending <;> rfl

/-- After a byte, the numbering is at the start of the next line or still in this one. -/
theorem fst_write_singleton {numbering : LineNumbering} (enabled : numbering.enabled = true)
    (byte : UInt8) :
    (numbering.write [byte]).1 =
      if byte = newline then { numbering with line := numbering.line + 1, pending := true }
      else { numbering with pending := false } := by
  rw [write_of_enabled enabled, lines_singleton, Transducer.run_singleton]
  by_cases ends : byte = newline
  · simp [writePiece, fst_mark enabled, nextLine, ends, endsLine]
  · rw [writePiece_of_ne ends, fst_mark enabled, if_neg ends]

theorem write_cons (numbering : LineNumbering) (byte : UInt8) (text : Bytes) :
    (numbering.write (byte :: text)).1 = ((numbering.write [byte]).1.write text).1 ∧
      bytewise (numbering.write (byte :: text)).2 =
        bytewise (numbering.write [byte]).2 ++
          bytewise ((numbering.write [byte]).1.write text).2 := by
  cases enabled : numbering.enabled with
  | false =>
      rw [write_of_disabled enabled, write_of_disabled enabled, write_of_disabled enabled]
      exact ⟨rfl, rfl⟩
  | true =>
      have first : numbering.write [byte] = writePiece numbering [byte] := by
        rw [write_of_enabled enabled, lines_singleton, Transducer.run_singleton]
      have stillEnabled : (writePiece numbering [byte]).1.enabled = true := by
        rw [enabled_writePiece, enabled]
      rw [first, write_of_enabled stillEnabled, write_of_enabled enabled]
      by_cases ends : byte = newline
      · rw [ends, lines_newline_cons, Transducer.run_cons]
        exact ⟨rfl, bytewise_append _ _⟩
      · cases cut : lines text with
        | nil =>
            have empty : text = [] := by rw [← flatten_lines text, cut]; rfl
            rw [empty, lines_singleton, Transducer.run_singleton]
            exact ⟨rfl, (List.append_nil _).symm⟩
        | cons line others =>
            have nonempty : line ≠ [] :=
              ne_nil_of_mem_cutAfter (cut.symm ▸ List.mem_cons_self : line ∈ lines text)
            rw [lines_cons_of_ne ends cut, Transducer.run_cons, Transducer.run_cons,
              writePiece_of_ne ends]
            have joined : bytewise [.text (byte :: line)] =
                bytewise [.text [byte]] ++ bytewise [.text line] := rfl
            constructor
            · simp only [writePiece, mark_mark, endsLine_cons byte nonempty]
            · simp only [writePiece, mark_mark, endsLine_cons byte nonempty, bytewise_append,
                joined, List.append_assoc, List.nil_append]

theorem write_nil (numbering : LineNumbering) :
    (numbering.write []).1 = numbering ∧ bytewise (numbering.write []).2 = [] := by
  cases enabled : numbering.enabled with
  | false =>
      rw [write_of_disabled enabled]
      exact ⟨rfl, rfl⟩
  | true =>
      rw [write_of_enabled enabled]
      exact ⟨rfl, rfl⟩

/-- Bytes in two pieces are written as in one, up to how the text is cut. -/
theorem write_append (numbering : LineNumbering) (first second : Bytes) :
    (numbering.write (first ++ second)).1 = ((numbering.write first).1.write second).1 ∧
      bytewise (numbering.write (first ++ second)).2 =
        bytewise (numbering.write first).2 ++
          bytewise ((numbering.write first).1.write second).2 := by
  induction first generalizing numbering with
  | nil =>
      obtain ⟨state, events⟩ := write_nil numbering
      rw [state, events]
      exact ⟨rfl, rfl⟩
  | cons byte rest inductionHypothesis =>
      have whole := write_cons numbering byte (rest ++ second)
      have front := write_cons numbering byte rest
      have back := inductionHypothesis (numbering.write [byte]).1
      rw [List.cons_append, whole.1, whole.2, front.1, front.2, back.1, back.2,
        List.append_assoc]
      exact ⟨rfl, rfl⟩

/-!
### However the runs are cut

A run marks its line before it opens.  Since no segment is empty, the bytes of the run would
have made the same mark.
-/

/-- Marking first makes no difference to bytes that make the mark themselves. -/
theorem mark_write (numbering : LineNumbering) {bytes : Bytes} (nonempty : bytes ≠ []) :
    numbering.write bytes =
      ((numbering.mark.1.write bytes).1, numbering.mark.2 ++ (numbering.mark.1.write bytes).2) := by
  cases enabled : numbering.enabled with
  | false =>
      have unmarked : numbering.mark = (numbering, []) := by simp [mark, enabled]
      rw [unmarked]
      rfl
  | true =>
      have stillEnabled : numbering.mark.1.enabled = true := by rw [enabled_mark, enabled]
      rw [write_of_enabled enabled, write_of_enabled stillEnabled]
      cases cut : lines bytes with
      | nil =>
          rw [← flatten_lines bytes, cut] at nonempty
          exact absurd rfl nonempty
      | cons line others =>
          rw [Transducer.run_cons, Transducer.run_cons]
          simp only [writePiece, mark_mark, List.append_assoc, List.nil_append]

theorem isBracket_mark (numbering : LineNumbering) :
    ∀ event ∈ numbering.mark.2, event.isBracket = false := by
  intro event member
  unfold mark at member
  split at member
  · rw [List.mem_singleton.mp member]
    rfl
  · cases member

theorem isBracket_writePiece (numbering : LineNumbering) (piece : Bytes) :
    ∀ event ∈ (writePiece numbering piece).2, event.isBracket = false := by
  intro event member
  rcases List.mem_append.mp member with label | text
  · exact isBracket_mark numbering event label
  · rw [List.mem_singleton.mp text]
    rfl

/-- Writing bytes neither opens nor closes a run. -/
theorem isBracket_write (numbering : LineNumbering) (bytes : Bytes) :
    ∀ event ∈ (numbering.write bytes).2, event.isBracket = false := by
  cases enabled : numbering.enabled with
  | false =>
      rw [write_of_disabled enabled]
      intro event member
      rw [List.mem_singleton.mp member]
      rfl
  | true =>
      rw [write_of_enabled enabled]
      apply Transducer.forall_mem_run writePiece (fun event => event.isBracket = false)
      intro piece _ state
      exact isBracket_writePiece state piece

theorem unbracketed_eq_self {events : List Event}
    (inline : ∀ event ∈ events, event.isBracket = false) : unbracketed events = events := by
  apply List.filter_eq_self.mpr
  intro event member
  rw [inline event member]
  rfl

theorem readSegment_unbracketed (theme : Theme) (numbering : LineNumbering) {segment : Segment}
    (nonempty : segment.bytes ≠ []) :
    (readSegment theme numbering segment).1 = (numbering.write segment.bytes).1 ∧
      unbracketed (readSegment theme numbering segment).2 =
        (numbering.write segment.bytes).2 := by
  cases segment with
  | plain bytes => exact ⟨rfl, unbracketed_eq_self (isBracket_write numbering bytes)⟩
  | tagged tag bytes =>
      rw [Segment.bytes] at nonempty ⊢
      rw [mark_write numbering nonempty]
      refine ⟨rfl, ?_⟩
      have marked := unbracketed_eq_self (isBracket_mark numbering)
      have written := unbracketed_eq_self (isBracket_write numbering.mark.1 bytes)
      simp only [readSegment, unbracketed_append, marked, written]
      simp [unbracketed, Event.isBracket]

/-- Segments are labelled as if their bytes were written at once. -/
theorem run_readSegment_unbracketed (theme : Theme) (numbering : LineNumbering)
    (segments : List Segment) (nonempty : ∀ segment ∈ segments, segment.bytes ≠ []) :
    ((readSegment theme).run numbering segments).1 =
        (numbering.write (segments.flatMap Segment.bytes)).1 ∧
      bytewise (unbracketed ((readSegment theme).run numbering segments).2) =
        bytewise (numbering.write (segments.flatMap Segment.bytes)).2 := by
  induction segments generalizing numbering with
  | nil =>
      obtain ⟨state, events⟩ := write_nil numbering
      rw [List.flatMap_nil, state, events]
      exact ⟨rfl, rfl⟩
  | cons segment rest inductionHypothesis =>
      have one := readSegment_unbracketed theme numbering (nonempty segment List.mem_cons_self)
      have others := inductionHypothesis (readSegment theme numbering segment).1
        fun later member => nonempty later (List.mem_cons_of_mem _ member)
      have joined := write_append numbering segment.bytes (rest.flatMap Segment.bytes)
      rw [one.1] at others
      rw [Transducer.run_cons, List.flatMap_cons, joined.1, joined.2, unbracketed_append,
        bytewise_append, one.1, one.2, others.1, others.2]
      exact ⟨rfl, rfl⟩

/-! ### A whole text -/

/-- Lines as text, each after the label with its number. -/
def labelledFrom (width number : Nat) (pieces : List Bytes) : List Event :=
  (pieces.zipIdx number).flatMap fun (line, number) => [.label number width, .text line]

theorem labelledFrom_cons (width number : Nat) (line : Bytes) (rest : List Bytes) :
    labelledFrom width number (line :: rest) =
      .label number width :: .text line :: labelledFrom width (number + 1) rest := rfl

/-- At the start of a line, the lines of a text are written each after its label. -/
theorem run_writePiece_eq_labelledFrom {numbering : LineNumbering}
    (enabled : numbering.enabled = true) (pending : numbering.pending = true)
    {pieces : List Bytes} (ended : pieces.IsChain fun line _ => endsLine line = true) :
    (writePiece.run numbering pieces).2 =
      labelledFrom numbering.width numbering.line pieces := by
  induction pieces generalizing numbering with
  | nil => rfl
  | cons line rest inductionHypothesis =>
      have labelled : (writePiece numbering line).2 =
          [.label numbering.line numbering.width, .text line] := by
        simp [writePiece, mark, enabled, pending]
      rw [Transducer.run_cons, labelled, labelledFrom_cons]
      cases rest with
      | nil => rfl
      | cons next others =>
          rw [List.isChain_cons_cons] at ended
          have after : (writePiece numbering line).1 = numbering.mark.1.nextLine := by
            simp [writePiece, ended.1]
          have nextEnabled : numbering.mark.1.nextLine.enabled = true := by
            simp [nextLine, mark, enabled, pending]
          have follows := inductionHypothesis nextEnabled rfl ended.2
          rw [after, follows]
          simp [nextLine, mark, enabled, pending]

theorem write_start_true (source text : Bytes) :
    ((start source true).write text).2 = labelledFrom (labelWidth source) 1 (lines text) := by
  rw [write_of_enabled rfl]
  exact run_writePiece_eq_labelledFrom rfl rfl (isChain_lines text)

theorem write_start_false (source : Bytes) :
    ((start source false).write source).2 = [.text source] := by
  rw [write_of_disabled rfl]

end LineNumbering

end CodeHighlight
