/-
Module: CodeHighlight.Proofs.Layout
Purpose: Where the runs and the line labels of a rendering stand in its source.  An offset is the
  number of source bytes that a writer was told before.  Runs have the ranges of the selected
  captures, and labels stand at the beginnings of the lines; no theme and no writer has a say in it.
Main exports:
  Capture.range, PlacedLabel, readRun, runRanges, readLabel, placedLabels, placedLabels_append,
  lineLabels, labelsOver, map_line_labelsOver, line_of_mem_labelsOver, Walk.runRanges_complete,
  Walk.placedLabels_complete, LineNumbering.Counted, Walk.lineLabels_complete
-/
import CodeHighlight.Proofs.GreedyResolution
import CodeHighlight.Proofs.StyledSource

namespace CodeHighlight

/-- Where the capture begins, and where it is over. -/
def Capture.range (capture : Capture) : Nat × Nat :=
  (capture.start, capture.stop)

/-- A line label, with the number of source bytes before it. -/
structure PlacedLabel where
  offset : Nat
  line : Nat
  width : Nat
deriving Repr, DecidableEq

/-! ### Reading offsets -/

/-- Reads where runs begin and end.  The state is how many source bytes were read, and how many
they were when the last run was opened. -/
def readRun : Transducer (Nat × Nat) Event (Nat × Nat)
  | (offset, _), .openRun _ => ((offset, offset), [])
  | (offset, opened), .closeRun => ((offset, opened), [(opened, offset)])
  | (offset, opened), .text bytes => ((offset + bytes.length, opened), [])
  | reached, .label _ _ => (reached, [])

/-- The ranges of the runs in the instructions. -/
def runRanges (events : List Event) : List (Nat × Nat) :=
  (readRun.run (0, 0) events).2

/-- Reads where labels stand.  The state is how many source bytes were read. -/
def readLabel : Transducer Nat Event PlacedLabel
  | offset, .text bytes => (offset + bytes.length, [])
  | offset, .label line width => (offset, [⟨offset, line, width⟩])
  | offset, _ => (offset, [])

/-- The labels in the instructions. -/
def placedLabels (events : List Event) : List PlacedLabel :=
  (readLabel.run 0 events).2

example : runRanges [.text [0x61], .openRun .fallback, .text [0x62], .closeRun] = [(1, 2)] := by
  decide

theorem runRanges_unlabelled (events : List Event) :
    runRanges (unlabelled events) = runRanges events := by
  have silent : ∀ event : Event, (!event.isLabel) = false →
      ∀ reached, readRun reached event = (reached, []) := by
    intro event isLabel reached
    cases event with
    | label line width => rfl
    | openRun style => cases isLabel
    | closeRun => cases isLabel
    | text bytes => cases isLabel
  exact congrArg Prod.snd (Transducer.run_filter readRun _ silent (0, 0) events)

theorem runRanges_bytewise (events : List Event) :
    runRanges (bytewise events) = runRanges events := by
  refine congrArg Prod.snd (Transducer.run_bytewise readRun ?_ ?_ (0, 0) events)
  · intro reached
    rfl
  · intro reached byte rest
    simp [Transducer.run_cons, readRun, Nat.add_comm, Nat.add_left_comm]

theorem placedLabels_unbracketed (events : List Event) :
    placedLabels (unbracketed events) = placedLabels events := by
  have silent : ∀ event : Event, (!event.isBracket) = false →
      ∀ offset, readLabel offset event = (offset, []) := by
    intro event isBracket offset
    cases event with
    | openRun style => rfl
    | closeRun => rfl
    | text bytes => cases isBracket
    | label line width => cases isBracket
  exact congrArg Prod.snd (Transducer.run_filter readLabel _ silent 0 events)

theorem placedLabels_bytewise (events : List Event) :
    placedLabels (bytewise events) = placedLabels events := by
  refine congrArg Prod.snd (Transducer.run_bytewise readLabel ?_ ?_ 0 events)
  · intro offset
    rfl
  · intro offset byte rest
    simp [Transducer.run_cons, readLabel, Nat.add_comm, Nat.add_left_comm]

/-- Labels after instructions stand behind the text that those carry. -/
theorem placedLabels_append (first second : List Event) :
    placedLabels (first ++ second) =
      placedLabels first ++ (readLabel.run (textOf first).length second).2 := by
  have reached : ∀ offset, (readLabel.run offset first).1 = offset + (textOf first).length := by
    induction first with
    | nil => exact fun _ => rfl
    | cons event rest inductionHypothesis =>
        intro offset
        rw [Transducer.run_cons, inductionHypothesis, textOf_cons]
        cases event <;> simp [readLabel, Event.textBytes, Nat.add_assoc]
  rw [placedLabels, Transducer.run_append, reached, Nat.zero_add]
  rfl

/-- As many labels are placed as there are among the instructions. -/
theorem length_placedLabels (events : List Event) :
    (placedLabels events).length = events.countP Event.isLabel := by
  have any : ∀ offset, (readLabel.run offset events).2.length = events.countP Event.isLabel := by
    induction events with
    | nil => exact fun _ => rfl
    | cons event rest inductionHypothesis =>
        intro offset
        cases event <;>
          simp [Transducer.run_cons, readLabel, inductionHypothesis, List.countP_cons, Event.isLabel]
  exact any 0

/-! ### Where runs stand -/

/-- The runs of a script have the ranges of its captures. -/
theorem run_readRun_script (theme : Theme) {source : Bytes} {reach opened : Nat}
    {taken : List Capture} (consecutive : Consecutive source.length reach taken) :
    (readRun.run (reach, opened) (script theme source reach taken)).2 =
      taken.map Capture.range := by
  induction taken generalizing reach opened with
  | nil => rfl
  | cons capture rest inductionHypothesis =>
      obtain ⟨begins, valid, follows⟩ := consecutive
      have forward : capture.start ≤ capture.stop := Nat.le_of_lt valid.1
      have gap : reach + (slice source reach capture.start).length = capture.start := by
        rw [length_slice (Nat.le_trans forward valid.2)]
        omega
      have width : capture.start + (slice source capture.start capture.stop).length =
          capture.stop := by
        rw [length_slice valid.2]
        omega
      simp only [script, Transducer.run_cons, readRun, gap, width, inductionHypothesis follows]
      rfl

/-! ### Where labels stand -/

/-- The labels of a source: one at the beginning of every line. -/
def lineLabels (source : Bytes) : List PlacedLabel :=
  (List.range (lines source).length).map fun before =>
    { offset := ((lines source).take before).flatten.length
      line := before + 1
      width := labelWidth source }

example : lineLabels [0x61, newline, newline] = [⟨0, 1, 4⟩, ⟨2, 2, 4⟩] := by decide +kernel

theorem length_lineLabels (source : Bytes) :
    (lineLabels source).length = (lines source).length := by
  simp [lineLabels]

/-- The labels of a text in a column of a given width: one at the beginning of every line. -/
def labelsOver (width : Nat) (text : Bytes) : List PlacedLabel :=
  (List.range (lines text).length).map fun before =>
    { offset := ((lines text).take before).flatten.length
      line := before + 1
      width := width }

theorem lineLabels_eq (source : Bytes) :
    lineLabels source = labelsOver (labelWidth source) source := rfl

/-- The labels of a text are numbered from one on. -/
theorem map_line_labelsOver (width : Nat) (text : Bytes) :
    (labelsOver width text).map PlacedLabel.line = List.range' 1 (lines text).length := by
  rw [labelsOver, List.map_map, List.range'_eq_map_range]
  apply List.map_congr_left
  intro before _
  exact Nat.add_comm before 1

/-- A label stands before a line that has a byte, and has its number. -/
theorem line_of_mem_labelsOver {width : Nat} {text : Bytes} {label : PlacedLabel}
    (member : label ∈ labelsOver width text) :
    label.width = width ∧
      ∃ before line after, lines text = before ++ line :: after ∧ line ≠ [] ∧
        label.offset = before.flatten.length ∧ label.line = before.length + 1 := by
  obtain ⟨index, among, isLabel⟩ := List.mem_map.mp member
  have inside : index < (lines text).length := List.mem_range.mp among
  rw [← isLabel]
  refine ⟨rfl, (lines text).take index, (lines text)[index],
    (lines text).drop (index + 1), ?_, ?_, rfl, ?_⟩
  · rw [← List.drop_eq_getElem_cons inside, List.take_append_drop]
  · exact ne_nil_of_mem_cutAfter (List.getElem_mem inside)
  · rw [List.length_take, Nat.min_eq_left (Nat.le_of_lt inside)]

theorem run_readLabel_labelledFrom (offset width number : Nat) (pieces : List Bytes) :
    (readLabel.run offset (LineNumbering.labelledFrom width number pieces)).2 =
      (List.range pieces.length).map fun before =>
        { offset := offset + (pieces.take before).flatten.length
          line := before + number
          width := width } := by
  induction pieces generalizing offset number with
  | nil => rfl
  | cons piece rest inductionHypothesis =>
      rw [LineNumbering.labelledFrom_cons, List.length_cons, List.range_succ_eq_map]
      simp [Transducer.run_cons, readLabel, inductionHypothesis, Nat.add_assoc,
        Nat.add_comm 1 number]

namespace LineNumbering

/-!
### How many labels there are

The number of labels written is not counted but read off the state.  It is the number of labels
among the instructions, since a line is left behind only after its label.
-/

/-- A numbering has moved on, and its labels are those among the instructions. -/
structure Counted (before : LineNumbering) (after : LineNumbering × List Event) : Prop where
  labelsWritten_eq :
    after.1.labelsWritten = before.labelsWritten + after.2.countP Event.isLabel
  line_pos : 0 < after.1.line

theorem Counted.refl {numbering : LineNumbering} (line_pos : 0 < numbering.line) :
    Counted numbering (numbering, []) :=
  ⟨rfl, line_pos⟩

theorem Counted.trans {before : LineNumbering} {middle after : LineNumbering × List Event}
    (one : Counted before middle) (two : Counted middle.1 after) :
    Counted before (after.1, middle.2 ++ after.2) where
  labelsWritten_eq := by
    rw [two.labelsWritten_eq, one.labelsWritten_eq, List.countP_append, Nat.add_assoc]
  line_pos := two.line_pos

/-- Other instructions than labels make no difference. -/
theorem Counted.insert {before : LineNumbering} {after : LineNumbering × List Event}
    (counted : Counted before after) (events : List Event)
    (same : events.countP Event.isLabel = after.2.countP Event.isLabel) :
    Counted before (after.1, events) :=
  ⟨same ▸ counted.labelsWritten_eq, counted.line_pos⟩

theorem counted_mark {numbering : LineNumbering} (line_pos : 0 < numbering.line) :
    Counted numbering numbering.mark := by
  by_cases due : (numbering.enabled && numbering.pending) = true
  · have pending : numbering.pending = true := (Bool.and_eq_true_iff.mp due).2
    have marked : numbering.mark =
        ({ numbering with pending := false }, [.label numbering.line numbering.width]) :=
      if_pos due
    rw [marked]
    refine ⟨?_, line_pos⟩
    have one : [Event.label numbering.line numbering.width].countP Event.isLabel = 1 := rfl
    simp only [labelsWritten, pending, one, if_true, Bool.false_eq_true, if_false]
    omega
  · have unmarked : numbering.mark = (numbering, []) := if_neg due
    rw [unmarked]
    exact Counted.refl line_pos

/-- A numbering that is on has written the label of the line that it leaves behind. -/
theorem counted_writePiece {numbering : LineNumbering} (enabled : numbering.enabled = true)
    (line_pos : 0 < numbering.line) (piece : Bytes) :
    Counted numbering (writePiece numbering piece) := by
  have marked := counted_mark line_pos
  have written : numbering.mark.1.pending = false := by
    cases pending : numbering.pending <;> simp [mark, enabled, pending]
  have texted := marked.insert (numbering.mark.2 ++ [.text piece])
    (by simp [List.countP_append, Event.isLabel])
  simp only [writePiece]
  split
  · refine ⟨?_, Nat.succ_pos _⟩
    rw [← texted.labelsWritten_eq]
    simp [labelsWritten, nextLine, written]
  · exact texted

theorem counted_run_writePiece {numbering : LineNumbering} (enabled : numbering.enabled = true)
    (line_pos : 0 < numbering.line) (pieces : List Bytes) :
    Counted numbering (writePiece.run numbering pieces) := by
  induction pieces generalizing numbering with
  | nil => exact Counted.refl line_pos
  | cons piece rest inductionHypothesis =>
      have one := counted_writePiece enabled line_pos piece
      have stillEnabled : (writePiece numbering piece).1.enabled = true := by
        rw [enabled_writePiece, enabled]
      rw [Transducer.run_cons]
      exact one.trans (inductionHypothesis stillEnabled one.line_pos)

theorem counted_write {numbering : LineNumbering} (line_pos : 0 < numbering.line)
    (bytes : Bytes) : Counted numbering (numbering.write bytes) := by
  cases enabled : numbering.enabled with
  | false =>
      rw [write_of_disabled enabled]
      exact (Counted.refl line_pos).insert [.text bytes] rfl
  | true =>
      rw [write_of_enabled enabled]
      exact counted_run_writePiece enabled line_pos (lines bytes)

theorem counted_readSegment (theme : Theme) {numbering : LineNumbering}
    (line_pos : 0 < numbering.line) (segment : Segment) :
    Counted numbering (readSegment theme numbering segment) := by
  cases segment with
  | plain bytes => exact counted_write line_pos bytes
  | tagged tag bytes =>
      have marked := counted_mark line_pos
      have written := marked.trans (counted_write marked.line_pos bytes)
      simp only [readSegment]
      refine written.insert _ ?_
      simp [List.countP_append, Event.isLabel]

theorem counted_run_readSegment (theme : Theme) {numbering : LineNumbering}
    (line_pos : 0 < numbering.line) (segments : List Segment) :
    Counted numbering ((readSegment theme).run numbering segments) := by
  induction segments generalizing numbering with
  | nil => exact Counted.refl line_pos
  | cons segment rest inductionHypothesis =>
      have one := counted_readSegment theme line_pos segment
      rw [Transducer.run_cons]
      exact one.trans (inductionHypothesis one.line_pos)

end LineNumbering

/-! ### The layout of a rendering -/

namespace Walk

variable (theme : Theme) (source : Bytes) (lineNumbers : Bool) (found : List Match)

/-- A rendering tells of runs over the ranges of the selected captures. -/
theorem runRanges_complete :
    runRanges ((start source lineNumbers).complete theme found).2 =
      (selected source.length (feedOrder found)).map Capture.range := by
  rw [← runRanges_unlabelled, ← runRanges_bytewise, bytewise_unlabelled_complete,
    runRanges_bytewise]
  exact run_readRun_script theme (consecutive_selected source.length (feedOrder found))

/-- A rendering tells of labels at the beginnings of the lines, or of none. -/
theorem placedLabels_complete :
    placedLabels ((start source lineNumbers).complete theme found).2 =
      if lineNumbers then lineLabels source else [] := by
  have written := (LineNumbering.run_readSegment_unbracketed theme (.start source lineNumbers)
    (segmentsOf source found) bytes_ne_nil_of_mem_segmentsOf).2
  rw [snd_complete, ← placedLabels_unbracketed, ← placedLabels_bytewise, written,
    bytes_segmentsOf, placedLabels_bytewise]
  cases lineNumbers with
  | false =>
      rw [LineNumbering.write_start_false]
      rfl
  | true =>
      rw [LineNumbering.write_start_true, placedLabels, run_readLabel_labelledFrom]
      simp [lineLabels]

/-- The statistics of a rendering count the labels that it tells of. -/
theorem lineLabels_complete :
    ((start source lineNumbers).complete theme found).1.lineLabels =
      (placedLabels ((start source lineNumbers).complete theme found).2).length := by
  have line_pos : 0 < (LineNumbering.start source lineNumbers).line := Nat.one_pos
  have counted := LineNumbering.counted_run_readSegment theme line_pos (segmentsOf source found)
  rw [fst_complete, length_placedLabels, snd_complete]
  exact counted.labelsWritten_eq.trans (Nat.zero_add _)

end Walk

end CodeHighlight
