/-
Module: CodeHighlight.Proofs.LabelSequence
Purpose: The labels of a numbered rendering, in order.  There is one for each line that has a byte,
  numbered from one on, and each number fills the label column.  How many lines there are, and how
  wide the column is, follows from the newlines of the source.  The labels are read back from the
  output: from markup by their tags, from terminal output as what stands before the bar in each
  line once control sequences are left out.
Main exports:
  map_line_lineLabels, line_of_mem_lineLabels, PlacedLabel.number,
  Markup.labelNumbers_writeEvents, Terminal.Shows, Terminal.shows_render, Terminal.labelNumbers,
  Terminal.labelNumbers_of_numberedLines, labels_consecutive
-/
import CodeHighlight.Proofs.MarkupMarks
import CodeHighlight.Proofs.TerminalText
import CodeHighlight.Proofs.ThemeIndependence
import CodeHighlight.Theme.Builtin

namespace CodeHighlight

/-! ### The labels of a source -/

/-- The labels of a source are numbered from one on. -/
theorem map_line_lineLabels (source : Bytes) :
    (lineLabels source).map PlacedLabel.line = List.range' 1 (lines source).length := by
  rw [lineLabels_eq, map_line_labelsOver]

/-- A label stands before a line that has a byte, and has its number. -/
theorem line_of_mem_lineLabels {source : Bytes} {label : PlacedLabel}
    (member : label ∈ lineLabels source) :
    label.width = labelWidth source ∧
      ∃ before line after, lines source = before ++ line :: after ∧ line ≠ [] ∧
        label.offset = before.flatten.length ∧ label.line = before.length + 1 :=
  line_of_mem_labelsOver member

/-! ### The labels of an output -/

namespace PlacedLabel

/-- The number of the label, with blanks before it. -/
def number (label : PlacedLabel) : Bytes :=
  Decimal.rightJustified label.width label.line

end PlacedLabel

theorem length_number_of_mem_lineLabels {source : Bytes} {label : PlacedLabel}
    (member : label ∈ lineLabels source) : label.number.length = labelWidth source := by
  obtain ⟨width, before, line, after, cut, _, _, number⟩ := line_of_mem_lineLabels member
  have upper : label.line ≤ (lines source).length := by
    rw [number, cut, List.length_append, List.length_cons]
    omega
  rw [PlacedLabel.number, width]
  exact length_number_of_le_lines upper

/-- The numbers among the instructions are those of the labels. -/
theorem flatMap_number (events : List Event) :
    events.flatMap Event.number = (placedLabels events).map PlacedLabel.number := by
  have any : ∀ offset, events.flatMap Event.number =
      (readLabel.run offset events).2.map PlacedLabel.number := by
    induction events with
    | nil => exact fun _ => rfl
    | cons event rest inductionHypothesis =>
        intro offset
        rw [List.flatMap_cons, Transducer.run_cons, List.map_append,
          ← inductionHypothesis (readLabel offset event).1]
        cases event <;> rfl
  exact any 0

/-- The label numbers that are found in markup are those of the labels. -/
theorem Markup.labelNumbers_writeEvents (theme : Theme) (events : List Event) :
    labelNumbers (writeEvents theme events .markup) =
      (placedLabels events).map PlacedLabel.number := by
  rw [← flatMap_number]
  exact labelNumbers_run_write false events

namespace Terminal

/-! ### Output around a text -/

/-- Output shows a text if it is the text with control sequences put in anywhere.  Escape bytes of
the text count as text. -/
inductive Shows : Bytes → Bytes → Prop
  | nil : Shows [] []
  | byte (byte : UInt8) {output text : Bytes} (rest : Shows output text) :
      Shows (byte :: output) (byte :: text)
  | sequence {parameters output text : Bytes}
      (digits : ∀ byte ∈ parameters, byte = 0x3B ∨ 0x30 ≤ byte ∧ byte ≤ 0x39)
      (rest : Shows output text) :
      Shows (sequenceStart ++ parameters ++ sequenceEnd ++ output) text

namespace Shows

variable {output text : Bytes}

theorem append (bytes : Bytes) (rest : Shows output text) :
    Shows (bytes ++ output) (bytes ++ text) := by
  induction bytes with
  | nil => exact rest
  | cons byte others inductionHypothesis => exact .byte byte inductionHypothesis

theorem graphicSequence (parameters : List Nat) (rest : Shows output text) :
    Shows (CodeHighlight.graphicSequence parameters ++ output) text :=
  .sequence (fun _ member => mem_intercalate_digits member) rest

theorem label (labelStyle : Style) (line width : Nat) (rest : Shows output text) :
    Shows (Terminal.label labelStyle line width ++ output) (shown (.label line width) ++ text) := by
  have cut : Terminal.label labelStyle line width ++ output =
      labelStyle.sequence ++ ((Decimal.rightJustified width line ++ bar) ++
        (resetSequence ++ ([0x20] ++ output))) := by
    simp [Terminal.label]
  have ending : shown (.label line width) ++ text =
      (Decimal.rightJustified width line ++ bar) ++ ([0x20] ++ text) := by
    have bytes : Utf8.encode "│ " = bar ++ [0x20] := rfl
    rw [shown, bytes]
    simp only [List.append_assoc]
  rw [cut, ending]
  exact ((rest.append [0x20]).graphicSequence [0] |>.append _).graphicSequence labelStyle.parameters

end Shows

/-- What is written shows what is shown of the instructions, whatever bytes they have. -/
theorem shows_run_write (labelStyle : Style) (active : Writer) (events : List Event) :
    Shows ((write labelStyle).run active events).2 (events.flatMap shown) := by
  induction events generalizing active with
  | nil => exact .nil
  | cons event rest inductionHypothesis =>
      rw [Transducer.run_cons, List.flatMap_cons]
      have others := inductionHypothesis (write labelStyle active event).1
      cases event with
      | openRun style => exact others.graphicSequence style.terminal.parameters
      | closeRun => exact others.graphicSequence [0]
      | text bytes => exact others.append bytes
      | label line width =>
          simp only [write, List.append_assoc]
          apply Shows.label
          -- A label inside a run is followed by the sequence of the run.
          cases active with
          | none => exact others
          | some style => exact others.graphicSequence style.parameters

/-- A numbered rendering of any source shows the numbered lines of the source. -/
theorem shows_render (source : Bytes) (found : List Match) (theme : Theme) :
    Shows (render source found theme ⟨.terminal, true⟩) (numberedLines source) := by
  rw [← flatMap_shown_write_numbered, ← flatMap_shown_complete theme source true found]
  exact shows_run_write theme.labelStyle none _

/-! ### Reading label numbers -/

/-- The numbers in front of the lines of terminal output: without control sequences, what stands
before the first byte of a bar in each line. -/
def labelNumbers (output : Bytes) : List Bytes :=
  (lines (withoutSequences output)).map fun line => line.takeWhile (· != 0xE2)

/-- Lines that have something put in front of them are still lines. -/
theorem lines_flatMap_zipIdx {front : Nat → Bytes} (nonempty : ∀ number, front number ≠ [])
    (inLine : ∀ number, newline ∉ front number) (pieces : List Bytes) (number : Nat)
    (single : ∀ piece ∈ pieces, lines piece = [piece])
    (ended : pieces.IsChain fun piece _ => endsLine piece = true) :
    lines ((pieces.zipIdx number).flatMap fun (piece, number) => front number ++ piece) =
      (pieces.zipIdx number).map fun (piece, number) => front number ++ piece := by
  induction pieces generalizing number with
  | nil => rfl
  | cons piece rest inductionHypothesis =>
      have others := inductionHypothesis (number + 1)
        (fun later member => single later (List.mem_cons_of_mem _ member)) ended.tail
      have here := single piece List.mem_cons_self
      rw [List.zipIdx_cons, List.flatMap_cons, List.map_cons, List.append_assoc,
        lines_append_of_notMem (nonempty number) (inLine number), ← others]
      cases rest with
      | nil =>
          rw [List.zipIdx_nil, List.flatMap_nil, List.append_nil, here]
          rfl
      | cons next more =>
          have ends : endsLine piece = true := (List.isChain_cons_cons.mp ended).1
          rw [lines_append_of_endsLine ends, here]
          rfl

/-- The numbers are read off the numbered lines of a source. -/
theorem labelNumbers_of_numberedLines {source output : Bytes}
    (text : withoutSequences output = numberedLines source) :
    labelNumbers output = (List.range' 1 (lines source).length).map
      (Decimal.rightJustified (labelWidth source)) := by
  have barless : ∀ number, ∀ byte ∈ Decimal.rightJustified (labelWidth source) number,
      (byte != 0xE2) = true := by
    intro number byte member
    have kinds := Decimal.mem_rightJustified member
    rw [bne_iff_ne]
    rintro rfl
    revert kinds
    decide
  have inLine : ∀ number,
      newline ∉ Decimal.rightJustified (labelWidth source) number ++ Utf8.encode "│ " := by
    intro number member
    rcases List.mem_append.mp member with digit | inBar
    · have kinds := Decimal.mem_rightJustified digit
      revert kinds
      decide
    · revert inBar
      decide
  have cut := lines_flatMap_zipIdx (fun number => List.append_ne_nil_of_right_ne_nil _ (by decide))
    inLine (lines source) 1 (fun _ member => lines_of_mem_lines member) (isChain_lines source)
  rw [labelNumbers, text, numberedLines, cut, List.map_map, ← List.zipIdx_map_snd, List.map_map]
  apply List.map_congr_left
  rintro ⟨line, number⟩ _
  have bars : Utf8.encode "│ " ++ line = 0xE2 :: ([0x94, 0x82, 0x20] ++ line) := rfl
  simp only [Function.comp_apply]
  rw [List.append_assoc, bars, List.takeWhile_append_of_pos (barless number),
    List.takeWhile_cons_of_neg (by decide), List.append_nil]

end Terminal

/-- A numbered rendering writes the labels of the lines and no others, numbered from one on, and the
statistics say how many there are.  The numbers are read back from markup; terminal output shows the
numbered lines of the source with nothing but control sequences in between, so the numbers are read
back from it as well, unless the source itself has control sequences.  There is a label for each
newline, and one more if the source does not end with a newline, unless it is empty.  Every number
fills a column that has room for the number of newlines plus one and is four columns wide at least.
A label stands right before a line that has a byte. -/
theorem labels_consecutive (source : Bytes) (found : List Match) (theme : Theme) :
    let told := ((Walk.start source true).complete theme found).2
    let count := (lines source).length
    let width := labelWidth source
    let numbers := (List.range' 1 count).map (Decimal.rightJustified width)
    (∀ format : OutputFormat,
        render source found theme ⟨format, true⟩ = writeEvents theme told format ∧
          (renderWithStatistics source found theme ⟨format, true⟩).2.lineLabels = count) ∧
      Markup.labelNumbers (render source found theme ⟨.markup, true⟩) = numbers ∧
      Terminal.Shows (render source found theme ⟨.terminal, true⟩)
        (((lines source).zipIdx 1).flatMap fun (line, number) =>
          Decimal.rightJustified width number ++ Utf8.encode "│ " ++ line) ∧
      (¬ Terminal.sequenceStart <:+: source →
        Terminal.labelNumbers (render source found theme ⟨.terminal, true⟩) = numbers) ∧
      placedLabels told = lineLabels source ∧
      (placedLabels told).map PlacedLabel.line = List.range' 1 count ∧
      count = newlineCount source + (if source = [] ∨ endsLine source = true then 0 else 1) ∧
      width = max 4 (Decimal.digits (newlineCount source + 1)).length ∧
      (∀ number ∈ numbers, number.length = width) ∧
      ∀ label ∈ placedLabels told,
        label.number.length = width ∧
          ∃ before line after, lines source = before ++ line :: after ∧ line ≠ [] ∧
            label.offset = before.flatten.length ∧ label.line = before.length + 1 := by
  intro told count width numbers
  have placed : placedLabels told = lineLabels source :=
    Walk.placedLabels_complete theme source true found
  have inOrder : (lineLabels source).map PlacedLabel.number = numbers := by
    have same : (lineLabels source).map PlacedLabel.number =
        ((lineLabels source).map PlacedLabel.line).map (Decimal.rightJustified width) := by
      rw [List.map_map]
      apply List.map_congr_left
      intro label member
      rw [PlacedLabel.number, (line_of_mem_lineLabels member).1]
      rfl
    rw [same, map_line_lineLabels]
  refine ⟨?_, ?_, ?_, ?_, placed, ?_, length_lines source, ?_, ?_, ?_⟩
  · intro format
    have counted : (renderWithStatistics source found theme ⟨format, true⟩).2.lineLabels =
        count := by
      rw [statistics_eq]
      rfl
    exact ⟨rfl, counted⟩
  · rw [← inOrder, ← placed]
    exact Markup.labelNumbers_writeEvents theme told
  · exact Terminal.shows_render source found theme
  · intro harmless
    apply Terminal.labelNumbers_of_numberedLines
    rw [Terminal.withoutSequences_render_written found theme harmless,
      Terminal.flatMap_shown_write_numbered]
  · rw [placed]
    exact map_line_lineLabels source
  · exact congrArg (max 4) (Decimal.digitCount_eq_length _)
  · intro number member
    rw [← inOrder] at member
    obtain ⟨label, isLabel, same⟩ := List.mem_map.mp member
    rw [← same]
    exact length_number_of_mem_lineLabels isLabel
  · intro label member
    rw [placed] at member
    exact ⟨length_number_of_mem_lineLabels member, (line_of_mem_lineLabels member).2⟩

/-- The labels of two lines, one of which is a run. -/
theorem labels_consecutive_two_lines :
    let source : Bytes := [0x61, newline, 0x62]
    let numbers := [Utf8.encode "   1", Utf8.encode "   2"]
    ¬ Terminal.sequenceStart <:+: source ∧
      Markup.labelNumbers (render source [[⟨"string", 2, 3⟩]] Theme.standard ⟨.markup, true⟩) =
        numbers ∧
      Terminal.labelNumbers (render source [[⟨"string", 2, 3⟩]] Theme.standard ⟨.terminal, true⟩) =
        numbers := by
  intro source numbers
  have harmless : ¬ Terminal.sequenceStart <:+: source := by decide
  obtain ⟨_, markup, _, terminal, _⟩ :=
    labels_consecutive source [[⟨"string", 2, 3⟩]] Theme.standard
  have same : (List.range' 1 (lines source).length).map
      (Decimal.rightJustified (labelWidth source)) = numbers := by decide +kernel
  exact ⟨harmless, markup.trans same, (terminal harmless).trans same⟩

/-- Captures that consist of a newline add no label. -/
example : placedLabels ((Walk.start [newline, 0x61, newline] true).complete Theme.standard
    [[⟨"string", 0, 1⟩], [⟨"string", 2, 3⟩]]).2 = [⟨0, 1, 4⟩, ⟨1, 2, 4⟩] := by
  decide +kernel

end CodeHighlight
