/-
Module: CodeHighlight.Proofs.TerminalText
Purpose: What terminal output reads without its control sequences.  A reader that removes them
  from the flat output is left with the source, each line after its label when lines are
  numbered, provided that the source itself begins no control sequence.  An escape byte of the
  source in front of a control sequence, or of a label, begins none.
Main exports:
  sequenceStart, sequenceEnd, withoutSequences, shown, withoutSequences_run_write,
  numberedLines, withoutSequences_render_written, withoutSequences_render
-/
import CodeHighlight.Proofs.GreedyResolution
import CodeHighlight.Proofs.Passage
import CodeHighlight.Theme.Builtin

namespace CodeHighlight.Terminal

/-! ### Control sequences -/

/-- The mark that begins a control sequence: escape and `[`. -/
def sequenceStart : Bytes :=
  [escapeByte, 0x5B]

/-- The mark that ends a control sequence: `m`. -/
def sequenceEnd : Bytes :=
  [0x6D]

/-- The text without its control sequences. -/
def withoutSequences (text : Bytes) : Bytes :=
  withoutPassages sequenceStart sequenceEnd text

/-- Two bytes that do not begin a control sequence. -/
def Harmless (first second : UInt8) : Prop :=
  ¬ (first = escapeByte ∧ second = 0x5B)

/-- Graphic parameters are digits with semicolons between them. -/
theorem mem_intercalate_digits {parameters : List Nat} {byte : UInt8}
    (member : byte ∈ List.intercalate [0x3B] (parameters.map Decimal.digits)) :
    byte = 0x3B ∨ 0x30 ≤ byte ∧ byte ≤ 0x39 := by
  induction parameters with
  | nil => cases member
  | cons parameter rest inductionHypothesis =>
      cases rest with
      | nil =>
          rw [List.map_singleton, List.intercalate_singleton] at member
          exact Or.inr (Decimal.bounds_of_mem_digits member)
      | cons next others =>
          rw [List.map_cons, List.map_cons, List.intercalate_cons_cons, List.append_assoc,
            List.mem_append, List.mem_append] at member
          rcases member with digit | separator | later
          · exact Or.inr (Decimal.bounds_of_mem_digits digit)
          · exact Or.inl (List.mem_singleton.mp separator)
          · exact inductionHypothesis later

/-- Graphic parameters do not end their control sequence. -/
theorem end_notMem_intercalate_digits (parameters : List Nat) :
    (0x6D : UInt8) ∉ List.intercalate [0x3B] (parameters.map Decimal.digits) := by
  intro member
  have kinds := mem_intercalate_digits member
  revert kinds
  decide

theorem withoutSequences_graphicSequence (parameters : List Nat) (rest : Bytes) :
    withoutSequences (graphicSequence parameters ++ rest) = withoutSequences rest :=
  withoutPassages_passage sequenceStart sequenceEnd (List.cons_ne_nil _ _) rfl
    (end_notMem_intercalate_digits parameters) rest

theorem withoutSequences_append_of_notMem {text : Bytes} (absent : escapeByte ∉ text)
    (rest : Bytes) : withoutSequences (text ++ rest) = text ++ withoutSequences rest :=
  withoutPassages_append_of_notMem _ _ rfl absent rest

theorem isPrefixOf_sequenceStart {byte : UInt8} {rest : Bytes}
    (harmless : ∀ next ∈ rest.head?, Harmless byte next) :
    sequenceStart.isPrefixOf (byte :: rest) = false := by
  cases rest with
  | nil => simp [sequenceStart, List.isPrefixOf]
  | cons next others =>
      have two := harmless next rfl
      simp only [sequenceStart, List.isPrefixOf, Bool.and_true, Bool.and_eq_false_iff,
        beq_eq_false_iff_ne]
      by_cases escape : byte = escapeByte
      · exact Or.inr fun bracket => two ⟨escape, bracket.symm⟩
      · exact Or.inl (Ne.symm escape)

/-- Text that begins no control sequence, not even with the byte after it, stays. -/
theorem withoutSequences_append {text rest : Bytes} (harmless : text.IsChain Harmless)
    (boundary : ∀ last ∈ text.getLast?, ∀ next ∈ rest.head?, Harmless last next) :
    withoutSequences (text ++ rest) = text ++ withoutSequences rest := by
  induction text with
  | nil => rfl
  | cons byte others inductionHypothesis =>
      have plain : sequenceStart.isPrefixOf (byte :: (others ++ rest)) = false := by
        apply isPrefixOf_sequenceStart
        intro next member
        cases others with
        | nil => exact boundary byte rfl next member
        | cons second more => exact (List.isChain_cons.mp harmless).1 next member
      have follows : ∀ last ∈ others.getLast?, ∀ next ∈ rest.head?, Harmless last next := by
        intro last member
        apply boundary
        cases others with
        | nil => cases member
        | cons second more => exact member
      have kept := inductionHypothesis (List.isChain_cons.mp harmless).2 follows
      unfold withoutSequences at *
      rw [List.cons_append, withoutPassages_cons plain, kept]
      rfl

/-- A text without the mark that begins control sequences is harmless at every byte. -/
theorem isChain_harmless {text : Bytes} (absent : ¬ sequenceStart <:+: text) :
    text.IsChain Harmless := by
  induction text with
  | nil => exact List.isChain_nil
  | cons byte others inductionHypothesis =>
      refine List.isChain_cons.mpr ⟨?_, ?_⟩
      · intro next member both
        apply absent
        cases others with
        | nil => cases member
        | cons second more =>
            cases member
            rw [both.1, both.2]
            exact ⟨[], more, rfl⟩
      · exact inductionHypothesis fun within => absent (List.infix_cons within)

/-! ### What stays of each instruction -/

/-- What a reader sees of an instruction when control sequences are removed. -/
def shown : Event → Bytes
  | .text bytes => bytes
  | .label line width => Decimal.rightJustified width line ++ Utf8.encode "│ "
  | _ => []

theorem escapeByte_notMem_label (line width : Nat) :
    escapeByte ∉ Decimal.rightJustified width line ++ bar := by
  intro member
  rcases List.mem_append.mp member with digit | inBar
  · have kinds := Decimal.mem_rightJustified digit
    revert kinds
    decide
  · revert inBar
    decide

theorem withoutSequences_label (labelStyle : Style) (line width : Nat) (rest : Bytes) :
    withoutSequences (label labelStyle line width ++ rest) =
      shown (.label line width) ++ withoutSequences rest := by
  have number := escapeByte_notMem_label line width
  have blank : escapeByte ∉ ([0x20] : Bytes) := by decide
  have cut : label labelStyle line width ++ rest =
      labelStyle.sequence ++ ((Decimal.rightJustified width line ++ bar) ++
        (resetSequence ++ ([0x20] ++ rest))) := by
    simp [label]
  have ending : Utf8.encode "│ " = bar ++ [0x20] := rfl
  rw [cut, Style.sequence, withoutSequences_graphicSequence,
    withoutSequences_append_of_notMem number, resetSequence, withoutSequences_graphicSequence,
    withoutSequences_append_of_notMem blank, shown, ending]
  simp only [List.append_assoc]

/-- Output begins with an escape byte or with the first byte of the text. -/
theorem head?_run_write (labelStyle : Style) (active : Writer) (events : List Event) :
    ∀ next ∈ ((write labelStyle).run active events).2.head?,
      next = escapeByte ∨ next ∈ (textOf events).head? := by
  induction events generalizing active with
  | nil => intro next member; cases member
  | cons event rest inductionHypothesis =>
      intro next member
      rw [Transducer.run_cons] at member
      cases event with
      | openRun style => cases member; exact Or.inl rfl
      | closeRun => cases member; exact Or.inl rfl
      | label line width => cases member; exact Or.inl rfl
      | text bytes =>
          cases bytes with
          | nil => exact inductionHypothesis active next member
          | cons byte others => exact Or.inr member

/-- Without control sequences, the output of the writer is what is shown of its
instructions. -/
theorem withoutSequences_run_write (labelStyle : Style) (active : Writer) (events : List Event)
    (harmless : (textOf events).IsChain Harmless) :
    withoutSequences ((write labelStyle).run active events).2 = events.flatMap shown := by
  induction events generalizing active with
  | nil => exact withoutPassages_nil _ _
  | cons event rest inductionHypothesis =>
      rw [Transducer.run_cons, List.flatMap_cons]
      rw [textOf_cons] at harmless
      have others := fun next => inductionHypothesis next (List.isChain_append.mp harmless).2.1
      cases event with
      | openRun style =>
          simp only [write, Style.sequence]
          rw [withoutSequences_graphicSequence, others]
          rfl
      | closeRun =>
          simp only [write, resetSequence]
          rw [withoutSequences_graphicSequence, others]
          rfl
      | label line width =>
          simp only [write, List.append_assoc]
          rw [withoutSequences_label]
          cases active with
          | none => rw [Option.elim_none, List.nil_append, others]
          | some style =>
              rw [Option.elim_some, Style.sequence, withoutSequences_graphicSequence, others]
      | text bytes =>
          rw [Event.textBytes] at harmless
          obtain ⟨within, _, across⟩ := List.isChain_append.mp harmless
          simp only [write]
          rw [withoutSequences_append within, others]
          · rfl
          · intro last isLast next isNext
            rcases head?_run_write labelStyle active rest next isNext with escape | source
            · intro both
              rw [escape] at both
              exact absurd both.2 (by decide)
            · exact across last isLast next source

theorem flatMap_shown_bytewise (events : List Event) :
    (bytewise events).flatMap shown = events.flatMap shown := by
  apply flatMap_bytewise
  intro bytes
  simp [shown]

theorem flatMap_shown_unbracketed (events : List Event) :
    (unbracketed events).flatMap shown = events.flatMap shown := by
  apply flatMap_unbracketed
  · intro style
    rfl
  · rfl

/-! ### A rendering -/

/-- The lines of a source, each after its right-justified number, a bar and a blank. -/
def numberedLines (source : Bytes) : Bytes :=
  ((lines source).zipIdx 1).flatMap fun (line, number) =>
    Decimal.rightJustified (labelWidth source) number ++ Utf8.encode "│ " ++ line

theorem flatMap_shown_labelledFrom (width number : Nat) (pieces : List Bytes) :
    (LineNumbering.labelledFrom width number pieces).flatMap shown =
      (pieces.zipIdx number).flatMap fun (line, number) =>
        Decimal.rightJustified width number ++ Utf8.encode "│ " ++ line := by
  induction pieces generalizing number with
  | nil => rfl
  | cons line rest inductionHypothesis =>
      rw [LineNumbering.labelledFrom_cons, List.flatMap_cons, List.flatMap_cons,
        inductionHypothesis, List.zipIdx_cons, List.flatMap_cons]
      simp only [shown, List.append_assoc]

/-- What is shown of a rendering is what is shown of its source written at once. -/
theorem flatMap_shown_complete (theme : Theme) (source : Bytes) (lineNumbers : Bool)
    (found : List Match) :
    ((Walk.start source lineNumbers).complete theme found).2.flatMap shown =
      ((LineNumbering.start source lineNumbers).write source).2.flatMap shown := by
  have written := (LineNumbering.run_readSegment_unbracketed theme (.start source lineNumbers)
    (segmentsOf source found) bytes_ne_nil_of_mem_segmentsOf).2
  rw [bytes_segmentsOf] at written
  rw [Walk.snd_complete, ← flatMap_shown_unbracketed, ← flatMap_shown_bytewise, written,
    flatMap_shown_bytewise]

/-- What is shown of a numbered source written at once is its numbered lines. -/
theorem flatMap_shown_write_numbered (source : Bytes) :
    ((LineNumbering.start source true).write source).2.flatMap shown = numberedLines source := by
  rw [LineNumbering.write_start_true]
  exact flatMap_shown_labelledFrom _ 1 _

/-- Without its control sequences, terminal output is what is shown of the source. -/
theorem withoutSequences_render_written {source : Bytes} (found : List Match) (theme : Theme)
    (harmless : ¬ sequenceStart <:+: source) (lineNumbers : Bool) :
    withoutSequences (render source found theme ⟨.terminal, lineNumbers⟩) =
      ((LineNumbering.start source lineNumbers).write source).2.flatMap shown := by
  have chain : (textOf ((Walk.start source lineNumbers).complete theme found).2).IsChain
      Harmless := by
    rw [Walk.textOf_complete]
    exact isChain_harmless harmless
  rw [← flatMap_shown_complete theme source lineNumbers found]
  exact withoutSequences_run_write theme.labelStyle none _ chain

/-- Terminal output without its control sequences is the source, or its numbered lines. -/
theorem withoutSequences_render (source : Bytes) (found : List Match) (theme : Theme)
    (harmless : ¬ sequenceStart <:+: source) :
    withoutSequences (render source found theme ⟨.terminal, false⟩) = source ∧
      withoutSequences (render source found theme ⟨.terminal, true⟩) = numberedLines source := by
  constructor
  · rw [withoutSequences_render_written found theme harmless, LineNumbering.write_start_false]
    exact List.append_nil source
  · rw [withoutSequences_render_written found theme harmless]
    exact flatMap_shown_write_numbered source

/-- An escape byte at the end of a run stays, though a control sequence follows it. -/
theorem withoutSequences_render_lone_escape :
    ¬ sequenceStart <:+: [escapeByte, newline, 0x5B] ∧
      withoutSequences (render [escapeByte, newline, 0x5B]
          [[⟨"string", 1, 3⟩, ⟨"keyword", 0, 1⟩]] Theme.standard ⟨.terminal, true⟩) =
        Utf8.encode "   1│ " ++ [escapeByte, newline] ++ Utf8.encode "   2│ " ++ [0x5B] := by
  have harmless : ¬ sequenceStart <:+: [escapeByte, newline, 0x5B] := by decide
  refine ⟨harmless, ?_⟩
  rw [(withoutSequences_render _ _ Theme.standard harmless).2]
  decide +kernel

end CodeHighlight.Terminal
