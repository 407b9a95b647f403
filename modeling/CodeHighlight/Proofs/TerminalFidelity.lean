/-
Module: CodeHighlight.Proofs.TerminalFidelity
Purpose: How terminal output looks.  Every byte of the source is shown in the style of the
  capture that owns it, on whatever line of its run it stands, and the terminal is plain again in
  the end.  A line label is shown in the label style on top of the style of the run that it
  interrupts.
Main exports:
  Ink.cell, inkLines, numberedCells, drawInk, run_paint_readSegments, run_drawInk_numberingAt,
  run_read_render, run_read_render_numbered, run_read_render_owner
-/
import CodeHighlight.Proofs.GreedyResolution
import CodeHighlight.Proofs.StyledSource
import CodeHighlight.Proofs.TerminalScreen
import CodeHighlight.Theme.Builtin

namespace CodeHighlight

/-- The byte as it is to be shown. -/
def Ink.cell (ink : Ink) : Terminal.Cell :=
  ⟨ink.byte, ink.style⟩

def Ink.isNewline (ink : Ink) : Bool :=
  ink.byte == newline

/-- Inks as lines, each with the newline that ends it. -/
def inkLines (inked : List Ink) : List (List Ink) :=
  cutAfter Ink.isNewline inked

/-- The style of the run that comes into a line from the line before. -/
def carriedInto (line : List Ink) : Style :=
  line.head?.elim .plain Ink.carried

namespace Terminal

/-- Lines as they are shown, each after its label.  The look of a label depends on the style of
the run that it interrupts. -/
def numberedCells (look : Style → Style) (width number : Nat) (inked : List (List Ink)) :
    List Cell :=
  (inked.zipIdx number).flatMap fun (line, number) =>
    labelCells (look (carriedInto line)) number width ++ line.map Ink.cell

theorem numberedCells_cons (look : Style → Style) (width number : Nat) (line : List Ink)
    (rest : List (List Ink)) :
    numberedCells look width number (line :: rest) =
      labelCells (look (carriedInto line)) number width ++ line.map Ink.cell ++
        numberedCells look width (number + 1) rest := rfl

/-! ### Byte by byte -/

/-- What is shown of an instruction while a run of some style is open. -/
def paintIn (labelStyle style : Style) (event : Event) : List Cell :=
  (paint labelStyle style event).2

/-- Shows a byte, after the label of its line if that is still to come. -/
def drawInk (labelStyle : Style) : Transducer LineNumbering Ink Cell := fun numbering ink =>
  ((numbering.write [ink.byte]).1,
    numbering.mark.2.flatMap (paintIn labelStyle ink.carried) ++ [ink.cell])

theorem flatMap_paintIn_bytewise (labelStyle style : Style) (events : List Event) :
    (bytewise events).flatMap (paintIn labelStyle style) =
      events.flatMap (paintIn labelStyle style) := by
  apply flatMap_bytewise
  intro bytes
  exact List.map_eq_flatMap

/-- Text and labels leave the style as it is. -/
theorem run_paint_inline (labelStyle style : Style) {events : List Event}
    (inline : ∀ event ∈ events, event.isBracket = false) :
    (paint labelStyle).run style events = (style, events.flatMap (paintIn labelStyle style)) := by
  apply Transducer.run_of_fixed
  intro event member
  cases event with
  | openRun _ => cases inline _ member
  | closeRun => cases inline _ member
  | text _ => rfl
  | label _ _ => rfl

theorem run_drawInk_state (labelStyle : Style) (numbering : LineNumbering) (inked : List Ink) :
    ((drawInk labelStyle).run numbering inked).1 =
      (numbering.write (inked.map Ink.byte)).1 := by
  induction inked generalizing numbering with
  | nil => exact (LineNumbering.write_nil numbering).1.symm
  | cons ink rest inductionHypothesis =>
      rw [Transducer.run_cons, inductionHypothesis, List.map_cons,
        (LineNumbering.write_cons numbering _ _).1]
      rfl

theorem write_singleton (numbering : LineNumbering) (byte : UInt8) :
    (numbering.write [byte]).2 = numbering.mark.2 ++ [.text [byte]] := by
  cases enabled : numbering.enabled with
  | false =>
      have unmarked : numbering.mark.2 = [] := by simp [LineNumbering.mark, enabled]
      rw [LineNumbering.write_of_disabled enabled, unmarked]
      rfl
  | true =>
      rw [LineNumbering.write_of_enabled enabled, lines_singleton, Transducer.run_singleton]
      rfl

/-- Text in the middle of a run is shown byte by byte, with its labels on top of the run. -/
theorem flatMap_paintIn_write (labelStyle style : Style) (numbering : LineNumbering)
    (bytes : Bytes) :
    (numbering.write bytes).2.flatMap (paintIn labelStyle style) =
      ((drawInk labelStyle).run numbering (bytes.map fun byte => ⟨byte, style, style⟩)).2 := by
  induction bytes generalizing numbering with
  | nil =>
      rw [← flatMap_paintIn_bytewise, (LineNumbering.write_nil numbering).2]
      rfl
  | cons byte rest inductionHypothesis =>
      rw [← flatMap_paintIn_bytewise, (LineNumbering.write_cons numbering byte rest).2,
        List.flatMap_append, flatMap_paintIn_bytewise, flatMap_paintIn_bytewise,
        inductionHypothesis, write_singleton, List.flatMap_append, List.map_cons,
        Transducer.run_cons]
      rfl

/-! ### Segment by segment -/

/-- A segment is shown byte by byte, and leaves no run open. -/
theorem run_paint_readSegment (labelStyle : Style) (theme : Theme) (numbering : LineNumbering)
    {segment : Segment} (nonempty : segment.bytes ≠ []) :
    (paint labelStyle).run .plain (LineNumbering.readSegment theme numbering segment).2 =
      (.plain, ((drawInk labelStyle).run numbering (segment.inks theme)).2) := by
  cases segment with
  | plain bytes =>
      have inline := LineNumbering.isBracket_write numbering bytes
      rw [LineNumbering.readSegment, run_paint_inline _ _ inline, flatMap_paintIn_write]
      rfl
  | tagged tag bytes =>
      cases bytes with
      | nil => exact absurd rfl nonempty
      | cons first rest =>
          have marks := run_paint_inline labelStyle .plain
            (LineNumbering.isBracket_mark numbering)
          have body := run_paint_inline labelStyle (theme.runStyle tag)
            (LineNumbering.isBracket_write numbering.mark.1 (first :: rest))
          have shown : (paint labelStyle).run .plain
                (LineNumbering.readSegment theme numbering (.tagged tag (first :: rest))).2 =
              (.plain, numbering.mark.2.flatMap (paintIn labelStyle .plain) ++
                (numbering.mark.1.write (first :: rest)).2.flatMap
                  (paintIn labelStyle (theme.runStyle tag))) := by
            simp only [LineNumbering.readSegment, Transducer.run_append,
              Transducer.run_singleton, marks, paint]
            rw [← Theme.runStyle, body]
            simp
          -- The label in front of the run would have come with its first byte.
          have again : numbering.mark.1.mark.2 = [] := by rw [LineNumbering.mark_mark]
          have marked := LineNumbering.mark_write numbering (List.cons_ne_nil first [])
          rw [shown, flatMap_paintIn_write, List.map_cons, Segment.inks, Transducer.run_cons,
            Transducer.run_cons]
          simp only [drawInk, again, marked, List.flatMap_nil, List.nil_append, List.append_assoc]
          rfl

/-- A rendering is shown byte by byte. -/
theorem run_paint_readSegments (labelStyle : Style) (theme : Theme) (numbering : LineNumbering)
    {segments : List Segment} (nonempty : ∀ segment ∈ segments, segment.bytes ≠ []) :
    (paint labelStyle).run .plain ((LineNumbering.readSegment theme).run numbering segments).2 =
      (.plain,
        ((drawInk labelStyle).run numbering (segments.flatMap (Segment.inks theme))).2) := by
  induction segments generalizing numbering with
  | nil => rfl
  | cons segment rest inductionHypothesis =>
      have here : segment.bytes ≠ [] := nonempty segment List.mem_cons_self
      have others := inductionHypothesis (LineNumbering.readSegment theme numbering segment).1
        fun later member => nonempty later (List.mem_cons_of_mem _ member)
      have next : ((drawInk labelStyle).run numbering (segment.inks theme)).1 =
          (LineNumbering.readSegment theme numbering segment).1 := by
        rw [run_drawInk_state, Segment.map_byte_inks,
          (LineNumbering.readSegment_unbracketed theme numbering here).1]
      rw [Transducer.run_cons, Transducer.run_append,
        run_paint_readSegment labelStyle theme numbering here, others, List.flatMap_cons,
        Transducer.run_append, next]

/-! ### Line by line -/

theorem run_drawInk_disabled (labelStyle : Style) {numbering : LineNumbering}
    (disabled : numbering.enabled = false) (inked : List Ink) :
    ((drawInk labelStyle).run numbering inked).2 = inked.map Ink.cell := by
  have drawn : ∀ ink ∈ inked, drawInk labelStyle numbering ink = (numbering, [ink.cell]) := by
    intro ink _
    simp [drawInk, LineNumbering.write, LineNumbering.mark, disabled]
  rw [Transducer.run_of_fixed (drawInk labelStyle) _ drawn, List.map_eq_flatMap]

/-- A numbering in the given line, whose label is still to come or not. -/
def numberingAt (width line : Nat) (pending : Bool) : LineNumbering where
  enabled := true
  width := width
  line := line
  pending := pending

/-- After a byte, the numbering is at the start of the next line or still in this one. -/
theorem drawInk_numberingAt (labelStyle : Style) (width line : Nat) (pending : Bool)
    (ink : Ink) :
    drawInk labelStyle (numberingAt width line pending) ink =
      (if ink.byte = newline then numberingAt width (line + 1) true
        else numberingAt width line false,
        (if pending then labelCells (labelStyle.over ink.carried) line width else []) ++
          [ink.cell]) := by
  have marked : (numberingAt width line pending).mark =
      (numberingAt width line false, if pending then [.label line width] else []) := by
    cases pending <;> rfl
  have written : ((numberingAt width line pending).write [ink.byte]).1 =
      if ink.byte = newline then numberingAt width (line + 1) true
      else numberingAt width line false :=
    LineNumbering.fst_write_singleton rfl ink.byte
  rw [drawInk, written, marked]
  cases pending with
  | true => simp [paintIn, paint]
  | false => rfl

theorem inkLines_cons_of_newline {ink : Ink} (ends : ink.byte = newline) (rest : List Ink) :
    inkLines (ink :: rest) = [ink] :: inkLines rest := by
  have isEnd : ink.isNewline = true := beq_iff_eq.mpr ends
  exact cutAfter_cons_of_isEnd isEnd rest

theorem inkLines_cons_of_ne {ink : Ink} (inLine : ink.byte ≠ newline) (rest : List Ink) :
    inkLines (ink :: rest) =
      (ink :: (inkLines rest).head?.getD []) :: (inkLines rest).tail := by
  cases cut : inkLines rest with
  | nil =>
      have empty : rest = [] := by rw [← flatten_cutAfter rest, ← inkLines, cut]; rfl
      rw [empty]
      rfl
  | cons first others =>
      have goesOn : ink.isNewline = false := beq_false_of_ne inLine
      exact cutAfter_cons_of_not_isEnd goesOn cut

/-- At the start of a line, all lines are shown after their labels; inside of a line, all lines
but this one. -/
theorem run_drawInk_numberingAt (labelStyle : Style) (width line : Nat) (inked : List Ink) :
    ((drawInk labelStyle).run (numberingAt width line true) inked).2 =
        numberedCells labelStyle.over width line (inkLines inked) ∧
      ((drawInk labelStyle).run (numberingAt width line false) inked).2 =
        ((inkLines inked).head?.getD []).map Ink.cell ++
          numberedCells labelStyle.over width (line + 1) (inkLines inked).tail := by
  induction inked generalizing line with
  | nil => exact ⟨rfl, rfl⟩
  | cons ink rest inductionHypothesis =>
      rw [Transducer.run_cons, Transducer.run_cons, drawInk_numberingAt, drawInk_numberingAt]
      by_cases ends : ink.byte = newline
      · rw [if_pos ends, inkLines_cons_of_newline ends, (inductionHypothesis (line + 1)).1]
        exact ⟨rfl, rfl⟩
      · rw [if_neg ends, inkLines_cons_of_ne ends, (inductionHypothesis line).2,
          numberedCells_cons]
        simp [carriedInto]

/-! ### A rendering on the screen -/

/-- What a terminal shows of a rendering is what its segments say of every byte. -/
theorem run_read_render (source : Bytes) (found : List Match) (theme : Theme)
    (lineNumbers : Bool) (absent : escapeByte ∉ source) :
    Screen.read.run (.showing .plain) (render source found theme ⟨.terminal, lineNumbers⟩) =
      (.showing .plain,
        ((drawInk theme.labelStyle).run (.start source lineNumbers)
          (inks theme source (selected source.length (feedOrder found)))).2) := by
  have told := Walk.snd_complete theme source lineNumbers found
  have closed : openAfter ((Walk.start source lineNumbers).complete theme found).2 =
      some false := by
    rw [told]
    exact LineNumbering.openAfter_run_readSegment theme _ _
  have quiet : escapeByte ∉ textOf ((Walk.start source lineNumbers).complete theme found).2 := by
    rw [Walk.textOf_complete]
    exact absent
  have shown := run_read_write_closed theme.labelStyle _ closed quiet
  rw [told, run_paint_readSegments _ _ _ bytes_ne_nil_of_mem_segmentsOf,
    flatMap_inks_segmentsOf, ← told] at shown
  exact shown

/-- With line labels, a terminal shows the lines of the source after their labels, each of which is
in the label style on top of the run that it interrupts. -/
theorem run_read_render_numbered (source : Bytes) (found : List Match) (theme : Theme)
    (absent : escapeByte ∉ source) :
    Screen.read.run (.showing .plain) (render source found theme ⟨.terminal, true⟩) =
      (.showing .plain,
        numberedCells theme.labelStyle.over (labelWidth source) 1
          (inkLines (inks theme source (selected source.length (feedOrder found))))) := by
  have started : LineNumbering.start source true = numberingAt (labelWidth source) 1 true := rfl
  rw [run_read_render source found theme true absent, started, (run_drawInk_numberingAt _ _ 1 _).1]

/-- Every byte of the source is shown in the style of the selected capture that covers it, plain
when there is none, with line labels and without; and the terminal is plain in the end. -/
theorem run_read_render_owner (source : Bytes) (found : List Match) (theme : Theme)
    (absent : escapeByte ∉ source) :
    let taken := selected source.length (feedOrder found)
    let owned := inks theme source taken
    Screen.read.run (.showing .plain) (render source found theme ⟨.terminal, false⟩) =
        (.showing .plain, owned.map Ink.cell) ∧
      Screen.read.run (.showing .plain) (render source found theme ⟨.terminal, true⟩) =
        (.showing .plain,
          numberedCells theme.labelStyle.over (labelWidth source) 1 (inkLines owned)) ∧
      ∀ capture ∈ taken, ∀ position, capture.Covers position →
        styleAt theme taken position = theme.runStyle capture.tag := by
  intro taken owned
  have consecutive := consecutive_selected source.length (feedOrder found)
  refine ⟨?_, run_read_render_numbered source found theme absent, ?_⟩
  · rw [run_read_render source found theme false absent, run_drawInk_disabled _ rfl]
  · intro capture member position covers
    exact styleAt_of_mem_consecutive consecutive member covers

/-- A bold run over two lines that overlaps another capture: both of its lines are bold and
red. -/
theorem run_read_render_owner_across_lines :
    let boldRed : Style := ⟨.named .red, true, false, false⟩
    let source : Bytes := [0x61, newline, 0x62, 0x63]
    let found : List Match := [[⟨"string", 1, 4⟩, ⟨"keyword.control", 0, 3⟩]]
    escapeByte ∉ source ∧
      Screen.read.run (.showing .plain) (render source found Theme.standard ⟨.terminal, false⟩) =
        (.showing .plain, cells boldRed [0x61, newline, 0x62] ++ cells .plain [0x63]) := by
  have inOrder : feedOrder [[⟨"string", 1, 4⟩, ⟨"keyword.control", 0, 3⟩]] =
      [⟨"keyword.control", 0, 3⟩, ⟨"string", 1, 4⟩] := by
    simp [feedOrder, Match.inOrder, List.mergeSort, List.MergeSort.Internal.splitInTwo]
  have absent : escapeByte ∉ ([0x61, newline, 0x62, 0x63] : Bytes) := by decide
  intro boldRed source found
  refine ⟨absent, ?_⟩
  rw [(run_read_render_owner source found Theme.standard absent).1, inOrder]
  decide +kernel

end Terminal

end CodeHighlight
