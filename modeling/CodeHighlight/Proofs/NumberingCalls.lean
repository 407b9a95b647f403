/-
Module: CodeHighlight.Proofs.NumberingCalls
Purpose: A line numbering under calls in any order: marks of the line, and bytes in any pieces.
  However text is cut, calls come to writing all their bytes at once, and to one mark more if a mark
  follows them.  So pieces of a text have the effect of the text, and the labels are those of the
  lines that were written, and at most one for a line that is yet to begin.
Main exports:
  LineNumbering.Call, LineNumbering.obey, LineNumbering.bytesOf, LineNumbering.SameEffect,
  LineNumbering.Piece, LineNumbering.sameEffect_pieces, LineNumbering.pieces_independent,
  LineNumbering.settled, LineNumbering.sameEffect_settled, LineNumbering.fst_write,
  LineNumbering.MarksAhead, LineNumbering.run_obey_start, LineNumbering.placedLabels_run_obey,
  LineNumbering.run_obey_of_disabled, LineNumbering.Labelled, LineNumbering.calls_labelled
-/
import CodeHighlight.Proofs.LabelColumn
import CodeHighlight.Proofs.Layout

namespace CodeHighlight.LineNumbering

/-! ### Calls -/

/-- What a numbering is told to do. -/
inductive Call where
  /-- Write the label of the line, if it is still to come. -/
  | mark
  | write (bytes : Bytes)
deriving Repr, DecidableEq

/-- The bytes that a call writes. -/
def Call.bytes : Call → Bytes
  | mark => []
  | write bytes => bytes

/-- Carries out a call. -/
def obey : Transducer LineNumbering Call Event
  | numbering, .mark => numbering.mark
  | numbering, .write bytes => numbering.write bytes

/-- The bytes that calls write, in order. -/
def bytesOf (calls : List Call) : Bytes :=
  calls.flatMap Call.bytes

/-!
### Calls with the same effect

Calls are compared by what they do to every numbering, up to how text is cut.  The comparison holds
within longer sequences of calls, so that calls can be replaced by simpler ones.
-/

/-- Calls that lead every numbering to the same state, and whose instructions differ at most in how
text is cut. -/
def SameEffect (first second : List Call) : Prop :=
  ∀ numbering, (obey.run numbering first).1 = (obey.run numbering second).1 ∧
    bytewise (obey.run numbering first).2 = bytewise (obey.run numbering second).2

namespace SameEffect

variable {first second third : List Call}

theorem refl (calls : List Call) : SameEffect calls calls :=
  fun _ => ⟨rfl, rfl⟩

theorem symm (same : SameEffect first second) : SameEffect second first :=
  fun numbering => ⟨(same numbering).1.symm, (same numbering).2.symm⟩

theorem trans (one : SameEffect first second) (two : SameEffect second third) :
    SameEffect first third :=
  fun numbering => ⟨(one numbering).1.trans (two numbering).1,
    (one numbering).2.trans (two numbering).2⟩

theorem append {fourth : List Call} (one : SameEffect first second)
    (two : SameEffect third fourth) : SameEffect (first ++ third) (second ++ fourth) := by
  intro numbering
  obtain ⟨state, events⟩ := one numbering
  obtain ⟨laterState, laterEvents⟩ := two (obey.run numbering second).1
  rw [Transducer.run_append, Transducer.run_append, state]
  refine ⟨laterState, ?_⟩
  rw [bytewise_append, bytewise_append, events, laterEvents]

end SameEffect

theorem sameEffect_write_nil : SameEffect [.write []] [] := by
  intro numbering
  rw [Transducer.run_singleton]
  exact write_nil numbering

theorem sameEffect_write_append (first second : Bytes) :
    SameEffect [.write first, .write second] [.write (first ++ second)] := by
  intro numbering
  obtain ⟨state, events⟩ := write_append numbering first second
  rw [Transducer.run_cons, Transducer.run_singleton, Transducer.run_singleton, bytewise_append]
  exact ⟨state.symm, events.symm⟩

theorem sameEffect_mark_mark : SameEffect [.mark, .mark] [.mark] := by
  intro numbering
  rw [Transducer.run_cons, Transducer.run_singleton, Transducer.run_singleton]
  simp [obey, mark_mark]

theorem sameEffect_mark_write {bytes : Bytes} (nonempty : bytes ≠ []) :
    SameEffect [.mark, .write bytes] [.write bytes] := by
  intro numbering
  rw [Transducer.run_cons, Transducer.run_singleton, Transducer.run_singleton]
  simp [obey, mark_write numbering nonempty]

/-! ### Pieces of a text -/

/-- A piece of a text as it is written.  A piece that is not empty may be marked before. -/
structure Piece where
  marks : Nat
  bytes : Bytes
  nonempty_of_marked : marks ≠ 0 → bytes ≠ []

/-- The marks before a piece, and then the piece. -/
def Piece.calls (piece : Piece) : List Call :=
  List.replicate piece.marks .mark ++ [.write piece.bytes]

theorem sameEffect_replicate_mark (marks : Nat) {bytes : Bytes}
    (nonempty : marks ≠ 0 → bytes ≠ []) :
    SameEffect (List.replicate marks .mark ++ [.write bytes]) [.write bytes] := by
  induction marks with
  | zero => exact SameEffect.refl _
  | succ marks inductionHypothesis =>
      have some : bytes ≠ [] := nonempty (Nat.succ_ne_zero marks)
      have fewer := (SameEffect.refl [.mark]).append (inductionHypothesis fun _ => some)
      exact fewer.trans (sameEffect_mark_write some)

/-- Pieces are written like the text that they make up. -/
theorem sameEffect_pieces (pieces : List Piece) :
    SameEffect (pieces.flatMap Piece.calls) [.write (pieces.flatMap Piece.bytes)] := by
  induction pieces with
  | nil => exact sameEffect_write_nil.symm
  | cons piece rest inductionHypothesis =>
      have first := sameEffect_replicate_mark piece.marks piece.nonempty_of_marked
      exact (first.append inductionHypothesis).trans (sameEffect_write_append _ _)

/-- However a text is cut into pieces, and whichever of them are marked before, a numbering comes to
the same state, and each writer appends the same bytes and comes to the same state as well. -/
theorem pieces_independent (numbering : LineNumbering) {first second : List Piece}
    (same : first.flatMap Piece.bytes = second.flatMap Piece.bytes) :
    let one := obey.run numbering (first.flatMap Piece.calls)
    let two := obey.run numbering (second.flatMap Piece.calls)
    one.1 = two.1 ∧
      (∀ labelStyle active,
        (Terminal.write labelStyle).run active one.2 =
          (Terminal.write labelStyle).run active two.2) ∧
      (∀ spanOpen, Markup.write.run spanOpen one.2 = Markup.write.run spanOpen two.2) := by
  intro one two
  have effect : SameEffect (first.flatMap Piece.calls) (second.flatMap Piece.calls) := by
    have whole := sameEffect_pieces first
    rw [same] at whole
    exact whole.trans (sameEffect_pieces second).symm
  obtain ⟨state, events⟩ := effect numbering
  refine ⟨state, ?_, ?_⟩
  · intro labelStyle active
    rw [← Terminal.run_write_bytewise, events, Terminal.run_write_bytewise]
  · intro spanOpen
    rw [← Markup.run_write_bytewise, events, Markup.run_write_bytewise]

/-- Cuts on both sides of a newline, an empty piece and marks make no difference. -/
theorem pieces_independent_around_newline :
    let first : List Piece :=
      [⟨1, [0x61], by decide⟩, ⟨0, [], by decide⟩, ⟨2, [newline], by decide⟩,
        ⟨1, [0x3C], by decide⟩]
    let second : List Piece := [⟨0, [0x61, newline, 0x3C], by decide⟩]
    let one := obey.run (start [] true) (first.flatMap Piece.calls)
    let two := obey.run (start [] true) (second.flatMap Piece.calls)
    first.flatMap Piece.bytes = second.flatMap Piece.bytes ∧ one.1 = two.1 ∧
      (∀ labelStyle active,
        (Terminal.write labelStyle).run active one.2 =
          (Terminal.write labelStyle).run active two.2) ∧
      (∀ spanOpen, Markup.write.run spanOpen one.2 = Markup.write.run spanOpen two.2) :=
  ⟨rfl, pieces_independent (start [] true) rfl⟩

/-! ### All calls -/

/-- Whether a mark follows all bytes that the calls write. -/
def marksEnd : List Call → Bool
  | [] => false
  | .mark :: rest => (bytesOf rest).isEmpty || marksEnd rest
  | .write _ :: rest => marksEnd rest

/-- Bytes at once, and after them a mark or none. -/
def settled (bytes : Bytes) (marked : Bool) : List Call :=
  .write bytes :: if marked then [.mark] else []

/-- A mark in front counts only if no byte follows it. -/
theorem sameEffect_mark_settled (bytes : Bytes) (marked : Bool) :
    SameEffect (.mark :: settled bytes marked) (settled bytes (bytes.isEmpty || marked)) := by
  cases bytes with
  | cons byte rest => exact (sameEffect_mark_write (List.cons_ne_nil byte rest)).append (.refl _)
  | nil =>
      have silent : SameEffect [.mark, .write []] [.write [], .mark] :=
        ((SameEffect.refl [.mark]).append sameEffect_write_nil).trans
          (sameEffect_write_nil.symm.append (.refl [.mark]))
      cases marked with
      | false => exact silent
      | true =>
          have once := (SameEffect.refl [.write []]).append sameEffect_mark_mark
          exact (silent.append (.refl [.mark])).trans once

/-- Calls come to writing their bytes at once, and to marking the line then if a mark follows. -/
theorem sameEffect_settled (calls : List Call) :
    SameEffect calls (settled (bytesOf calls) (marksEnd calls)) := by
  induction calls with
  | nil => exact sameEffect_write_nil.symm
  | cons call rest inductionHypothesis =>
      have later := (SameEffect.refl [call]).append inductionHypothesis
      cases call with
      | mark => exact later.trans (sameEffect_mark_settled _ _)
      | write bytes =>
          exact later.trans ((sameEffect_write_append bytes (bytesOf rest)).append (.refl _))

/-!
### Where the labels stand

A numbering that starts writes the lines of a text each after its label.  What follows the text
begins a line if the text is empty or ends with a newline; only then a mark adds a label.
-/

theorem fst_write {numbering : LineNumbering} (enabled : numbering.enabled = true) {bytes : Bytes}
    (nonempty : bytes ≠ []) :
    (numbering.write bytes).1 =
      { numbering with
        line := numbering.line + newlineCount bytes
        pending := endsLine bytes } := by
  induction bytes generalizing numbering with
  | nil => exact absurd rfl nonempty
  | cons byte rest inductionHypothesis =>
      have first : (numbering.write [byte]).1 =
          { numbering with
            line := numbering.line + newlineCount [byte]
            pending := endsLine [byte] } := by
        rw [fst_write_singleton enabled]
        by_cases ends : byte = newline
        · simp [ends, endsLine, newlineCount]
        · simp [ends, endsLine, newlineCount]
      rw [(write_cons numbering byte rest).1]
      by_cases last : rest = []
      · rw [last, (write_nil _).1, first]
      · have counted : newlineCount (byte :: rest) = newlineCount [byte] + newlineCount rest := by
          rw [← List.singleton_append]
          exact List.count_append
        rw [inductionHypothesis (by rw [first]; exact enabled) last, first, counted,
          endsLine_cons byte last, Nat.add_assoc]

/-- Whether what follows a text begins a line. -/
def ReachesLineStart (text : Bytes) : Prop :=
  text = [] ∨ endsLine text = true

instance (text : Bytes) : Decidable (ReachesLineStart text) :=
  inferInstanceAs (Decidable (text = [] ∨ endsLine text = true))

theorem length_lines_eq (text : Bytes) :
    (lines text).length = newlineCount text + if ReachesLineStart text then 0 else 1 :=
  length_lines text

/-- A text from the start on: its lines come each after its label. -/
theorem write_start (source text : Bytes) :
    (start source true).write text =
      ({ start source true with
          line := 1 + newlineCount text
          pending := decide (ReachesLineStart text) },
        labelledFrom (labelWidth source) 1 (lines text)) := by
  refine Prod.ext ?_ (write_start_true source text)
  by_cases empty : text = []
  · rw [empty, (write_nil _).1]
    rfl
  · have ends : decide (ReachesLineStart text) = endsLine text := by
      simp [ReachesLineStart, empty]
    rw [fst_write rfl empty, ends]
    rfl

/-- Calls that mark the line where it begins, and write no byte of it. -/
def MarksAhead (calls : List Call) : Prop :=
  ∃ before after, calls = before ++ .mark :: after ∧ ReachesLineStart (bytesOf before) ∧
    bytesOf after = []

theorem marksEnd_iff {calls : List Call} :
    marksEnd calls = true ↔
      ∃ before after, calls = before ++ .mark :: after ∧ bytesOf after = [] := by
  induction calls with
  | nil => simp [marksEnd]
  | cons call rest inductionHypothesis =>
      have later : (∃ before after, rest = before ++ .mark :: after ∧ bytesOf after = []) →
          ∃ before after, call :: rest = before ++ .mark :: after ∧ bytesOf after = [] := by
        rintro ⟨before, after, cut, silent⟩
        exact ⟨call :: before, after, by rw [cut]; rfl, silent⟩
      constructor
      · intro ends
        cases call with
        | write bytes => exact later (inductionHypothesis.mp ends)
        | mark =>
            rcases Bool.or_eq_true_iff.mp ends with silent | ends
            · exact ⟨[], rest, rfl, List.isEmpty_iff.mp silent⟩
            · exact later (inductionHypothesis.mp ends)
      · rintro ⟨before, after, cut, silent⟩
        cases before with
        | nil =>
            cases cut
            simp [marksEnd, silent]
        | cons first others =>
            cases cut
            have ends := inductionHypothesis.mpr ⟨others, after, rfl, silent⟩
            cases call with
            | write bytes => exact ends
            | mark => exact Bool.or_eq_true_iff.mpr (Or.inr ends)

theorem marksAhead_iff {calls : List Call} :
    MarksAhead calls ↔ marksEnd calls = true ∧ ReachesLineStart (bytesOf calls) := by
  have whole : ∀ before after, bytesOf after = [] →
      bytesOf (before ++ .mark :: after) = bytesOf before := by
    intro before after silent
    have cut : bytesOf (before ++ .mark :: after) = bytesOf before ++ bytesOf after :=
      List.flatMap_append
    rw [cut, silent, List.append_nil]
  rw [marksEnd_iff]
  constructor
  · rintro ⟨before, after, cut, reaches, silent⟩
    refine ⟨⟨before, after, cut, silent⟩, ?_⟩
    rw [cut, whole before after silent]
    exact reaches
  · rintro ⟨⟨before, after, cut, silent⟩, reaches⟩
    rw [cut, whole before after silent] at reaches
    exact ⟨before, after, cut, reaches, silent⟩

instance (calls : List Call) : Decidable (MarksAhead calls) :=
  decidable_of_iff _ marksAhead_iff.symm

/-! ### A numbering under calls -/

theorem run_settled (source text : Bytes) (marked : Bool) :
    obey.run (start source true) (settled text marked) =
      ({ start source true with
          line := 1 + newlineCount text
          pending := decide (ReachesLineStart text) && !marked },
        labelledFrom (labelWidth source) 1 (lines text) ++
          if marked = true ∧ ReachesLineStart text then
            [.label (1 + newlineCount text) (labelWidth source)]
          else []) := by
  unfold settled
  cases marked with
  | false => simp [Transducer.run_cons, obey, write_start]
  | true =>
      rw [if_pos rfl, Transducer.run_cons, Transducer.run_singleton]
      simp only [obey, write_start, mark]
      by_cases reaches : ReachesLineStart text
      · simp [start, reaches]
      · simp [start, reaches]

/-- Calls lead to the line after their newlines, whose label was written if a byte of it was or if
it was marked ahead.  The lines that they write come each after its label. -/
theorem run_obey_start (source : Bytes) (calls : List Call) :
    (obey.run (start source true) calls).1 =
        { start source true with
          line := 1 + newlineCount (bytesOf calls)
          pending := decide (ReachesLineStart (bytesOf calls) ∧ ¬ MarksAhead calls) } ∧
      bytewise (obey.run (start source true) calls).2 =
        bytewise (labelledFrom (labelWidth source) 1 (lines (bytesOf calls)) ++
          if MarksAhead calls then
            [.label (1 + newlineCount (bytesOf calls)) (labelWidth source)]
          else []) := by
  obtain ⟨state, events⟩ := sameEffect_settled calls (start source true)
  rw [state, events, run_settled]
  simp only [← marksAhead_iff]
  refine ⟨?_, trivial⟩
  congr 1
  by_cases reaches : ReachesLineStart (bytesOf calls)
  · simp [marksAhead_iff, reaches]
  · simp [reaches]

/-- The labels are those of the lines that were written, and one more if a line was marked ahead. -/
theorem placedLabels_run_obey (source : Bytes) (calls : List Call) :
    placedLabels (obey.run (start source true) calls).2 =
      labelsOver (labelWidth source) (bytesOf calls) ++
        if MarksAhead calls then
          [⟨(bytesOf calls).length, 1 + newlineCount (bytesOf calls), labelWidth source⟩]
        else [] := by
  have text := textOf_write (start source true) (bytesOf calls)
  rw [write_start] at text
  rw [← placedLabels_bytewise, (run_obey_start source calls).2, placedLabels_bytewise,
    placedLabels_append, text, placedLabels, run_readLabel_labelledFrom]
  congr 1
  · simp [labelsOver]
  · split <;> rfl

theorem textOf_run_obey (source : Bytes) (calls : List Call) :
    textOf (obey.run (start source true) calls).2 = bytesOf calls := by
  have text := textOf_write (start source true) (bytesOf calls)
  rw [write_start] at text
  rw [← textOf_bytewise, (run_obey_start source calls).2, textOf_bytewise, textOf_append, text]
  split <;> exact List.append_nil _

/-- The number of labels, which is read off the state, is that of the labels that were written. -/
theorem labelsWritten_run_obey (source : Bytes) (calls : List Call) :
    (obey.run (start source true) calls).1.labelsWritten =
      (placedLabels (obey.run (start source true) calls).2).length := by
  rw [placedLabels_run_obey, (run_obey_start source calls).1, List.length_append, labelsOver,
    List.length_map, List.length_range, length_lines_eq]
  by_cases ahead : MarksAhead calls
  · have reaches := (marksAhead_iff.mp ahead).2
    simp [labelsWritten, ahead, reaches, Nat.add_comm]
  · by_cases reaches : ReachesLineStart (bytesOf calls)
    · simp [labelsWritten, ahead, reaches]
    · simp [labelsWritten, ahead, reaches, Nat.add_comm]

/-- The labels are numbered from one on. -/
theorem map_line_run_obey (source : Bytes) (calls : List Call) :
    (placedLabels (obey.run (start source true) calls).2).map PlacedLabel.line =
      List.range' 1 (obey.run (start source true) calls).1.labelsWritten := by
  rw [labelsWritten_run_obey, placedLabels_run_obey, List.map_append, map_line_labelsOver,
    List.length_append, labelsOver, List.length_map, List.length_range]
  by_cases ahead : MarksAhead calls
  · have reaches := (marksAhead_iff.mp ahead).2
    have counted : (lines (bytesOf calls)).length = newlineCount (bytesOf calls) := by
      rw [length_lines_eq, if_pos reaches, Nat.add_zero]
    rw [if_pos ahead, List.length_singleton, List.range'_concat, counted]
    simp
  · simp [ahead]

/-- Among labels that are numbered one after another, no number comes twice. -/
theorem filter_line_eq_singleton {labels : List PlacedLabel} {first count index : Nat}
    {label : PlacedLabel} (numbered : labels.map PlacedLabel.line = List.range' first count)
    (found : labels[index]? = some label) :
    labels.filter (fun other => other.line == first + index) = [label] := by
  induction labels generalizing first count index with
  | nil => cases found
  | cons head rest inductionHypothesis =>
      cases count with
      | zero => cases numbered
      | succ count =>
          rw [List.map_cons, List.range'_succ, List.cons.injEq] at numbered
          obtain ⟨line, others⟩ := numbered
          cases index with
          | zero =>
              have same : head = label := Option.some.inj found
              have later : ∀ other ∈ rest, ¬ (other.line == first + 0) = true := by
                intro other member
                have number : other.line ∈ List.range' (first + 1) count := by
                  rw [← others]
                  exact List.mem_map_of_mem member
                have bounds := List.mem_range'_1.mp number
                simp
                omega
              rw [List.filter_cons_of_pos (by simp [line]), List.filter_eq_nil_iff.mpr later, same]
          | succ index =>
              have earlier : (head.line == first + (index + 1)) = false := by
                simp
                omega
              have shifted : first + (index + 1) = first + 1 + index := by omega
              rw [List.filter_cons, earlier, shifted]
              exact inductionHypothesis others found

/-- The label of a line that was written stands right before its first byte. -/
theorem getElem?_run_obey (source : Bytes) {calls : List Call} {before after : List Bytes}
    {line : Bytes} (cut : lines (bytesOf calls) = before ++ line :: after) :
    (placedLabels (obey.run (start source true) calls).2)[before.length]? =
      some ⟨before.flatten.length, before.length + 1, labelWidth source⟩ := by
  have inside : before.length < (labelsOver (labelWidth source) (bytesOf calls)).length := by
    rw [labelsOver, List.length_map, List.length_range, cut, List.length_append, List.length_cons]
    omega
  rw [placedLabels_run_obey, List.getElem?_append_left inside, labelsOver, List.getElem?_map,
    List.getElem?_range (by simpa [labelsOver] using inside), cut]
  simp

/-- Every line that was written has one label, which stands right before its first byte. -/
theorem filter_line_run_obey (source : Bytes) {calls : List Call} {before after : List Bytes}
    {line : Bytes} (cut : lines (bytesOf calls) = before ++ line :: after) :
    (placedLabels (obey.run (start source true) calls).2).filter
        (fun label => label.line == before.length + 1) =
      [⟨before.flatten.length, before.length + 1, labelWidth source⟩] := by
  have found := getElem?_run_obey source cut
  rw [Nat.add_comm before.length 1] at found ⊢
  exact filter_line_eq_singleton (map_line_run_obey source calls) found

/-- A label stands before a line that has a byte, unless it is the last one and was marked ahead. -/
theorem line_or_ahead_run_obey (source : Bytes) {calls : List Call} {label : PlacedLabel}
    (member : label ∈ placedLabels (obey.run (start source true) calls).2) :
    label.width = labelWidth source ∧
      ((∃ before line after, lines (bytesOf calls) = before ++ line :: after ∧ line ≠ [] ∧
          label.offset = before.flatten.length ∧ label.line = before.length + 1) ∨
        MarksAhead calls ∧
          (placedLabels (obey.run (start source true) calls).2).getLast? = some label ∧
          label.offset = (bytesOf calls).length ∧
          label.line = (lines (bytesOf calls)).length + 1) := by
  rw [placedLabels_run_obey] at member ⊢
  rcases List.mem_append.mp member with written | extra
  · obtain ⟨width, before⟩ := line_of_mem_labelsOver written
    exact ⟨width, Or.inl before⟩
  · by_cases ahead : MarksAhead calls
    · rw [if_pos ahead] at extra ⊢
      have counted : (lines (bytesOf calls)).length = newlineCount (bytesOf calls) := by
        rw [length_lines_eq, if_pos (marksAhead_iff.mp ahead).2, Nat.add_zero]
      rw [List.mem_singleton.mp extra, counted, Nat.add_comm]
      exact ⟨rfl, Or.inr ⟨ahead, List.getLast?_concat, rfl, rfl⟩⟩
    · rw [if_neg ahead] at extra
      cases extra

/-- What passes when lines are not numbered. -/
def Call.passed : Call → List Event
  | mark => []
  | write bytes => [.text bytes]

theorem run_obey_of_disabled {numbering : LineNumbering} (disabled : numbering.enabled = false)
    (calls : List Call) : obey.run numbering calls = (numbering, calls.flatMap Call.passed) := by
  apply Transducer.run_of_fixed
  intro call _
  cases call with
  | mark => simp [obey, mark, disabled, Call.passed]
  | write bytes => exact write_of_disabled disabled bytes

/-- What a numbering of a source has come to after calls, and what it has told by then. -/
structure Labelled (source : Bytes) (calls : List Call) (reached : LineNumbering × List Event) :
    Prop where
  width_eq : reached.1.width = labelWidth source
  line_eq : reached.1.line = 1 + newlineCount (bytesOf calls)
  textOf_eq : textOf reached.2 = bytesOf calls
  map_line :
    (placedLabels reached.2).map PlacedLabel.line = List.range' 1 reached.1.labelsWritten
  map_width : ∀ label ∈ placedLabels reached.2, label.width = reached.1.width
  /-- Another label than those of the lines that were written is that of the state's line. -/
  placedLabels_eq :
    placedLabels reached.2 = labelsOver reached.1.width (bytesOf calls) ++
      if MarksAhead calls then [⟨(bytesOf calls).length, reached.1.line, reached.1.width⟩] else []
  /-- Every line has one label, after all bytes of the lines before it and before its own. -/
  filter_line : ∀ {before line after}, lines (bytesOf calls) = before ++ line :: after →
    (placedLabels reached.2).filter (fun label => label.line == before.length + 1) =
      [⟨before.flatten.length, before.length + 1, reached.1.width⟩]
  /-- Only the last label can be that of a line without a byte. -/
  line_or_ahead : ∀ label ∈ placedLabels reached.2,
    (∃ before line after, lines (bytesOf calls) = before ++ line :: after ∧ line ≠ [] ∧
        label.offset = before.flatten.length ∧ label.line = before.length + 1) ∨
      MarksAhead calls ∧ (placedLabels reached.2).getLast? = some label ∧
        label.offset = (bytesOf calls).length ∧ label.line = (lines (bytesOf calls)).length + 1

/-- After any calls, whatever they write, the labels are numbered from one on as far as the state
says, are equally wide, and stand before the lines that were written, one before each.  Another one
comes last if a line was marked where it begins and no byte of it was written.  Without numbering
there is no label, and what is written passes. -/
theorem calls_labelled (source : Bytes) (calls : List Call) :
    let silent := obey.run (start source false) calls
    Labelled source calls (obey.run (start source true) calls) ∧
      silent.1.labelsWritten = 0 ∧ silent.2 = calls.flatMap Call.passed ∧
        ∀ event ∈ silent.2, event.isLabel = false := by
  intro silent
  have passes : silent = (start source false, calls.flatMap Call.passed) :=
    run_obey_of_disabled rfl calls
  have reached := (run_obey_start source calls).1
  have width : (obey.run (start source true) calls).1.width = labelWidth source := by
    rw [reached]
    rfl
  constructor
  · exact {
      width_eq := width
      line_eq := by rw [reached]
      textOf_eq := textOf_run_obey source calls
      map_line := map_line_run_obey source calls
      map_width := fun label member => by rw [width, (line_or_ahead_run_obey source member).1]
      placedLabels_eq := by rw [width, reached, placedLabels_run_obey]
      filter_line := fun cut => by rw [width, filter_line_run_obey source cut]
      line_or_ahead := fun label member => (line_or_ahead_run_obey source member).2 }
  · rw [passes]
    refine ⟨rfl, rfl, ?_⟩
    intro event member
    obtain ⟨call, _, passed⟩ := List.mem_flatMap.mp member
    cases call with
    | mark => cases passed
    | write bytes =>
        rw [List.mem_singleton.mp passed]
        rfl

example :
    placedLabels (obey.run (start [] true) [.mark, .write [0x61, newline], .mark, .write []]).2 =
      [⟨0, 1, 4⟩, ⟨2, 2, 4⟩] := by
  decide +kernel

end CodeHighlight.LineNumbering
