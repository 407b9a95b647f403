/-
Module: CodeHighlight.Proofs.GreedyResolution
Purpose: What a writer is told of a source and its matches.  Labels aside, it is told of the
  greedily selected captures in order, each as a run after the gap before it, and of the rest of
  the source; at every point between two matches it has been told of the source up to the
  largest selected end.
Main exports:
  script, Walk.fed, Walk.snd_complete, Walk.fst_complete, Walk.textOf_complete,
  Walk.bytewise_unlabelled_complete, Walk.resolves_greedily
-/
import CodeHighlight.Proofs.LineLabels
import CodeHighlight.Proofs.Segmentation
import CodeHighlight.Rendering

namespace CodeHighlight

/-! ### The script -/

/-- Captures that take their ranges as instructions to a writer: for each the gap before it and
then a run with its bytes, and in the end what is left of the source. -/
def script (theme : Theme) (source : Bytes) (reach : Nat) : List Capture → List Event
  | [] => [.text (source.drop reach)]
  | capture :: rest =>
      .text (slice source reach capture.start) ::
        .openRun (theme.tagStyle capture.tag) ::
          .text (slice source capture.start capture.stop) ::
            .closeRun :: script theme source capture.stop rest

theorem bytewise_plainPiece (theme : Theme) (bytes : Bytes) :
    ((plainPiece bytes).flatMap fun segment => bytewise (segment.events theme)) =
      bytewise [.text bytes] := by
  unfold plainPiece
  split
  · rename_i empty
    rw [empty]
    rfl
  · exact List.append_nil _

/-- The script of captures is what their segments and the rest of the source tell. -/
theorem bytewise_script (theme : Theme) (source : Bytes) (reach : Nat) (taken : List Capture) :
    bytewise (script theme source reach taken) =
      (segmentsFrom source reach taken ++
          plainPiece (source.drop (reachAfter reach taken))).flatMap
        fun segment => bytewise (segment.events theme) := by
  induction taken generalizing reach with
  | nil => exact (bytewise_plainPiece theme _).symm
  | cons capture rest inductionHypothesis =>
      rw [segmentsFrom, reachAfter, List.append_assoc, List.cons_append, List.flatMap_append,
        List.flatMap_cons, bytewise_plainPiece, ← inductionHypothesis capture.stop]
      simp [script, Segment.events, bytewise]

namespace Walk

/-! ### A rendering up to the writer -/

/-- How far into the source a rendering has come. -/
def cursor (walk : Walk) : Nat :=
  walk.1.cursor

/-- A rendering that has read some matches, with what the writer was told. -/
def fed (theme : Theme) (source : Bytes) (lineNumbers : Bool) (found : List Match) :
    Walk × List Event :=
  (readMatch theme).run (start source lineNumbers) found

theorem fed_eq (theme : Theme) (source : Bytes) (lineNumbers : Bool) (found : List Match) :
    fed theme source lineNumbers found =
      (((Resolution.readMatch.run (.start source) found).1,
          ((LineNumbering.readSegment theme).run (.start source lineNumbers)
            (Resolution.readMatch.run (.start source) found).2).1),
        ((LineNumbering.readSegment theme).run (.start source lineNumbers)
          (Resolution.readMatch.run (.start source) found).2).2) :=
  Transducer.run_compose Resolution.readMatch (LineNumbering.readSegment theme) _ found

/-- The instructions of a rendering are those of its segments. -/
theorem snd_complete (theme : Theme) (source : Bytes) (lineNumbers : Bool)
    (found : List Match) :
    ((start source lineNumbers).complete theme found).2 =
      ((LineNumbering.readSegment theme).run (.start source lineNumbers)
        (segmentsOf source found)).2 := by
  have reached := fed_eq theme source lineNumbers found
  unfold fed at reached
  simp only [complete, finish, reached]
  rw [← run_readMatch_append_rest, Transducer.run_append]

/-- The statistics of a rendering are what its captures came to, and the labels that its segments
took. -/
theorem fst_complete (theme : Theme) (source : Bytes) (lineNumbers : Bool)
    (found : List Match) :
    ((start source lineNumbers).complete theme found).1 =
      { (Resolution.readMatch.run (.start source) found).1.tally with
        lineLabels := ((LineNumbering.readSegment theme).run (.start source lineNumbers)
          (segmentsOf source found)).1.labelsWritten } := by
  have reached := fed_eq theme source lineNumbers found
  unfold fed at reached
  simp only [complete, finish, reached]
  rw [← run_readMatch_append_rest, Transducer.run_append]

/-- A rendering tells a writer the whole source, in order. -/
theorem textOf_complete (theme : Theme) (source : Bytes) (lineNumbers : Bool)
    (found : List Match) :
    textOf ((start source lineNumbers).complete theme found).2 = source := by
  rw [snd_complete, LineNumbering.textOf_run_readSegment, bytes_segmentsOf]

/-- Labels aside, a rendering tells a writer the script of the selected captures. -/
theorem bytewise_unlabelled_complete (theme : Theme) (source : Bytes) (lineNumbers : Bool)
    (found : List Match) :
    bytewise (unlabelled ((start source lineNumbers).complete theme found).2) =
      bytewise (script theme source 0 (selected source.length (feedOrder found))) := by
  rw [snd_complete, LineNumbering.bytewise_unlabelled_run, bytewise_script,
    selected_eq_selectFrom]
  rfl

theorem cursor_fed (theme : Theme) (source : Bytes) (lineNumbers : Bool) (found : List Match) :
    (fed theme source lineNumbers found).1.cursor =
      furthestStop (selected source.length (feedOrder found)) := by
  rw [fed_eq, furthestStop_selected]
  exact (Resolution.advanced_run_readMatch (.start source) found).cursor_eq

theorem openAfter_fed (theme : Theme) (source : Bytes) (lineNumbers : Bool)
    (found : List Match) :
    openAfter (fed theme source lineNumbers found).2 = some false := by
  rw [fed_eq]
  exact LineNumbering.openAfter_run_readSegment theme _ _

theorem textOf_fed (theme : Theme) (source : Bytes) (lineNumbers : Bool) (found : List Match) :
    textOf (fed theme source lineNumbers found).2 =
      source.take (fed theme source lineNumbers found).1.cursor := by
  have moved := Resolution.advanced_run_readMatch (.start source) found
  have consecutive := consecutive_selectFrom source.length 0 (feedOrder found)
  have cursor : (fed theme source lineNumbers found).1.cursor =
      reachAfter 0 (selectFrom source.length 0 (feedOrder found)) := by
    rw [cursor_fed, furthestStop_selected]
  rw [cursor, fed_eq, LineNumbering.textOf_run_readSegment, moved.segments_eq]
  exact (bytes_segmentsFrom consecutive).trans (slice_zero source _)

/-- Between two matches the cursor stands at the largest selected end, which never moves back
or leaves the source; no run is open, and the text so far is the source up to the cursor.  In
the end, labels aside and however text was cut, the writer has been told the script of the
selected captures, and so every byte of the source once and in order. -/
theorem resolves_greedily (theme : Theme) (source : Bytes) (lineNumbers : Bool)
    (found : List Match) :
    let reached := fed theme source lineNumbers found
    let told := ((start source lineNumbers).complete theme found).2
    let taken := selected source.length (feedOrder found)
    reached.1.cursor = furthestStop taken ∧
      reached.1.cursor ≤ source.length ∧
      (∀ next, reached.1.cursor ≤ (fed theme source lineNumbers (found ++ [next])).1.cursor) ∧
      openAfter reached.2 = some false ∧
      textOf reached.2 = source.take reached.1.cursor ∧
      bytewise (unlabelled told) = bytewise (script theme source 0 taken) ∧
      textOf told = source := by
  intro reached told taken
  have inside : reached.1.cursor ≤ source.length := by
    rw [cursor_fed, furthestStop_selected]
    exact reachAfter_le (consecutive_selectFrom _ 0 _) (Nat.zero_le _)
  have forward : ∀ next,
      reached.1.cursor ≤ (fed theme source lineNumbers (found ++ [next])).1.cursor := by
    intro next
    rw [cursor_fed, cursor_fed, feedOrder_append]
    exact furthestStop_selected_le_append _ _ _
  exact ⟨cursor_fed theme source lineNumbers found, inside, forward,
    openAfter_fed theme source lineNumbers found, textOf_fed theme source lineNumbers found,
    bytewise_unlabelled_complete theme source lineNumbers found,
    textOf_complete theme source lineNumbers found⟩

end Walk

end CodeHighlight
