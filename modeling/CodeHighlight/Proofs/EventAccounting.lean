/-
Module: CodeHighlight.Proofs.EventAccounting
Purpose: The counts of a rendering against what its matches hold and what its writer was told, after
  any number of matches and at the end.  A writer is told of one run for each capture that took its
  range, and of no others, so that the runs it opened and those it closed are as many as the captures
  that count as styled.
Main exports:
  Event.isOpening, brackets, Segment.brackets, LineNumbering.brackets_run_readSegment,
  Walk.brackets_fed, Walk.brackets_complete, perm_feedOrder, Walk.counts_agree
-/
import CodeHighlight.Proofs.CaptureAccounting
import CodeHighlight.Proofs.Layout
import Mathlib.Data.List.Perm.Basic

namespace CodeHighlight

/-! ### Runs that are opened and closed -/

/-- Whether the instruction opens a run. -/
def Event.isOpening : Event → Bool
  | openRun _ => true
  | _ => false

/-- The instructions that open or close a run. -/
def brackets (events : List Event) : List Event :=
  events.filter Event.isBracket

theorem brackets_append (first second : List Event) :
    brackets (first ++ second) = brackets first ++ brackets second :=
  List.filter_append ..

theorem countP_isOpening_brackets (events : List Event) :
    (brackets events).countP Event.isOpening = events.countP Event.isOpening := by
  rw [brackets, List.countP_filter]
  apply List.countP_congr
  intro event _
  cases event <;> simp [Event.isOpening, Event.isBracket]

theorem count_closeRun_brackets (events : List Event) :
    (brackets events).count .closeRun = events.count .closeRun :=
  List.count_filter rfl

theorem brackets_eq_nil {events : List Event}
    (inline : ∀ event ∈ events, event.isBracket = false) : brackets events = [] := by
  apply List.filter_eq_nil_iff.mpr
  intro event member
  rw [inline event member]
  exact Bool.false_ne_true

/-- A run over a tag: how it is opened and closed. -/
def Theme.runBrackets (theme : Theme) (tag : Tag) : List Event :=
  [.openRun (theme.tagStyle tag), .closeRun]

/-- How the runs of a segment are opened and closed: a tagged one is a run, a plain one is none. -/
def Segment.brackets (theme : Theme) : Segment → List Event
  | plain _ => []
  | tagged tag _ => theme.runBrackets tag

namespace LineNumbering

theorem brackets_readSegment (theme : Theme) (numbering : LineNumbering) (segment : Segment) :
    brackets (readSegment theme numbering segment).2 = segment.brackets theme := by
  cases segment with
  | plain bytes => exact brackets_eq_nil (isBracket_write numbering bytes)
  | tagged tag bytes =>
      have marked := brackets_eq_nil (isBracket_mark numbering)
      have written := brackets_eq_nil (isBracket_write numbering.mark.1 bytes)
      simp only [readSegment, brackets_append, marked, written]
      rfl

theorem brackets_run_readSegment (theme : Theme) (numbering : LineNumbering)
    (segments : List Segment) :
    brackets ((readSegment theme).run numbering segments).2 =
      segments.flatMap (Segment.brackets theme) :=
  Transducer.view_run (readSegment theme) brackets _ rfl brackets_append
    (brackets_readSegment theme) numbering segments

end LineNumbering

theorem flatMap_brackets_plainPiece (theme : Theme) (bytes : Bytes) :
    (plainPiece bytes).flatMap (Segment.brackets theme) = [] := by
  unfold plainPiece
  split
  · rfl
  · rfl

/-- The segments of taken captures have one run for each of the captures. -/
theorem flatMap_brackets_segmentsFrom (theme : Theme) (source : Bytes) (reach : Nat)
    (taken : List Capture) :
    (segmentsFrom source reach taken).flatMap (Segment.brackets theme) =
      taken.flatMap fun capture => theme.runBrackets capture.tag := by
  induction taken generalizing reach with
  | nil => rfl
  | cons capture rest inductionHypothesis =>
      rw [segmentsFrom, List.flatMap_append, flatMap_brackets_plainPiece, List.flatMap_cons,
        inductionHypothesis, List.flatMap_cons]
      rfl

/-- Of runs, as many are opened as there are, and as many are closed. -/
theorem count_runBrackets (theme : Theme) (taken : List Capture) :
    let runs := taken.flatMap fun capture => theme.runBrackets capture.tag
    runs.countP Event.isOpening = taken.length ∧ runs.count .closeRun = taken.length := by
  induction taken with
  | nil => exact ⟨rfl, rfl⟩
  | cons capture rest inductionHypothesis =>
      obtain ⟨opened, closed⟩ := inductionHypothesis
      constructor
      · rw [List.flatMap_cons, List.countP_append, opened, List.length_cons, Nat.add_comm]
        rfl
      · rw [List.flatMap_cons, List.count_append, closed, List.length_cons, Nat.add_comm]
        rfl

/-- Whoever is told of one run for each of some captures is told to open as many runs, and to close
as many. -/
theorem counts_of_brackets {theme : Theme} {taken : List Capture} {events : List Event}
    (runs : brackets events = taken.flatMap fun capture => theme.runBrackets capture.tag) :
    events.countP Event.isOpening = taken.length ∧ events.count .closeRun = taken.length := by
  rw [← countP_isOpening_brackets, ← count_closeRun_brackets, runs]
  exact count_runBrackets theme taken

/-! ### All captures that are read -/

/-- The captures that are read are those of the matches. -/
theorem perm_feedOrder (found : List Match) : (feedOrder found).Perm found.flatten := by
  have same : found.flatten = found.flatMap id := List.flatMap_id.symm
  rw [same]
  exact List.Perm.flatMap_left found fun captures _ => Match.perm_inOrder captures

namespace Walk

section Runs

variable (theme : Theme) (source : Bytes) (lineNumbers : Bool) (found : List Match)

/-- Between two matches, the writer was told of one run for each selected capture. -/
theorem brackets_fed :
    brackets (fed theme source lineNumbers found).2 =
      (selected source.length (feedOrder found)).flatMap fun capture =>
        theme.runBrackets capture.tag := by
  have moved := Resolution.advanced_run_readMatch (.start source) found
  rw [fed_eq, LineNumbering.brackets_run_readSegment, moved.segments_eq,
    flatMap_brackets_segmentsFrom, selected_eq_selectFrom]
  rfl

/-- In the end, the writer was told of the same runs. -/
theorem brackets_complete :
    brackets ((start source lineNumbers).complete theme found).2 =
      (selected source.length (feedOrder found)).flatMap fun capture =>
        theme.runBrackets capture.tag := by
  rw [snd_complete, LineNumbering.brackets_run_readSegment, segmentsOf, List.flatMap_append,
    flatMap_brackets_plainPiece, flatMap_brackets_segmentsFrom, selected_eq_selectFrom,
    List.append_nil]

/-- The end leaves the counts of the matches and captures as they are. -/
theorem toTally_complete :
    ((start source lineNumbers).complete theme found).1.toTally =
      (fed theme source lineNumbers found).1.1.tally := by
  rw [fed_eq, fst_complete]

end Runs

/-- After any number of matches the counts are these: all matches that were read; the captures that
are empty or leave the source, in whatever order they came; the runs that the writer was told to
open, which are as many as it was told to close; and every capture counted once.  At the end the
counts and the runs are the same, and the labels are counted that the writer was told of. -/
theorem counts_agree (theme : Theme) (source : Bytes) (lineNumbers : Bool)
    (found : List Match) :
    let reached := fed theme source lineNumbers found
    let counts := reached.1.1.tally
    let finished := (start source lineNumbers).complete theme found
    counts.matchCount = found.length ∧
      counts.invalid = (found.flatten.countP fun capture =>
        capture.stop ≤ capture.start ∨ source.length < capture.stop) ∧
      counts.styled = reached.2.countP Event.isOpening ∧
      counts.styled = reached.2.count .closeRun ∧
      counts.styled + counts.invalid + counts.overlapped = found.flatten.length ∧
      finished.1.toTally = counts ∧
      finished.1.styled = finished.2.countP Event.isOpening ∧
      finished.1.styled = finished.2.count .closeRun ∧
      finished.1.lineLabels = finished.2.countP Event.isLabel := by
  intro reached counts finished
  have told : finished.1.toTally = counts := toTally_complete theme source lineNumbers found
  have toldStyled : finished.1.styled = counts.styled := congrArg Tally.styled told
  have toldInvalid : finished.1.invalid = counts.invalid := congrArg Tally.invalid told
  have toldOverlapped : finished.1.overlapped = counts.overlapped :=
    congrArg Tally.overlapped told
  obtain ⟨matchCount, styled, invalid, total⟩ :=
    accounted_complete theme source lineNumbers found
  obtain ⟨opened, closed⟩ := counts_of_brackets (brackets_fed theme source lineNumbers found)
  obtain ⟨openedAtEnd, closedAtEnd⟩ :=
    counts_of_brackets (brackets_complete theme source lineNumbers found)
  have notValid : ∀ capture : Capture, ¬ capture.ValidFor source.length ↔
      capture.stop ≤ capture.start ∨ source.length < capture.stop := by
    intro capture
    unfold Capture.ValidFor
    omega
  refine ⟨?_, ?_, ?_, ?_, ?_, told, ?_, ?_, ?_⟩
  · rw [← told]
    exact matchCount
  · rw [← toldInvalid, invalid, (perm_feedOrder found).countP_eq]
    simp only [notValid]
  · rw [← toldStyled, styled, opened]
  · rw [← toldStyled, styled, closed]
  · rw [← toldStyled, ← toldInvalid, ← toldOverlapped, total, (perm_feedOrder found).length_eq]
  · rw [styled, openedAtEnd]
  · rw [styled, closedAtEnd]
  · rw [lineLabels_complete, length_placedLabels]

end Walk

end CodeHighlight
