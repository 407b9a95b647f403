/-
Module: CodeHighlight.Proofs.ThemeIndependence
Purpose: What a theme and a writer have no influence on.  Renderings of one source under two themes
  tell their writers the same but for colors, and markup shows no colors; the statistics come from
  the source and the matches alone, but for the line labels, which are counted when there are any.
Main exports:
  TagStyle.withoutColors, Event.withoutColors, Theme.withoutColors_tagStyle,
  Walk.withoutColors_complete, Markup.run_write_withoutColors, statistics_eq,
  render_independent
-/
import CodeHighlight.Proofs.CaptureAccounting
import CodeHighlight.Proofs.Layout

namespace CodeHighlight

/-! ### Colors aside -/

/-- The look of a run as far as a theme does not decide about it. -/
def TagStyle.withoutColors (style : TagStyle) : TagStyle :=
  { style with terminal := .plain, color := none }

/-- The instruction as far as a theme does not decide about it. -/
def Event.withoutColors : Event → Event
  | openRun style => openRun style.withoutColors
  | event => event

/-- Themes look up the same classes for a tag. -/
theorem Theme.withoutColors_tagStyle (first second : Theme) (tag : Tag) :
    (first.tagStyle tag).withoutColors = (second.tagStyle tag).withoutColors := by
  cases classes : Tag.classify tag <;>
    simp [Theme.tagStyle, classes, TagStyle.withoutColors, TagStyle.fallback]

namespace LineNumbering

/-- A segment is numbered alike under any two themes, and told alike but for its colors. -/
theorem withoutColors_readSegment (first second : Theme) (numbering : LineNumbering)
    (segment : Segment) :
    (readSegment first numbering segment).1 = (readSegment second numbering segment).1 ∧
      (readSegment first numbering segment).2.map Event.withoutColors =
        (readSegment second numbering segment).2.map Event.withoutColors := by
  cases segment with
  | plain bytes => exact ⟨rfl, rfl⟩
  | tagged tag bytes =>
      refine ⟨rfl, ?_⟩
      simp [readSegment, Event.withoutColors, Theme.withoutColors_tagStyle first second tag]

end LineNumbering

namespace Walk

variable (first second : Theme) (source : Bytes) (lineNumbers : Bool) (found : List Match)

/-- A rendering tells a writer the same under any two themes, but for the colors. -/
theorem withoutColors_complete :
    ((start source lineNumbers).complete first found).2.map Event.withoutColors =
      ((start source lineNumbers).complete second found).2.map Event.withoutColors := by
  rw [snd_complete, snd_complete]
  exact (Transducer.run_agree _ _ Event.withoutColors
    (LineNumbering.withoutColors_readSegment first second) _ _).2

end Walk

namespace Markup

/-- Markup shows no colors. -/
theorem write_withoutColors (spanOpen : Writer) (event : Event) :
    write spanOpen event.withoutColors = write spanOpen event := by
  cases event <;> rfl

theorem run_write_withoutColors (spanOpen : Writer) (events : List Event) :
    write.run spanOpen (events.map Event.withoutColors) = write.run spanOpen events := by
  induction events generalizing spanOpen with
  | nil => rfl
  | cons event rest inductionHypothesis =>
      rw [List.map_cons, Transducer.run_cons, Transducer.run_cons, write_withoutColors,
        inductionHypothesis]

theorem render_eq_of_themes (first second : Theme) (source : Bytes) (lineNumbers : Bool)
    (found : List Match) :
    render source found first ⟨.markup, lineNumbers⟩ =
      render source found second ⟨.markup, lineNumbers⟩ := by
  have written : ∀ theme, render source found theme ⟨.markup, lineNumbers⟩ =
      (write.run false (((Walk.start source lineNumbers).complete theme found).2.map
        Event.withoutColors)).2 := by
    intro theme
    rw [run_write_withoutColors]
    rfl
  rw [written first, written second, Walk.withoutColors_complete first second]

end Markup

/-! ### Statistics -/

/-- The statistics are the counts of the resolution, and one label for each line when lines are
numbered. -/
theorem statistics_eq (source : Bytes) (found : List Match) (theme : Theme)
    (settings : RenderSettings) :
    (renderWithStatistics source found theme settings).2 =
      { (Resolution.readMatch.run (.start source) found).1.tally with
        lineLabels := if settings.lineNumbers then (lines source).length else 0 } := by
  have labels : ((Walk.start source settings.lineNumbers).complete theme found).1.lineLabels =
      if settings.lineNumbers then (lines source).length else 0 := by
    rw [Walk.lineLabels_complete, Walk.placedLabels_complete, apply_ite List.length,
      length_lineLabels]
    rfl
  have told : (renderWithStatistics source found theme settings).2 =
      ((Walk.start source settings.lineNumbers).complete theme found).1 := rfl
  rw [told]
  rw [Walk.fst_complete] at labels ⊢
  rw [← labels]

/-- Two themes give the same markup, byte for byte.  The statistics are the same for any two themes
and for both formats, and without line numbers they only lack the labels.  Whatever the theme and
the format, the writer is told of runs over the ranges of the selected captures, of labels at the
beginnings of the lines if they are numbered, and of the source; and of two themes it is told the
same but for colors. -/
theorem render_independent (source : Bytes) (found : List Match) :
    (∀ lineNumbers (first second : Theme),
        render source found first ⟨.markup, lineNumbers⟩ =
          render source found second ⟨.markup, lineNumbers⟩) ∧
      (∀ lineNumbers (first second : Theme) (format other : OutputFormat),
        (renderWithStatistics source found first ⟨format, lineNumbers⟩).2 =
          (renderWithStatistics source found second ⟨other, lineNumbers⟩).2) ∧
      (∀ (theme : Theme) (format : OutputFormat),
        (renderWithStatistics source found theme ⟨format, false⟩).2 =
          { (renderWithStatistics source found theme ⟨format, true⟩).2 with lineLabels := 0 }) ∧
      (∀ lineNumbers (theme : Theme) (format : OutputFormat),
        let told := ((Walk.start source lineNumbers).complete theme found).2
        render source found theme ⟨format, lineNumbers⟩ = writeEvents theme told format ∧
          textOf told = source ∧
          runRanges told = (selected source.length (feedOrder found)).map Capture.range ∧
          placedLabels told = (if lineNumbers then lineLabels source else []) ∧
          ∀ other : Theme, told.map Event.withoutColors =
            ((Walk.start source lineNumbers).complete other found).2.map Event.withoutColors) := by
  refine ⟨?_, ?_, ?_, ?_⟩
  · intro lineNumbers first second
    exact Markup.render_eq_of_themes first second source lineNumbers found
  · intro lineNumbers first second format other
    rw [statistics_eq, statistics_eq]
  · intro theme format
    rw [statistics_eq, statistics_eq]
    rfl
  · intro lineNumbers theme format told
    exact ⟨rfl, Walk.textOf_complete theme source lineNumbers found,
      Walk.runRanges_complete theme source lineNumbers found,
      Walk.placedLabels_complete theme source lineNumbers found,
      fun other => Walk.withoutColors_complete theme other source lineNumbers found⟩

end CodeHighlight
