/-
Module: CodeHighlight.Proofs.MatchOrder
Purpose: What the order of the captures in a match means.  A match is read by the starts of its
  captures, so that only the order of captures with the same start is seen: matches that agree in
  it are read alike, one capture after another.
Main exports:
  Match.Rearranges, Match.eq_inOrder_iff, Match.Rearranges.inOrder_eq,
  Walk.run_readMatch_rearranged, render_rearranged
-/
import CodeHighlight.Proofs.StableOrder
import CodeHighlight.Rendering
import CodeHighlight.Theme.Builtin

namespace CodeHighlight

namespace Match

/-- The captures of a match in another order, in which those with the same start stand as they
did. -/
structure Rearranges (other captures : Match) : Prop where
  perm : other.Perm captures
  filter_start_eq : ∀ start, (other.filter fun capture => capture.start = start) =
    captures.filter fun capture => capture.start = start

/-- The reading order is the one rearrangement by starts. -/
theorem eq_inOrder_iff {captures sorted : Match} :
    sorted = captures.inOrder ↔
      sorted.Rearranges captures ∧
        sorted.Pairwise fun first second => first.start ≤ second.start := by
  constructor
  · intro same
    obtain ⟨perm, ordered, alike⟩ := (eq_sortedBy_iff Capture.start).mp same
    exact ⟨⟨perm, alike⟩, ordered⟩
  · rintro ⟨⟨perm, alike⟩, ordered⟩
    exact (eq_sortedBy_iff Capture.start).mpr ⟨perm, ordered, alike⟩

theorem Rearranges.trans {first second third : Match} (one : first.Rearranges second)
    (two : second.Rearranges third) : first.Rearranges third where
  perm := one.perm.trans two.perm
  filter_start_eq start := (one.filter_start_eq start).trans (two.filter_start_eq start)

/-- A rearranged match has the same reading order. -/
theorem Rearranges.inOrder_eq {other captures : Match} (rearranged : other.Rearranges captures) :
    other.inOrder = captures.inOrder := by
  obtain ⟨sorts, ordered⟩ := eq_inOrder_iff.mp (rfl : other.inOrder = other.inOrder)
  exact eq_inOrder_iff.mpr ⟨sorts.trans rearranged, ordered⟩

end Match

/-- A match is read as its reading order. -/
theorem Walk.readMatch_rearranged {other captures : Match} (rearranged : other.Rearranges captures)
    (theme : Theme) (walk : Walk) :
    readMatch theme walk other = readMatch theme walk captures := by
  have resolved : Resolution.readMatch walk.1 other = Resolution.readMatch walk.1 captures := by
    simp only [Resolution.readMatch, rearranged.inOrder_eq]
  simp only [readMatch, Transducer.compose, resolved]

/-- Matches of which each is rearranged are read alike, one after another. -/
theorem Walk.run_readMatch_rearranged {other found : List Match}
    (rearranged : List.Forall₂ Match.Rearranges other found) (theme : Theme) (walk : Walk) :
    (readMatch theme).run walk other = (readMatch theme).run walk found := by
  induction rearranged generalizing walk with
  | nil => rfl
  | cons first _ inductionHypothesis =>
      rw [Transducer.run_cons, Transducer.run_cons, readMatch_rearranged first,
        inductionHypothesis]

/-- Captures are read in the one order of their match that goes by starts and leaves captures with
the same start as they stood.  So captures may be moved within their matches, as long as those with
the same start stay in order: the output and the statistics are the same. -/
theorem render_rearranged :
    (∀ captures sorted : Match, sorted = captures.inOrder ↔
      sorted.Perm captures ∧
        (sorted.Pairwise fun first second => first.start ≤ second.start) ∧
        ∀ start, (sorted.filter fun capture => capture.start = start) =
          captures.filter fun capture => capture.start = start) ∧
      ∀ (source : Bytes) (found other : List Match) (theme : Theme) (settings : RenderSettings),
        List.Forall₂ Match.Rearranges other found →
          renderWithStatistics source other theme settings =
            renderWithStatistics source found theme settings := by
  refine ⟨fun captures sorted => eq_sortedBy_iff Capture.start, ?_⟩
  intro source found other theme settings rearranged
  have told : (Walk.start source settings.lineNumbers).complete theme other =
      (Walk.start source settings.lineNumbers).complete theme found := by
    simp only [Walk.complete, Walk.run_readMatch_rearranged rearranged]
  simp only [renderWithStatistics, told]

/-- Two captures with one start keep their order while a third one moves from behind them to the
front. -/
theorem render_rearranged_equal_starts :
    let source := Utf8.encode "f(x)"
    let found : List Match :=
      [[⟨"function", 0, 4⟩, ⟨"function.builtin", 0, 1⟩, ⟨"variable", 2, 3⟩]]
    let other : List Match :=
      [[⟨"variable", 2, 3⟩, ⟨"function", 0, 4⟩, ⟨"function.builtin", 0, 1⟩]]
    List.Forall₂ Match.Rearranges other found ∧
      renderWithStatistics source other Theme.standard ⟨.markup, true⟩ =
        renderWithStatistics source found Theme.standard ⟨.markup, true⟩ := by
  intro source found other
  have rearranged : List.Forall₂ Match.Rearranges other found := by
    refine .cons ⟨by decide, ?_⟩ .nil
    intro start
    simp only [List.filter_cons, List.filter_nil]
    by_cases front : start = 0
    · subst front
      rfl
    · simp [Ne.symm front]
  exact ⟨rearranged, render_rearranged.2 source found other Theme.standard ⟨.markup, true⟩ rearranged⟩

end CodeHighlight
