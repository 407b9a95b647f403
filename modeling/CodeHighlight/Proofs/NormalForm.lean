/-
Module: CodeHighlight.Proofs.NormalForm
Purpose: Only the captures that take their ranges matter.  A capture with another fate leaves
  everything but its count as it was, so it may as well not be there, and those that are styled may
  stand alone or in any grouping.
Main exports:
  winners, winners_eq, fatesFrom_of_consecutive, selectFrom_of_consecutive, Marked, Marked.whole,
  Marked.remaining, Marked.order, Marked.selectFrom_stays, withoutInvalid, statistics_eq_fates,
  render_of_flatten_eq_winners, renderWithStatistics_winners, render_of_withoutInvalid_eq,
  render_remaining, render_normalForm
-/
import CodeHighlight.Proofs.NestedCaptures
import CodeHighlight.Proofs.StableOrder
import CodeHighlight.Proofs.ThemeIndependence

namespace CodeHighlight

/-! ### Winners -/

/-- The captures that are styled, in the order in which they are read. -/
def winners (source : Bytes) (found : List Match) : List Capture :=
  (((feedOrder found).zip (fates source found)).filter fun judged =>
    judged.2 = .styled).map Prod.fst

/-- The captures that are styled are those that the rule takes. -/
theorem filter_zip_fatesFrom (size reach : Nat) (captures : List Capture) :
    ((captures.zip (fatesFrom size reach captures)).filter fun judged =>
        judged.2 = .styled).map Prod.fst =
      selectFrom size reach captures := by
  induction captures generalizing reach with
  | nil => rfl
  | cons capture rest inductionHypothesis =>
      by_cases taken : fateAt size reach capture = .styled
      · rw [fatesFrom_cons_of_fateAt_eq taken, selectFrom_cons_of_fateAt_eq taken,
          List.zip_cons_cons, List.filter_cons_of_pos (by simp), List.map_cons,
          inductionHypothesis]
      · rw [fatesFrom_cons_of_fateAt_ne taken, selectFrom_cons_of_fateAt_ne taken,
          List.zip_cons_cons, List.filter_cons_of_neg (by simpa using taken),
          inductionHypothesis]

theorem winners_eq (source : Bytes) (found : List Match) :
    winners source found = selected source.length (feedOrder found) := by
  rw [winners, fates_eq, filter_zip_fatesFrom, selected_eq_selectFrom]

/-! ### Winners alone -/

/-- Consecutive captures are all styled. -/
theorem fatesFrom_of_consecutive {size reach : Nat} {taken : List Capture}
    (consecutive : Consecutive size reach taken) :
    fatesFrom size reach taken = taken.map fun _ => .styled := by
  induction taken generalizing reach with
  | nil => rfl
  | cons capture rest inductionHypothesis =>
      obtain ⟨begins, valid, follows⟩ := consecutive
      have styled : fateAt size reach capture = .styled :=
        fateAt_eq_styled_iff.mpr ⟨valid, begins⟩
      rw [fatesFrom_cons_of_fateAt_eq styled, inductionHypothesis follows, List.map_cons]

theorem selectFrom_of_consecutive {size reach : Nat} {taken : List Capture}
    (consecutive : Consecutive size reach taken) : selectFrom size reach taken = taken := by
  induction taken generalizing reach with
  | nil => rfl
  | cons capture rest inductionHypothesis =>
      obtain ⟨begins, valid, follows⟩ := consecutive
      rw [selectFrom, if_pos ⟨valid, begins⟩, inductionHypothesis follows]

theorem pairwise_start_of_consecutive {size reach : Nat} {taken : List Capture}
    (consecutive : Consecutive size reach taken) :
    taken.Pairwise fun first second => first.start ≤ second.start := by
  induction taken generalizing reach with
  | nil => exact List.Pairwise.nil
  | cons capture rest inductionHypothesis =>
      obtain ⟨_, valid, follows⟩ := consecutive
      refine List.pairwise_cons.mpr ⟨?_, inductionHypothesis follows⟩
      intro other member
      exact Nat.le_trans (Nat.le_of_lt valid.1) (le_start_of_mem_consecutive follows other member)

/-- The winners are read in their order, however they are grouped. -/
theorem feedOrder_of_flatten_eq_winners {source : Bytes} {found groups : List Match}
    (grouped : groups.flatten = winners source found) :
    feedOrder groups = selected source.length (feedOrder found) := by
  rw [winners_eq] at grouped
  rw [feedOrder_of_pairwise_flatten, grouped]
  rw [grouped]
  exact pairwise_start_of_consecutive (consecutive_selected _ _)

/-! ### The others left out -/

/-- A capture of a match, and whether it stays when others are left out. -/
structure Marked where
  capture : Capture
  stays : Bool
deriving Repr, DecidableEq

namespace Marked

/-- The matches with all their captures. -/
def whole (marked : List (List Marked)) : List Match :=
  marked.map fun captures => captures.map capture

/-- The matches with the captures that stay. -/
def remaining (marked : List (List Marked)) : List Match :=
  marked.map fun captures => (captures.filter stays).map capture

/-- The captures in the order in which they are read. -/
def order (marked : List (List Marked)) : List Marked :=
  marked.flatMap (sortedBy (·.capture.start))

theorem map_capture_sortedBy (captures : List Marked) :
    (sortedBy (·.capture.start) captures).map capture = Match.inOrder (captures.map capture) :=
  map_sortedBy (·.capture.start) Capture.start capture (fun _ _ => Iff.rfl) captures

theorem feedOrder_whole (marked : List (List Marked)) :
    feedOrder (whole marked) = (order marked).map capture := by
  rw [feedOrder, whole, order, List.map_flatMap, List.flatMap_map]
  apply List.flatMap_congr
  intro captures _
  exact (map_capture_sortedBy captures).symm

theorem feedOrder_remaining (marked : List (List Marked)) :
    feedOrder (remaining marked) = ((order marked).filter stays).map capture := by
  rw [feedOrder, remaining, order, List.filter_flatMap, List.map_flatMap, List.flatMap_map]
  apply List.flatMap_congr
  intro captures _
  rw [filter_sortedBy]
  exact (map_capture_sortedBy _).symm

/-- The same captures are taken when others than those are left out. -/
theorem selectFrom_stays {size reach : Nat} {captures : List Marked}
    (stay : ∀ judged ∈ captures.zip (fatesFrom size reach (captures.map capture)),
      judged.2 = .styled → judged.1.stays = true) :
    selectFrom size reach ((captures.filter stays).map capture) =
      selectFrom size reach (captures.map capture) := by
  induction captures generalizing reach with
  | nil => rfl
  | cons first rest inductionHypothesis =>
      rw [List.map_cons] at stay ⊢
      by_cases taken : fateAt size reach first.capture = .styled
      · rw [fatesFrom_cons_of_fateAt_eq taken, List.zip_cons_cons] at stay
        have others := inductionHypothesis fun judged member =>
          stay judged (List.mem_cons_of_mem _ member)
        rw [List.filter_cons_of_pos (stay (first, .styled) List.mem_cons_self rfl),
          List.map_cons, selectFrom_cons_of_fateAt_eq taken, selectFrom_cons_of_fateAt_eq taken,
          others]
      · rw [fatesFrom_cons_of_fateAt_ne taken, List.zip_cons_cons] at stay
        have others := inductionHypothesis fun judged member =>
          stay judged (List.mem_cons_of_mem _ member)
        rw [selectFrom_cons_of_fateAt_ne taken, List.filter_cons]
        split
        · rw [List.map_cons, selectFrom_cons_of_fateAt_ne taken, others]
        · exact others

end Marked

/-- The matches without their invalid captures, and without matches that have no captures. -/
def withoutInvalid (size : Nat) (found : List Match) : List Match :=
  (found.map (List.filter fun capture => capture.ValidFor size)).filter (· ≠ [])

theorem feedOrder_withoutInvalid (size : Nat) (found : List Match) :
    feedOrder (withoutInvalid size found) =
      (feedOrder found).filter fun capture => capture.ValidFor size := by
  rw [withoutInvalid, feedOrder_filter_ne_nil, feedOrder_map_filter]

/-! ### A rendering -/

/-- Matches that select the same captures give the same output. -/
theorem render_eq_of_selected_eq {source : Bytes} {found other : List Match}
    (same : selected source.length (feedOrder other) = selected source.length (feedOrder found))
    (theme : Theme) (settings : RenderSettings) :
    render source other theme settings = render source found theme settings := by
  have segments : segmentsOf source other = segmentsOf source found := by
    rw [selected_eq_selectFrom, selected_eq_selectFrom] at same
    rw [segmentsOf, segmentsOf, same]
  have told : ((Walk.start source settings.lineNumbers).complete theme other).2 =
      ((Walk.start source settings.lineNumbers).complete theme found).2 := by
    rw [Walk.snd_complete, Walk.snd_complete, segments]
  exact congrArg (fun events => writeEvents theme events settings.format) told

theorem statistics_eq_fates (source : Bytes) (found : List Match) (theme : Theme)
    (settings : RenderSettings) :
    (renderWithStatistics source found theme settings).2 =
      { Tally.counting ⟨found.length, 0, 0, 0⟩ (fates source found) with
        lineLabels := if settings.lineNumbers then (lines source).length else 0 } := by
  have counted : (Resolution.readMatch.run (.start source) found).1.tally =
      Tally.counting ⟨found.length, 0, 0, 0⟩ (fates source found) := by
    have fromNone : (Resolution.start source).tally.matchCount + found.length = found.length :=
      Nat.zero_add _
    rw [Resolution.tally_run_readMatch, fates_eq, fromNone]
    rfl
  rw [statistics_eq, counted]

/-- The winners give the same output in any grouping that keeps their order. -/
theorem render_of_flatten_eq_winners {source : Bytes} {found groups : List Match}
    (grouped : groups.flatten = winners source found) (theme : Theme)
    (settings : RenderSettings) :
    render source groups theme settings = render source found theme settings := by
  apply render_eq_of_selected_eq
  rw [feedOrder_of_flatten_eq_winners grouped, selected_eq_selectFrom]
  exact selectFrom_of_consecutive (consecutive_selected _ _)

/-- The winners, each as a match of its own, are all styled. -/
theorem renderWithStatistics_winners (source : Bytes) (found : List Match) (theme : Theme)
    (settings : RenderSettings) :
    let taken := winners source found
    let output := renderWithStatistics source found theme settings
    renderWithStatistics source (taken.map fun capture => [capture]) theme settings =
      (output.1, ⟨⟨taken.length, taken.length, 0, 0⟩, output.2.lineLabels⟩) := by
  intro taken output
  have alone : (taken.map fun capture => [capture]).flatten = taken := by
    rw [← List.flatMap_def]
    exact List.flatMap_singleton' taken
  have judged : fates source (taken.map fun capture => [capture]) =
      taken.map fun _ => .styled := by
    have consecutive := consecutive_selected source.length (feedOrder found)
    rw [fates_eq, feedOrder_of_flatten_eq_winners alone, fatesFrom_of_consecutive consecutive,
      ← winners_eq]
  refine Prod.ext (render_of_flatten_eq_winners alone theme settings) ?_
  rw [statistics_eq_fates, judged, statistics_eq_fates]
  simp [Tally.counting, List.count_replicate]

/-- Invalid captures may stand anywhere in the matches, or in matches of their own. -/
theorem render_of_withoutInvalid_eq {source : Bytes} {found other : List Match}
    (same : withoutInvalid source.length other = withoutInvalid source.length found)
    (theme : Theme) (settings : RenderSettings) :
    render source other theme settings = render source found theme settings := by
  have valid := congrArg (fun found => selectFrom source.length 0 (feedOrder found)) same
  simp only [feedOrder_withoutInvalid, selectFrom_filter_validFor] at valid
  apply render_eq_of_selected_eq
  rw [selected_eq_selectFrom, selected_eq_selectFrom, valid]

/-- Captures that are not styled may be left out. -/
theorem render_remaining {source : Bytes} {marked : List (List Marked)}
    (leftOut : ∀ judged ∈ (Marked.order marked).zip (fates source (Marked.whole marked)),
      judged.1.stays = false → judged.2 ≠ .styled)
    (theme : Theme) (settings : RenderSettings) :
    render source (Marked.remaining marked) theme settings =
      render source (Marked.whole marked) theme settings := by
  rw [fates_eq, Marked.feedOrder_whole] at leftOut
  apply render_eq_of_selected_eq
  rw [Marked.feedOrder_whole, Marked.feedOrder_remaining, selected_eq_selectFrom,
    selected_eq_selectFrom]
  apply Marked.selectFrom_stays
  intro judged member styled
  cases stays : judged.1.stays with
  | true => rfl
  | false => exact absurd styled (leftOut judged member stays)

/-- Every capture that is read has one fate, which the statistics count.  The output tells, labels
aside, of the winners alone.  Rendered alone, each as a match of its own, the winners give the same
output, all styled, with the same labels; and in any grouping that keeps their order they give the
same output.  So do all lists of matches that differ in invalid captures only, and so do matches of
which captures are left out that are not styled. -/
theorem render_normalForm (source : Bytes) (found : List Match) (theme : Theme)
    (settings : RenderSettings) :
    let output := renderWithStatistics source found theme settings
    let told := ((Walk.start source settings.lineNumbers).complete theme found).2
    let taken := winners source found
    (fates source found).length = (feedOrder found).length ∧
      output.2.toTally = Tally.counting ⟨found.length, 0, 0, 0⟩ (fates source found) ∧
      output.1 = writeEvents theme told settings.format ∧
      bytewise (unlabelled told) = bytewise (script theme source 0 taken) ∧
      renderWithStatistics source (taken.map fun capture => [capture]) theme settings =
        (output.1, ⟨⟨taken.length, taken.length, 0, 0⟩, output.2.lineLabels⟩) ∧
      (∀ groups : List Match, groups.flatten = taken →
        render source groups theme settings = output.1) ∧
      (∀ other : List Match,
        withoutInvalid source.length other = withoutInvalid source.length found →
          render source other theme settings = output.1) ∧
      (∀ marked : List (List Marked), Marked.whole marked = found →
        (∀ judged ∈ (Marked.order marked).zip (fates source found),
          judged.1.stays = false → judged.2 ≠ .styled) →
          render source (Marked.remaining marked) theme settings = output.1) := by
  intro output told taken
  refine ⟨?_, ?_, rfl, ?_, renderWithStatistics_winners source found theme settings, ?_, ?_, ?_⟩
  · rw [fates_eq]
    exact length_fatesFrom _ _ _
  · exact congrArg Statistics.toTally (statistics_eq_fates source found theme settings)
  · rw [Walk.bytewise_unlabelled_complete, ← winners_eq]
  · intro groups grouped
    exact render_of_flatten_eq_winners grouped theme settings
  · intro other same
    exact render_of_withoutInvalid_eq same theme settings
  · intro marked whole leftOut
    rw [← whole] at leftOut
    rw [render_remaining leftOut, whole]
    rfl

/-- A capture that comes too late and an empty one are left out of their matches. -/
theorem render_normalForm_leaving_out :
    let source := Utf8.encode "let x"
    let found : List Match :=
      [[⟨"comment", 1, 4⟩, ⟨"keyword", 0, 3⟩], [⟨"variable", 4, 5⟩, ⟨"string", 2, 2⟩]]
    fates source found = [.styled, .overlapped, .invalid, .styled] ∧
      render source [[⟨"keyword", 0, 3⟩], [⟨"variable", 4, 5⟩]] Theme.standard ⟨.markup, true⟩ =
        render source found Theme.standard ⟨.markup, true⟩ := by
  intro source found
  let marked : List (List Marked) :=
    [[⟨⟨"comment", 1, 4⟩, false⟩, ⟨⟨"keyword", 0, 3⟩, true⟩],
      [⟨⟨"variable", 4, 5⟩, true⟩, ⟨⟨"string", 2, 2⟩, false⟩]]
  have order : Marked.order marked =
      [⟨⟨"keyword", 0, 3⟩, true⟩, ⟨⟨"comment", 1, 4⟩, false⟩, ⟨⟨"string", 2, 2⟩, false⟩,
        ⟨⟨"variable", 4, 5⟩, true⟩] := by
    simp [marked, Marked.order, sortedBy_cons, sortedBy_nil, putBy]
  have judged : fates source found = [.styled, .overlapped, .invalid, .styled] := by
    have whole : found = Marked.whole marked := rfl
    rw [fates_eq, whole, Marked.feedOrder_whole, order]
    decide
  obtain ⟨_, _, _, _, _, _, _, leavingOut⟩ :=
    render_normalForm source found Theme.standard ⟨.markup, true⟩
  refine ⟨judged, leavingOut marked rfl ?_⟩
  rw [order, judged]
  decide

end CodeHighlight
