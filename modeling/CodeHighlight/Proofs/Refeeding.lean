/-
Module: CodeHighlight.Proofs.Refeeding
Purpose: Matches that are read a second time.  Every valid capture that was read, whether it took
  its range or came too late, begins before the cursor, and the cursor never moves back.  So a match
  that was read before tells a writer nothing when it is read again, and only the counts change.
Main exports:
  start_lt_reachAfter_selectFrom, Walk.start_lt_cursor_fed, Resolution.Passed,
  Resolution.readCapture_of_passed, Resolution.run_readCapture_of_passed,
  Resolution.selectFrom_of_passed, Resolution.readMatch_of_passed, Walk.readMatch_again
-/
import CodeHighlight.Proofs.CaptureAccounting
import CodeHighlight.Theme.Builtin

namespace CodeHighlight

/-! ### Behind the cursor -/

/-- A valid capture that was read begins before the point that the pass has come to: it took its
range, or was passed already. -/
theorem start_lt_reachAfter_selectFrom {size : Nat} (reach : Nat) {captures : List Capture}
    {capture : Capture} (member : capture ∈ captures) (valid : capture.ValidFor size) :
    capture.start < reachAfter reach (selectFrom size reach captures) := by
  induction captures generalizing reach with
  | nil => cases member
  | cons first rest inductionHypothesis =>
      rw [selectFrom]
      rcases List.mem_cons.mp member with same | later
      · subst same
        split
        · have further := le_reachAfter (consecutive_selectFrom size capture.stop rest)
          exact Nat.lt_of_lt_of_le valid.1 further
        · rename_i notTaken
          have passed : capture.start < reach :=
            Nat.not_le.mp fun begins => notTaken ⟨valid, begins⟩
          have further := le_reachAfter (consecutive_selectFrom size reach rest)
          exact Nat.lt_of_lt_of_le passed further
      · split
        · exact inductionHypothesis first.stop later
        · exact inductionHypothesis reach later

/-- Every valid capture of every match that was read begins before the cursor. -/
theorem Walk.start_lt_cursor_fed (theme : Theme) (source : Bytes) (lineNumbers : Bool)
    {found : List Match} {captures : Match} (read : captures ∈ found) {capture : Capture}
    (member : capture ∈ captures) (valid : capture.ValidFor source.length) :
    capture.start < (fed theme source lineNumbers found).1.cursor := by
  rw [cursor_fed, furthestStop_selected]
  exact start_lt_reachAfter_selectFrom 0 (mem_feedOrder_iff.mpr ⟨captures, read, member⟩) valid

namespace Resolution

/-- A pass has come beyond the start of a capture, if it is valid. -/
def Passed (state : Resolution) (capture : Capture) : Prop :=
  capture.ValidFor state.size → capture.start < state.cursor

/-- A capture that was passed is counted and changes nothing else. -/
theorem readCapture_of_passed {state : Resolution} {capture : Capture}
    (passed : state.Passed capture) :
    readCapture state capture =
      (state.recount (·.counting [fateAt state.size state.cursor capture]), []) := by
  unfold readCapture fateAt
  by_cases valid : capture.ValidFor state.size
  · rw [if_pos valid, if_pos valid, if_pos (passed valid), if_pos (passed valid)]
    rfl
  · rw [if_neg valid, if_neg valid]
    rfl

theorem fateAt_ne_styled_of_passed {state : Resolution} {capture : Capture}
    (passed : state.Passed capture) : fateAt state.size state.cursor capture ≠ .styled := by
  intro styled
  obtain ⟨valid, begins⟩ := fateAt_eq_styled_iff.mp styled
  exact Nat.not_lt.mpr begins (passed valid)

/-- Captures that were passed are counted and change nothing else. -/
theorem run_readCapture_of_passed {state : Resolution} {captures : List Capture}
    (passed : ∀ capture ∈ captures, state.Passed capture) :
    readCapture.run state captures =
      (state.recount (·.counting (fatesFrom state.size state.cursor captures)), []) := by
  induction captures generalizing state with
  | nil => rfl
  | cons capture rest inductionHypothesis =>
      have first := passed capture List.mem_cons_self
      let counted := state.recount (·.counting [fateAt state.size state.cursor capture])
      have stillPassed : ∀ other ∈ rest, counted.Passed other := fun other member =>
        passed other (List.mem_cons_of_mem _ member)
      have others := inductionHypothesis stillPassed
      rw [Transducer.run_cons, readCapture_of_passed first, others,
        fatesFrom_cons_of_fateAt_ne (fateAt_ne_styled_of_passed first)]
      have together := Tally.counting_append state.tally
        [fateAt state.size state.cursor capture] (fatesFrom state.size state.cursor rest)
      rw [List.singleton_append] at together
      simp only [recount, together, List.nil_append]
      rfl

/-- No capture that was passed is taken. -/
theorem selectFrom_of_passed {state : Resolution} {captures : List Capture}
    (passed : ∀ capture ∈ captures, state.Passed capture) :
    selectFrom state.size state.cursor captures = [] := by
  have consecutive := consecutive_selectFrom state.size state.cursor captures
  apply List.eq_nil_iff_forall_not_mem.mpr
  intro capture taken
  have valid := validFor_of_mem_consecutive consecutive capture taken
  have begins := le_start_of_mem_consecutive consecutive capture taken
  exact Nat.not_lt.mpr begins (passed capture (mem_of_mem_selectFrom taken) valid)

/-- Of captures that were passed, those that are not valid are counted as such, and all others as
too late. -/
theorem counting_fatesFrom_of_passed {state : Resolution} {captures : List Capture}
    (passed : ∀ capture ∈ captures, state.Passed capture) (tally : Tally) :
    let invalid := captures.countP fun capture => ¬ capture.ValidFor state.size
    tally.counting (fatesFrom state.size state.cursor captures) =
      { tally with
        invalid := tally.invalid + invalid
        overlapped := tally.overlapped + (captures.length - invalid) } := by
  intro invalid
  have sum := sum_count_fates (fatesFrom state.size state.cursor captures)
  rw [count_styled_fatesFrom, selectFrom_of_passed passed, count_invalid_fatesFrom,
    length_fatesFrom, List.length_nil, Nat.zero_add] at sum
  have late : (fatesFrom state.size state.cursor captures).count .overlapped =
      captures.length - invalid := by omega
  simp only [Tally.counting, count_styled_fatesFrom, selectFrom_of_passed passed,
    count_invalid_fatesFrom, late, List.length_nil, Nat.add_zero, invalid]

/-- A match that was passed raises the counts and changes nothing else. -/
theorem readMatch_of_passed {state : Resolution} {captures : Match}
    (passed : ∀ capture ∈ captures, state.Passed capture) :
    let invalid := captures.countP fun capture => ¬ capture.ValidFor state.size
    readMatch state captures =
      (state.recount fun tally =>
        { tally with
          matchCount := tally.matchCount + 1
          invalid := tally.invalid + invalid
          overlapped := tally.overlapped + (captures.length - invalid) }, []) := by
  intro invalid
  have perm := Match.perm_inOrder captures
  let counted := state.recount fun tally => { tally with matchCount := tally.matchCount + 1 }
  have ordered : ∀ capture ∈ captures.inOrder, counted.Passed capture := fun capture member =>
    passed capture (perm.mem_iff.mp member)
  have read : readMatch state captures = readCapture.run counted captures.inOrder := rfl
  rw [read, run_readCapture_of_passed ordered]
  simp only [recount, counting_fatesFrom_of_passed ordered, perm.countP_eq, perm.length_eq]
  rfl

end Resolution

/-- A match that was read before, its captures in any order, tells the writer nothing when it is read
again.  The cursor and the numbering of the lines stay, and so does everything else but the counts:
there is one match more, its captures that are not valid are counted as such, and all others as too
late. -/
theorem Walk.readMatch_again (theme : Theme) (source : Bytes) (lineNumbers : Bool)
    {found : List Match} {captures again : Match} (read : captures ∈ found)
    (reordered : again.Perm captures) :
    let reached := (fed theme source lineNumbers found).1
    let invalid := captures.countP fun capture => ¬ capture.ValidFor source.length
    readMatch theme reached again =
      ((reached.1.recount fun tally =>
          { tally with
            matchCount := tally.matchCount + 1
            invalid := tally.invalid + invalid
            overlapped := tally.overlapped + (captures.length - invalid) },
        reached.2), []) := by
  intro reached invalid
  have size : reached.1.size = source.length := by
    have moved := Resolution.advanced_run_readMatch (.start source) found
    simp only [reached, fed_eq, moved.size_eq]
    rfl
  have passed : ∀ capture ∈ again, reached.1.Passed capture := by
    intro capture member valid
    rw [size] at valid
    exact start_lt_cursor_fed theme source lineNumbers read (reordered.mem_iff.mp member) valid
  have counted := Resolution.readMatch_of_passed passed
  rw [size, reordered.countP_eq, reordered.length_eq] at counted
  simp only [readMatch, Transducer.compose, counted]
  rfl

/-- An empty capture is counted again as not valid, and a capture that took its range as too late. -/
theorem Walk.readMatch_again_reversed :
    let captures : Match := [⟨"keyword", 0, 3⟩, ⟨"string", 2, 2⟩]
    let reached := (fed Theme.standard (Utf8.encode "let x") true
      [captures, [⟨"variable", 4, 5⟩]]).1
    readMatch Theme.standard reached captures.reverse =
      ((reached.1.recount fun tally =>
          { tally with
            matchCount := tally.matchCount + 1
            invalid := tally.invalid + 1
            overlapped := tally.overlapped + 1 },
        reached.2), []) := by
  intro captures reached
  have read : captures ∈ [captures, [⟨"variable", 4, 5⟩]] := List.mem_cons_self
  have again := readMatch_again Theme.standard (Utf8.encode "let x") true read
    (List.reverse_perm captures)
  exact again

end CodeHighlight
