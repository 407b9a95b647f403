/-
Module: CodeHighlight.Proofs.CaptureAccounting
Purpose: What the counts of a rendering count.  Every capture that is read has one fate and is
  counted once: it took its range, or is not valid, or came too late.  Those that took their ranges
  are the selected ones.
Main exports:
  Fate, Tally.counting, Resolution.readFate, Resolution.readFates, fates, fateAt, fatesFrom,
  fates_eq, Resolution.tally_run_readMatch, Resolution.Accounted,
  Resolution.accounted_run_readMatch, Walk.accounted_complete
-/
import CodeHighlight.Proofs.GreedyResolution

namespace CodeHighlight

/-! ### What becomes of a capture -/

/-- What becomes of a capture that is read. -/
inductive Fate where
  | styled
  | invalid
  | overlapped
deriving Repr, DecidableEq

/-- The counts with captures of these fates added to them. -/
def Tally.counting (tally : Tally) (fates : List Fate) : Tally :=
  { tally with
    styled := tally.styled + fates.count .styled
    invalid := tally.invalid + fates.count .invalid
    overlapped := tally.overlapped + fates.count .overlapped }

theorem Tally.counting_append (tally : Tally) (first second : List Fate) :
    tally.counting (first ++ second) = (tally.counting first).counting second := by
  simp only [counting, List.count_append, Nat.add_assoc]

/-- Different fates raise different counts. -/
theorem Tally.counting_injective {tally : Tally} {first second : Fate}
    (same : tally.counting [first] = tally.counting [second]) : first = second := by
  cases first <;> cases second <;> simp [counting] at same ⊢

namespace Resolution

/-- Reads a capture and tells its fate from the count that it raised. -/
def readFate : Transducer Resolution Capture Fate := fun state capture =>
  let after := (readCapture state capture).1
  (after,
    [if after.tally = state.tally.counting [.invalid] then .invalid
      else if after.tally = state.tally.counting [.overlapped] then .overlapped
      else .styled])

/-- Reads a match and tells the fates of its captures, by their starts. -/
def readFates : Transducer Resolution Match Fate := fun state captures =>
  readFate.run
    (state.recount fun tally => { tally with matchCount := tally.matchCount + 1 })
    captures.inOrder

end Resolution

/-- The fates of all captures in the order in which they are read. -/
def fates (source : Bytes) (found : List Match) : List Fate :=
  (Resolution.readFates.run (.start source) found).2

/-! ### Fates by the rule -/

/-- The fate of a capture that is read when everything before `reach` is taken. -/
def fateAt (size reach : Nat) (capture : Capture) : Fate :=
  if capture.ValidFor size then
    if capture.start < reach then .overlapped else .styled
  else .invalid

/-- The fates of captures that are read when everything before `reach` is taken. -/
def fatesFrom (size reach : Nat) : List Capture → List Fate
  | [] => []
  | capture :: rest =>
      fateAt size reach capture ::
        fatesFrom size (reachAfter reach (selectFrom size reach [capture])) rest

example : fatesFrom 20 0 [⟨"string", 0, 10⟩, ⟨"comment", 5, 15⟩, ⟨"type", 12, 12⟩] =
    [.styled, .overlapped, .invalid] := by decide

theorem fateAt_eq_styled_iff {size reach : Nat} {capture : Capture} :
    fateAt size reach capture = .styled ↔ capture.ValidFor size ∧ reach ≤ capture.start := by
  unfold fateAt
  split
  · rename_i valid
    split
    · rename_i passed
      simp [Nat.not_le.mpr passed]
    · rename_i begins
      simp [valid, Nat.not_lt.mp begins]
  · rename_i invalid
    simp [invalid]

/-- A capture that is not styled leaves everything as it was. -/
theorem selectFrom_cons_of_fateAt_ne {size reach : Nat} {capture : Capture}
    (dropped : fateAt size reach capture ≠ .styled) (rest : List Capture) :
    selectFrom size reach (capture :: rest) = selectFrom size reach rest :=
  if_neg fun taken => dropped (fateAt_eq_styled_iff.mpr taken)

theorem selectFrom_cons_of_fateAt_eq {size reach : Nat} {capture : Capture}
    (taken : fateAt size reach capture = .styled) (rest : List Capture) :
    selectFrom size reach (capture :: rest) = capture :: selectFrom size capture.stop rest :=
  if_pos (fateAt_eq_styled_iff.mp taken)

theorem fatesFrom_cons_of_fateAt_ne {size reach : Nat} {capture : Capture}
    (dropped : fateAt size reach capture ≠ .styled) (rest : List Capture) :
    fatesFrom size reach (capture :: rest) =
      fateAt size reach capture :: fatesFrom size reach rest := by
  rw [fatesFrom, selectFrom_cons_of_fateAt_ne dropped]
  rfl

theorem fatesFrom_cons_of_fateAt_eq {size reach : Nat} {capture : Capture}
    (taken : fateAt size reach capture = .styled) (rest : List Capture) :
    fatesFrom size reach (capture :: rest) = .styled :: fatesFrom size capture.stop rest := by
  rw [fatesFrom, selectFrom_cons_of_fateAt_eq taken, taken]
  rfl

theorem fatesFrom_append (size reach : Nat) (first second : List Capture) :
    fatesFrom size reach (first ++ second) =
      fatesFrom size reach first ++
        fatesFrom size (reachAfter reach (selectFrom size reach first)) second := by
  induction first generalizing reach with
  | nil => rfl
  | cons capture rest inductionHypothesis =>
      have cut : capture :: rest = [capture] ++ rest := rfl
      rw [List.cons_append, fatesFrom, fatesFrom, inductionHypothesis, cut, selectFrom_append,
        reachAfter_append]
      rfl

theorem length_fatesFrom (size reach : Nat) (captures : List Capture) :
    (fatesFrom size reach captures).length = captures.length := by
  induction captures generalizing reach with
  | nil => rfl
  | cons capture rest inductionHypothesis => exact congrArg Nat.succ (inductionHypothesis _)

namespace Resolution

/-! ### Fates along a pass -/

/-- A capture raises the count of its fate and no other. -/
theorem tally_readCapture (state : Resolution) (capture : Capture) :
    (readCapture state capture).1.tally =
      state.tally.counting [fateAt state.size state.cursor capture] := by
  unfold readCapture fateAt
  split
  · split
    · rfl
    · rfl
  · rfl

theorem readFate_eq (state : Resolution) (capture : Capture) :
    readFate state capture =
      ((readCapture state capture).1, [fateAt state.size state.cursor capture]) := by
  have told : ∀ fate : Fate,
      (readCapture state capture).1.tally = state.tally.counting [fate] ↔
      fateAt state.size state.cursor capture = fate := by
    intro fate
    rw [tally_readCapture]
    exact ⟨Tally.counting_injective, fun same => by rw [same]⟩
  simp only [readFate, told]
  cases fateAt state.size state.cursor capture <;> rfl

theorem run_readFate (state : Resolution) (captures : List Capture) :
    readFate.run state captures =
      ((readCapture.run state captures).1, fatesFrom state.size state.cursor captures) := by
  induction captures generalizing state with
  | nil => rfl
  | cons capture rest inductionHypothesis =>
      have moved := advanced_readCapture state capture
      rw [Transducer.run_cons, Transducer.run_cons, readFate_eq, inductionHypothesis,
        moved.size_eq, moved.cursor_eq]
      rfl

theorem readFates_eq (state : Resolution) (captures : Match) :
    readFates state captures =
      ((readMatch state captures).1,
        fatesFrom state.size state.cursor captures.inOrder) :=
  run_readFate _ captures.inOrder

theorem run_readFates (state : Resolution) (found : List Match) :
    readFates.run state found =
      ((readMatch.run state found).1, fatesFrom state.size state.cursor (feedOrder found)) := by
  induction found generalizing state with
  | nil => rfl
  | cons captures rest inductionHypothesis =>
      have moved := advanced_readMatch state captures
      have cut : feedOrder (captures :: rest) = captures.inOrder ++ feedOrder rest := rfl
      rw [Transducer.run_cons, Transducer.run_cons, readFates_eq, inductionHypothesis,
        moved.size_eq, moved.cursor_eq, cut, fatesFrom_append]

/-- The counts of a pass are those of the fates. -/
theorem tally_run_readCapture (state : Resolution) (captures : List Capture) :
    (readCapture.run state captures).1.tally =
      state.tally.counting (fatesFrom state.size state.cursor captures) := by
  induction captures generalizing state with
  | nil => rfl
  | cons capture rest inductionHypothesis =>
      have moved := advanced_readCapture state capture
      have others := inductionHypothesis (readCapture state capture).1
      rw [moved.size_eq, moved.cursor_eq, tally_readCapture, ← Tally.counting_append] at others
      rw [Transducer.run_cons]
      exact others

theorem tally_run_readMatch (state : Resolution) (found : List Match) :
    (readMatch.run state found).1.tally =
      { state.tally with matchCount := state.tally.matchCount + found.length }.counting
        (fatesFrom state.size state.cursor (feedOrder found)) := by
  induction found generalizing state with
  | nil => rfl
  | cons captures rest inductionHypothesis =>
      have moved := advanced_readMatch state captures
      have one : (readMatch state captures).1.tally =
          { state.tally with matchCount := state.tally.matchCount + 1 }.counting
            (fatesFrom state.size state.cursor captures.inOrder) :=
        tally_run_readCapture _ captures.inOrder
      have others := inductionHypothesis (readMatch state captures).1
      have cut : feedOrder (captures :: rest) = captures.inOrder ++ feedOrder rest := rfl
      rw [moved.size_eq, moved.cursor_eq, one] at others
      rw [Transducer.run_cons, cut, fatesFrom_append, Tally.counting_append, List.length_cons,
        Nat.add_comm rest.length, ← Nat.add_assoc]
      exact others

end Resolution

theorem fates_eq (source : Bytes) (found : List Match) :
    fates source found = fatesFrom source.length 0 (feedOrder found) :=
  congrArg Prod.snd (Resolution.run_readFates (.start source) found)

/-! ### The counts -/

theorem count_styled_fatesFrom (size reach : Nat) (captures : List Capture) :
    (fatesFrom size reach captures).count .styled = (selectFrom size reach captures).length := by
  induction captures generalizing reach with
  | nil => rfl
  | cons capture rest inductionHypothesis =>
      by_cases taken : fateAt size reach capture = .styled
      · rw [fatesFrom_cons_of_fateAt_eq taken, selectFrom_cons_of_fateAt_eq taken,
          List.count_cons_self, List.length_cons, inductionHypothesis]
      · rw [fatesFrom_cons_of_fateAt_ne taken, selectFrom_cons_of_fateAt_ne taken,
          List.count_cons_of_ne taken, inductionHypothesis]

theorem fateAt_eq_invalid_iff {size reach : Nat} {capture : Capture} :
    fateAt size reach capture = .invalid ↔ ¬ capture.ValidFor size := by
  unfold fateAt
  split
  · rename_i valid
    split
    · simp [valid]
    · simp [valid]
  · rename_i invalid
    simp [invalid]

theorem count_invalid_fatesFrom (size reach : Nat) (captures : List Capture) :
    (fatesFrom size reach captures).count .invalid =
      captures.countP fun capture => ¬ capture.ValidFor size := by
  induction captures generalizing reach with
  | nil => rfl
  | cons capture rest inductionHypothesis =>
      rw [fatesFrom, List.count_cons, List.countP_cons, inductionHypothesis]
      simp only [beq_iff_eq, fateAt_eq_invalid_iff, decide_eq_true_eq]

/-- Every fate is counted once. -/
theorem sum_count_fates (fates : List Fate) :
    fates.count .styled + fates.count .invalid + fates.count .overlapped = fates.length := by
  induction fates with
  | nil => rfl
  | cons fate rest inductionHypothesis =>
      cases fate <;> simp <;> omega

namespace Resolution

/-- How the counts change when captures are read in a source of `size` bytes, from `reach` on. -/
structure Accounted (size reach : Nat) (captures : List Capture) (before after : Tally) : Prop where
  styled_eq : after.styled = before.styled + (selectFrom size reach captures).length
  invalid_eq : after.invalid =
    before.invalid + captures.countP fun capture => ¬ capture.ValidFor size
  total_eq : after.styled + after.invalid + after.overlapped =
    before.styled + before.invalid + before.overlapped + captures.length

/-- The counts of a pass are those of the fates. -/
theorem accounted_run_readMatch (state : Resolution) (found : List Match) :
    Accounted state.size state.cursor (feedOrder found) state.tally
      (readMatch.run state found).1.tally := by
  have sum := sum_count_fates (fatesFrom state.size state.cursor (feedOrder found))
  rw [length_fatesFrom] at sum
  rw [tally_run_readMatch]
  refine ⟨?_, ?_, ?_⟩
  · rw [← count_styled_fatesFrom]
    rfl
  · rw [← count_invalid_fatesFrom]
    rfl
  · simp only [Tally.counting]
    omega

end Resolution

namespace Walk

/-- The counts of a rendering: all matches, the selected captures, the captures that are not valid,
and every capture once. -/
theorem accounted_complete (theme : Theme) (source : Bytes) (lineNumbers : Bool)
    (found : List Match) :
    let statistics := ((start source lineNumbers).complete theme found).1
    statistics.matchCount = found.length ∧
      statistics.styled = (selected source.length (feedOrder found)).length ∧
      statistics.invalid =
        (feedOrder found).countP (fun capture => ¬ capture.ValidFor source.length) ∧
      statistics.styled + statistics.invalid + statistics.overlapped =
        (feedOrder found).length := by
  have counted := Resolution.accounted_run_readMatch (.start source) found
  have count := congrArg Tally.matchCount (Resolution.tally_run_readMatch (.start source) found)
  have told : ((start source lineNumbers).complete theme found).1.toTally =
      (Resolution.readMatch.run (.start source) found).1.tally :=
    congrArg Statistics.toTally (fst_complete theme source lineNumbers found)
  intro statistics
  rw [← told] at counted count
  rw [selected_eq_selectFrom]
  refine ⟨?_, ?_, ?_, ?_⟩
  · exact count.trans (Nat.zero_add _)
  · exact counted.styled_eq.trans (Nat.zero_add _)
  · exact counted.invalid_eq.trans (Nat.zero_add _)
  · exact counted.total_eq.trans (Nat.zero_add _)

end Walk

end CodeHighlight
