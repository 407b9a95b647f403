/-
Module: CodeHighlight.Proofs.Selection
Purpose: Which captures take their range, as a rule on the list of captures alone.  From left
  to right, a capture is taken when it is valid and begins at or after the largest end taken
  before it.  The taken captures are consecutive, so that how far the last one reaches decides
  about the next.
Main exports:
  Capture.Covers, feedOrder, furthestStop, takeNext, selected, selectFrom, reachAfter,
  Consecutive, le_start_of_mem_consecutive, consecutive_selectFrom, reachAfter_eq_max,
  selected_eq_selectFrom, consecutive_selected, furthestStop_selected
-/
import CodeHighlight.Resolution

namespace CodeHighlight

/-- The byte at a position belongs to the range. -/
def Capture.Covers (capture : Capture) (position : Nat) : Prop :=
  capture.start ≤ position ∧ position < capture.stop

instance (capture : Capture) (position : Nat) : Decidable (capture.Covers position) :=
  inferInstanceAs (Decidable (_ ∧ _))

/-!
### The rule

`selected` is the rule as one reads it: a list of taken captures grows at its end, and the
next capture is compared with the largest end in it.
-/

/-- All captures in the order in which they are read: match by match, each by its starts. -/
def feedOrder (found : List Match) : List Capture :=
  found.flatMap Match.inOrder

/-- The largest end among captures, zero when there are none. -/
def furthestStop (captures : List Capture) : Nat :=
  (captures.map Capture.stop).foldr max 0

/-- Takes a capture that is valid and begins at or after the largest end taken so far. -/
def takeNext (size : Nat) (taken : List Capture) (capture : Capture) : List Capture :=
  if capture.ValidFor size ∧ furthestStop taken ≤ capture.start then taken ++ [capture]
  else taken

/-- The captures that are taken from left to right in a source of `size` bytes. -/
def selected (size : Nat) (captures : List Capture) : List Capture :=
  captures.foldl (takeNext size) []

example : selected 20 [⟨"string", 0, 10⟩, ⟨"comment", 5, 15⟩, ⟨"type", 10, 12⟩] =
    [⟨"string", 0, 10⟩, ⟨"type", 10, 12⟩] := by decide

theorem feedOrder_append (first second : List Match) :
    feedOrder (first ++ second) = feedOrder first ++ feedOrder second := by
  simp [feedOrder]

/-- Nothing is read but the captures of the matches. -/
theorem mem_feedOrder_iff {found : List Match} {capture : Capture} :
    capture ∈ feedOrder found ↔ ∃ captures ∈ found, capture ∈ captures := by
  simp only [feedOrder, List.mem_flatMap, (Match.perm_inOrder _).mem_iff]

theorem furthestStop_append (first second : List Capture) :
    furthestStop (first ++ second) = max (furthestStop first) (furthestStop second) := by
  induction first with
  | nil => simp [furthestStop]
  | cons capture rest inductionHypothesis =>
      simp only [furthestStop, List.cons_append, List.map_cons, List.foldr_cons] at *
      rw [inductionHypothesis, Nat.max_assoc]

/-- Taking a capture never lowers the largest end. -/
theorem furthestStop_le_takeNext (size : Nat) (taken : List Capture) (capture : Capture) :
    furthestStop taken ≤ furthestStop (takeNext size taken capture) := by
  unfold takeNext
  split
  · rw [furthestStop_append]
    exact Nat.le_max_left _ _
  · exact Nat.le_refl _

/-- Reading more captures never lowers the largest end. -/
theorem furthestStop_selected_le_append (size : Nat) (first second : List Capture) :
    furthestStop (selected size first) ≤ furthestStop (selected size (first ++ second)) := by
  unfold selected
  rw [List.foldl_append]
  generalize first.foldl (takeNext size) [] = taken
  induction second generalizing taken with
  | nil => exact Nat.le_refl _
  | cons capture rest inductionHypothesis =>
      exact Nat.le_trans (furthestStop_le_takeNext size taken capture)
        (inductionHypothesis (takeNext size taken capture))

/-!
### The rule as a recursion

A pass does not look back at what it took: one number, how far it has come, decides about the
next capture.  `selectFrom` is the rule in that form.
-/

/-- The captures that are taken from left to right when everything before `reach` is taken. -/
def selectFrom (size reach : Nat) : List Capture → List Capture
  | [] => []
  | capture :: rest =>
      if capture.ValidFor size ∧ reach ≤ capture.start then
        capture :: selectFrom size capture.stop rest
      else selectFrom size reach rest

/-- How far a pass has come that stood at `reach` and took these captures. -/
def reachAfter (reach : Nat) : List Capture → Nat
  | [] => reach
  | capture :: rest => reachAfter capture.stop rest

/-- Valid captures of which each begins at or after the end of the one before it. -/
def Consecutive (size reach : Nat) : List Capture → Prop
  | [] => True
  | capture :: rest =>
      reach ≤ capture.start ∧ capture.ValidFor size ∧ Consecutive size capture.stop rest

/-- Consecutive captures begin where the pass stands or later. -/
theorem le_start_of_mem_consecutive {size reach : Nat} {captures : List Capture}
    (consecutive : Consecutive size reach captures) :
    ∀ capture ∈ captures, reach ≤ capture.start := by
  induction captures generalizing reach with
  | nil =>
      intro capture member
      cases member
  | cons first rest inductionHypothesis =>
      obtain ⟨begins, valid, follows⟩ := consecutive
      intro capture member
      rcases List.mem_cons.mp member with same | later
      · rw [same]
        exact begins
      · calc reach ≤ first.start := begins
          _ ≤ first.stop := Nat.le_of_lt valid.1
          _ ≤ capture.start := inductionHypothesis follows capture later

theorem validFor_of_mem_consecutive {size reach : Nat} {captures : List Capture}
    (consecutive : Consecutive size reach captures) :
    ∀ capture ∈ captures, capture.ValidFor size := by
  induction captures generalizing reach with
  | nil =>
      intro capture member
      cases member
  | cons first rest inductionHypothesis =>
      intro capture member
      rcases List.mem_cons.mp member with same | later
      · rw [same]
        exact consecutive.2.1
      · exact inductionHypothesis consecutive.2.2 capture later

/-- Only captures that are read are taken. -/
theorem mem_of_mem_selectFrom {size reach : Nat} {captures : List Capture} {capture : Capture}
    (member : capture ∈ selectFrom size reach captures) : capture ∈ captures := by
  induction captures generalizing reach with
  | nil => exact member
  | cons first rest inductionHypothesis =>
      rw [selectFrom] at member
      split at member
      · rcases List.mem_cons.mp member with same | later
        · exact same ▸ List.mem_cons_self
        · exact List.mem_cons_of_mem _ (inductionHypothesis later)
      · exact List.mem_cons_of_mem _ (inductionHypothesis member)

theorem reachAfter_append (reach : Nat) (first second : List Capture) :
    reachAfter reach (first ++ second) = reachAfter (reachAfter reach first) second := by
  induction first generalizing reach with
  | nil => rfl
  | cons capture rest inductionHypothesis => exact inductionHypothesis capture.stop

theorem selectFrom_append (size reach : Nat) (first second : List Capture) :
    selectFrom size reach (first ++ second) =
      selectFrom size reach first ++
        selectFrom size (reachAfter reach (selectFrom size reach first)) second := by
  induction first generalizing reach with
  | nil => rfl
  | cons capture rest inductionHypothesis =>
      simp only [List.cons_append, selectFrom]
      split
      · rw [inductionHypothesis]
        rfl
      · exact inductionHypothesis reach

theorem consecutive_selectFrom (size reach : Nat) (captures : List Capture) :
    Consecutive size reach (selectFrom size reach captures) := by
  induction captures generalizing reach with
  | nil => trivial
  | cons capture rest inductionHypothesis =>
      unfold selectFrom
      split
      · rename_i taken
        exact ⟨taken.2, taken.1, inductionHypothesis capture.stop⟩
      · exact inductionHypothesis reach

/-- Consecutive captures end in order, so a pass over them comes as far as the largest end. -/
theorem reachAfter_eq_max {size reach : Nat} {captures : List Capture}
    (consecutive : Consecutive size reach captures) :
    reachAfter reach captures = max reach (furthestStop captures) := by
  induction captures generalizing reach with
  | nil => simp [reachAfter, furthestStop]
  | cons capture rest inductionHypothesis =>
      obtain ⟨begins, valid, follows⟩ := consecutive
      have ends : reach ≤ capture.stop := Nat.le_trans begins (Nat.le_of_lt valid.1)
      have furthest : furthestStop (capture :: rest) = max capture.stop (furthestStop rest) := rfl
      rw [reachAfter, inductionHypothesis follows, furthest]
      omega

theorem reachAfter_le {size reach : Nat} {captures : List Capture}
    (consecutive : Consecutive size reach captures) (inside : reach ≤ size) :
    reachAfter reach captures ≤ size := by
  induction captures generalizing reach with
  | nil => exact inside
  | cons capture rest inductionHypothesis =>
      exact inductionHypothesis consecutive.2.2 consecutive.2.1.2

theorem le_reachAfter {size reach : Nat} {captures : List Capture}
    (consecutive : Consecutive size reach captures) : reach ≤ reachAfter reach captures := by
  rw [reachAfter_eq_max consecutive]
  exact Nat.le_max_left _ _

/-- From any taken captures on, the rule takes what the recursion takes from their largest
end on. -/
theorem foldl_takeNext (size : Nat) (taken captures : List Capture) :
    captures.foldl (takeNext size) taken =
      taken ++ selectFrom size (furthestStop taken) captures := by
  induction captures generalizing taken with
  | nil => simp [selectFrom]
  | cons capture rest inductionHypothesis =>
      rw [List.foldl_cons, inductionHypothesis, selectFrom, takeNext]
      split
      · rename_i free
        have ends : furthestStop (taken ++ [capture]) = capture.stop := by
          have single : furthestStop [capture] = capture.stop := by simp [furthestStop]
          have forward : capture.start < capture.stop := free.1.1
          rw [furthestStop_append, single]
          omega
        rw [ends, List.append_assoc]
        rfl
      · rfl

theorem selected_eq_selectFrom (size : Nat) (captures : List Capture) :
    selected size captures = selectFrom size 0 captures :=
  foldl_takeNext size [] captures

/-- Selected captures are not empty and stand one behind the other. -/
theorem consecutive_selected (size : Nat) (captures : List Capture) :
    Consecutive size 0 (selected size captures) := by
  rw [selected_eq_selectFrom]
  exact consecutive_selectFrom size 0 captures

theorem furthestStop_selected (size : Nat) (captures : List Capture) :
    furthestStop (selected size captures) = reachAfter 0 (selectFrom size 0 captures) := by
  rw [selected_eq_selectFrom, reachAfter_eq_max (consecutive_selectFrom size 0 captures),
    Nat.zero_max]

end CodeHighlight
