/-
Module: CodeHighlight.Capture
Purpose: What a query finds: tagged ranges of the source, grouped by the pattern that found
  them together.
Main exports:
  Capture, Capture.ValidFor, Match, Match.inOrder, Match.perm_inOrder, Match.pairwise_inOrder
-/
import CodeHighlight.Tag

namespace CodeHighlight

/-- A tagged range of bytes, from `start` up to but without `stop`. -/
structure Capture where
  tag : Tag
  start : Nat
  stop : Nat
deriving Repr, DecidableEq

namespace Capture

/-- The range holds a byte and lies inside a source of `size` bytes. -/
def ValidFor (capture : Capture) (size : Nat) : Prop :=
  capture.start < capture.stop ∧ capture.stop ≤ size

instance (capture : Capture) (size : Nat) : Decidable (capture.ValidFor size) :=
  inferInstanceAs (Decidable (_ ∧ _))

end Capture

/-- The captures that one match of a pattern yields, in no particular order. -/
abbrev Match := List Capture

namespace Match

/-- The captures by their starts.  Those with the same start keep their order. -/
def inOrder (captures : Match) : Match :=
  captures.mergeSort fun first second => first.start ≤ second.start

theorem perm_inOrder (captures : Match) : captures.inOrder.Perm captures :=
  List.mergeSort_perm captures _

theorem pairwise_inOrder (captures : Match) :
    captures.inOrder.Pairwise fun first second => first.start ≤ second.start := by
  have transitive : ∀ first second third : Capture,
      decide (first.start ≤ second.start) = true → decide (second.start ≤ third.start) = true →
        decide (first.start ≤ third.start) = true := by
    intro first second third
    simp only [decide_eq_true_eq]
    exact Nat.le_trans
  have total : ∀ first second : Capture,
      (decide (first.start ≤ second.start) || decide (second.start ≤ first.start)) = true := by
    intro first second
    simp only [Bool.or_eq_true, decide_eq_true_eq]
    exact Nat.le_total _ _
  exact (List.pairwise_mergeSort transitive total captures).imp of_decide_eq_true

end Match

end CodeHighlight
