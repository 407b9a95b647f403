/-
Module: CodeHighlight.Proofs.Occurrence
Purpose: Where a mark stands in a flat text.  A piece of text excludes a mark when the mark
  begins nowhere in it, whatever comes behind it.  Text made of such pieces has only the
  occurrences that are put in between, and every search passes over it.
Main exports:
  beforeFirst, occurrences, passages, Excludes, excludes_append, excludes_flatMap,
  excludes_of_notMem, occurrences_append, afterFirst_of_excludes, beforeFirst_of_excludes,
  occurrences_mark, passages_of_excludes, passages_passage
-/
import CodeHighlight.Proofs.Passage

namespace CodeHighlight

/-- What comes before the first occurrence of a mark, everything when the mark does not occur. -/
def beforeFirst (mark : Bytes) : Bytes → Bytes
  | [] => []
  | byte :: rest =>
      if mark.isPrefixOf (byte :: rest) then [] else byte :: beforeFirst mark rest

/-- The number of positions at which a mark begins. -/
def occurrences (mark : Bytes) : Bytes → Nat
  | [] => 0
  | byte :: rest => (if mark.isPrefixOf (byte :: rest) then 1 else 0) + occurrences mark rest

/-- The mark begins nowhere in the text, not even when more text follows. -/
def Excludes (mark : Bytes) : Bytes → Prop
  | [] => True
  | byte :: rest => ¬ mark <+: byte :: rest ∧ ¬ byte :: rest <+: mark ∧ Excludes mark rest

instance decidableExcludes (mark : Bytes) : (text : Bytes) → Decidable (Excludes mark text)
  | [] => inferInstanceAs (Decidable True)
  | _ :: rest =>
      have := decidableExcludes mark rest
      inferInstanceAs (Decidable (_ ∧ _ ∧ _))

variable {mark first second : Bytes}

theorem excludes_append (one : Excludes mark first) (two : Excludes mark second) :
    Excludes mark (first ++ second) := by
  induction first with
  | nil => exact two
  | cons byte rest inductionHypothesis =>
      obtain ⟨notBegun, notCut, later⟩ := one
      refine ⟨?_, ?_, inductionHypothesis later⟩
      · intro begins
        -- A mark over the joint reaches across it, or ends before it.
        rcases List.prefix_or_prefix_of_prefix begins
          (List.prefix_append (byte :: rest) second) with inside | across
        · exact notBegun inside
        · exact notCut across
      · intro cut
        exact notCut ((List.prefix_append (byte :: rest) second).trans cut)

theorem excludes_flatMap {Piece : Type} {pieces : List Piece} {image : Piece → Bytes}
    (each : ∀ piece ∈ pieces, Excludes mark (image piece)) :
    Excludes mark (pieces.flatMap image) := by
  induction pieces with
  | nil => exact True.intro
  | cons piece rest inductionHypothesis =>
      apply excludes_append (each piece List.mem_cons_self)
      apply inductionHypothesis
      intro later member
      exact each later (List.mem_cons_of_mem _ member)

/-- Text without the first byte of a mark excludes the mark. -/
theorem excludes_of_notMem {text : Bytes} {start : UInt8} (starts : mark.head? = some start)
    (absent : start ∉ text) : Excludes mark text := by
  induction text with
  | nil => exact True.intro
  | cons byte rest inductionHypothesis =>
      have other : byte ≠ start := Ne.symm (List.ne_of_not_mem_cons absent)
      cases mark with
      | nil => cases starts
      | cons head tail =>
          cases starts
          refine ⟨?_, ?_, inductionHypothesis fun member =>
            absent (List.mem_cons_of_mem _ member)⟩
          · intro begins
            exact other (List.cons_prefix_cons.mp begins).1.symm
          · intro cut
            exact other (List.cons_prefix_cons.mp cut).1

/-- Where a mark is excluded, it does not begin, whatever follows. -/
theorem isPrefixOf_of_excludes {byte : UInt8} {rest : Bytes}
    (excluded : Excludes mark (byte :: rest)) (following : Bytes) :
    mark.isPrefixOf (byte :: (rest ++ following)) = false := by
  obtain ⟨notBegun, notCut, _⟩ := excluded
  rw [Bool.eq_false_iff]
  intro found
  have begins : mark <+: (byte :: rest) ++ following := List.isPrefixOf_iff_prefix.mp found
  rcases List.prefix_or_prefix_of_prefix begins
    (List.prefix_append (byte :: rest) following) with inside | across
  · exact notBegun inside
  · exact notCut across

theorem occurrences_append (excluded : Excludes mark first) (following : Bytes) :
    occurrences mark (first ++ following) = occurrences mark following := by
  induction first with
  | nil => rfl
  | cons byte rest inductionHypothesis =>
      rw [List.cons_append, occurrences, isPrefixOf_of_excludes excluded,
        inductionHypothesis excluded.2.2]
      exact Nat.zero_add _

theorem occurrences_of_excludes (excluded : Excludes mark first) : occurrences mark first = 0 := by
  have whole := occurrences_append excluded []
  rwa [List.append_nil] at whole

/-- A search passes over text that excludes the mark. -/
theorem afterFirst_of_excludes (excluded : Excludes mark first) (following : Bytes) :
    afterFirst mark (first ++ following) = afterFirst mark following := by
  induction first with
  | nil => rfl
  | cons byte rest inductionHypothesis =>
      rw [List.cons_append, afterFirst, isPrefixOf_of_excludes excluded]
      exact inductionHypothesis excluded.2.2

theorem beforeFirst_of_excludes (excluded : Excludes mark first) (following : Bytes) :
    beforeFirst mark (first ++ following) = first ++ beforeFirst mark following := by
  induction first with
  | nil => rfl
  | cons byte rest inductionHypothesis =>
      rw [List.cons_append, beforeFirst, isPrefixOf_of_excludes excluded,
        inductionHypothesis excluded.2.2]
      rfl

/-! ### Marks that are there -/

theorem afterFirst_mark (nonempty : mark ≠ []) (following : Bytes) :
    afterFirst mark (mark ++ following) = following := by
  cases mark with
  | nil => exact absurd rfl nonempty
  | cons head tail =>
      rw [List.cons_append, afterFirst, ← List.cons_append, if_pos (isPrefixOf_append _ _),
        List.drop_left]

theorem beforeFirst_mark (nonempty : mark ≠ []) (following : Bytes) :
    beforeFirst mark (mark ++ following) = [] := by
  cases mark with
  | nil => exact absurd rfl nonempty
  | cons head tail =>
      rw [List.cons_append, beforeFirst, ← List.cons_append, if_pos (isPrefixOf_append _ _)]

/-- A mark whose first byte is not repeated in it occurs once where it is put. -/
theorem occurrences_mark {start : UInt8} (starts : mark.head? = some start)
    (distinct : start ∉ mark.tail) (following : Bytes) :
    occurrences mark (mark ++ following) = 1 + occurrences mark following := by
  cases mark with
  | nil => cases starts
  | cons head tail =>
      have excluded : Excludes (head :: tail) tail := excludes_of_notMem starts distinct
      rw [List.cons_append, occurrences, ← List.cons_append, if_pos (isPrefixOf_append _ _),
        occurrences_append excluded]

/-! ### Reading passages -/

/-- What stands inside the passages of the text, each from an opening mark to the next closing
mark. -/
def passages (opening closing : Bytes) : Bytes → List Bytes
  | [] => []
  | byte :: rest =>
      if opening.isPrefixOf (byte :: rest) then
        beforeFirst closing (rest.drop (opening.length - 1)) ::
          passages opening closing (afterFirst closing (rest.drop (opening.length - 1)))
      else passages opening closing rest
termination_by text => text.length
decreasing_by
  · have bound := length_afterFirst_le closing (rest.drop (opening.length - 1))
    rw [List.length_drop] at bound
    simp only [List.length_cons]
    omega
  · simp

variable {opening closing : Bytes}

@[simp] theorem passages_nil (opening closing : Bytes) : passages opening closing [] = [] := by
  rw [passages]

theorem passages_of_excludes (excluded : Excludes opening first) (following : Bytes) :
    passages opening closing (first ++ following) = passages opening closing following := by
  induction first with
  | nil => rfl
  | cons byte rest inductionHypothesis =>
      rw [List.cons_append, passages, isPrefixOf_of_excludes excluded]
      exact inductionHypothesis excluded.2.2

theorem passages_passage {text : Bytes} (opens : opening ≠ []) (closes : closing ≠ [])
    (excluded : Excludes closing text) (following : Bytes) :
    passages opening closing (opening ++ (text ++ (closing ++ following))) =
      text :: passages opening closing following := by
  cases opening with
  | nil => exact absurd rfl opens
  | cons head tail =>
      have inside : (tail ++ (text ++ (closing ++ following))).drop ((head :: tail).length - 1) =
          text ++ (closing ++ following) := List.drop_left
      rw [List.cons_append, passages, ← List.cons_append, if_pos (isPrefixOf_append _ _), inside,
        beforeFirst_of_excludes excluded, beforeFirst_mark closes, List.append_nil,
        afterFirst_of_excludes excluded, afterFirst_mark closes]

end CodeHighlight
