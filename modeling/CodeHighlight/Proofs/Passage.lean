/-
Module: CodeHighlight.Proofs.Passage
Purpose: Removing passages from a flat text: everything from an opening mark through the next
  closing mark.  Control sequences, tags and line labels are removed in this one way, by a
  reader that knows nothing of how the text was put together.
Main exports:
  afterFirst, withoutPassages, withoutPassages_cons, withoutPassages_append_of_notMem,
  withoutPassages_passage
-/
import CodeHighlight.Text.Utf8

namespace CodeHighlight

/-- What follows the first occurrence of a mark, nothing when the mark does not occur. -/
def afterFirst (mark : Bytes) : Bytes → Bytes
  | [] => []
  | byte :: rest =>
      if mark.isPrefixOf (byte :: rest) then (byte :: rest).drop mark.length
      else afterFirst mark rest

theorem length_afterFirst_le (mark text : Bytes) :
    (afterFirst mark text).length ≤ text.length := by
  induction text with
  | nil => exact Nat.le_refl _
  | cons byte rest inductionHypothesis =>
      unfold afterFirst
      split
      · rw [List.length_drop]
        exact Nat.sub_le _ _
      · exact Nat.le_succ_of_le inductionHypothesis

/-- The text without its passages, each from an opening mark through the next closing mark.  A
passage that is not closed goes on to the end. -/
def withoutPassages (opening closing : Bytes) : Bytes → Bytes
  | [] => []
  | byte :: rest =>
      if opening.isPrefixOf (byte :: rest) then
        -- The mark holds at least the byte in front.
        withoutPassages opening closing (afterFirst closing (rest.drop (opening.length - 1)))
      else byte :: withoutPassages opening closing rest
termination_by text => text.length
decreasing_by
  · have bound := length_afterFirst_le closing (rest.drop (opening.length - 1))
    rw [List.length_drop] at bound
    simp only [List.length_cons]
    omega
  · simp

theorem isPrefixOf_cons_of_ne {mark rest : Bytes} {first byte : UInt8}
    (starts : mark.head? = some first) (other : byte ≠ first) :
    mark.isPrefixOf (byte :: rest) = false := by
  cases mark with
  | nil => cases starts
  | cons head tail =>
      cases starts
      rw [List.isPrefixOf, Bool.and_eq_false_iff]
      exact Or.inl (beq_false_of_ne (Ne.symm other))

theorem isPrefixOf_append (mark rest : Bytes) : mark.isPrefixOf (mark ++ rest) = true :=
  List.isPrefixOf_iff_prefix.mpr (List.prefix_append mark rest)

/-- The search passes over text without the first byte of the mark. -/
theorem afterFirst_append {mark text : Bytes} {first : UInt8}
    (starts : mark.head? = some first) (absent : first ∉ text) (rest : Bytes) :
    afterFirst mark (text ++ mark ++ rest) = rest := by
  induction text with
  | nil =>
      cases mark with
      | nil => cases starts
      | cons head tail =>
          have found := isPrefixOf_append (head :: tail) rest
          rw [List.nil_append, List.cons_append] at *
          rw [afterFirst, if_pos found, ← List.cons_append, List.drop_left]
  | cons byte others inductionHypothesis =>
      have other : byte ≠ first := Ne.symm (List.ne_of_not_mem_cons absent)
      rw [List.cons_append, List.cons_append, afterFirst, isPrefixOf_cons_of_ne starts other]
      exact inductionHypothesis fun member => absent (List.mem_cons_of_mem _ member)

@[simp] theorem withoutPassages_nil (opening closing : Bytes) :
    withoutPassages opening closing [] = [] := by
  rw [withoutPassages]

/-- A byte that begins no opening mark stays. -/
theorem withoutPassages_cons {opening closing : Bytes} {byte : UInt8} {rest : Bytes}
    (plain : opening.isPrefixOf (byte :: rest) = false) :
    withoutPassages opening closing (byte :: rest) =
      byte :: withoutPassages opening closing rest := by
  rw [withoutPassages, plain]
  rfl

/-- Text without the first byte of the opening mark stays, whatever follows it. -/
theorem withoutPassages_append_of_notMem (opening closing : Bytes) {first : UInt8}
    {text : Bytes} (starts : opening.head? = some first) (absent : first ∉ text)
    (rest : Bytes) :
    withoutPassages opening closing (text ++ rest) =
      text ++ withoutPassages opening closing rest := by
  induction text with
  | nil => rfl
  | cons byte others inductionHypothesis =>
      have other : byte ≠ first := Ne.symm (List.ne_of_not_mem_cons absent)
      rw [List.cons_append, withoutPassages_cons (isPrefixOf_cons_of_ne starts other),
        inductionHypothesis fun member => absent (List.mem_cons_of_mem _ member)]
      rfl

/-- A passage goes up to its closing mark when the first byte of that mark does not occur
before. -/
theorem withoutPassages_passage (opening closing : Bytes) {first : UInt8} {text : Bytes}
    (nonempty : opening ≠ []) (ends : closing.head? = some first) (absent : first ∉ text)
    (rest : Bytes) :
    withoutPassages opening closing (opening ++ text ++ closing ++ rest) =
      withoutPassages opening closing rest := by
  cases opening with
  | nil => exact absurd rfl nonempty
  | cons head tail =>
      have found := isPrefixOf_append (head :: tail) (text ++ closing ++ rest)
      have dropped : (tail ++ (text ++ closing ++ rest)).drop ((head :: tail).length - 1) =
          text ++ closing ++ rest := List.drop_left
      rw [List.append_assoc, List.append_assoc, ← List.append_assoc text, List.cons_append]
      rw [List.cons_append] at found
      rw [withoutPassages, if_pos found, dropped, afterFirst_append ends absent]

end CodeHighlight
