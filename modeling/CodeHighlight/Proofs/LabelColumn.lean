/-
Module: CodeHighlight.Proofs.LabelColumn
Purpose: The column of the line labels.  Its width is fixed before the first line is written, from
  the number of newlines.  No line has a greater number than that allows for, so every number
  fills the column exactly.
Main exports:
  Decimal.length_digits_eq_log, Decimal.digitCount_eq_length, length_lines, length_lines_le,
  length_number_of_le_lines, LineNumbering.mem_labelledFrom, Walk.label_of_mem_complete,
  Walk.length_number_of_mem_complete
-/
import CodeHighlight.Proofs.GreedyResolution
import Mathlib.Data.Nat.Log

namespace CodeHighlight

/-- The digits of a number are one more than the divisions by ten that leave something. -/
theorem Decimal.length_digits_eq_log (number : Nat) :
    (digits number).length = Nat.log 10 number + 1 := by
  have some : 0 < (Nat.toDigits 10 number).length := Nat.length_toDigits_pos
  rw [digits, List.length_map]
  apply Nat.le_antisymm
  · rw [Nat.length_toDigits_le_iff (by decide) (Nat.succ_pos _)]
    exact Nat.lt_pow_succ_log_self (by decide) number
  · apply Nat.log_lt_of_lt_pow' (Nat.ne_of_gt some)
    exact (Nat.length_toDigits_le_iff (by decide) some).mp (Nat.le_refl _)

theorem Decimal.countDigits_eq_log (count number : Nat) :
    countDigits count number = count + Nat.log 10 number := by
  induction count, number using countDigits.induct with
  | case1 count number more inductionHypothesis =>
      rw [countDigits, if_pos more, inductionHypothesis, Nat.log_of_one_lt_of_le (by decide) more]
      omega
  | case2 count number single =>
      rw [countDigits, if_neg single, Nat.log_of_lt (Nat.lt_of_not_le single), Nat.add_zero]

/-- Counting by division finds as many digits as are written. -/
theorem Decimal.digitCount_eq_length (number : Nat) :
    digitCount number = (digits number).length := by
  rw [digitCount, countDigits_eq_log, length_digits_eq_log, Nat.add_comm]

/-- A smaller number has no more digits. -/
theorem Decimal.length_digits_le {first second : Nat} (ordered : first ≤ second) :
    (digits first).length ≤ (digits second).length := by
  rw [length_digits_eq_log, length_digits_eq_log]
  exact Nat.succ_le_succ (Nat.log_mono_right ordered)

/-- A text has a line for every newline, and one more if something follows the last newline. -/
theorem length_lines (text : Bytes) :
    (lines text).length =
      newlineCount text + if text = [] ∨ endsLine text = true then 0 else 1 := by
  induction text with
  | nil => rfl
  | cons byte rest inductionHypothesis =>
      have ending : rest ≠ [] → endsLine (byte :: rest) = endsLine rest := endsLine_cons byte
      by_cases ends : byte = newline
      · have counted : newlineCount (byte :: rest) = newlineCount rest + 1 := by
          rw [ends]
          exact List.count_cons_self
        have cut : (lines (byte :: rest)).length = (lines rest).length + 1 := by
          rw [ends, lines_newline_cons]
          rfl
        rw [cut, counted, inductionHypothesis]
        by_cases empty : rest = []
        · simp [empty, ends, endsLine]
        · simp [empty, ending empty]
          omega
      · have counted : newlineCount (byte :: rest) = newlineCount rest :=
          List.count_cons_of_ne ends
        rw [counted]
        cases cut : lines rest with
        | nil =>
            have empty : rest = [] := by rw [← flatten_lines rest, cut]; rfl
            have unended : endsLine [byte] = false := by simpa [endsLine] using ends
            rw [empty, lines_singleton]
            simp [unended, newlineCount]
        | cons line others =>
            have nonempty : rest ≠ [] := by
              intro empty
              rw [empty] at cut
              cases cut
            rw [cut] at inductionHypothesis
            rw [lines_cons_of_ne ends cut]
            simpa [nonempty, ending nonempty] using inductionHypothesis

/-- A text has at most one line more than it has newlines. -/
theorem length_lines_le (text : Bytes) : (lines text).length ≤ newlineCount text + 1 := by
  rw [length_lines]
  split
  · exact Nat.le_add_right _ _
  · exact Nat.le_refl _

/-- The number of a line fills the label column exactly. -/
theorem length_number_of_le_lines {source : Bytes} {line : Nat}
    (upper : line ≤ (lines source).length) :
    (Decimal.rightJustified (labelWidth source) line).length = labelWidth source := by
  have fits : (Decimal.digits line).length ≤ labelWidth source := by
    calc (Decimal.digits line).length
        ≤ (Decimal.digits (newlineCount source + 1)).length :=
          Decimal.length_digits_le (Nat.le_trans upper (length_lines_le source))
      _ = Decimal.digitCount (newlineCount source + 1) :=
          (Decimal.digitCount_eq_length (newlineCount source + 1)).symm
      _ ≤ labelWidth source := Nat.le_max_right _ _
  rw [Decimal.length_rightJustified]
  exact Nat.max_eq_left fits

namespace LineNumbering

/-- The labels before lines have one width and the numbers of the lines. -/
theorem mem_labelledFrom {width number line column : Nat} {pieces : List Bytes}
    (member : .label line column ∈ labelledFrom width number pieces) :
    column = width ∧ number ≤ line ∧ line < number + pieces.length := by
  induction pieces generalizing number with
  | nil => cases member
  | cons piece rest inductionHypothesis =>
      rw [labelledFrom_cons, List.mem_cons, List.mem_cons] at member
      rw [List.length_cons]
      rcases member with here | text | later
      · cases here
        exact ⟨rfl, Nat.le_refl _, by omega⟩
      · cases text
      · obtain ⟨same, lower, upper⟩ := inductionHypothesis later
        exact ⟨same, by omega, by omega⟩

end LineNumbering

/-- Cutting text into single bytes leaves the labels. -/
theorem mem_bytewise_label {events : List Event} {line width : Nat} :
    .label line width ∈ bytewise events ↔ .label line width ∈ events := by
  have atoms : ∀ event : Event,
      .label line width ∈ event.atoms ↔ event = .label line width := by
    intro event
    cases event with
    | text bytes => simp [Event.atoms]
    | openRun style => simp [Event.atoms]
    | closeRun => simp [Event.atoms]
    | label other column => simp [Event.atoms, eq_comm]
  constructor
  · intro member
    obtain ⟨event, among, isLabel⟩ := List.mem_flatMap.mp member
    rw [← (atoms event).mp isLabel]
    exact among
  · intro member
    exact List.mem_flatMap.mpr ⟨_, member, (atoms _).mpr rfl⟩

namespace Walk

variable {source : Bytes} {lineNumbers : Bool} {found : List Match} {theme : Theme}
  {line width : Nat}

/-- The labels of a rendering have the width of the label column, and the numbers of lines of the
source. -/
theorem label_of_mem_complete
    (member : .label line width ∈ ((start source lineNumbers).complete theme found).2) :
    width = labelWidth source ∧ 1 ≤ line ∧ line ≤ (lines source).length := by
  rw [snd_complete] at member
  -- Labels stand where they would stand if the source were written at once.
  have unbracketed : .label line width ∈
      bytewise (unbracketed ((LineNumbering.readSegment theme).run (.start source lineNumbers)
        (segmentsOf source found)).2) :=
    mem_bytewise_label.mpr (List.mem_filter.mpr ⟨member, rfl⟩)
  rw [(LineNumbering.run_readSegment_unbracketed theme _ _ bytes_ne_nil_of_mem_segmentsOf).2,
    mem_bytewise_label, bytes_segmentsOf] at unbracketed
  cases lineNumbers with
  | false =>
      rw [LineNumbering.write_start_false] at unbracketed
      cases List.mem_singleton.mp unbracketed
  | true =>
      rw [LineNumbering.write_start_true] at unbracketed
      obtain ⟨same, lower, upper⟩ := LineNumbering.mem_labelledFrom unbracketed
      exact ⟨same, lower, by omega⟩

/-- The number of a label fills the label column exactly. -/
theorem length_number_of_mem_complete
    (member : .label line width ∈ ((start source lineNumbers).complete theme found).2) :
    (Decimal.rightJustified width line).length = labelWidth source := by
  obtain ⟨same, _, upper⟩ := label_of_mem_complete member
  rw [same]
  exact length_number_of_le_lines upper

end Walk

end CodeHighlight
