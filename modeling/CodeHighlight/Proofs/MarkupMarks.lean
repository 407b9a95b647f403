/-
Module: CodeHighlight.Proofs.MarkupMarks
Purpose: What can be searched for in markup output.  Each `<` in it begins a tag that the writer
  put there, so a mark that begins with `<` is found where the writer put it, or nowhere.  This is
  how the numbers of the line labels are read back.
Main exports:
  Markup.labelNumbers, Event.number, Markup.excludes_write, Markup.labelNumbers_run_write,
  Markup.length_of_mem_labelNumbers
-/
import CodeHighlight.Proofs.LabelColumn
import CodeHighlight.Proofs.MarkupText
import CodeHighlight.Proofs.Occurrence

namespace CodeHighlight

/-- The number of a line label as it is written. -/
def Event.number : Event → List Bytes
  | label line width => [Decimal.rightJustified width line]
  | _ => []

namespace Markup

/-- The tag that begins a line label. -/
def labelStart : Bytes :=
  Utf8.encode "<span class=\"line-number\">"

/-- The numbers in the line labels of the text, with the blanks before them. -/
def labelNumbers (text : Bytes) : List Bytes :=
  passages labelStart spanEnd text

variable {mark : Bytes}

/-- A mark that begins with `<` does not begin in an instruction's markup when it begins in none of
the tags. -/
theorem excludes_write (starts : mark.head? = some 0x3C)
    (ofClass : ∀ highlightClass : HighlightClass,
      Excludes mark (spanStart highlightClass.styleName))
    (ofLabel : Excludes mark labelStart) (ofEnd : Excludes mark spanEnd) (spanOpen : Writer)
    (event : Event) : Excludes mark (write spanOpen event).2 := by
  cases event with
  | openRun style =>
      cases markup : style.markup with
      | none =>
          simp only [write, markup]
          exact True.intro
      | some highlightClass =>
          simp only [write, markup]
          exact ofClass highlightClass
  | closeRun =>
      cases spanOpen with
      | false => exact True.intro
      | true => exact ofEnd
  | text bytes => exact excludes_of_notMem starts (lessThan_notMem_escape bytes)
  | label line width =>
      apply excludes_append
      · apply excludes_append ofLabel
        exact excludes_of_notMem starts (lessThan_notMem_rightJustified width line)
      · exact ofEnd

theorem excludes_labelStart_spanStart (highlightClass : HighlightClass) :
    Excludes labelStart (spanStart highlightClass.styleName) := by
  cases highlightClass <;> decide +kernel

/-- The label numbers of markup output are those of its labels. -/
theorem labelNumbers_run_write (spanOpen : Writer) (events : List Event) :
    labelNumbers (write.run spanOpen events).2 = events.flatMap Event.number := by
  induction events generalizing spanOpen with
  | nil => exact passages_nil _ _
  | cons event rest inductionHypothesis =>
      rw [Transducer.run_cons, List.flatMap_cons, ← inductionHypothesis (write spanOpen event).1]
      cases event with
      | openRun style =>
          cases markup : style.markup with
          | none =>
              simp only [write, markup]
              rfl
          | some highlightClass =>
              simp only [write, markup]
              exact passages_of_excludes (excludes_labelStart_spanStart highlightClass) _
      | closeRun =>
          cases spanOpen with
          | false => rfl
          | true => exact passages_of_excludes (by decide +kernel) _
      | text bytes =>
          apply passages_of_excludes
          exact excludes_of_notMem rfl (lessThan_notMem_escape bytes)
      | label line width =>
          have number : Excludes spanEnd (Decimal.rightJustified width line) :=
            excludes_of_notMem rfl (lessThan_notMem_rightJustified width line)
          have opens : labelStart ≠ [] := by decide
          have closes : spanEnd ≠ [] := by decide
          simp only [write, label]
          rw [List.append_assoc, List.append_assoc]
          exact passages_passage opens closes number (write.run spanOpen rest).2

/-- The numbers of a rendering fill the label column exactly. -/
theorem length_of_mem_labelNumbers {source : Bytes} {found : List Match} {theme : Theme}
    {lineNumbers : Bool} {number : Bytes}
    (member : number ∈ labelNumbers (render source found theme ⟨.markup, lineNumbers⟩)) :
    number.length = labelWidth source := by
  have told : render source found theme ⟨.markup, lineNumbers⟩ =
      (write.run false ((Walk.start source lineNumbers).complete theme found).2).2 := rfl
  rw [told, labelNumbers_run_write] at member
  obtain ⟨event, among, isNumber⟩ := List.mem_flatMap.mp member
  cases event with
  | label line width =>
      rw [List.mem_singleton.mp isNumber]
      exact Walk.length_number_of_mem_complete among
  | openRun style => cases isNumber
  | closeRun => cases isNumber
  | text bytes => cases isNumber

end Markup

end CodeHighlight
