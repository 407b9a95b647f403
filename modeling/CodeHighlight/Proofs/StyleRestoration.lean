/-
Module: CodeHighlight.Proofs.StyleRestoration
Purpose: The style of a terminal under any sequence of instructions to the writer, also where runs are
  opened inside each other or closed when none is open.  A run that is opened inside another keeps
  what it does not set itself.  Closing clears everything, and a label, which resets before it selects
  the run's style again, leaves exactly the style of the run that was opened last.
Main exports:
  Event.opened?, lastOpen?, lastOpen?_concat, Terminal.fst_run_write, Terminal.exists_showing_run,
  Terminal.screenAfter, Terminal.screenAfter_concat, Terminal.styles_restored
-/
import CodeHighlight.Proofs.TerminalScreen
import CodeHighlight.Rendering
import CodeHighlight.Theme.Builtin
import Mathlib.Data.List.Induction

namespace CodeHighlight

/-! ### The run that was opened last -/

/-- The look of the run that the instruction opens. -/
def Event.opened? : Event → Option TagStyle
  | openRun style => some style
  | _ => none

/-- The look of the run that was opened last, unless a run was closed after that. -/
def lastOpen? (events : List Event) : Option TagStyle :=
  (events.reverse.find? Event.isBracket).bind Event.opened?

theorem lastOpen?_concat (events : List Event) (event : Event) :
    lastOpen? (events ++ [event]) =
      if event.isBracket then event.opened? else lastOpen? events := by
  rw [lastOpen?, List.reverse_concat, List.find?_cons]
  cases event.isBracket with
  | true => rfl
  | false => rfl

namespace Terminal

/-- The writer remembers one run, whatever was opened around it. -/
theorem fst_run_write (labelStyle : Style) (events : List Event) :
    ((write labelStyle).run none events).1 = (lastOpen? events).map TagStyle.terminal := by
  induction events using List.reverseRecOn with
  | nil => rfl
  | append_singleton events event inductionHypothesis =>
      rw [Transducer.run_append, Transducer.run_singleton, lastOpen?_concat]
      cases event with
      | openRun style => rfl
      | closeRun => rfl
      | text bytes => exact inductionHypothesis
      | label line width => exact inductionHypothesis

/-! ### The terminal after any instructions -/

/-- No sequence of instructions leaves a control sequence unfinished. -/
theorem exists_showing_run (labelStyle under : Style) (active : Writer) {events : List Event}
    (absent : escapeByte ∉ textOf events) :
    ∃ style, (Screen.read.run (.showing under) ((write labelStyle).run active events).2).1 =
      .showing style := by
  induction events generalizing under active with
  | nil => exact ⟨under, rfl⟩
  | cons event rest inductionHypothesis =>
      rw [textOf_cons, List.mem_append, not_or] at absent
      rw [Transducer.run_cons, Transducer.run_append,
        run_read_write_event labelStyle under active absent.1]
      exact inductionHypothesis (active.styleAfter under event) _ absent.2

/-- A terminal that was plain before the output for instructions, after that output. -/
def screenAfter (theme : Theme) (events : List Event) : Screen :=
  (Screen.read.run (.showing .plain) (writeEvents theme events .terminal)).1

/-- What one more instruction makes of the style depends only on that style and on the run that was
opened last. -/
theorem screenAfter_concat (theme : Theme) {events : List Event} {event : Event} {style : Style}
    (reached : screenAfter theme events = .showing style)
    (absent : escapeByte ∉ event.textBytes) :
    screenAfter theme (events ++ [event]) =
      .showing (Writer.styleAfter ((lastOpen? events).map TagStyle.terminal) style event) := by
  rw [screenAfter, writeEvents] at reached
  rw [screenAfter, writeEvents, Transducer.run_append, Transducer.run_singleton,
    Transducer.run_append, reached, fst_run_write, run_read_write_event _ _ _ absent]

/-- After any instructions, balanced or not, closing leaves the terminal plain.  A label leaves it in
exactly the style of the run that was opened last, or plain when there is none or a run was closed
after that: nothing of the label's style stays, and nothing of the runs around that one.  Text never
changes the style, and a run that is opened comes on top of it. -/
theorem styles_restored (theme : Theme) {events : List Event}
    (absent : escapeByte ∉ textOf events) :
    ∃ style, screenAfter theme events = .showing style ∧
      screenAfter theme (events ++ [.closeRun]) = .showing .plain ∧
      (∀ line width, screenAfter theme (events ++ [.label line width]) =
        .showing ((lastOpen? events).elim .plain TagStyle.terminal)) ∧
      (∀ bytes, escapeByte ∉ bytes →
        screenAfter theme (events ++ [.text bytes]) = .showing style) ∧
      (∀ run, screenAfter theme (events ++ [.openRun run]) = .showing (run.terminal.over style)) := by
  obtain ⟨style, reached⟩ := exists_showing_run theme.labelStyle .plain none absent
  refine ⟨style, reached, ?_, ?_, ?_, ?_⟩
  · exact screenAfter_concat theme reached List.not_mem_nil
  · intro line width
    rw [screenAfter_concat theme reached List.not_mem_nil]
    cases lastOpen? events with
    | none => rfl
    | some run => rfl
  · intro bytes noEscape
    exact screenAfter_concat theme reached noEscape
  · intro run
    exact screenAfter_concat theme reached List.not_mem_nil

/-- A red run inside of a bold and underlined one is bold and underlined up to its first label, and
only red after that. -/
theorem styles_restored_nested :
    let outer : TagStyle := ⟨⟨.named .blue, true, false, true⟩, some .keyword, none⟩
    let inner : TagStyle := ⟨.ofForeground (.named .red), none, none⟩
    let mixed : Style := ⟨.named .red, true, false, true⟩
    let events : List Event := [.closeRun, .openRun outer, .openRun inner, .text [0x61, newline]]
    escapeByte ∉ textOf events ∧
      screenAfter Theme.standard events = .showing mixed ∧
      screenAfter Theme.standard (events ++ [.closeRun]) = .showing .plain ∧
      screenAfter Theme.standard (events ++ [.label 2 4]) = .showing inner.terminal ∧
      screenAfter Theme.standard (events ++ [.text [0x62]]) = .showing mixed ∧
      screenAfter Theme.standard (events ++ [.openRun outer]) = .showing outer.terminal := by
  intro outer inner mixed events
  have absent : escapeByte ∉ textOf events := by decide
  have shown : screenAfter Theme.standard events = .showing mixed := by decide
  obtain ⟨style, reached, closed, labelled, written, opened⟩ :=
    styles_restored Theme.standard absent
  have same : style = mixed := congrArg Screen.style (reached.symm.trans shown)
  rw [same] at written opened
  exact ⟨absent, shown, closed, labelled 2 4, written [0x62] (by decide), opened outer⟩

end Terminal

end CodeHighlight
