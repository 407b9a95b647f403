/-
Module: CodeHighlight.Proofs.TerminalScreen
Purpose: A terminal that reads flat output and shows bytes in styles.  Graphic parameters change
  its style one after another and nothing else does, so what a byte looks like depends on every
  control sequence before it.  For runs that open and close in turn, what the terminal shows of
  the writer's output is what `paint` says of the instructions.
Main exports:
  Terminal.Cell, Terminal.Screen, Screen.read, run_read_text, run_read_graphicSequence, paint,
  labelCells, Writer.styleAfter, run_read_write_event, run_read_write
-/
import CodeHighlight.Proofs.EventView
import CodeHighlight.Proofs.GraphicParameters

namespace CodeHighlight

namespace Terminal

/-! ### The terminal -/

/-- A byte as it is shown. -/
structure Cell where
  byte : UInt8
  style : Style
deriving Repr, DecidableEq

/-- Bytes shown in one style. -/
def cells (style : Style) (bytes : Bytes) : List Cell :=
  bytes.map fun byte => ⟨byte, style⟩

/-- How much of a control sequence was read. -/
inductive Progress where
  | none
  | escape
  /-- The bytes after the opening bracket, newest first. -/
  | inside (newestFirst : Bytes)
deriving Repr, DecidableEq

/-- A terminal: the style in which it shows bytes, and what it was reading. -/
structure Screen where
  style : Style
  progress : Progress
deriving Repr, DecidableEq

namespace Screen

/-- A terminal that shows bytes in a style. -/
def showing (style : Style) : Screen where
  style := style
  progress := .none

/-- Reads a byte.  A control sequence begins with escape and `[`, ends with `m` and is not shown;
an escape byte before anything else is a byte like any other. -/
def read : Transducer Screen UInt8 Cell := fun screen byte =>
  match screen.progress with
  | .none =>
      if byte = escapeByte then ({ screen with progress := .escape }, [])
      else (screen, [⟨byte, screen.style⟩])
  | .escape =>
      if byte = 0x5B then ({ screen with progress := .inside [] }, [])
      else if byte = escapeByte then (screen, [⟨escapeByte, screen.style⟩])
      else (showing screen.style, [⟨escapeByte, screen.style⟩, ⟨byte, screen.style⟩])
  | .inside newestFirst =>
      if byte = 0x6D then
        (showing (select screen.style (readParameters newestFirst.reverse)), [])
      else ({ screen with progress := .inside (byte :: newestFirst) }, [])

/-- Text is shown in the style that was selected. -/
theorem run_read_text (style : Style) {text : Bytes} (absent : escapeByte ∉ text) :
    read.run (showing style) text = (showing style, cells style text) := by
  rw [cells, List.map_eq_flatMap]
  apply Transducer.run_of_fixed
  intro byte member
  have plain : byte ≠ escapeByte := ne_of_mem_of_not_mem member absent
  simp [read, showing, plain]

/-- Everything up to the end of a control sequence belongs to its parameters. -/
theorem run_read_inside (style : Style) (newestFirst : Bytes) {text : Bytes}
    (unended : (0x6D : UInt8) ∉ text) :
    read.run ⟨style, .inside newestFirst⟩ (text ++ [0x6D]) =
      (showing (select style (readParameters (newestFirst.reverse ++ text))), []) := by
  induction text generalizing newestFirst with
  | nil =>
      rw [List.nil_append, Transducer.run_singleton, List.append_nil]
      rfl
  | cons byte rest inductionHypothesis =>
      have goesOn : byte ≠ 0x6D := Ne.symm (List.ne_of_not_mem_cons unended)
      have taken : read ⟨style, .inside newestFirst⟩ byte =
          (⟨style, .inside (byte :: newestFirst)⟩, []) := by
        simp [read, goesOn]
      rw [List.cons_append, Transducer.run_cons, taken,
        inductionHypothesis _ fun member => unended (List.mem_cons_of_mem _ member)]
      simp

/-- A control sequence shows nothing and selects what its parameters say. -/
theorem run_read_graphicSequence (style : Style) {parameters : List Nat}
    (nonempty : parameters ≠ []) :
    read.run (showing style) (graphicSequence parameters) =
      (showing (select style parameters), []) := by
  have unended := end_notMem_intercalate_digits parameters
  have opened : read.run (showing style) [escapeByte, 0x5B] = (⟨style, .inside []⟩, []) := rfl
  have cut : graphicSequence parameters = [escapeByte, 0x5B] ++
      (List.intercalate [0x3B] (parameters.map Decimal.digits) ++ [0x6D]) := rfl
  rw [cut, Transducer.run_append, opened, run_read_inside style [] unended, List.reverse_nil,
    List.nil_append, readParameters_intercalate nonempty]
  rfl

end Screen

/-! ### What the writer's output looks like -/

/-- The sequence of a style puts it on top of the style that was selected. -/
theorem run_read_sequence (under style : Style) :
    Screen.read.run (.showing under) style.sequence = (.showing (style.over under), []) := by
  rw [Style.sequence, Screen.run_read_graphicSequence under (parameters_ne_nil style),
    select_parameters]

theorem run_read_resetSequence (under : Style) :
    Screen.read.run (.showing under) resetSequence = (.showing .plain, []) :=
  run_read_sequence under .plain

/-- A label as it is shown: its number and bar in a style, then a plain blank. -/
def labelCells (style : Style) (line width : Nat) : List Cell :=
  cells style (Decimal.rightJustified width line ++ bar) ++ cells .plain [0x20]

/-- How instructions are shown.  The state is the style of the open run, plain outside of runs;
text has that style, and a label has its own style on top of it. -/
def paint (labelStyle : Style) : Transducer Style Event Cell
  | _, .openRun style => (style.terminal, [])
  | _, .closeRun => (.plain, [])
  | style, .text bytes => (style, cells style bytes)
  | style, .label line width => (style, labelCells (labelStyle.over style) line width)

/-- The style of the run that a writer has open, plain when it has none. -/
def Writer.style (active : Writer) : Style :=
  active.getD .plain

theorem run_read_label (labelStyle style : Style) (line width : Nat) :
    Screen.read.run (.showing style) (label labelStyle line width) =
      (.showing .plain, labelCells (labelStyle.over style) line width) := by
  have blank : escapeByte ∉ ([0x20] : Bytes) := by decide
  have cut : label labelStyle line width = labelStyle.sequence ++
      ((Decimal.rightJustified width line ++ bar) ++ (resetSequence ++ [0x20])) := by
    simp [label]
  rw [cut, Transducer.run_append, run_read_sequence, Transducer.run_append,
    Screen.run_read_text _ (escapeByte_notMem_label line width), Transducer.run_append,
    run_read_resetSequence, Screen.run_read_text _ blank]
  rfl

/-- The style of a terminal after an instruction.  A run is put on top of the style that there was,
while a label makes way for the run that the writer has open. -/
def Writer.styleAfter (active : Writer) (under : Style) : Event → Style
  | .openRun style => style.terminal.over under
  | .closeRun => .plain
  | .text _ => under
  | .label _ _ => active.style

/-- One instruction, whatever style the terminal has. -/
theorem run_read_write_event (labelStyle under : Style) (active : Writer) {event : Event}
    (absent : escapeByte ∉ event.textBytes) :
    Screen.read.run (.showing under) (write labelStyle active event).2 =
      (.showing (active.styleAfter under event), (paint labelStyle under event).2) := by
  cases event with
  | openRun style => exact run_read_sequence under style.terminal
  | closeRun => exact run_read_resetSequence under
  | text bytes => exact Screen.run_read_text under absent
  | label line width =>
      simp only [write]
      rw [Transducer.run_append, run_read_label]
      cases active with
      | none =>
          rw [Option.elim_none, Transducer.run_nil, List.append_nil]
          rfl
      | some style =>
          rw [Option.elim_some, run_read_sequence, Style.over_plain, List.append_nil]
          rfl

/-- One instruction: as long as no run is opened inside another, the terminal shows what `paint`
says, and goes on in the style of the run that is open then. -/
theorem run_read_write_one (labelStyle : Style) (active : Writer) (event : Event) {isOpen : Bool}
    (inTurn : event.bracket active.isSome = some isOpen)
    (absent : escapeByte ∉ event.textBytes) :
    Screen.read.run (.showing active.style) (write labelStyle active event).2 =
        (.showing (write labelStyle active event).1.style,
          (paint labelStyle active.style event).2) ∧
      (paint labelStyle active.style event).1 = (write labelStyle active event).1.style ∧
      (write labelStyle active event).1.isSome = isOpen := by
  rw [run_read_write_event labelStyle active.style active absent]
  cases event with
  | openRun style =>
      cases active with
      | some outer => cases inTurn
      | none =>
          cases inTurn
          refine ⟨?_, rfl, rfl⟩
          simp only [Writer.styleAfter, Writer.style, Option.getD_none, Style.over_plain]
          rfl
  | closeRun =>
      cases active with
      | none => cases inTurn
      | some style =>
          cases inTurn
          exact ⟨rfl, rfl, rfl⟩
  | text bytes =>
      cases inTurn
      exact ⟨rfl, rfl, rfl⟩
  | label line width =>
      cases inTurn
      exact ⟨rfl, rfl, rfl⟩

/-- The output of the writer, for runs that open and close in turn and text without escape bytes,
is shown as `paint` says. -/
theorem run_read_write (labelStyle : Style) (active : Writer) (events : List Event)
    {isOpen : Bool} (inTurn : events.foldlM Event.bracket active.isSome = some isOpen)
    (absent : escapeByte ∉ textOf events) :
    Screen.read.run (.showing active.style) ((write labelStyle).run active events).2 =
        (.showing ((write labelStyle).run active events).1.style,
          ((paint labelStyle).run active.style events).2) ∧
      ((write labelStyle).run active events).1.isSome = isOpen := by
  induction events generalizing active with
  | nil =>
      cases inTurn
      exact ⟨rfl, rfl⟩
  | cons event rest inductionHypothesis =>
      rw [List.foldlM_cons] at inTurn
      obtain ⟨between, bracketed, follows⟩ := Option.bind_eq_some_iff.mp inTurn
      rw [textOf_cons, List.mem_append, not_or] at absent
      obtain ⟨shown, painted, opened⟩ :=
        run_read_write_one labelStyle active event bracketed absent.1
      rw [← opened] at follows
      have others := inductionHypothesis _ follows absent.2
      rw [Transducer.run_cons, Transducer.run_append, shown, Transducer.run_cons, painted,
        others.1]
      exact ⟨rfl, others.2⟩

/-- When the last run is closed, the terminal is left in the plain style. -/
theorem run_read_write_closed (labelStyle : Style) (events : List Event)
    (closed : openAfter events = some false) (absent : escapeByte ∉ textOf events) :
    Screen.read.run (.showing .plain) ((write labelStyle).run none events).2 =
      (.showing .plain, ((paint labelStyle).run .plain events).2) := by
  obtain ⟨shown, noRun⟩ := run_read_write labelStyle none events closed absent
  rw [Option.isSome_eq_false_iff, Option.isNone_iff_eq_none] at noRun
  rw [noRun] at shown
  exact shown

end Terminal

end CodeHighlight
