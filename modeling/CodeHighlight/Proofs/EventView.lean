/-
Module: CodeHighlight.Proofs.EventView
Purpose: What is compared when two sequences of instructions to a writer are compared.  How
  text is cut into pieces is forgotten by `bytewise`, where labels stand by `unlabelled`, and
  where runs begin and end by `unbracketed`.  All three keep the text.
Main exports:
  Event.atoms, Event.isLabel, Event.isBracket, Event.bracket, bytewise, unlabelled,
  unbracketed, textOf, openAfter, flatMap_bytewise, flatMap_unlabelled, flatMap_unbracketed,
  textOf_bytewise, textOf_unlabelled, openAfter_bytewise, openAfter_unlabelled,
  Transducer.view_run, Transducer.holds_run, Transducer.forall_mem_run, Transducer.run_filter,
  Transducer.run_bytewise, Transducer.run_agree, Terminal.run_write_bytewise,
  Markup.run_write_bytewise
-/
import CodeHighlight.Markup.Writer
import CodeHighlight.Terminal.Writer

namespace CodeHighlight

namespace Event

/-- The instruction with its text cut into single bytes. -/
def atoms : Event → List Event
  | text bytes => bytes.map fun byte => text [byte]
  | event => [event]

/-- Whether the instruction is a line label. -/
def isLabel : Event → Bool
  | label _ _ => true
  | _ => false

/-- Whether the instruction opens or closes a run. -/
def isBracket : Event → Bool
  | openRun _ => true
  | closeRun => true
  | _ => false

/-- Whether a run is open after the instruction.  There is no answer when it opens a run inside
a run, or closes a run where none is open. -/
def bracket (isOpen : Bool) : Event → Option Bool
  | openRun _ => if isOpen then none else some true
  | closeRun => if isOpen then some false else none
  | _ => some isOpen

end Event

/-- The instructions with all text cut into single bytes. -/
def bytewise (events : List Event) : List Event :=
  events.flatMap Event.atoms

/-- The instructions other than line labels. -/
def unlabelled (events : List Event) : List Event :=
  events.filter fun event => !event.isLabel

/-- The instructions that neither open nor close a run. -/
def unbracketed (events : List Event) : List Event :=
  events.filter fun event => !event.isBracket

/-- The source bytes that the instructions carry. -/
def textOf (events : List Event) : Bytes :=
  events.flatMap Event.textBytes

/-- Whether a run is open after the instructions, if they open and close runs in turn. -/
def openAfter (events : List Event) : Option Bool :=
  events.foldlM Event.bracket false

/-! ### Sequences one after another -/

@[simp] theorem bytewise_append (first second : List Event) :
    bytewise (first ++ second) = bytewise first ++ bytewise second := by
  simp [bytewise]

@[simp] theorem unlabelled_append (first second : List Event) :
    unlabelled (first ++ second) = unlabelled first ++ unlabelled second := by
  simp [unlabelled]

@[simp] theorem unbracketed_append (first second : List Event) :
    unbracketed (first ++ second) = unbracketed first ++ unbracketed second := by
  simp [unbracketed]

@[simp] theorem textOf_append (first second : List Event) :
    textOf (first ++ second) = textOf first ++ textOf second := by
  simp [textOf]

theorem bytewise_cons (event : Event) (rest : List Event) :
    bytewise (event :: rest) = event.atoms ++ bytewise rest := rfl

theorem textOf_cons (event : Event) (rest : List Event) :
    textOf (event :: rest) = event.textBytes ++ textOf rest := rfl

/-- Text in two pieces is the text in one piece, byte by byte. -/
theorem bytewise_text_append (first second : Bytes) :
    bytewise [.text (first ++ second)] = bytewise [.text first] ++ bytewise [.text second] := by
  simp [bytewise, Event.atoms]

/-! ### What the views keep

Reading instructions one by one sees through a view that only drops instructions the reader is
silent about, and through any cut of the text if it reads text byte by byte.
-/

variable {View : Type}

theorem flatMap_bytewise (read : Event → List View)
    (byByte : ∀ bytes, read (.text bytes) = bytes.flatMap fun byte => read (.text [byte]))
    (events : List Event) : (bytewise events).flatMap read = events.flatMap read := by
  have atoms : ∀ event : Event, event.atoms.flatMap read = read event := by
    intro event
    cases event with
    | text bytes =>
        rw [byByte, Event.atoms]
        exact List.flatMap_map _ _ _
    | openRun style => exact List.append_nil _
    | closeRun => exact List.append_nil _
    | label line width => exact List.append_nil _
  induction events with
  | nil => rfl
  | cons event rest inductionHypothesis =>
      rw [bytewise_cons, List.flatMap_append, atoms, inductionHypothesis, List.flatMap_cons]

theorem flatMap_filter_of_silent (read : Event → List View) (keep : Event → Bool)
    (silent : ∀ event, keep event = false → read event = []) (events : List Event) :
    (events.filter keep).flatMap read = events.flatMap read := by
  induction events with
  | nil => rfl
  | cons event rest inductionHypothesis =>
      rw [List.filter_cons, List.flatMap_cons]
      split
      · rw [List.flatMap_cons, inductionHypothesis]
      · rename_i dropped
        rw [silent event (Bool.eq_false_iff.mpr dropped), inductionHypothesis]
        rfl

theorem flatMap_unlabelled (read : Event → List View)
    (silent : ∀ line width, read (.label line width) = []) (events : List Event) :
    (unlabelled events).flatMap read = events.flatMap read := by
  apply flatMap_filter_of_silent
  intro event dropped
  cases event with
  | label line width => exact silent line width
  | openRun style => cases dropped
  | closeRun => cases dropped
  | text bytes => cases dropped

theorem flatMap_unbracketed (read : Event → List View)
    (silentOpen : ∀ style, read (.openRun style) = []) (silentClose : read .closeRun = [])
    (events : List Event) : (unbracketed events).flatMap read = events.flatMap read := by
  apply flatMap_filter_of_silent
  intro event dropped
  cases event with
  | openRun style => exact silentOpen style
  | closeRun => exact silentClose
  | label line width => cases dropped
  | text bytes => cases dropped

theorem textOf_bytewise (events : List Event) : textOf (bytewise events) = textOf events := by
  apply flatMap_bytewise
  intro bytes
  simp [Event.textBytes]

theorem textOf_unlabelled (events : List Event) :
    textOf (unlabelled events) = textOf events := by
  apply flatMap_unlabelled
  intro line width
  rfl

theorem foldlM_bracket_atoms (isOpen : Bool) (event : Event) :
    event.atoms.foldlM Event.bracket isOpen = event.bracket isOpen := by
  cases event with
  | text bytes =>
      induction bytes with
      | nil => rfl
      | cons byte rest inductionHypothesis => exact inductionHypothesis
  | openRun style => cases isOpen <;> rfl
  | closeRun => cases isOpen <;> rfl
  | label line width => rfl

theorem foldlM_bracket_bytewise (isOpen : Bool) (events : List Event) :
    (bytewise events).foldlM Event.bracket isOpen = events.foldlM Event.bracket isOpen := by
  induction events generalizing isOpen with
  | nil => rfl
  | cons event rest inductionHypothesis =>
      rw [bytewise_cons, List.foldlM_append, foldlM_bracket_atoms, List.foldlM_cons]
      exact bind_congr inductionHypothesis

theorem openAfter_bytewise (events : List Event) :
    openAfter (bytewise events) = openAfter events :=
  foldlM_bracket_bytewise false events

theorem foldlM_bracket_unlabelled (isOpen : Bool) (events : List Event) :
    (unlabelled events).foldlM Event.bracket isOpen = events.foldlM Event.bracket isOpen := by
  induction events generalizing isOpen with
  | nil => rfl
  | cons event rest inductionHypothesis =>
      cases event with
      | label line width => exact inductionHypothesis isOpen
      | openRun style => exact bind_congr inductionHypothesis
      | closeRun => exact bind_congr inductionHypothesis
      | text bytes => exact bind_congr inductionHypothesis

theorem openAfter_unlabelled (events : List Event) :
    openAfter (unlabelled events) = openAfter events :=
  foldlM_bracket_unlabelled false events

/-! ### Views of a run -/

namespace Transducer

variable {State Input Output View : Type}

/-- If a view of the outputs of every step depends on the input alone, the view of a run is
made of those of its inputs. -/
theorem view_run (step : Transducer State Input Output) (view : List Output → List View)
    (image : Input → List View) (nil : view [] = [])
    (append : ∀ first second, view (first ++ second) = view first ++ view second)
    (same : ∀ state input, view (step state input).2 = image input) (state : State)
    (inputs : List Input) : view (step.run state inputs).2 = inputs.flatMap image := by
  induction inputs generalizing state with
  | nil => exact nil
  | cons input rest inductionHypothesis =>
      rw [run_cons, append, same, inductionHypothesis, List.flatMap_cons]

/-- What holds of the outputs of every step, for each of the inputs, holds of those of their run,
if it holds of outputs one after another. -/
theorem holds_run (step : Transducer State Input Output) (Allowed : List Output → Prop)
    (nil : Allowed [])
    (append : ∀ first second, Allowed first → Allowed second → Allowed (first ++ second))
    {inputs : List Input} (emits : ∀ input ∈ inputs, ∀ state, Allowed (step state input).2)
    (state : State) : Allowed (step.run state inputs).2 := by
  induction inputs generalizing state with
  | nil => exact nil
  | cons input rest inductionHypothesis =>
      rw [run_cons]
      apply append
      · exact emits input List.mem_cons_self state
      · apply inductionHypothesis
        intro other among
        exact emits other (List.mem_cons_of_mem _ among)

/-- What holds of every output of a step, for each of the inputs, holds of every output of their
run. -/
theorem forall_mem_run (step : Transducer State Input Output) (Allowed : Output → Prop)
    {inputs : List Input}
    (emits : ∀ input ∈ inputs, ∀ state, ∀ output ∈ (step state input).2, Allowed output)
    (state : State) : ∀ output ∈ (step.run state inputs).2, Allowed output := by
  apply holds_run step (fun outputs => ∀ output ∈ outputs, Allowed output)
  · intro output member
    cases member
  · intro first second one two output member
    rcases List.mem_append.mp member with earlier | later
    · exact one output earlier
    · exact two output later
  · exact emits

/-- Inputs that a machine passes over without a trace can be left out. -/
theorem run_filter (step : Transducer State Input Output) (keep : Input → Bool)
    (silent : ∀ input, keep input = false → ∀ state, step state input = (state, []))
    (state : State) (inputs : List Input) :
    step.run state (inputs.filter keep) = step.run state inputs := by
  induction inputs generalizing state with
  | nil => rfl
  | cons input rest inductionHypothesis =>
      cases kept : keep input with
      | false =>
          rw [List.filter_cons_of_neg (by simp [kept]), run_cons, silent input kept,
            inductionHypothesis]
          simp
      | true =>
          rw [List.filter_cons_of_pos kept, run_cons, run_cons, inductionHypothesis]

/-- A machine that reads text byte by byte does not see how text is cut. -/
theorem run_bytewise (step : Transducer State Event Output)
    (nil : ∀ state, step state (.text []) = (state, []))
    (cons : ∀ state byte rest,
      step state (.text (byte :: rest)) = step.run state [.text [byte], .text rest])
    (state : State) (events : List Event) :
    step.run state (bytewise events) = step.run state events := by
  have text : ∀ bytes state, step.run state (bytewise [.text bytes]) = step state (.text bytes) := by
    intro bytes
    induction bytes with
    | nil => exact fun state => (nil state).symm
    | cons byte rest inductionHypothesis =>
        intro state
        have cut : bytewise [.text (byte :: rest)] = .text [byte] :: bytewise [.text rest] := rfl
        rw [cut, run_cons, inductionHypothesis, cons state byte rest, run_cons, run_singleton]
  induction events generalizing state with
  | nil => rfl
  | cons event rest inductionHypothesis =>
      have atoms : step.run state event.atoms = step state event := by
        cases event with
        | text bytes => simpa [bytewise] using text bytes state
        | openRun style => exact run_singleton step state _
        | closeRun => exact run_singleton step state _
        | label line width => exact run_singleton step state _
      rw [bytewise_cons, run_append, run_cons, atoms, inductionHypothesis]

/-- Two machines that agree in every step agree in every run, as far as a view of their outputs
shows. -/
theorem run_agree (first second : Transducer State Input Output) (view : Output → View)
    (agree : ∀ state input, (first state input).1 = (second state input).1 ∧
      (first state input).2.map view = (second state input).2.map view)
    (state : State) (inputs : List Input) :
    (first.run state inputs).1 = (second.run state inputs).1 ∧
      (first.run state inputs).2.map view = (second.run state inputs).2.map view := by
  induction inputs generalizing state with
  | nil => exact ⟨rfl, rfl⟩
  | cons input rest inductionHypothesis =>
      obtain ⟨sameState, sameView⟩ := agree state input
      obtain ⟨sameEnd, sameRest⟩ := inductionHypothesis (first state input).1
      rw [run_cons, run_cons, ← sameState]
      refine ⟨sameEnd, ?_⟩
      simp only [List.map_append, sameView, sameRest]

end Transducer

/-! ### Writers do not see how text is cut -/

theorem Terminal.run_write_bytewise (labelStyle : Style) (active : Writer)
    (events : List Event) :
    (write labelStyle).run active (bytewise events) = (write labelStyle).run active events := by
  apply Transducer.run_bytewise
  · intro state
    rfl
  · intro state byte rest
    simp [Transducer.run_cons, write]

theorem Markup.run_write_bytewise (spanOpen : Writer) (events : List Event) :
    write.run spanOpen (bytewise events) = write.run spanOpen events := by
  apply Transducer.run_bytewise
  · intro state
    rfl
  · intro state byte rest
    simp [Transducer.run_cons, write, ← escape_append]

end CodeHighlight
