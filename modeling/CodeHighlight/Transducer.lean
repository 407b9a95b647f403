/-
Module: CodeHighlight.Transducer
Purpose: Machines that read inputs one by one, keep a state and append outputs.  Capture
  resolution, line numbering and both writers are such machines, and rendering is their
  composition, so that the facts below are proved once.
Main exports:
  Transducer, Transducer.run, Transducer.compose, run_nil, run_cons, run_append,
  run_singleton, run_of_fixed, run_compose
-/

namespace CodeHighlight

/-- One step of a machine: from a state and an input to a state and the outputs it appends. -/
abbrev Transducer (State Input Output : Type) := State → Input → State × List Output

namespace Transducer

variable {State Input Output : Type}

/-- One step on the state and the outputs so far, newest first. -/
def advance (step : Transducer State Input Output) (current : State × List Output)
    (input : Input) : State × List Output :=
  let (next, outputs) := step current.1 input
  (next, outputs.reverseAux current.2)

/-- Reads all inputs in order; answers the last state and all outputs in order. -/
def run (step : Transducer State Input Output) (state : State) (inputs : List Input) :
    State × List Output :=
  let (final, newestFirst) := inputs.foldl step.advance (state, [])
  (final, newestFirst.reverse)

/-!
### Running a sequence

The accumulator of `advance` never influences the steps, so a run is the run of its first
input followed by the run of the others.
-/

theorem foldl_advance (step : Transducer State Input Output) (state : State)
    (inputs : List Input) (newestFirst : List Output) :
    inputs.foldl step.advance (state, newestFirst) =
      ((step.run state inputs).1, (step.run state inputs).2.reverse ++ newestFirst) := by
  induction inputs generalizing state newestFirst with
  | nil => simp [run]
  | cons input rest inductionHypothesis =>
      have unfolded : ∀ start : List Output,
          (input :: rest).foldl step.advance (state, start) =
            rest.foldl step.advance
              ((step state input).1, (step state input).2.reverse ++ start) := by
        intro start
        simp [advance, List.reverseAux_eq]
      rw [unfolded, inductionHypothesis]
      have runs : step.run state (input :: rest) =
          ((rest.foldl step.advance
              ((step state input).1, (step state input).2.reverse ++ [])).1,
            (rest.foldl step.advance
              ((step state input).1, (step state input).2.reverse ++ [])).2.reverse) := by
        rw [← unfolded]
        rfl
      rw [runs, inductionHypothesis]
      simp

@[simp] theorem run_nil (step : Transducer State Input Output) (state : State) :
    step.run state [] = (state, []) := rfl

theorem run_cons (step : Transducer State Input Output) (state : State) (input : Input)
    (rest : List Input) :
    step.run state (input :: rest) =
      ((step.run (step state input).1 rest).1,
        (step state input).2 ++ (step.run (step state input).1 rest).2) := by
  have folded := foldl_advance step (step state input).1 rest (step state input).2.reverse
  have unfolded : step.run state (input :: rest) =
      ((rest.foldl step.advance ((step state input).1, (step state input).2.reverse)).1,
        (rest.foldl step.advance
          ((step state input).1, (step state input).2.reverse)).2.reverse) := by
    simp [run, advance, List.reverseAux_eq]
  rw [unfolded, folded]
  simp

theorem run_singleton (step : Transducer State Input Output) (state : State) (input : Input) :
    step.run state [input] = step state input := by
  simp [run_cons]

theorem run_append (step : Transducer State Input Output) (state : State)
    (first second : List Input) :
    step.run state (first ++ second) =
      ((step.run (step.run state first).1 second).1,
        (step.run state first).2 ++ (step.run (step.run state first).1 second).2) := by
  induction first generalizing state with
  | nil => simp
  | cons input rest inductionHypothesis =>
      simp [run_cons, inductionHypothesis]

/-- Inputs that leave the state as it is are read independently of each other. -/
theorem run_of_fixed (step : Transducer State Input Output) (image : Input → List Output)
    {state : State} {inputs : List Input}
    (fixed : ∀ input ∈ inputs, step state input = (state, image input)) :
    step.run state inputs = (state, inputs.flatMap image) := by
  induction inputs with
  | nil => rfl
  | cons input rest inductionHypothesis =>
      rw [List.forall_mem_cons] at fixed
      rw [run_cons, fixed.1, inductionHypothesis fixed.2, List.flatMap_cons]

/-!
### Composition

The outputs of one machine can be the inputs of another.  Running the composition is running
the second machine on everything the first one writes.
-/

variable {Other Middle : Type}

/-- Two machines in a row, each with its own state. -/
def compose (first : Transducer State Input Middle) (second : Transducer Other Middle Output) :
    Transducer (State × Other) Input Output := fun current input =>
  let (next, middle) := first current.1 input
  let (other, outputs) := second.run current.2 middle
  ((next, other), outputs)

theorem run_compose (first : Transducer State Input Middle)
    (second : Transducer Other Middle Output) (current : State × Other) (inputs : List Input) :
    (first.compose second).run current inputs =
      (((first.run current.1 inputs).1,
          (second.run current.2 (first.run current.1 inputs).2).1),
        (second.run current.2 (first.run current.1 inputs).2).2) := by
  induction inputs generalizing current with
  | nil => rfl
  | cons input rest inductionHypothesis =>
      rw [run_cons, inductionHypothesis, run_cons, run_append]
      rfl

end Transducer

end CodeHighlight
