/-
Module: CodeHighlight.Proofs.GivenOccurrences
Purpose: What has been given so far, as the things that were said.  What is set adds one thing, if it
  can be read; nothing else is ever added, so what has been given was read as declared.
Main exports:
  CommandLine.bind_eq_ok_iff, CommandLine.Reader.read_eq_ok_iff, CommandLine.Given.Adds,
  CommandLine.Given.setValue_eq_ok_iff, CommandLine.Given.setFlag_eq_ok_iff,
  CommandLine.Given.setFile_eq_ok_iff, CommandLine.Given.Holds, CommandLine.Given.Holds.add,
  CommandLine.Given.Holds.exists_adds, CommandLine.Given.Sound, CommandLine.Given.Grows,
  CommandLine.Given.Grows.sound
-/
import CodeHighlight.CommandLine.Parser
import CodeHighlight.Proofs.DocumentedParser
import Mathlib.Logic.Relation

namespace CodeHighlight.CommandLine

/-- A step after another succeeds when both do. -/
theorem bind_eq_ok_iff {Value Other : Type} {first : Except UsageError Value}
    {second : Value → Except UsageError Other} {result : Other} :
    first >>= second = .ok result ↔ ∃ value, first = .ok value ∧ second value = .ok result := by
  cases first with
  | error fault =>
      constructor
      · intro done
        cases done
      · rintro ⟨value, done, _⟩
        cases done
  | ok value =>
      constructor
      · intro done
        exact ⟨value, rfl, done⟩
      · rintro ⟨other, same, done⟩
        cases same
        exact done

/-! ### Values -/

/-- The parser reads values as documented. -/
theorem Reader.read_eq_ok_iff {Value : Type} {reader : Reader Value} {bytes : Bytes}
    {value : Value} : reader.read bytes = .ok value ↔ reader.Reads bytes value := by
  cases reader with
  | path => cases bytes <;> simp [read, Reads, eq_comm]
  | text meaning =>
      constructor
      · intro isRead
        rw [read] at isRead
        split at isRead
        · cases isRead
        · rename_i decoded isDecoded
          refine ⟨decoded, Utf8.decode?_eq_some_iff.mp isDecoded, ?_⟩
          cases told : meaning decoded with
          | error explanation =>
              rw [told] at isRead
              cases isRead
          | ok other =>
              rw [told] at isRead
              cases isRead
              rfl
      · rintro ⟨decoded, rfl, told⟩
        rw [read, Utf8.decode?_encode]
        simp only [told]
        rfl

variable {command : Command}

/-- What is said can be read. -/
def Occurrence.Readable (command : Command) : Occurrence → Prop
  | file bytes => ∃ path, command.file.Reads bytes path
  | option which bytes => ∃ value, (command.option which).reader.Reads bytes value
  | flag _ => True

namespace Given

variable {given next : Given command} {before : List Occurrence} {occurrence : Occurrence}

/-! ### What is set -/

@[simp] theorem value_put_self (given : Given command) (which : ValueOption)
    (value : command.Value which) : (given.put which value).value which = some value := by
  simp [put]

theorem value_put_of_ne (given : Given command) {which other : ValueOption}
    (value : command.Value which) (different : which ≠ other) :
    (given.put which value).value other = given.value other := by
  simp [put, different]

@[simp] theorem sets_raise (given : Given command) (which other : Flag) :
    (given.raise which).sets other = (which == other || given.sets other) := rfl

/-- What has been given, with one thing more. -/
inductive Adds (given : Given command) : Occurrence → Given command → Prop
  | file {bytes : Bytes} {path : FilePath} (reads : command.file.Reads bytes path) :
      Adds given (.file bytes) { given with file := some path }
  | option {which : ValueOption} {bytes : Bytes} {value : command.Value which}
      (free : given.value which = none) (reads : (command.option which).reader.Reads bytes value) :
      Adds given (.option which bytes) (given.put which value)
  | flag {which : Flag} (free : given.sets which = false) :
      Adds given (.flag which) (given.raise which)

theorem Adds.file_eq (adds : given.Adds occurrence next) (notFile : occurrence.place ≠ .file) :
    next.file = given.file := by
  cases adds with
  | file reads => exact absurd rfl notFile
  | option free reads => rfl
  | flag free => rfl

theorem unlessGiven_eq_ok_iff {before : Bool} : unlessGiven before = .ok () ↔ before = false := by
  cases before <;> simp [unlessGiven]

theorem setValue_eq_ok_iff {which : ValueOption} {bytes : Bytes} :
    given.setValue which bytes = .ok next ↔ given.Adds (.option which bytes) next := by
  rw [setValue, bind_eq_ok_iff]
  constructor
  · rintro ⟨_, first, rest⟩
    obtain ⟨value, isRead, same⟩ := bind_eq_ok_iff.mp rest
    have free : given.value which = none := by simpa using unlessGiven_eq_ok_iff.mp first
    cases same
    exact .option free (Reader.read_eq_ok_iff.mp isRead)
  · rintro ⟨⟩
    rename_i value free reads
    refine ⟨(), ?_, bind_eq_ok_iff.mpr ⟨value, Reader.read_eq_ok_iff.mpr reads, rfl⟩⟩
    rw [unlessGiven_eq_ok_iff, free, Option.isSome_none]

theorem setFlag_eq_ok_iff {which : Flag} :
    given.setFlag which = .ok next ↔ given.Adds (.flag which) next := by
  rw [setFlag, bind_eq_ok_iff]
  constructor
  · rintro ⟨_, first, same⟩
    cases same
    exact .flag (unlessGiven_eq_ok_iff.mp first)
  · rintro ⟨⟩
    rename_i free
    exact ⟨(), unlessGiven_eq_ok_iff.mpr free, rfl⟩

theorem setFile_eq_ok_iff {bytes : Bytes} :
    given.setFile bytes = .ok next ↔ given.Adds (.file bytes) next := by
  rw [setFile, bind_eq_ok_iff]
  constructor
  · rintro ⟨path, isRead, same⟩
    cases same
    exact .file (Reader.read_eq_ok_iff.mp isRead)
  · rintro ⟨⟩
    rename_i path reads
    exact ⟨path, Reader.read_eq_ok_iff.mpr reads, rfl⟩

/-! ### What was said -/

/-- What has been given is what was said. -/
structure Holds (given : Given command) (occurrences : List Occurrence) : Prop where
  file_iff : ∀ path, given.file = some path ↔
    ∃ bytes, .file bytes ∈ occurrences ∧ command.file.Reads bytes path
  value_iff : ∀ which value, given.value which = some value ↔
    ∃ bytes, .option which bytes ∈ occurrences ∧ (command.option which).reader.Reads bytes value
  sets_iff : ∀ which, given.sets which = true ↔ .flag which ∈ occurrences

theorem holds_nothing : (nothing : Given command).Holds [] where
  file_iff path := by simp [nothing]
  value_iff which value := by simp [nothing]
  sets_iff which := by simp [nothing]

/-- In a free place nothing was said. -/
theorem place_ne_of_fresh (fresh : occurrence.place ∉ before.map Occurrence.place) :
    ∀ other ∈ before, other.place ≠ occurrence.place := by
  intro other member same
  exact fresh (same ▸ List.mem_map_of_mem member)

/-- One thing more is given when it is said in a free place. -/
theorem Holds.add (holds : given.Holds before)
    (fresh : occurrence.place ∉ before.map Occurrence.place)
    (adds : given.Adds occurrence next) : next.Holds (before ++ [occurrence]) := by
  have elsewhere := place_ne_of_fresh fresh
  cases adds with
  | @file bytes path reads =>
      refine ⟨?_, ?_, ?_⟩
      · intro wanted
        constructor
        · rintro ⟨⟩
          exact ⟨bytes, List.mem_append_right _ List.mem_cons_self, reads⟩
        · rintro ⟨others, member, alsoReads⟩
          rcases List.mem_append.mp member with earlier | last
          · exact (elsewhere _ earlier rfl).elim
          · cases List.mem_singleton.mp last
            rw [reads.unique alsoReads]
      · intro which value
        simp [holds.value_iff]
      · intro which
        simp [holds.sets_iff]
  | @option which bytes value free reads =>
      refine ⟨?_, ?_, ?_⟩
      · intro path
        have same : (given.put which value).file = given.file := rfl
        simp [same, holds.file_iff]
      · intro other wanted
        by_cases here : which = other
        · subst here
          rw [value_put_self]
          constructor
          · rintro ⟨⟩
            exact ⟨bytes, List.mem_append_right _ List.mem_cons_self, reads⟩
          · rintro ⟨others, member, alsoReads⟩
            rcases List.mem_append.mp member with earlier | last
            · exact (elsewhere _ earlier rfl).elim
            · cases List.mem_singleton.mp last
              rw [reads.unique alsoReads]
        · rw [value_put_of_ne given value here, holds.value_iff]
          simp [Ne.symm here]
      · intro flag
        have same : (given.put which value).sets = given.sets := rfl
        simp [same, holds.sets_iff]
  | @flag which free =>
      refine ⟨?_, ?_, ?_⟩
      · intro path
        have same : (given.raise which).file = given.file := rfl
        simp [same, holds.file_iff]
      · intro option value
        have same : (given.raise which).value = given.value := rfl
        simp [same, holds.value_iff]
      · intro other
        rw [sets_raise, Bool.or_eq_true, beq_iff_eq, holds.sets_iff, List.mem_append,
          List.mem_singleton, Occurrence.flag.injEq, or_comm, eq_comm]

/-- What can be read is given when it is said in a free place. -/
theorem Holds.exists_adds (holds : given.Holds before)
    (fresh : occurrence.place ∉ before.map Occurrence.place)
    (readable : occurrence.Readable command) : ∃ next, given.Adds occurrence next := by
  have elsewhere := place_ne_of_fresh fresh
  cases occurrence with
  | file bytes =>
      obtain ⟨path, reads⟩ := readable
      exact ⟨_, .file reads⟩
  | option which bytes =>
      obtain ⟨value, reads⟩ := readable
      have free : given.value which = none := by
        apply Option.eq_none_iff_forall_ne_some.mpr
        intro other found
        obtain ⟨others, member, _⟩ := (holds.value_iff which other).mp found
        exact elsewhere _ member rfl
      exact ⟨_, .option free reads⟩
  | flag which =>
      have free : given.sets which = false := by
        apply Bool.eq_false_iff.mpr
        intro set
        exact elsewhere _ ((holds.sets_iff which).mp set) rfl
      exact ⟨_, .flag free⟩

/-! ### Nothing else is added -/

/-- What has been given was read as declared. -/
structure Sound (given : Given command) : Prop where
  read_file : ∀ path, given.file = some path → ∃ bytes, command.file.Reads bytes path
  read : ∀ which value, given.value which = some value →
    ∃ bytes, (command.option which).reader.Reads bytes value

theorem sound_nothing : (nothing : Given command).Sound where
  read_file := nofun
  read := nofun

theorem Adds.sound (adds : given.Adds occurrence next) (sound : given.Sound) : next.Sound := by
  cases adds with
  | @file bytes path reads =>
      refine ⟨?_, sound.read⟩
      rintro other ⟨⟩
      exact ⟨bytes, reads⟩
  | @option which bytes value free reads =>
      refine ⟨sound.read_file, ?_⟩
      intro other wanted found
      by_cases here : which = other
      · subst here
        rw [value_put_self] at found
        cases found
        exact ⟨bytes, reads⟩
      · rw [value_put_of_ne given value here] at found
        exact sound.read other wanted found
  | flag free => exact ⟨sound.read_file, sound.read⟩

/-- Things were added one after another. -/
def Grows : Given command → Given command → Prop :=
  Relation.ReflTransGen fun given next => ∃ occurrence, Adds given occurrence next

theorem Grows.refl (given : Given command) : given.Grows given :=
  Relation.ReflTransGen.refl

theorem Grows.trans {first second third : Given command} (one : first.Grows second)
    (two : second.Grows third) : first.Grows third :=
  Relation.ReflTransGen.trans one two

theorem Adds.grows (adds : given.Adds occurrence next) : given.Grows next :=
  Relation.ReflTransGen.single ⟨occurrence, adds⟩

theorem Grows.sound (grows : given.Grows next) (sound : given.Sound) : next.Sound := by
  induction grows with
  | refl => exact sound
  | tail _ last inductionHypothesis =>
      obtain ⟨_, adds⟩ := last
      exact adds.sound inductionHypothesis

end Given

end CodeHighlight.CommandLine
