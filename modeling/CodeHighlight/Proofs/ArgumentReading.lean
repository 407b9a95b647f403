/-
Module: CodeHighlight.Proofs.ArgumentReading
Purpose: The parser that reads arguments one after another does what is assumed of one.  It finds
  what the arguments say, in whatever order and form, and nothing is found but what was read as
  declared.  An argument may still be unchecked when the next one is read, so what a reading has
  come to is said of it with everything checked.
Main exports:
  CommandLine.Command.LongNamed, CommandLine.Command.ShortNamed, CommandLine.Command.WellNamed,
  CommandLine.Reading.settle_cases, CommandLine.Reading.ComesTo,
  CommandLine.Reading.ComesTo.foldlM_readArgument_of_writes,
  CommandLine.Reading.ComesTo.foldlM_readArgument_of_forall₂,
  CommandLine.Reading.exists_settle_of_spells, CommandLine.Reading.exists_finish_of_holds,
  CommandLine.Reading.grows_foldlM_readArgument, CommandLine.Reading.checked_of_finish,
  CommandLine.parser_documented
-/
import CodeHighlight.Proofs.GivenOccurrences

namespace CodeHighlight.CommandLine

/-! ### Names that are read -/

namespace Command

variable (command : Command)

/-- A long name leads to what it means, and is not mistaken for something else. -/
structure LongNamed (name : String) (meaning : Meaning) : Prop where
  ofLong?_eq : command.ofLong? (Utf8.encode name) = some meaning
  nonempty : Utf8.encode name ≠ []
  unsigned : equalsSign ∉ Utf8.encode name

/-- A short name leads to what it means, and is not mistaken for something else. -/
structure ShortNamed (letter : Char) (meaning : Meaning) : Prop where
  ofShort?_eq : command.ofShort? letter.toUInt8 = some meaning
  ne_dash : letter.toUInt8 ≠ dash

/-- The declared names can be told apart. -/
structure WellNamed : Prop where
  longOption : ∀ which, command.LongNamed (command.option which).longName (.valued which)
  shortOption : ∀ which, command.ShortNamed (command.option which).letter (.valued which)
  longFlag : ∀ which, command.LongNamed (command.flag which).longName (.flag which)
  shortFlag : ∀ which letter, (command.flag which).letter = some letter →
    command.ShortNamed letter (.flag which)

end Command

/-! ### Forms of arguments -/

/-- What follows two dashes is a name up to the first equals sign, and no name has such a sign. -/
theorem ofBytes_longArgument_append {name : String} {rest : Bytes} (nonempty : Utf8.encode name ≠ [])
    (unsigned : equalsSign ∉ Utf8.encode name) (ended : rest.takeWhile (· != equalsSign) = []) :
    Argument.ofBytes (longArgument name ++ rest) =
      .long (Utf8.encode name) (Argument.afterSign? (rest.dropWhile (· != equalsSign))) := by
  have inName : ∀ byte ∈ Utf8.encode name, (byte != equalsSign) = true := by
    intro byte member
    exact bne_iff_ne.mpr fun same => unsigned (same ▸ member)
  have cut : ∀ text : Bytes, text ≠ [] → Argument.ofBytes (dash :: dash :: text) =
      .long (text.takeWhile (· != equalsSign))
        (Argument.afterSign? (text.dropWhile (· != equalsSign))) := by
    intro text hasByte
    cases text with
    | nil => exact absurd rfl hasByte
    | cons byte others => rfl
  have argument := cut (Utf8.encode name ++ rest) (List.append_ne_nil_of_left_ne_nil nonempty rest)
  rw [List.takeWhile_append_of_pos inName, List.dropWhile_append_of_pos inName, ended,
    List.append_nil] at argument
  exact argument

theorem ofBytes_longArgument {name : String} (nonempty : Utf8.encode name ≠ [])
    (unsigned : equalsSign ∉ Utf8.encode name) :
    Argument.ofBytes (longArgument name) = .long (Utf8.encode name) none := by
  have argument := ofBytes_longArgument_append nonempty unsigned List.takeWhile_nil
  rwa [List.append_nil] at argument

/-- A value attached by an equals sign is all that follows the first such sign. -/
theorem ofBytes_attached {name : String} (nonempty : Utf8.encode name ≠ [])
    (unsigned : equalsSign ∉ Utf8.encode name) (value : Bytes) :
    Argument.ofBytes (longArgument name ++ equalsSign :: value) =
      .long (Utf8.encode name) (some value) :=
  ofBytes_longArgument_append nonempty unsigned rfl

theorem ofBytes_shortArgument {letter : Char} (notDash : letter.toUInt8 ≠ dash) :
    Argument.ofBytes (shortArgument letter) = .short letter.toUInt8 [] := by
  unfold shortArgument Argument.ofBytes
  split
  · rename_i same
    exact absurd (List.cons.inj (List.cons.inj same).2).1 notDash
  · rename_i same
    exact absurd (List.cons.inj (List.cons.inj same).2).1 notDash
  · rename_i same
    cases same
    rfl
  · rename_i other
    exact absurd rfl (other _ _)

theorem ofBytes_of_undashed {text : Bytes} (undashed : Undashed text) :
    Argument.ofBytes text = .plain text := by
  unfold Argument.ofBytes
  split
  · exact absurd rfl undashed
  · exact absurd rfl undashed
  · exact absurd rfl undashed
  · rfl

/-! ### What a reading comes to -/

namespace Reading

variable {command : Command}

/-- Checking succeeds unless an option lacks its value.  It settles what was pending and changes
nothing else. -/
theorem settle_cases {reading settled : Reading command} (done : reading.settle = .ok settled) :
    (∀ which, reading.pending ≠ .valued which none) ∧
      ∃ given, reading.given.Grows given ∧
        settled = { reading with given := given, pending := .nothing } := by
  unfold settle at done
  split at done
  · rename_i idle
    cases done
    refine ⟨?_, reading.given, .refl _, ?_⟩
    · intro which lacking
      rw [idle] at lacking
      cases lacking
    · rw [← idle]
  · cases done
  · rename_i which value waiting
    obtain ⟨given, set, same⟩ := bind_eq_ok_iff.mp done
    cases same
    refine ⟨?_, given, (Given.setValue_eq_ok_iff.mp set).grows, rfl⟩
    intro other lacking
    rw [waiting] at lacking
    cases lacking
  · rename_i path waiting
    obtain ⟨given, set, same⟩ := bind_eq_ok_iff.mp done
    cases same
    refine ⟨?_, given, (Given.setFile_eq_ok_iff.mp set).grows, rfl⟩
    intro other lacking
    rw [waiting] at lacking
    cases lacking

/-- The file is seen at once, and is pending. -/
theorem readFile_of_settle {reading settled : Reading command} (unseen : reading.fileSeen = false)
    (done : reading.settle = .ok settled) (path : FilePath) :
    reading.readFile path = .ok { settled with pending := .file path, fileSeen := true } := by
  simp only [readFile, unseen, Bool.false_eq_true, if_false, done, bind, Except.bind]
  rfl

/-- With everything checked, these values have been given, and options may follow. -/
def ComesTo (reading : Reading command) (given : Given command) : Prop :=
  reading.settle =
    .ok { given := given, pending := .nothing, fileSeen := given.file.isSome, plainOnly := false }

namespace ComesTo

variable {reading : Reading command} {given : Given command}

theorem start_nothing : (start : Reading command).ComesTo .nothing := rfl

theorem plainOnly_eq (comes : reading.ComesTo given) : reading.plainOnly = false := by
  obtain ⟨_, _, _, same⟩ := settle_cases comes
  exact (congrArg Reading.plainOnly same).symm

theorem fileSeen_eq (comes : reading.ComesTo given) : reading.fileSeen = given.file.isSome := by
  obtain ⟨_, _, _, same⟩ := settle_cases comes
  exact (congrArg Reading.fileSeen same).symm

end ComesTo

/-! #### One argument -/

theorem foldlM_singleton (reading : Reading command) (argument : Bytes) :
    [argument].foldlM readArgument reading = reading.readArgument argument :=
  bind_pure _

section Argument

variable {reading : Reading command} (optional : reading.plainOnly = false)
include optional

/-- A text that does not begin like an option is the value of an option that lacks one. -/
theorem readArgument_value {which : ValueOption} {value : Bytes} (undashed : Undashed value)
    (lacking : reading.pending = .valued which none) :
    reading.readArgument value =
      .ok { reading with pending := .valued which (some value) } := by
  simp only [readArgument, optional, Bool.false_eq_true, if_false, ofBytes_of_undashed undashed,
    lacking]

/-- Otherwise it is the file. -/
theorem readArgument_file {path : Bytes} (undashed : Undashed path)
    (complete : ∀ which, reading.pending ≠ .valued which none) :
    reading.readArgument path = reading.readFile path := by
  -- The hypothesis on what is pending leaves no case but the last.
  simp only [readArgument, optional, Bool.false_eq_true, if_false, ofBytes_of_undashed undashed]

theorem readArgument_long_option {name : String} {which : ValueOption}
    (named : command.LongNamed name (.valued which)) :
    reading.readArgument (longArgument name) = reading.readValued which none := by
  simp only [readArgument, optional, Bool.false_eq_true, if_false,
    ofBytes_longArgument named.nonempty named.unsigned, readLong, named.ofLong?_eq]

theorem readArgument_attached {name : String} {which : ValueOption}
    (named : command.LongNamed name (.valued which)) (value : Bytes) :
    reading.readArgument (longArgument name ++ equalsSign :: value) =
      reading.readValued which (some value) := by
  simp only [readArgument, optional, Bool.false_eq_true, if_false,
    ofBytes_attached named.nonempty named.unsigned, readLong, named.ofLong?_eq]

theorem readArgument_long_flag {name : String} {which : Flag}
    (named : command.LongNamed name (.flag which)) :
    reading.readArgument (longArgument name) = reading.readFlag which := by
  simp only [readArgument, optional, Bool.false_eq_true, if_false,
    ofBytes_longArgument named.nonempty named.unsigned, readLong, named.ofLong?_eq]

theorem readArgument_short_option {letter : Char} {which : ValueOption}
    (named : command.ShortNamed letter (.valued which)) :
    reading.readArgument (shortArgument letter) = reading.readValued which none := by
  simp only [readArgument, optional, Bool.false_eq_true, if_false,
    ofBytes_shortArgument named.ne_dash]
  rw [readShort, named.ofShort?_eq]
  rfl

theorem readArgument_short_flag {letter : Char} {which : Flag}
    (named : command.ShortNamed letter (.flag which)) :
    reading.readArgument (shortArgument letter) = reading.readFlag which := by
  simp only [readArgument, optional, Bool.false_eq_true, if_false,
    ofBytes_shortArgument named.ne_dash]
  rw [readShort, named.ofShort?_eq]
  exact bind_pure (reading.readFlag which)

end Argument

/-! #### One thing that is said -/

namespace ComesTo

variable {reading : Reading command} {given after : Given command} (comes : reading.ComesTo given)
include comes

/-- An option with its value attached is set at once. -/
theorem readValued_some {which : ValueOption} {value : Bytes}
    (adds : given.Adds (.option which value) after) :
    ∃ next, reading.readValued which (some value) = .ok next ∧ next.ComesTo after := by
  have set := Given.setValue_eq_ok_iff.mpr adds
  have sameFile := adds.file_eq Place.noConfusion
  unfold ComesTo at *
  refine ⟨⟨after, .nothing, given.file.isSome, false⟩, ?_, ?_⟩
  · simp only [readValued, comes, bind, Except.bind, set]
    rfl
  · rw [sameFile]
    rfl

/-- An option with its value in the next argument is set when it is settled. -/
theorem foldlM_readValued_none {which : ValueOption} {value name : Bytes}
    (named : reading.readArgument name = reading.readValued which none)
    (adds : given.Adds (.option which value) after) (undashed : Undashed value) :
    ∃ next, [name, value].foldlM readArgument reading = .ok next ∧ next.ComesTo after := by
  have set := Given.setValue_eq_ok_iff.mpr adds
  have sameFile := adds.file_eq Place.noConfusion
  -- Reading the name settles what came before it, and leaves the option pending without a value.
  let between : Reading command := ⟨given, .valued which none, given.file.isSome, false⟩
  have first : reading.readArgument name = .ok between := by
    unfold ComesTo at comes
    rw [named, readValued, comes]
    rfl
  have optional : between.plainOnly = false := rfl
  have second := readArgument_value optional undashed rfl
  refine ⟨{ between with pending := .valued which (some value) }, ?_, ?_⟩
  · rw [List.foldlM_cons, first, ← second]
    exact foldlM_singleton between value
  · unfold ComesTo
    simp only [settle, between, set, sameFile, bind, Except.bind]
    rfl

theorem readFlag_of_adds {which : Flag} (adds : given.Adds (.flag which) after) :
    ∃ next, reading.readFlag which = .ok next ∧ next.ComesTo after := by
  have set := Given.setFlag_eq_ok_iff.mpr adds
  have sameFile := adds.file_eq Place.noConfusion
  unfold ComesTo at *
  refine ⟨⟨after, .nothing, given.file.isSome, false⟩, ?_, ?_⟩
  · simp only [readFlag, comes, bind, Except.bind, set]
    rfl
  · rw [sameFile]
    rfl

/-- A file is set when it is settled. -/
theorem readFile_of_adds {path : FilePath} (noFile : given.file = none)
    (adds : given.Adds (.file path) after) :
    ∃ next, reading.readFile path = .ok next ∧ next.ComesTo after := by
  have unseen : reading.fileSeen = false := by rw [comes.fileSeen_eq, noFile]; rfl
  have set := Given.setFile_eq_ok_iff.mpr adds
  have seen : after.file.isSome = true := by cases adds; rfl
  unfold ComesTo at *
  refine ⟨⟨given, .file path, true, false⟩, ?_, ?_⟩
  · exact readFile_of_settle unseen comes path
  · simp only [settle, set, seen, bind, Except.bind]
    rfl

variable (wellNamed : command.WellNamed)
include wellNamed

/-- One thing is read from the arguments that say it. -/
theorem foldlM_readArgument_of_writes {occurrence : Occurrence} {text : List Bytes}
    (written : command.Writes occurrence text)
    (noFile : occurrence.place = .file → given.file = none)
    (adds : given.Adds occurrence after) :
    ∃ next, text.foldlM readArgument reading = .ok next ∧ next.ComesTo after := by
  have optional := comes.plainOnly_eq
  cases written with
  | attached which value =>
      rw [foldlM_singleton, readArgument_attached optional (wellNamed.longOption which)]
      exact comes.readValued_some adds
  | afterLong which undashed =>
      exact comes.foldlM_readValued_none
        (readArgument_long_option optional (wellNamed.longOption which)) adds undashed
  | afterShort which undashed =>
      exact comes.foldlM_readValued_none
        (readArgument_short_option optional (wellNamed.shortOption which)) adds undashed
  | longFlag which =>
      rw [foldlM_singleton, readArgument_long_flag optional (wellNamed.longFlag which)]
      exact comes.readFlag_of_adds adds
  | @shortFlag which letter named =>
      rw [foldlM_singleton,
        readArgument_short_flag optional (wellNamed.shortFlag which letter named)]
      exact comes.readFlag_of_adds adds
  | file undashed =>
      obtain ⟨complete, _⟩ := settle_cases comes
      rw [foldlM_singleton, readArgument_file optional undashed complete]
      exact comes.readFile_of_adds (noFile rfl) adds

/-- What is said in one stretch of arguments after another is all read, if it can be and nothing is
said twice. -/
theorem foldlM_readArgument_of_forall₂ {before occurrences : List Occurrence}
    {texts : List (List Bytes)} (holds : given.Holds before)
    (written : List.Forall₂ command.Writes occurrences texts)
    (readable : ∀ occurrence ∈ occurrences, occurrence.Readable command)
    (once : ((before ++ occurrences).map Occurrence.place).Nodup) :
    ∃ next after, texts.flatten.foldlM readArgument reading = .ok next ∧ next.ComesTo after ∧
      after.Holds (before ++ occurrences) := by
  -- The induction goes over what is said, for any reading: each thing joins what was said before.
  induction written generalizing reading given before with
  | nil => exact ⟨reading, given, rfl, comes, by rwa [List.append_nil]⟩
  | @cons occurrence text occurrences texts first _ inductionHypothesis =>
      have fresh : occurrence.place ∉ before.map Occurrence.place := by
        rw [List.map_append, List.map_cons, List.nodup_append] at once
        intro among
        exact once.2.2 _ among _ List.mem_cons_self rfl
      have noFile : occurrence.place = .file → given.file = none := by
        intro isFile
        apply Option.eq_none_iff_forall_ne_some.mpr
        intro path found
        obtain ⟨bytes, member, _⟩ := (holds.file_iff path).mp found
        exact Given.place_ne_of_fresh fresh _ member isFile.symm
      obtain ⟨more, adds⟩ := holds.exists_adds fresh (readable occurrence List.mem_cons_self)
      obtain ⟨between, read, comesBetween⟩ :=
        comes.foldlM_readArgument_of_writes wellNamed first noFile adds
      rw [List.append_cons] at once
      obtain ⟨next, after, readOthers, comesTo, holdsAll⟩ :=
        inductionHypothesis comesBetween (holds.add fresh adds)
          (fun other member => readable other (List.mem_cons_of_mem _ member)) once
      refine ⟨next, after, ?_, comesTo, ?_⟩
      · rw [List.flatten_cons, List.foldlM_append, read]
        exact readOthers
      · rwa [List.append_cons]

end ComesTo

/-! ### All arguments -/

/-- What is pending does not depend on what may follow. -/
theorem settle_plainOnly (reading : Reading command) :
    ({ reading with plainOnly := true } : Reading command).settle =
      reading.settle.map fun settled => { settled with plainOnly := true } := by
  obtain ⟨given, pending, fileSeen, plainOnly⟩ := reading
  cases pending with
  | nothing => rfl
  | file path =>
      simp only [settle]
      cases given.setFile path <;> rfl
  | valued which value =>
      cases value with
      | none => rfl
      | some value =>
          simp only [settle]
          cases given.setValue which value <;> rfl

/-- After a separator any text is the file. -/
theorem ComesTo.foldlM_separator {reading : Reading command} {given after : Given command}
    (comes : reading.ComesTo given) {path : FilePath} (noFile : given.file = none)
    (adds : given.Adds (.file path) after) :
    ∃ next settled, [[dash, dash], path].foldlM readArgument reading = .ok next ∧
      next.settle = .ok settled ∧ settled.given = after := by
  have unseen : reading.fileSeen = false := by rw [comes.fileSeen_eq, noFile]; rfl
  have optional := comes.plainOnly_eq
  have set := Given.setFile_eq_ok_iff.mpr adds
  -- The separator settles nothing, so a value or nothing may still be pending after it.
  let separated : Reading command := { reading with plainOnly := true }
  have separatedUnseen : separated.fileSeen = false := unseen
  have first : reading.readArgument [dash, dash] = .ok separated := by
    simp only [readArgument, optional, Bool.false_eq_true, if_false]
    rfl
  have settled : separated.settle = .ok ⟨given, .nothing, given.file.isSome, true⟩ := by
    unfold ComesTo at comes
    rw [settle_plainOnly, comes]
    rfl
  have second : separated.readArgument path = .ok ⟨given, .file path, true, true⟩ :=
    readFile_of_settle separatedUnseen settled path
  refine ⟨⟨given, .file path, true, true⟩, ⟨after, .nothing, true, true⟩, ?_, ?_, rfl⟩
  · rw [List.foldlM_cons, first]
    exact (foldlM_singleton separated path).trans second
  · simp only [settle, set, bind, Except.bind]
    rfl

/-- What arguments say is what has been given when they are read, if it can be admitted. -/
theorem exists_settle_of_spells (wellNamed : command.WellNamed) {occurrences : List Occurrence}
    {arguments : List Bytes} (spells : command.Spells occurrences arguments)
    (admits : command.Admits occurrences) :
    ∃ reading settled : Reading command, arguments.foldlM readArgument start = .ok reading ∧
      reading.settle = .ok settled ∧ settled.given.Holds occurrences := by
  have readable : ∀ occurrence ∈ occurrences, occurrence.Readable command := by
    intro occurrence member
    cases occurrence with
    | file bytes => exact admits.readable_file bytes member
    | option which bytes => exact admits.readable which bytes member
    | flag which => trivial
  have start := @ComesTo.start_nothing command
  cases spells with
  | among written =>
      obtain ⟨reading, after, read, comes, holds⟩ :=
        start.foldlM_readArgument_of_forall₂ wellNamed Given.holds_nothing written readable
          admits.once
      exact ⟨reading, _, read, comes, holds⟩
  | @fileLast others texts written path =>
      have once := admits.once
      rw [List.map_append, List.nodup_append] at once
      have fresh : (Occurrence.file path).place ∉ others.map Occurrence.place :=
        fun among => once.2.2 _ among _ List.mem_cons_self rfl
      obtain ⟨reading, given, read, comes, holds⟩ :=
        start.foldlM_readArgument_of_forall₂ wellNamed Given.holds_nothing written
          (fun occurrence member => readable occurrence (List.mem_append_left _ member)) once.1
      have noFile : given.file = none := by
        apply Option.eq_none_iff_forall_ne_some.mpr
        intro other found
        obtain ⟨bytes, member, _⟩ := (holds.file_iff other).mp found
        exact Given.place_ne_of_fresh fresh _ member rfl
      obtain ⟨after, adds⟩ := holds.exists_adds fresh
        (readable (.file path) (List.mem_append_right _ List.mem_cons_self))
      obtain ⟨last, settled, readLast, done, same⟩ := comes.foldlM_separator noFile adds
      refine ⟨last, settled, ?_, done, same ▸ holds.add fresh adds⟩
      rw [List.foldlM_append, read]
      exact readLast

/-! ### What is found -/

theorem toOption_eq_some_iff {Value : Type} {outcome : Except UsageError Value} {value : Value} :
    outcome.toOption = some value ↔ outcome = .ok value := by
  cases outcome <;> simp [Except.toOption]

/-- An option has the value that was given, or the one of its standard text. -/
theorem valueOrStandard_eq_some_iff {given : Given command} {which : ValueOption}
    {value : command.Value which} :
    given.valueOrStandard which = some value ↔
      given.value which = some value ∨ given.value which = none ∧
        ∃ text, (command.option which).standard = some text ∧
          (command.option which).reader.Reads (Utf8.encode text) value := by
  rw [Given.valueOrStandard]
  cases given.value which with
  | some known => simp
  | none => simp [Option.bind_eq_some_iff, toOption_eq_some_iff, Reader.read_eq_ok_iff]

/-- What was given by what can be admitted is what is found. -/
theorem exists_finish_of_holds {reading settled : Reading command} {occurrences : List Occurrence}
    (done : reading.settle = .ok settled) (holds : settled.given.Holds occurrences)
    (admits : command.Admits occurrences) :
    ∃ found, reading.finish = .ok found ∧ found.Reports occurrences := by
  obtain ⟨bytes, member⟩ := admits.hasFile
  obtain ⟨path, readsPath⟩ := admits.readable_file bytes member
  have isFile : settled.given.file = some path :=
    (holds.file_iff path).mpr ⟨bytes, member, readsPath⟩
  have complete : Flag.all.any settled.given.lacksRequired = false := by
    apply List.any_eq_false.mpr
    intro which _ lacks
    obtain ⟨set, unmet⟩ := Bool.and_eq_true_iff.mp lacks
    have met : (command.flag which).requires.all settled.given.sets = true := by
      apply List.all_eq_true.mpr
      intro needed isRequired
      exact (holds.sets_iff needed).mpr
        (admits.required which ((holds.sets_iff which).mp set) needed isRequired)
    rw [met] at unmet
    cases unmet
  refine ⟨⟨path, settled.given.valueOrStandard, settled.given.sets⟩, ?_, ?_⟩
  · simp only [finish, done, bind, Except.bind, isFile, complete, Bool.false_eq_true, if_false]
    rfl
  · refine ⟨⟨bytes, member, readsPath⟩, ?_, ?_, holds.sets_iff⟩
    · intro which bytes said
      obtain ⟨value, reads⟩ := admits.readable which bytes said
      exact ⟨value, reads, valueOrStandard_eq_some_iff.mpr
        (.inl ((holds.value_iff which value).mpr ⟨bytes, said, reads⟩))⟩
    · intro which unsaid value
      have free : settled.given.value which = none := by
        apply Option.eq_none_iff_forall_ne_some.mpr
        intro other found
        obtain ⟨bytes, said, _⟩ := (holds.value_iff which other).mp found
        exact unsaid bytes said
      rw [valueOrStandard_eq_some_iff, free]
      simp

/-! ### Nothing is found but what was checked -/

theorem grows_settle {reading settled : Reading command} (done : reading.settle = .ok settled) :
    reading.given.Grows settled.given := by
  obtain ⟨_, given, grows, same⟩ := settle_cases done
  rw [same]
  exact grows

theorem grows_readValued {reading next : Reading command} {which : ValueOption} {value : Option Bytes}
    (read : reading.readValued which value = .ok next) : reading.given.Grows next.given := by
  obtain ⟨settled, done, rest⟩ := bind_eq_ok_iff.mp read
  have grows := grows_settle done
  cases value with
  | none =>
      cases rest
      exact grows
  | some value =>
      obtain ⟨given, set, same⟩ := bind_eq_ok_iff.mp rest
      cases same
      exact grows.trans (Given.setValue_eq_ok_iff.mp set).grows

theorem grows_readFlag {reading next : Reading command} {which : Flag}
    (read : reading.readFlag which = .ok next) : reading.given.Grows next.given := by
  obtain ⟨settled, done, rest⟩ := bind_eq_ok_iff.mp read
  obtain ⟨given, set, same⟩ := bind_eq_ok_iff.mp rest
  cases same
  exact (grows_settle done).trans (Given.setFlag_eq_ok_iff.mp set).grows

/-- To show something is never to go on reading. -/
theorem readReport_ne_ok (reading next : Reading command) (report : Report) :
    reading.readReport report ≠ .ok next := by
  intro read
  obtain ⟨_, _, rest⟩ := bind_eq_ok_iff.mp read
  cases rest

theorem grows_readLong {reading next : Reading command} {name : Bytes} {value : Option Bytes}
    (read : reading.readLong name value = .ok next) : reading.given.Grows next.given := by
  unfold readLong at read
  split at read
  · cases read
  · exact grows_readValued read
  · cases read
  · cases read
  · exact grows_readFlag read
  · exact absurd read (readReport_ne_ok _ _ _)

/-- Short names are read one after another, until one takes the rest as its value. -/
theorem grows_readShort {reading next : Reading command} {letter : UInt8} {rest : Bytes}
    (read : reading.readShort letter rest = .ok next) : reading.given.Grows next.given := by
  induction rest generalizing reading letter with
  | nil =>
      rw [readShort] at read
      split at read
      · cases read
      · exact grows_readValued read
      · exact absurd read (readReport_ne_ok _ _ _)
      · obtain ⟨between, flagged, same⟩ := bind_eq_ok_iff.mp read
        cases same
        exact grows_readFlag flagged
  | cons following others inductionHypothesis =>
      rw [readShort] at read
      split at read
      · cases read
      · exact grows_readValued read
      · exact absurd read (readReport_ne_ok _ _ _)
      · obtain ⟨between, flagged, readOthers⟩ := bind_eq_ok_iff.mp read
        exact (grows_readFlag flagged).trans (inductionHypothesis readOthers)

theorem grows_readFile {reading next : Reading command} {path : Bytes}
    (read : reading.readFile path = .ok next) : reading.given.Grows next.given := by
  unfold readFile at read
  split at read
  · cases read
  · obtain ⟨settled, done, same⟩ := bind_eq_ok_iff.mp read
    have grows := grows_settle done
    cases same
    exact grows

theorem grows_readArgument {reading next : Reading command} {argument : Bytes}
    (read : reading.readArgument argument = .ok next) : reading.given.Grows next.given := by
  unfold readArgument at read
  split at read
  · exact grows_readFile read
  · split at read
    · cases read
      exact .refl _
    · exact grows_readLong read
    · exact grows_readShort read
    · split at read
      · cases read
        exact .refl _
      · exact grows_readFile read

theorem grows_foldlM_readArgument {reading next : Reading command} {arguments : List Bytes}
    (read : arguments.foldlM readArgument reading = .ok next) :
    reading.given.Grows next.given := by
  induction arguments generalizing reading with
  | nil =>
      cases read
      exact .refl _
  | cons argument rest inductionHypothesis =>
      rw [List.foldlM_cons] at read
      obtain ⟨between, first, others⟩ := bind_eq_ok_iff.mp read
      exact (grows_readArgument first).trans (inductionHypothesis others)

/-- Whatever is found was checked, if all that has been given was read as declared. -/
theorem checked_of_finish {reading : Reading command} {found : ArgumentMatches command}
    (sound : reading.given.Sound) (finished : reading.finish = .ok found) : found.Checked := by
  obtain ⟨settled, done, rest⟩ := bind_eq_ok_iff.mp finished
  have allSound : settled.given.Sound := (grows_settle done).sound sound
  simp only at rest
  split at rest
  · cases rest
  · rename_i file isFile
    split at rest
    · cases rest
    · rename_i complete
      cases rest
      refine ⟨allSound.read_file file isFile, ?_, ?_⟩
      · intro which value has
        rcases valueOrStandard_eq_some_iff.mp has with given | ⟨_, text, _, reads⟩
        · exact allSound.read which value given
        · exact ⟨_, reads⟩
      · intro which set needed isRequired
        have among : which ∈ Flag.all := by cases which <;> decide
        have fulfilled : ¬ settled.given.lacksRequired which = true :=
          List.any_eq_false.mp (Bool.eq_false_iff.mpr complete) which among
        have met : (command.flag which).requires.all settled.given.sets = true := by
          have isSet : settled.given.sets which = true := set
          simpa [Given.lacksRequired, isSet] using fulfilled
        exact List.all_eq_true.mp met needed isRequired

end Reading

/-- The parser does what is assumed of one, for every program whose names can be told apart. -/
theorem parser_documented {command : Command} (wellNamed : command.WellNamed) :
    parser.Documented command where
  accepts := by
    intro occurrences arguments spells admits
    obtain ⟨reading, settled, read, done, holds⟩ :=
      Reading.exists_settle_of_spells wellNamed spells admits
    obtain ⟨found, finished, reports⟩ := Reading.exists_finish_of_holds done holds admits
    exact ⟨found, bind_eq_ok_iff.mpr ⟨reading, read, finished⟩, reports⟩
  checks := by
    intro arguments found parsed
    obtain ⟨reading, read, finished⟩ := bind_eq_ok_iff.mp parsed
    have sound := (Reading.grows_foldlM_readArgument read).sound Given.sound_nothing
    exact Reading.checked_of_finish sound finished

end CodeHighlight.CommandLine
