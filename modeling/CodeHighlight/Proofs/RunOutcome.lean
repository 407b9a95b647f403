/-
Module: CodeHighlight.Proofs.RunOutcome
Purpose: A run does all or nothing.  Everything that can stand in its way is looked at before
  anything is printed or written, in a fixed order, and the first obstacle is what is reported.
  Without one the rendered source goes to exactly one place, and is the same for every place.
Main exports:
  Invocation.language?, Invocation.presented, Session.carryOut, Session.prepare, Session.deliver,
  Session.run_eq, Session.obstacles, Session.HasQuery, Session.Runnable, Session.runnable_iff,
  Session.run_all_or_nothing
-/
import CodeHighlight.Proofs.DocumentedLibrary
import CodeHighlight.Proofs.FileReplacement
import CodeHighlight.Run

namespace CodeHighlight

/-- The language that is given, or that the extension of the file means. -/
def Invocation.language? (invocation : Invocation) : Option Language :=
  invocation.language.orElse fun _ => Language.ofPath? invocation.file

theorem languageOf_eq (invocation : Invocation) :
    languageOf invocation =
      match invocation.language? with
      | some language => .ok language
      | none => .error (.unknownLanguage invocation.file) :=
  rfl

/-- What is shown of a source in which matches were found: the rendering for a terminal, or the one
for a page inside that page or inside a code block. -/
def Invocation.presented (invocation : Invocation) (source : Bytes) (found : List Match) : Bytes :=
  if invocation.html then
    let page : Page :=
      { theme := invocation.theme
        gutterWidth := if invocation.lineNumbers then some (labelWidth source) else none
        fragment := invocation.fragment }
    page.wrap (render source found invocation.theme
      { format := .markup, lineNumbers := invocation.lineNumbers })
  else
    render source found invocation.theme
      { format := .terminal, lineNumbers := invocation.lineNumbers }

section Result

variable {library : SyntaxLibrary}

/-- A query that is compiled is one for the language. -/
theorem HighlightQuery.language_of_compile {language : Language} {text : String}
    {query : HighlightQuery library} (compiled : compile library language text = .ok query) :
    query.language = language := by
  unfold compile at compiled
  split at compiled
  · cases compiled
    rfl
  · cases compiled

/-- A query for a language runs over every tree of that language, so there is a result. -/
theorem exists_resultOf (never : library.NeverFails) {language : Language}
    {query : HighlightQuery library} (same : query.language = language) (invocation : Invocation)
    (source : Bytes) :
    ∃ tree found, SyntaxTree.parse library language source = .ok tree ∧
      query.run tree source = .ok found ∧
      resultOf invocation language query source = .ok (invocation.presented source found) := by
  obtain ⟨tree, isTree⟩ := never.parses language source
  have parsed : SyntaxTree.parse library language source = .ok ⟨language, tree⟩ := by
    simp only [SyntaxTree.parse, never.loads, isTree]
  have found : query.run ⟨language, tree⟩ source = .ok _ := if_pos same.symm
  refine ⟨_, _, parsed, found, ?_⟩
  unfold resultOf highlight Invocation.presented
  rw [parsed]
  dsimp only [bind, Except.bind]
  rw [found]
  cases invocation.html <;> rfl

end Result

namespace Session

/-! ### Actions in a session -/

variable {Value Next : Type}

theorem mapError_ok {Failure : Type} (rename : Failure → RunError) (value : Value) :
    (Except.ok value).mapError rename = .ok value := rfl

/-- What comes of an action in a session, and the session after it. -/
def carryOut (session : Session) (action : ExceptT RunError (StateM Session) Value) :
    Except RunError Value × Session :=
  action.run.run session

theorem carryOut_bind (session : Session) (action : ExceptT RunError (StateM Session) Value)
    (next : Value → ExceptT RunError (StateM Session) Next) :
    session.carryOut (action >>= next) =
      match session.carryOut action with
      | (.ok value, later) => later.carryOut (next value)
      | (.error failure, later) => (.error failure, later) := by
  simp only [carryOut, ExceptT.run_bind, StateT.run_bind]
  cases action.run.run session with
  | mk outcome later => cases outcome <;> rfl

theorem carryOut_lift (session : Session) (outcome : Except RunError Value) :
    session.carryOut (ExceptT.mk (pure outcome)) = (outcome, session) := rfl

theorem carryOut_read (session : Session) (path : FilePath) (failure : FileError → RunError) :
    session.carryOut (ExceptT.mk (Except.mapError failure <$> surroundings.read path)) =
      ((session.store.read path).mapError failure, session) := rfl

theorem carryOut_write (session : Session) (path : FilePath) (contents : Bytes)
    (failure : FileError → RunError) :
    session.carryOut (ExceptT.mk (Except.mapError failure <$> surroundings.write path contents)) =
      match session.store.write path contents with
      | .ok store => (.ok (), { session with store := store })
      | .error error => (.error (failure error), session) := by
  have unfolded : session.carryOut
      (ExceptT.mk (Except.mapError failure <$> surroundings.write path contents)) =
      (match surroundings.write path contents |>.run session with
        | (outcome, later) => (outcome.mapError failure, later)) := rfl
  rw [unfolded]
  simp only [surroundings, StateT.run_bind, StateT.run_get, pure_bind]
  cases session.store.write path contents <;> rfl

/-! ### A run in two steps -/

/-- The query of an invocation: the one in the file it names, or the one of the language. -/
def queryIn (library : SyntaxLibrary) (store : FileStore) (language : Language) :
    Option FilePath → Except RunError (HighlightQuery library)
  | none => (HighlightQuery.standard library language).mapError .failed
  | some path =>
      ((store.read path).mapError (.unreadableQuery path)).bind (queryOf library language path)

/-- What an invocation is to print or to write, from the files it reads. -/
def prepare (library : SyntaxLibrary) (store : FileStore) (invocation : Invocation) :
    Except RunError Bytes :=
  ((store.read invocation.file).mapError (.unreadableSource invocation.file)).bind fun source =>
    (languageOf invocation).bind fun language =>
      (queryIn library store language invocation.query).bind fun query =>
        resultOf invocation language query source

/-- What becomes of a result. -/
def deliver (store : FileStore) (result : Bytes) :
    Option FilePath → Except RunError Unit × Session
  | none => (.ok (), ⟨store, result⟩)
  | some path =>
      match store.write path result with
      | .ok after => (.ok (), ⟨after, []⟩)
      | .error error => (.error (.unwritable path error), ⟨store, []⟩)

theorem carryOut_deliver (store : FileStore) (result : Bytes) (output : Option FilePath) :
    carryOut ⟨store, []⟩ (match output with
      | some path =>
          ExceptT.mk (Except.mapError (RunError.unwritable path) <$> surroundings.write path result)
      | none => ExceptT.mk (Except.mapError RunError.unprintable <$> surroundings.print result)) =
      deliver store result output := by
  cases output with
  | none => rfl
  | some path => exact carryOut_write _ path result _

/-- A run prepares its result and then delivers it. -/
theorem run_eq (library : SyntaxLibrary) (store : FileStore) (invocation : Invocation) :
    Session.run library store invocation =
      match prepare library store invocation with
      | .error failure => (.error failure, ⟨store, []⟩)
      | .ok result => deliver store result invocation.output := by
  have told : Session.run library store invocation =
      carryOut ⟨store, []⟩ (CodeHighlight.run library surroundings invocation) := rfl
  rw [told, prepare]
  simp only [CodeHighlight.run, carryOut_bind, carryOut_read, carryOut_lift]
  cases (store.read invocation.file).mapError (RunError.unreadableSource invocation.file) with
  | error failure => rfl
  | ok source =>
      dsimp only [Except.bind]
      cases languageOf invocation with
      | error failure => rfl
      | ok language =>
          dsimp only
          cases invocation.query with
          | none =>
              simp only [queryIn, carryOut_bind, carryOut_lift]
              cases (HighlightQuery.standard library language).mapError RunError.failed with
              | error failure => rfl
              | ok query =>
                  dsimp only
                  cases resultOf invocation language query source with
                  | error failure => rfl
                  | ok result => exact carryOut_deliver store result invocation.output
          | some path =>
              simp only [queryIn, carryOut_bind, carryOut_read, carryOut_lift]
              cases (store.read path).mapError (RunError.unreadableQuery path) with
              | error failure => rfl
              | ok contents =>
                  dsimp only [Except.bind]
                  cases queryOf library language path contents with
                  | error failure => rfl
                  | ok query =>
                      dsimp only
                      cases resultOf invocation language query source with
                      | error failure => rfl
                      | ok result => exact carryOut_deliver store result invocation.output

/-! ### What can stand in the way -/

section Obstacles

variable (library : SyntaxLibrary) (store : FileStore) (invocation : Invocation)

/-- What keeps the source from being read. -/
def sourceObstacle (path : FilePath) : Option RunError :=
  match store.read path with
  | .error error => some (.unreadableSource path error)
  | .ok _ => none

/-- What keeps the language from being known. -/
def languageObstacle : Option RunError :=
  match invocation.language? with
  | none => some (.unknownLanguage invocation.file)
  | some _ => none

/-- What keeps a query file from being used: it cannot be read, is no text, or is not a query for
the language, if that is known. -/
def queryObstacle (language : Option Language) (path : FilePath) : Option RunError :=
  match store.read path with
  | .error error => some (.unreadableQuery path error)
  | .ok contents =>
      match Utf8.decode? contents with
      | none => some (.unreadableQuery path .notText)
      | some text =>
          match language.map fun known => HighlightQuery.compile library known text with
          | some (.error error) => some (.invalidQuery path error)
          | _ => none

/-- What keeps a file from being written, even an empty one. -/
def outputObstacle (path : FilePath) : Option RunError :=
  match store.write path [] with
  | .error error => some (.unwritable path error)
  | .ok _ => none

/-- What keeps the result from being made, in the order in which it is reported. -/
def inputObstacles : List RunError :=
  (sourceObstacle store invocation.file).toList ++ (languageObstacle invocation).toList ++
    (invocation.query.bind (queryObstacle library store invocation.language?)).toList

/-- Everything that stands in the way of a run, in the order in which it is reported. -/
def obstacles : List RunError :=
  inputObstacles library store invocation ++
    (invocation.output.bind (outputObstacle store)).toList

/-- The query that an invocation means, for a language: the one in the file at a path, or without
one the query that comes with the language. -/
def HasQuery (language : Language) (path : Option FilePath) (query : HighlightQuery library) :
    Prop :=
  match path with
  | none => HighlightQuery.compile library language (bundledText library language) = .ok query
  | some path =>
      ∃ text, store.read path = .ok (Utf8.encode text) ∧
        HighlightQuery.compile library language text = .ok query

/-- Nothing stands in the way of a run. -/
structure Runnable : Prop where
  readable : ∃ source, store.read invocation.file = .ok source
  /-- The language is known, and the query can be used for it. -/
  usable : ∃ language, invocation.language? = some language ∧
    ∃ query, HasQuery library store language invocation.query query
  writable : ∀ path ∈ invocation.output, ∃ after, store.write path [] = .ok after

end Obstacles

variable {library : SyntaxLibrary} {store : FileStore} {invocation : Invocation}
  {language : Language}

theorem language_of_hasQuery {path : Option FilePath} {query : HighlightQuery library}
    (isQuery : HasQuery library store language path query) : query.language = language := by
  cases path with
  | none => exact HighlightQuery.language_of_compile isQuery
  | some path =>
      obtain ⟨text, _, compiled⟩ := isQuery
      exact HighlightQuery.language_of_compile compiled

/-- A query is refused for its obstacle, or is the one that the invocation means. -/
theorem queryIn_cases (never : library.NeverFails) (store : FileStore) (language : Language)
    (path : Option FilePath) :
    (∃ error, queryIn library store language path = .error error ∧
      path.bind (queryObstacle library store (some language)) = some error) ∨
    ∃ query, queryIn library store language path = .ok query ∧
      path.bind (queryObstacle library store (some language)) = none ∧
      HasQuery library store language path query := by
  cases path with
  | none =>
      obtain ⟨compiled, isCompiled⟩ := never.bundles language
      have made : HighlightQuery.standard library language = .ok ⟨language, compiled⟩ := by
        rw [HighlightQuery.standard, HighlightQuery.compile, isCompiled]
      exact Or.inr ⟨⟨language, compiled⟩, by rw [queryIn, made]; rfl, rfl, made⟩
  | some path =>
      simp only [queryIn, queryObstacle, HasQuery, Option.bind_some, Option.map_some]
      cases store.read path with
      | error failure => exact Or.inl ⟨_, rfl, rfl⟩
      | ok contents =>
          simp only [mapError_ok, Except.bind, queryOf]
          cases decoded : Utf8.decode? contents with
          | none => exact Or.inl ⟨_, rfl, rfl⟩
          | some text =>
              cases compiled : HighlightQuery.compile library language text with
              | error failure =>
                  simp only [compiled]
                  exact Or.inl ⟨_, rfl, rfl⟩
              | ok query =>
                  simp only [compiled]
                  rw [← Utf8.encode_eq_of_decode? decoded]
                  exact Or.inr ⟨query, rfl, trivial, text, rfl, compiled⟩

/-- Either there is a result, or the first obstacle is reported. -/
theorem prepare_cases (never : library.NeverFails) (store : FileStore) (invocation : Invocation) :
    (∃ error, prepare library store invocation = .error error ∧
      (inputObstacles library store invocation).head? = some error) ∨
    ∃ result, prepare library store invocation = .ok result ∧
      inputObstacles library store invocation = [] := by
  unfold prepare inputObstacles sourceObstacle languageObstacle
  cases store.read invocation.file with
  | error failure => exact Or.inl ⟨_, rfl, rfl⟩
  | ok source =>
      simp only [mapError_ok, Except.bind, languageOf_eq]
      cases invocation.language? with
      | none => exact Or.inl ⟨_, rfl, rfl⟩
      | some language =>
          rcases queryIn_cases never store language invocation.query with
            ⟨error, refused, obstacle⟩ | ⟨query, used, noObstacle, isQuery⟩
          · simp only [refused, obstacle]
            exact Or.inl ⟨error, rfl, rfl⟩
          · obtain ⟨_, _, _, _, made⟩ :=
              exists_resultOf never (language_of_hasQuery isQuery) invocation source
            simp only [used, noObstacle]
            exact Or.inr ⟨_, made, rfl⟩

/-- A result is delivered, or the output path is what stands in the way. -/
theorem deliver_cases (store : FileStore) (result : Bytes) (path : FilePath) :
    (∃ error, deliver store result (some path) = (.error error, ⟨store, []⟩) ∧
      outputObstacle store path = some error) ∨
    ∃ after, deliver store result (some path) = (.ok (), ⟨after, []⟩) ∧
      store.Replaced path result after ∧ outputObstacle store path = none := by
  unfold deliver outputObstacle
  simp only [FileStore.write_eq]
  cases led : store.target path with
  | error failure => exact Or.inl ⟨_, rfl, rfl⟩
  | ok reached => exact Or.inr ⟨_, rfl, FileStore.replaced_insert led result, rfl⟩

theorem queryObstacle_of_hasQuery {query : HighlightQuery library} {path : Option FilePath}
    (isQuery : HasQuery library store language path query) :
    path.bind (queryObstacle library store (some language)) = none := by
  cases path with
  | none => rfl
  | some path =>
      obtain ⟨text, contents, compiled⟩ := isQuery
      simp only [Option.bind_some, queryObstacle, contents, Utf8.decode?_encode, Option.map_some,
        compiled]

theorem runnable_iff (never : library.NeverFails) (store : FileStore) (invocation : Invocation) :
    Runnable library store invocation ↔ obstacles library store invocation = [] := by
  have reads : (∃ source, store.read invocation.file = .ok source) ↔
      sourceObstacle store invocation.file = none := by
    unfold sourceObstacle
    cases store.read invocation.file <;> simp
  have writes : ∀ path, (∃ after, store.write path [] = .ok after) ↔
      outputObstacle store path = none := by
    intro path
    unfold outputObstacle
    cases store.write path [] <;> simp
  simp only [obstacles, inputObstacles, List.append_eq_nil_iff, Option.toList_eq_nil_iff]
  constructor
  · rintro ⟨readable, ⟨language, isLanguage, query, isQuery⟩, writable⟩
    refine ⟨⟨⟨reads.mp readable, ?_⟩, ?_⟩, ?_⟩
    · simp only [languageObstacle, isLanguage]
    · rw [isLanguage]
      exact queryObstacle_of_hasQuery isQuery
    · apply Option.bind_eq_none_iff.mpr
      intro path isOutput
      exact (writes path).mp (writable path isOutput)
  · rintro ⟨⟨⟨readable, isLanguage⟩, isQuery⟩, writable⟩
    refine ⟨reads.mpr readable, ?_, ?_⟩
    · unfold languageObstacle at isLanguage
      cases meant : invocation.language? with
      | none =>
          rw [meant] at isLanguage
          cases isLanguage
      | some language =>
          rw [meant] at isQuery
          rcases queryIn_cases never store language invocation.query with
            ⟨error, _, obstacle⟩ | ⟨query, _, _, used⟩
          · rw [obstacle] at isQuery
            cases isQuery
          · exact ⟨language, rfl, query, used⟩
    · intro path isOutput
      exact (writes path).mpr (Option.bind_eq_none_iff.mp writable path isOutput)

theorem hasQuery_unique {path : Option FilePath} {first second : HighlightQuery library}
    (one : HasQuery library store language path first)
    (two : HasQuery library store language path second) : first = second := by
  cases path with
  | none => exact Except.ok.inj (Eq.trans (Eq.symm one) two)
  | some path =>
      obtain ⟨text, contents, compiled⟩ := one
      obtain ⟨other, otherContents, otherCompiled⟩ := two
      rw [contents] at otherContents
      have same : text = other := Utf8.encode_injective (Except.ok.inj otherContents)
      rw [← same, compiled] at otherCompiled
      exact Except.ok.inj otherCompiled

/-- With everything at hand, what is prepared is the result of the run. -/
theorem prepare_of_inputs (never : library.NeverFails) {source : Bytes}
    {query : HighlightQuery library} (readable : store.read invocation.file = .ok source)
    (meant : invocation.language? = some language)
    (isQuery : HasQuery library store language invocation.query query) :
    prepare library store invocation = resultOf invocation language query source := by
  have used : queryIn library store language invocation.query = .ok query := by
    rcases queryIn_cases never store language invocation.query with
      ⟨error, _, obstacle⟩ | ⟨other, used, _, isOther⟩
    · rw [queryObstacle_of_hasQuery isQuery] at obstacle
      cases obstacle
    · rw [used, hasQuery_unique isOther isQuery]
  unfold prepare
  rw [readable, languageOf_eq, meant]
  simp only [mapError_ok, Except.bind, used]

/-- What stands in the way is never that a query is for another language than the source. -/
theorem ne_of_mem_obstacles {error : RunError}
    (member : error ∈ obstacles library store invocation) :
    (∀ failure, error ≠ .failed failure) ∧
      ∀ path query tree, error ≠ .invalidQuery path (.languageMismatch query tree) := by
  simp only [obstacles, inputObstacles, List.mem_append, Option.mem_toList,
    Option.bind_eq_some_iff] at member
  rcases member with ((source | noLanguage) | ⟨path, _, query⟩) | ⟨path, _, output⟩
  · unfold sourceObstacle at source
    split at source
    · cases source
      simp
    · cases source
  · unfold languageObstacle at noLanguage
    split at noLanguage
    · cases noLanguage
      simp
    · cases noLanguage
  · unfold queryObstacle at query
    split at query
    · cases query
      simp
    · split at query
      · cases query
        simp
      · split at query
        · rename_i refused
          obtain ⟨known, _, compiled⟩ := Option.map_eq_some_iff.mp refused
          unfold HighlightQuery.compile at compiled
          split at compiled
          · cases compiled
          · cases compiled
            cases query
            simp
        · cases query
  · unfold outputObstacle at output
    split at output
    · cases output
      simp
    · cases output

/-- A run stops at the first obstacle, or delivers its result. -/
theorem run_cases (never : library.NeverFails) (store : FileStore) (invocation : Invocation) :
    (∃ error, Session.run library store invocation = (.error error, ⟨store, []⟩) ∧
      (obstacles library store invocation).head? = some error) ∨
    ∃ result, prepare library store invocation = .ok result ∧
      obstacles library store invocation = [] ∧
      match invocation.output with
      | none => Session.run library store invocation = (.ok (), ⟨store, result⟩)
      | some path => ∃ after, Session.run library store invocation = (.ok (), ⟨after, []⟩) ∧
          store.Replaced path result after := by
  rw [run_eq]
  unfold obstacles
  rcases prepare_cases never store invocation with
    ⟨error, refused, first⟩ | ⟨result, prepared, noObstacle⟩
  · rw [refused, List.head?_append, first]
    exact Or.inl ⟨error, rfl, rfl⟩
  · rw [prepared, noObstacle]
    cases invocation.output with
    | none => exact Or.inr ⟨result, rfl, rfl, rfl⟩
    | some path =>
        rcases deliver_cases store result path with
          ⟨error, delivered, obstacle⟩ | ⟨after, delivered, replaced, free⟩
        · refine Or.inl ⟨error, delivered, ?_⟩
          rw [Option.bind_some, obstacle]
          rfl
        · refine Or.inr ⟨result, rfl, ?_, after, delivered, replaced⟩
          rw [Option.bind_some, free]
          rfl

/-- A run succeeds exactly when nothing stands in its way.  Otherwise it reports what stands there
first, prints nothing and leaves every file as it is.  The result of a run that succeeds is the
rendering of the source with the matches of the query, for a terminal or in its page; it is
printed, or it is the only change to the files, and it depends on the files that are read, not on
the output. -/
theorem run_all_or_nothing (never : library.NeverFails) (store : FileStore)
    (invocation : Invocation) :
    ∃ result : Bytes,
      (∀ source language query, store.read invocation.file = .ok source →
        invocation.language? = some language →
        HasQuery library store language invocation.query query →
        ∃ tree found, SyntaxTree.parse library language source = .ok tree ∧
          query.run tree source = .ok found ∧ result = invocation.presented source found) ∧
      ∀ output,
        let wanted := { invocation with output := output }
        let ended := Session.run library store wanted
        (ended.1 = .ok () ↔ Runnable library store wanted) ∧
        (∀ error, ended.1 = .error error →
          (obstacles library store wanted).head? = some error ∧ ended.2 = ⟨store, []⟩ ∧
          (∀ failure, error ≠ .failed failure) ∧
          ∀ path query tree, error ≠ .invalidQuery path (.languageMismatch query tree)) ∧
        (ended.1 = .ok () → match output with
          | none => ended.2 = ⟨store, result⟩
          | some path => ended.2.printed = [] ∧ store.Replaced path result ended.2.store) := by
  refine ⟨(prepare library store invocation).toOption.getD [], ?_, ?_⟩
  · intro source language query readable meant isQuery
    obtain ⟨tree, found, parsed, matched, made⟩ :=
      exists_resultOf never (language_of_hasQuery isQuery) invocation source
    refine ⟨tree, found, parsed, matched, ?_⟩
    rw [prepare_of_inputs never readable meant isQuery, made]
    rfl
  · intro output wanted ended
    -- Where the result is to go makes no difference to it.
    have prepared : prepare library store wanted = prepare library store invocation := rfl
    rw [runnable_iff never]
    rcases run_cases never store wanted with
      ⟨error, stopped, first⟩ | ⟨result, made, free, delivered⟩
    · have outcome : ended = (.error error, ⟨store, []⟩) := stopped
      rw [outcome]
      refine ⟨?_, ?_, ?_⟩
      · constructor
        · intro success
          cases success
        · intro free
          rw [free] at first
          cases first
      · intro reported same
        cases same
        exact ⟨first, rfl, ne_of_mem_obstacles (List.mem_of_head? first)⟩
      · intro success
        cases success
    · rw [prepared] at made
      rw [made]
      cases output with
      | none =>
          have outcome : ended = (.ok (), ⟨store, result⟩) := delivered
          rw [outcome]
          exact ⟨⟨fun _ => free, fun _ => rfl⟩, fun _ failed => (by cases failed), fun _ => rfl⟩
      | some path =>
          obtain ⟨after, written, replaced⟩ := delivered
          have outcome : ended = (.ok (), ⟨after, []⟩) := written
          rw [outcome]
          exact ⟨⟨fun _ => free, fun _ => rfl⟩, fun _ failed => (by cases failed),
            fun _ => ⟨rfl, replaced⟩⟩

/-- A file that refuses to be written stays as it is; written over the source, the page takes the
place of the source that was read. -/
theorem run_all_or_nothing_onto_source :
    let source : FilePath := Utf8.encode "/in.json"
    let locked : FilePath := Utf8.encode "/out.html"
    let denied : FileError := .other "Permission denied (os error 13)"
    let store : FileStore := {
      workingDirectory := []
      entries := [
        ([Utf8.encode "in.json"], .file (Utf8.encode "[]") .free),
        ([Utf8.encode "out.html"],
          .file (Utf8.encode "old") { reading := none, writing := some denied })] }
    let invocation : Invocation := {
      file := source
      query := none
      theme := .nord
      language := none
      output := none
      html := true
      fragment := false
      lineNumbers := true
      verbose := false }
    let refused := run Json.library store { invocation with output := some locked }
    let replaced := run Json.library store { invocation with output := some source }
    Json.library.NeverFails ∧
      (refused.1 = .error (.unwritable locked denied) ∧ refused.2 = ⟨store, []⟩) ∧
      replaced.1 = .ok () ∧ replaced.2.printed = [] ∧
      ∃ found, store.Replaced source (invocation.presented (Utf8.encode "[]") found)
        replaced.2.store := by
  intro source locked denied store invocation
  obtain ⟨result, isResult, each⟩ := run_all_or_nothing Json.library_neverFails store invocation
  have readable : store.read source = .ok (Utf8.encode "[]") := by decide +kernel
  have known : invocation.language? = some .json := by decide +kernel
  obtain ⟨compiled, bundled⟩ := Json.library_neverFails.bundles .json
  have standard : HighlightQuery.compile Json.library .json (bundledText Json.library .json) =
      .ok ⟨.json, compiled⟩ := by
    rw [HighlightQuery.compile, bundled]
  have query : HasQuery Json.library store .json invocation.query ⟨.json, compiled⟩ := standard
  obtain ⟨tree, found, _, _, isShown⟩ := isResult _ _ _ readable known query
  refine ⟨Json.library_neverFails, ?_, ?_⟩
  · obtain ⟨succeeds, failed, _⟩ := each (some locked)
    have refuses : store.write locked [] = .error denied := by rfl
    have readsSource : sourceObstacle store source = none := by rw [sourceObstacle, readable]
    have knowsLanguage : languageObstacle { invocation with output := some locked } = none := by
      decide +kernel
    have refusesOutput : outputObstacle store locked = some (.unwritable locked denied) := by
      rw [outputObstacle, refuses]
    have first : (obstacles Json.library store { invocation with output := some locked }).head? =
        some (.unwritable locked denied) := by
      rw [obstacles, inputObstacles, readsSource, knowsLanguage, Option.bind_some, refusesOutput]
      rfl
    cases outcome : (run Json.library store { invocation with output := some locked }).1 with
    | ok value =>
        obtain ⟨after, written⟩ := (succeeds.mp outcome).writable locked rfl
        rw [refuses] at written
        cases written
    | error error =>
        obtain ⟨reported, unchanged, _⟩ := failed error outcome
        rw [first] at reported
        cases reported
        exact ⟨rfl, unchanged⟩
  · obtain ⟨succeeds, _, delivered⟩ := each (some source)
    have writable : ∀ path ∈ some source, ∃ after, store.write path [] = .ok after := by
      rintro path ⟨⟩
      exact ⟨_, rfl⟩
    have runs := succeeds.mpr ⟨⟨_, readable⟩, ⟨_, known, _, query⟩, writable⟩
    obtain ⟨nothing, isReplaced⟩ := delivered runs
    rw [isShown] at isReplaced
    exact ⟨runs, nothing, found, isReplaced⟩

end Session

end CodeHighlight
