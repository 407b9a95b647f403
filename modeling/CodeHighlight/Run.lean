/-
Module: CodeHighlight.Run
Purpose: A whole run: the source is read, its language found, the query read, and the result
  printed or written.  Nothing is printed or written before all else has succeeded.
Main exports:
  RunError, RunError.message, Surroundings, run, Session, Session.surroundings
-/
import CodeHighlight.CommandLine
import CodeHighlight.FileStore
import CodeHighlight.Highlighting
import CodeHighlight.Page

namespace CodeHighlight

/-! ### Errors -/

/-- Why a run ended without a result. -/
inductive RunError where
  | unreadableSource (path : FilePath) (error : FileError)
  /-- No language was given, and the file's extension is the one of none. -/
  | unknownLanguage (path : FilePath)
  | unreadableQuery (path : FilePath) (error : FileError)
  | invalidQuery (path : FilePath) (error : SyntaxError)
  /-- The source could not be highlighted. -/
  | failed (error : SyntaxError)
  | unwritable (path : FilePath) (error : FileError)
  | unprintable (error : FileError)
deriving Repr, DecidableEq

namespace RunError

/-- The error as a text. -/
def message : RunError → String
  | unreadableSource path error =>
      "failed to read " ++ Utf8.display path ++ ": " ++ error.message
  | unknownLanguage path =>
      "cannot detect the language of " ++ Utf8.display path ++ "; pass -l with one of: " ++
        String.intercalate ", " (Language.all.map Language.name)
  | unreadableQuery path error =>
      "failed to read query file " ++ Utf8.display path ++ ": " ++ error.message
  | invalidQuery path error =>
      "failed to compile query file " ++ Utf8.display path ++ ": " ++ error.report
  | failed error => error.report
  | unwritable path error => "failed to write " ++ Utf8.display path ++ ": " ++ error.message
  | unprintable error => "failed to write to stdout: " ++ error.message

end RunError

/-! ### The run -/

/-- What a run does to the world around it. -/
structure Surroundings (Action : Type → Type) where
  read : FilePath → Action (Except FileError Bytes)
  write : FilePath → Bytes → Action (Except FileError Unit)
  print : Bytes → Action (Except FileError Unit)

/-- The language of the source: the given one, or the one that the file's extension means. -/
def languageOf (invocation : Invocation) : Except RunError Language :=
  match invocation.language.orElse fun _ => Language.ofPath? invocation.file with
  | some language => .ok language
  | none => .error (.unknownLanguage invocation.file)

/-- The query in the bytes of a file. -/
def queryOf (library : SyntaxLibrary) (language : Language) (path : FilePath)
    (contents : Bytes) : Except RunError (HighlightQuery library) :=
  match Utf8.decode? contents with
  | none => .error (.unreadableQuery path .notText)
  | some text => (HighlightQuery.compile library language text).mapError (.invalidQuery path)

/-- What an invocation makes of a source: a page, a code block, or text for a terminal. -/
def resultOf {library : SyntaxLibrary} (invocation : Invocation) (language : Language)
    (query : HighlightQuery library) (source : Bytes) : Except RunError Bytes := do
  let settings : RenderSettings :=
    { format := if invocation.html then .markup else .terminal
      lineNumbers := invocation.lineNumbers }
  let (body, _) ← (highlight language source query invocation.theme settings).mapError .failed
  if invocation.html then
    let page : Page :=
      { theme := invocation.theme
        gutterWidth := if invocation.lineNumbers then some (labelWidth source) else none
        fragment := invocation.fragment }
    return page.wrap body
  else
    return body

variable {Action : Type → Type} [Monad Action]

/-- Carries out an invocation. -/
def run (library : SyntaxLibrary) (surroundings : Surroundings Action) (invocation : Invocation) :
    ExceptT RunError Action Unit := do
  let attempt {Value : Type} (action : Action (Except FileError Value))
      (failure : FileError → RunError) : ExceptT RunError Action Value :=
    ExceptT.mk (Except.mapError failure <$> action)
  let source ← attempt (surroundings.read invocation.file) (.unreadableSource invocation.file)
  let language ← ExceptT.mk (pure (languageOf invocation))
  let query ←
    match invocation.query with
    | none => ExceptT.mk (pure ((HighlightQuery.standard library language).mapError .failed))
    | some path => do
        let contents ← attempt (surroundings.read path) (.unreadableQuery path)
        ExceptT.mk (pure (queryOf library language path contents))
  let result ← ExceptT.mk (pure (resultOf invocation language query source))
  match invocation.output with
  | some path => attempt (surroundings.write path result) (.unwritable path)
  | none => attempt (surroundings.print result) .unprintable

/-! ### Runs over a file store -/

/-- A file store, and what has been printed. -/
structure Session where
  store : FileStore
  printed : Bytes
deriving Repr, DecidableEq

namespace Session

/-- Reading, writing and printing as changes of a session. -/
def surroundings : Surroundings (StateM Session) where
  read path := return (← get).store.read path
  write path contents := do
    let session ← get
    match session.store.write path contents with
    | .ok store =>
        set { session with store := store }
        return .ok ()
    | .error error => return .error error
  print bytes := do
    modify fun session => { session with printed := session.printed ++ bytes }
    return .ok ()

/-- Carries out an invocation where the files of a store are. -/
def run (library : SyntaxLibrary) (store : FileStore) (invocation : Invocation) :
    Except RunError Unit × Session :=
  (CodeHighlight.run library surroundings invocation).run.run { store := store, printed := [] }

end Session

end CodeHighlight
