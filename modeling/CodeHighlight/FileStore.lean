/-
Module: CodeHighlight.FileStore
Purpose: Files and directories as a value, and what reading and writing them by path does.  A
  path is followed name by name, from the root or from the working directory.  Any file or
  directory may refuse to be read or written, and then nothing happens to it.
Main exports:
  FileError, FileError.message, Access, FileEntry, FileStore, FileStore.read, FileStore.target,
  FileStore.write, FileStore.changedFiles
-/
import CodeHighlight.FilePath

namespace CodeHighlight

/-- Why a file could not be read or written. -/
inductive FileError where
  | notFound
  /-- A name in the path is not the one of a directory. -/
  | notDirectory
  | isDirectory
  /-- The file was to be a text, and its bytes are no UTF-8. -/
  | notText
  /-- Anything else, in the words of the system. -/
  | other (text : String)
deriving Repr, DecidableEq

namespace FileError

/-- The error in the words of the system. -/
def message : FileError → String
  | notFound => "No such file or directory (os error 2)"
  | notDirectory => "Not a directory (os error 20)"
  | isDirectory => "Is a directory (os error 21)"
  | notText => "stream did not contain valid UTF-8"
  | other text => text

end FileError

/-- Why something cannot be used, if it cannot: a file for reading or writing its contents, a
directory for going into it or making a file in it. -/
structure Access where
  reading : Option FileError
  writing : Option FileError
deriving Repr, DecidableEq

namespace Access

/-- Everything can be done. -/
def free : Access where
  reading := none
  writing := none

/-- Fails for the reason there is. -/
def check : Option FileError → Except FileError Unit
  | none => .ok ()
  | some error => .error error

end Access

/-- What a name stands for. -/
inductive FileEntry where
  | file (contents : Bytes) (access : Access)
  | directory (access : Access)
deriving Repr, DecidableEq

/-- Entries by the names that lead to them from the root. -/
structure FileStore where
  /-- The names that lead to the directory in which relative paths begin. -/
  workingDirectory : List Bytes
  entries : List (List Bytes × FileEntry)
deriving Repr, DecidableEq

namespace FileStore

/-- The entry that names lead to. -/
def find? (store : FileStore) (names : List Bytes) : Option FileEntry :=
  store.entries.lookup names

/-- Makes names lead to an entry. -/
def insert (store : FileStore) (names : List Bytes) (entry : FileEntry) : FileStore :=
  { store with entries := (names, entry) :: store.entries.filter fun (other, _) => other != names }

/-- What can be done with a directory.  The root, and where else there is no entry, is free. -/
def accessTo (store : FileStore) (directory : List Bytes) : Access :=
  match store.find? directory with
  | some (.directory access) => access
  | _ => .free

/-! ### Following a path -/

/-- The names that stand for the directory itself. -/
def staysHere (name : Bytes) : Bool :=
  name == [] || name == [FilePath.dot]

/-- The name of the directory around this one.  The root has no other around it. -/
def parentName : Bytes :=
  [FilePath.dot, FilePath.dot]

/-- The name does not stand for an entry of the directory. -/
def isDots (name : Bytes) : Bool :=
  staysHere name || name == parentName

/-- Follows a name from a directory to a directory. -/
def enter (store : FileStore) (directory : List Bytes) (name : Bytes) :
    Except FileError (List Bytes) :=
  if staysHere name then .ok directory
  else if name == parentName then .ok directory.dropLast
  else
    match store.find? (directory ++ [name]) with
    | some (.directory access) => do
        Access.check access.reading
        return directory ++ [name]
    | some (.file _ _) => .error .notDirectory
    | none => .error .notFound

/-- Where a path begins: with a separator in front at the root. -/
def origin (store : FileStore) (path : FilePath) : List Bytes :=
  if path.head? = some FilePath.separator then [] else store.workingDirectory

/-- The directory that all segments of a path but the last lead to. -/
def directoryOf (store : FileStore) (path : FilePath) : Except FileError (List Bytes) :=
  path.segments.dropLast.foldlM store.enter (store.origin path)

/-- The last segment of a path. -/
def lastSegment (path : FilePath) : Bytes :=
  path.segments.getLast?.getD []

/-! ### Reading and writing -/

/-- The contents of the file at a path. -/
def read (store : FileStore) (path : FilePath) : Except FileError Bytes := do
  let directory ← store.directoryOf path
  let name := lastSegment path
  if isDots name then .error .isDirectory
  else
    match store.find? (directory ++ [name]) with
    | some (.file contents access) =>
        Access.check access.reading
        return contents
    | some (.directory _) => .error .isDirectory
    | none => .error .notFound

/-- A path without the separators at its end. -/
def withoutSeparators (path : FilePath) : FilePath :=
  (path.reverse.dropWhile (· == FilePath.separator)).reverse

/-- The names of the file that is written at a path, and what can be done with it then.  A path
with a separator at its end can only mean a directory. -/
def target (store : FileStore) (path : FilePath) : Except FileError (List Bytes × Access) := do
  let trimmed := withoutSeparators path
  let directory ← store.directoryOf trimmed
  let name := lastSegment trimmed
  if isDots name || trimmed != path then .error .isDirectory
  else
    match store.find? (directory ++ [name]) with
    | some (.directory _) => .error .isDirectory
    | some (.file _ access) =>
        Access.check access.writing
        return (directory ++ [name], access)
    | none =>
        Access.check (store.accessTo directory).writing
        return (directory ++ [name], .free)

/-- The store with a file at a path, in place of the file that was there. -/
def write (store : FileStore) (path : FilePath) (contents : Bytes) :
    Except FileError FileStore := do
  let (names, access) ← store.target path
  return store.insert names (.file contents access)

/-! ### Comparing stores -/

/-- The files directly in the working directory, with their contents. -/
def topFiles (store : FileStore) : List (Bytes × Bytes) :=
  store.entries.filterMap fun
    | (names, .file contents _) =>
        if names.dropLast = store.workingDirectory then
          names.getLast?.map fun name => (name, contents)
        else none
    | _ => none

/-- The files directly in the working directory that are new or hold something else than
before, by their names. -/
def changedFiles (before after : FileStore) : List (Bytes × Bytes) :=
  let changed := after.topFiles.filter fun file => !before.topFiles.contains file
  changed.mergeSort fun first second => first.1 ≤ second.1

end FileStore

end CodeHighlight
