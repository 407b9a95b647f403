/-
Module: CodeHighlight.FilePath
Purpose: Paths to files as bytes, the names in them, and the extension of the last one.
Main exports:
  FilePath, FilePath.segments, FilePath.names, FilePath.fileName?, FilePath.extension?
-/
import CodeHighlight.Text.Utf8

namespace CodeHighlight

/-- A path, in whatever bytes the file system allows. -/
abbrev FilePath := Bytes

namespace FilePath

/-- The byte between the names of a path. -/
def separator : UInt8 := 0x2F

/-- The byte before an extension. -/
def dot : UInt8 := 0x2E

/-- Puts a byte of a path before the segments of what follows it. -/
def prepend (byte : UInt8) : List Bytes → List Bytes
  | [] => if byte = separator then [[], []] else [[byte]]
  | first :: rest => if byte = separator then [] :: first :: rest else (byte :: first) :: rest

/-- What stands between the separators, empty texts included. -/
def segments (path : FilePath) : List Bytes :=
  path.foldr prepend [[]]

/-- The segments that name something: neither empty nor a single dot. -/
def names (path : FilePath) : List Bytes :=
  path.segments.filter fun segment => segment != [] && segment != [dot]

/-- The name of the file, unless the path leads up from its last directory. -/
def fileName? (path : FilePath) : Option Bytes :=
  path.names.getLast?.filter (· != [dot, dot])

/-- What follows the last dot of a file name.  A dot in front only hides the file. -/
def extensionOfName? (name : Bytes) : Option Bytes :=
  match name.reverse.span (· != dot) with
  | (_, []) => none
  | (_, [_]) => none
  | (reversedExtension, _ :: _ :: _) => some reversedExtension.reverse

/-- The extension of the file that a path leads to. -/
def extension? (path : FilePath) : Option Bytes :=
  path.fileName?.bind extensionOfName?

end FilePath

end CodeHighlight
