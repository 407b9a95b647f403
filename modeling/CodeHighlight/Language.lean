/-
Module: CodeHighlight.Language
Purpose: The languages that can be highlighted, and how a name, a file extension or a path
  leads to one of them.
Main exports:
  Language, Language.all, Language.name, Language.extensions, Language.ofName?,
  Language.ofExtension?, Language.ofPath?, Language.mem_all, Language.ofName?_name
-/
import CodeHighlight.FilePath
import CodeHighlight.Text.Blank
import CodeHighlight.Text.LetterCase

namespace CodeHighlight

/-- A language that source text may be in. -/
inductive Language where
  | python
  | c
  | cpp
  | javaScript
  | typeScript
  | tsx
  | rust
  | go
  | json
  | toml
  | html
  | css
  | bash
  | markdown
deriving Repr, DecidableEq

namespace Language

/-- All languages, in the order in which they are listed. -/
def all : List Language :=
  [python, c, cpp, javaScript, typeScript, tsx, rust, go, json, toml, html, css, bash,
    markdown]

/-- The name of the language on the command line and in messages. -/
def name : Language → String
  | python => "python"
  | c => "c"
  | cpp => "cpp"
  | javaScript => "javascript"
  | typeScript => "typescript"
  | tsx => "tsx"
  | rust => "rust"
  | go => "go"
  | json => "json"
  | toml => "toml"
  | html => "html"
  | css => "css"
  | bash => "bash"
  | markdown => "markdown"

/-- The name of the language as a title. -/
def title : Language → String
  | python => "Python"
  | c => "C"
  | cpp => "Cpp"
  | javaScript => "JavaScript"
  | typeScript => "TypeScript"
  | tsx => "Tsx"
  | rust => "Rust"
  | go => "Go"
  | json => "Json"
  | toml => "Toml"
  | html => "Html"
  | css => "Css"
  | bash => "Bash"
  | markdown => "Markdown"

/-- The extensions of the language's files, in lower case and without a dot.  Headers count
as C++. -/
def extensions : Language → List String
  | python => ["py", "pyi"]
  | c => ["c"]
  | cpp => ["cpp", "cc", "cxx", "hpp", "hh", "h"]
  | javaScript => ["js", "jsx", "mjs", "cjs"]
  | typeScript => ["ts", "mts", "cts"]
  | tsx => ["tsx"]
  | rust => ["rs"]
  | go => ["go"]
  | json => ["json"]
  | toml => ["toml"]
  | html => ["html", "htm"]
  | css => ["css"]
  | bash => ["sh", "bash", "zsh"]
  | markdown => ["md", "markdown"]

/-- The names that a language may be called by, in lower case. -/
def knownNames : List (String × Language) :=
  [("python", python), ("py", python), ("c", c), ("cpp", cpp), ("c++", cpp),
    ("javascript", javaScript), ("js", javaScript), ("node", javaScript),
    ("typescript", typeScript), ("ts", typeScript), ("tsx", tsx), ("rust", rust),
    ("go", go), ("golang", go), ("json", json), ("toml", toml), ("html", html),
    ("css", css), ("bash", bash), ("shell", bash), ("sh", bash), ("zsh", bash),
    ("markdown", markdown), ("md", markdown)]

/-- An extension without the one dot that may stand before it. -/
def bareExtension : List Char → List Char
  | '.' :: rest => rest
  | extension => extension

/-- The language of files with this extension.  ASCII letters may be in either case. -/
def ofExtensionCharacters? (extension : List Char) : Option Language :=
  let bare := String.ofList ((bareExtension extension).map Char.toLower)
  all.find? fun language => language.extensions.contains bare

/-- The language of files with this extension, which may be given with its dot. -/
def ofExtension? (extension : String) : Option Language :=
  ofExtensionCharacters? extension.toList

/-- The language that a text in lower case means.  One that is no name is tried as an
extension. -/
def ofCalled? (called : List Char) : Option Language :=
  (knownNames.lookup (String.ofList called)).orElse fun _ => ofExtensionCharacters? called

/-- The language that a name means, in any letter case and with white space around it.  A
text that is no name is tried as an extension. -/
def ofName? (text : String) : Option Language :=
  ofCalled? ((trim text.toList).map lowerLetter)

/-- The language that a file is in by its extension. -/
def ofPath? (path : FilePath) : Option Language := do
  let extension ← path.extension?
  let text ← Utf8.decode? extension
  ofExtension? text

theorem mem_all (language : Language) : language ∈ all := by
  cases language <;> decide

/-- Every language is found by its name. -/
theorem ofName?_name (language : Language) : ofName? language.name = some language := by
  cases language <;> decide +kernel

end Language

end CodeHighlight
