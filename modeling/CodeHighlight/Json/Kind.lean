/-
Module: CodeHighlight.Json.Kind
Purpose: The kinds of nodes in the tree of a JSON text, and the names that queries use for
  them.
Main exports: Json.Mark, Json.Constant, Json.Kind, Json.Kind.name, Json.Kind.named,
  Json.Kind.find?, Json.Kind.find?_name
-/
import CodeHighlight.Text.Utf8

namespace CodeHighlight.Json

/-- The single bytes that structure a text. -/
inductive Mark where
  | openBrace
  | closeBrace
  | openBracket
  | closeBracket
  | comma
  | colon
  | quote
deriving Repr, DecidableEq

namespace Mark

/-- All marks. -/
def all : List Mark :=
  [openBrace, closeBrace, openBracket, closeBracket, comma, colon, quote]

/-- The byte of the mark. -/
def byte : Mark → UInt8
  | openBrace => 0x7B
  | closeBrace => 0x7D
  | openBracket => 0x5B
  | closeBracket => 0x5D
  | comma => 0x2C
  | colon => 0x3A
  | quote => 0x22

/-- The mark as queries write it. -/
def text : Mark → String
  | openBrace => "\x7b"
  | closeBrace => "\x7d"
  | openBracket => "["
  | closeBracket => "]"
  | comma => ","
  | colon => ":"
  | quote => "\""

/-- The mark that a byte is. -/
def ofByte? (byte : UInt8) : Option Mark :=
  all.find? fun mark => mark.byte == byte

theorem byte_of_ofByte? {byte : UInt8} {mark : Mark} (found : ofByte? byte = some mark) :
    mark.byte = byte := by
  simpa using List.find?_some found

end Mark

/-- The three words of the language. -/
inductive Constant where
  | trueWord
  | falseWord
  | nullWord
deriving Repr, DecidableEq

namespace Constant

/-- All words. -/
def all : List Constant :=
  [trueWord, falseWord, nullWord]

/-- The word as it is written. -/
def text : Constant → String
  | trueWord => "true"
  | falseWord => "false"
  | nullWord => "null"

end Constant

/-- What a node of the tree is. -/
inductive Kind where
  | document
  | object
  | pair
  | array
  | string
  /-- Bytes of a string that stand for themselves. -/
  | content
  /-- A backslash and the letter after it. -/
  | escape
  | number
  | constant (word : Constant)
  | comment
  | mark (symbol : Mark)
deriving Repr, DecidableEq

namespace Kind

/-- All kinds. -/
def all : List Kind :=
  [document, object, pair, array, string, content, escape, number, comment] ++
    Constant.all.map constant ++ Mark.all.map mark

/-- Whether queries name the kind; the others they quote. -/
def named : Kind → Bool
  | mark _ => false
  | _ => true

/-- What queries call the kind. -/
def name : Kind → String
  | document => "document"
  | object => "object"
  | pair => "pair"
  | array => "array"
  | string => "string"
  | content => "string_content"
  | escape => "escape_sequence"
  | number => "number"
  | constant word => word.text
  | comment => "comment"
  | mark symbol => symbol.text

/-- The one of some kinds that has this name and is named, or is quoted. -/
def find? (kinds : List Kind) (isNamed : Bool) (text : String) : Option Kind :=
  kinds.find? fun kind => kind.named == isNamed && kind.name == text

/-- Every kind is found by its name. -/
theorem find?_name (kind : Kind) : find? all kind.named kind.name = some kind := by
  cases kind with
  | constant word => cases word <;> decide +kernel
  | mark symbol => cases symbol <;> decide +kernel
  | _ => decide +kernel

end Kind

end CodeHighlight.Json
