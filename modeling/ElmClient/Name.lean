/-
Identifiers made from raw document keys. A key is split at the characters an
identifier cannot hold, each piece is title-cased, and the pieces are joined so
that two numbers never run together. A key without any ASCII letter or digit is
spelled out symbol by symbol.
-/

import ElmClient.Text.Blank
import ElmClient.Text.Edit

namespace ElmClient.Name

open Text

def reservedWords : List String :=
  ["alias", "as", "case", "else", "exposing", "if", "import", "in", "infix", "let", "module",
   "of", "port", "then", "type", "where"]

def symbolWord : Char → String
  | '+' => "plus"
  | '-' => "minus"
  | '*' => "star"
  | '/' => "slash"
  | '\\' => "backslash"
  | '$' => "dollar"
  | '.' => "dot"
  | ',' => "comma"
  | ':' => "colon"
  | ';' => "semicolon"
  | '<' => "lt"
  | '>' => "gt"
  | '=' => "eq"
  | '!' => "bang"
  | '?' => "question"
  | '@' => "at"
  | '#' => "hash"
  | '%' => "percent"
  | '&' => "and"
  | '|' => "pipe"
  | '~' => "tilde"
  | '^' => "caret"
  | '_' => "underscore"
  | _ => "symbol"

/-! ### Pieces of a name -/

def capitalize : List Char → List Char
  | [] => []
  | first :: rest => first.toUpper :: rest

def decapitalize : List Char → List Char
  | [] => []
  | first :: rest => first.toLower :: rest

def isSymbolic (raw : List Char) : Bool :=
  !raw.any Char.isAlphanum

/-- The words of a symbolic key; a blank key is the word `empty`. -/
def symbolWords (raw : List Char) : List (List Char) :=
  match (raw.filter fun character => !isBlank character).map
      (fun character => (symbolWord character).toList) with
  | [] => ["empty".toList]
  | words => words

def isNameChar (character : Char) : Bool :=
  character.isAlphanum || character == '_'

def separate (separator : Char) (characters : List Char) : List Char :=
  characters.map fun character => if isNameChar character then character else separator

/-- Put `separator` for every character an identifier cannot hold; a leading
dollar sign is spelled out. -/
def desymbolize (separator : Char) (raw : List Char) : List Char :=
  match trimChars raw with
  | '$' :: rest => "dollar".toList ++ separator :: separate separator rest
  | trimmed => separate separator trimmed

def titleCase (spaced : List Char) : List Char :=
  List.intercalate [' '] ((splitChars ' ' spaced).map capitalize)

/-- Join words at their spaces. The last character kept is carried along: a run
of spaces between two digits becomes one underscore, any other run vanishes. -/
def closeGapsAfter : Option Char → List Char → List Char
  | _, [] => []
  | previous, character :: rest =>
      if character = ' ' then
        match rest.dropWhile (· == ' '), previous with
        | next :: _, some digit =>
            if digit.isDigit && next.isDigit then
              '_' :: closeGapsAfter none rest
            else
              closeGapsAfter none rest
        | _, _ => closeGapsAfter none rest
      else
        character :: closeGapsAfter (some character) rest

def closeGaps (titled : List Char) : List Char :=
  closeGapsAfter none titled

def segment (raw : List Char) : List Char :=
  if isSymbolic raw then
    (symbolWords raw).flatMap capitalize
  else
    closeGaps (titleCase (desymbolize ' ' raw))

def dropUnderscores (characters : List Char) : List Char :=
  characters.dropWhile (· == '_')

def collapseUnderscores : List Char → List Char
  | [] => []
  | '_' :: rest =>
      match rest with
      | '_' :: _ => collapseUnderscores rest
      | _ => '_' :: collapseUnderscores rest
  | character :: rest => character :: collapseUnderscores rest

/-! ### Type names -/

def typeNameChars (raw : List Char) : List Char :=
  match dropUnderscores (segment raw) with
  | [] => "Empty".toList
  | first :: rest =>
      if first.isDigit then 'N' :: first :: rest else capitalize (first :: rest)

def memberChars (member : List Char) : List Char :=
  match capitalize (dropUnderscores (segment member)) with
  | [] => "Empty".toList
  | characters => characters

/-! ### Value names -/

def escapeReserved (name : List Char) : List Char :=
  if reservedWords.contains (String.ofList name) then name ++ ['_'] else name

def valueNameChars (raw : List Char) : List Char :=
  let joined :=
    if isSymbolic raw then
      List.intercalate ['_'] (symbolWords raw)
    else
      dropEnd (· == '_') (dropUnderscores (collapseUnderscores (desymbolize '_' raw)))
  match joined with
  | [] => escapeReserved []
  | first :: rest =>
      escapeReserved
        (if first.isDigit then 'n' :: first :: rest else decapitalize (first :: rest))

def toValueName (raw : String) : String :=
  String.ofList (valueNameChars raw.toList)

end ElmClient.Name

namespace ElmClient

structure TypeName where
  text : String
deriving DecidableEq, Repr, Inhabited

namespace TypeName

open Name

instance : ToString TypeName := ⟨TypeName.text⟩

instance : LT TypeName := ⟨fun left right => left.text < right.text⟩

instance (left right : TypeName) : Decidable (left < right) :=
  inferInstanceAs (Decidable (left.text < right.text))

def ofRaw (raw : String) : TypeName :=
  ⟨String.ofList (typeNameChars raw.toList)⟩

def child (name : TypeName) (member : String) : TypeName :=
  ⟨name.text ++ "_" ++ String.ofList (memberChars member.toList)⟩

/-- The name with a number behind it, set off when the name ends in a digit. -/
def withSuffix (name : TypeName) (number : Nat) : TypeName :=
  match name.text.toList.getLast? with
  | some last =>
      if last.isDigit then ⟨name.text ++ "_" ++ toString number⟩
      else ⟨name.text ++ toString number⟩
  | none => ⟨name.text ++ toString number⟩

/-- Exchange the leading `old` for `new`; a name that begins otherwise is kept. -/
def replaceLead (name old new : TypeName) : TypeName :=
  match Text.dropLead? old.text.toList name.text.toList with
  | some rest => ⟨new.text ++ String.ofList rest⟩
  | none => name

def toValueName (name : TypeName) : String :=
  String.ofList (escapeReserved (decapitalize name.text.toList))

def decoderName (name : TypeName) : String :=
  "decode" ++ name.text

def encoderName (name : TypeName) : String :=
  "encode" ++ name.text

end TypeName

end ElmClient
