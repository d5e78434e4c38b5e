/-
Pieces of Elm source text: string literals, doc comments, records and lists,
and the parentheses an expression needs in argument position.
-/

import ElmClient.Text.Blank
import ElmClient.Text.Edit

namespace ElmClient.Elm

open Text

/-! ### Literals and comments -/

def upperHexDigit (value : Nat) : Char :=
  Char.ofNat (if value < 10 then '0'.toNat + value else 'A'.toNat + (value - 10))

def upperHex4 (value : Nat) : List Char :=
  [upperHexDigit (value / 4096 % 16), upperHexDigit (value / 256 % 16),
    upperHexDigit (value / 16 % 16), upperHexDigit (value % 16)]

def escapeChar (character : Char) : List Char :=
  match character with
  | '\\' => ['\\', '\\']
  | '"' => ['\\', '"']
  | '\n' => ['\\', 'n']
  | '\r' => ['\\', 'r']
  | '\t' => ['\\', 't']
  | other =>
      if isControl other then
        ['\\', 'u', '\x7b'] ++ upperHex4 other.toNat ++ ['\x7d']
      else [other]

def literalChars (characters : List Char) : List Char :=
  '"' :: (characters.flatMap escapeChar ++ ['"'])

def stringLiteral (text : String) : String :=
  String.ofList (literalChars text.toList)

/-- Set the comment brackets inside a comment apart. -/
def guardComment (characters : List Char) : List Char :=
  replaceChars ['-', '\x7d'] ['-', ' ', '\x7d']
    (replaceChars ['\x7b', '-'] ['\x7b', ' ', '-'] characters)

def commentChars (characters : List Char) : List Char :=
  "\x7b-| ".toList ++ guardComment characters ++ "\n-\x7d\n".toList

/-- A doc comment on lines of its own; blank documentation gives none. -/
def docComment (doc : Option String) : String :=
  match trimChars (doc.getD "").toList with
  | [] => ""
  | characters => String.ofList (commentChars characters)

/-! ### Argument position -/

inductive Quoting where
  | outside
  | inside
  | escaped
deriving DecidableEq, Repr

def Quoting.next : Quoting → Char → Quoting
  | .outside, '"' => .inside
  | .outside, _ => .outside
  | .inside, '\\' => .escaped
  | .inside, '"' => .outside
  | .inside, _ => .inside
  | .escaped, _ => .inside

/-- Whether the bracket that closes the first opened one is the last character;
brackets in string literals do not count. -/
def closesAtEnd (opening closing : Char) : Nat → Quoting → List Char → Bool
  | _, _, [] => false
  | depth, .outside, character :: rest =>
      if character = '"' then closesAtEnd opening closing depth .inside rest
      else if character = opening then closesAtEnd opening closing (depth + 1) .outside rest
      else if character = closing then
        if depth ≤ 1 then rest.isEmpty
        else closesAtEnd opening closing (depth - 1) .outside rest
      else closesAtEnd opening closing depth .outside rest
  | depth, quoting, character :: rest =>
      closesAtEnd opening closing depth (quoting.next character) rest

def isGroup (opening closing : Char) (characters : List Char) : Bool :=
  characters.head? == some opening && closesAtEnd opening closing 0 .outside characters

def isPlainLiteral (characters : List Char) : Bool :=
  match characters with
  | '"' :: rest => rest.getLast? == some '"' && !rest.dropLast.contains '"'
  | _ => false

def isAtomic (characters : List Char) : Bool :=
  !characters.contains ' ' || isGroup '(' ')' characters
    || isGroup '\x7b' '\x7d' characters || isGroup '[' ']' characters
    || isPlainLiteral characters

def atom (text : String) : String :=
  if isAtomic text.toList then text else "(" ++ text ++ ")"

/-! ### Layout -/

/-- Indent every line that is not empty by four spaces per level. -/
def indent (text : String) (levels : Nat) : String :=
  let pad := String.ofList (List.replicate (levels * 4) ' ')
  join "\n" ((lines text).map fun line => if line.isEmpty then "" else pad ++ line)

/-- One-line records are at most this many bytes long. -/
def lineLimit : Nat := 80

def fitsOnLine (text : String) : Bool :=
  text.utf8ByteSize ≤ lineLimit && !hasChar '\n' text

def inlineEntries (entries : List (String × String)) (separator : String) : String :=
  join ", " (entries.map fun entry => entry.1 ++ " " ++ separator ++ " " ++ entry.2)

def recordLine (separator : String) (entry : String × String) : String :=
  entry.1 ++ " " ++ separator ++ " " ++ replaceAll "\n" "\n    " entry.2

def tallRecord (entries : List (String × String)) (separator : String) : String :=
  match entries.map (recordLine separator) with
  | [] => "\x7d"
  | first :: rest =>
      "\x7b " ++ first ++ "\n" ++ String.join (rest.map fun line => ", " ++ line ++ "\n")
        ++ "\x7d"

def tallExtension (variableName : String) (entries : List (String × String))
    (separator : String) : String :=
  let body :=
    match entries.map (recordLine separator) with
    | [] => ""
    | first :: rest =>
        "    | " ++ first ++ "\n" ++ String.join (rest.map fun line => "    , " ++ line ++ "\n")
  "\x7b " ++ variableName ++ "\n" ++ body ++ "\x7d"

/-- A record over names and texts; a short one stays on one line. The separator
is a colon for types and an equals sign for values. -/
def record (entries : List (String × String)) (separator : String) : String :=
  if entries.isEmpty then "\x7b\x7d"
  else
    let inline := "\x7b " ++ inlineEntries entries separator ++ " \x7d"
    if fitsOnLine inline then inline else tallRecord entries separator

def list (items : List String) : String :=
  if items.isEmpty then "[]" else "[ " ++ join ", " items ++ " ]"

def leadLines (first further : String) (items : List String) : String :=
  match items with
  | [] => ""
  | item :: rest =>
      "\n" ++ first ++ item ++ String.join (rest.map fun other => "\n" ++ further ++ other)

end ElmClient.Elm
