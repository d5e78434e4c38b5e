/-
Tags of YAML nodes. A tag is a string of bytes, because percent escapes can write
bytes that are no text, and it ends before its first zero byte. A tag is local when
it begins with an exclamation mark and the rest is text; its key is one mark and
that rest.
-/

import ElmClient.Json.Reader

namespace ElmClient.Yaml

abbrev Tag := List UInt8

namespace Tag

def ofText (text : String) : Tag :=
  text.toUTF8.toList

def ofChar (character : Char) : Tag :=
  ofText (String.singleton character)

def cut (bytes : List UInt8) : Tag :=
  bytes.takeWhile (· != 0)

/-! ### Percent escapes -/

/-- How many bytes the first byte of an escaped character announces. -/
def announced? (first : UInt8) : Option Nat :=
  if first < 0x80 then some 1
  else if first < 0xC0 then none
  else if first < 0xE0 then some 2
  else if first < 0xF0 then some 3
  else if first < 0xF8 then some 4
  else none

def isContinuation (byte : UInt8) : Bool :=
  0x80 ≤ byte && byte < 0xC0

/-- How many escapes must follow an escaped byte, given how many had to follow the
one before it. -/
def pendingAfter? (byte : UInt8) : Nat → Option Nat
  | 0 => (announced? byte).map (· - 1)
  | pending + 1 => if isContinuation byte then some pending else none

/-- Undo percent escapes. The escapes of one character stand together, and each
has the form that its place asks for; what they spell is not looked at. -/
def unescape? : Nat → List Char → Option (List UInt8)
  | 0, [] => some []
  | pending, '%' :: high :: low :: rest => do
      let byte := UInt8.ofNat ((← Json.hexValue? high) * 16 + (← Json.hexValue? low))
      some (byte :: (← unescape? (← pendingAfter? byte pending) rest))
  | 0, character :: rest =>
      if character = '%' then none else (unescape? 0 rest).map (ofChar character ++ ·)
  | _ + 1, _ => none

/-! ### Local tags -/

def mark : UInt8 := 33

def beginsLocal : Tag → Bool
  | first :: _ => first == mark
  | [] => false

def localText? : Tag → Option String
  | [] => none
  | first :: rest =>
      if first != mark then none
      else String.fromUTF8? ⟨(if rest.isEmpty then [mark] else rest).toArray⟩

/-- One mark and the text; the text does not keep a mark in front of more. -/
def keyOf (text : String) : String :=
  match text.toList with
  | '!' :: second :: rest => "!" ++ String.ofList (second :: rest)
  | _ => "!" ++ text

def key? (tag : Tag) : Option String :=
  tag.localText?.map keyOf

/-! ### The core schema -/

def core (name : String) : Tag :=
  ofText ("tag:yaml.org,2002:" ++ name)

end Tag

end ElmClient.Yaml
