/-
Reading JSON text. A text is one value between blanks; nesting beyond
`depthLimit` is refused. A repeated key keeps its first position and takes its
last value.
-/

import ElmClient.Json.Number

namespace ElmClient.Json

def depthLimit : Nat := 127

def isGap (character : Char) : Bool :=
  character == ' ' || character == '\n' || character == '\t' || character == '\r'

def skipGaps (characters : List Char) : List Char :=
  characters.dropWhile isGap

/-! ### Strings -/

def hexValue? (character : Char) : Option Nat :=
  if character.isDigit then some (character.toNat - '0'.toNat)
  else if 'a' ≤ character && character ≤ 'f' then some (character.toNat - 'a'.toNat + 10)
  else if 'A' ≤ character && character ≤ 'F' then some (character.toNat - 'A'.toNat + 10)
  else none

def readHex4? : List Char → Option (Nat × List Char)
  | first :: second :: third :: fourth :: rest => do
      let value := (← hexValue? first) * 4096 + (← hexValue? second) * 256
        + (← hexValue? third) * 16 + (← hexValue? fourth)
      some (value, rest)
  | _ => none

/-- The character after `\u`; a surrogate must be one half of a pair. -/
def readUnicode? (characters : List Char) : Option (Char × List Char) := do
  let (code, rest) ← readHex4? characters
  if 0xD800 ≤ code && code ≤ 0xDBFF then
    match rest with
    | '\\' :: 'u' :: rest =>
        let (low, rest) ← readHex4? rest
        if 0xDC00 ≤ low && low ≤ 0xDFFF then
          some (Char.ofNat ((code - 0xD800) * 1024 + (low - 0xDC00) + 0x10000), rest)
        else none
    | _ => none
  else if 0xDC00 ≤ code && code ≤ 0xDFFF then none
  else some (Char.ofNat code, rest)

def simpleEscape? : Char → Option Char
  | '"' => some '"'
  | '\\' => some '\\'
  | '/' => some '/'
  | 'b' => some '\x08'
  | 'f' => some '\x0c'
  | 'n' => some '\n'
  | 'r' => some '\r'
  | 't' => some '\t'
  | _ => none

/-- The rest of a string after its opening quote; `collected` is reversed. -/
def readString? : Nat → List Char → List Char → Option (String × List Char)
  | 0, _, _ => none
  | _, _, [] => none
  | _, collected, '"' :: rest => some (String.ofList collected.reverse, rest)
  | fuel + 1, collected, '\\' :: 'u' :: rest => do
      let (character, rest) ← readUnicode? rest
      readString? fuel (character :: collected) rest
  | fuel + 1, collected, '\\' :: escape :: rest => do
      readString? fuel ((← simpleEscape? escape) :: collected) rest
  | fuel + 1, collected, character :: rest =>
      if character == '\\' || character.toNat < 0x20 then none
      else readString? fuel (character :: collected) rest

/-! ### Numbers -/

def takeDigits (characters : List Char) : List Char × List Char :=
  (characters.takeWhile Char.isDigit, characters.dropWhile Char.isDigit)

/-- The digits before the point: no zero stands before another digit. -/
def readWhole? (characters : List Char) : Option (List Char × List Char) :=
  match takeDigits characters with
  | ([], _) => none
  | (['0'], rest) => some (['0'], rest)
  | ('0' :: _, _) => none
  | found => some found

def readFraction? : List Char → Option (Option (List Char) × List Char)
  | '.' :: rest =>
      match takeDigits rest with
      | ([], _) => none
      | (digits, rest) => some (some digits, rest)
  | rest => some (none, rest)

def readExponent? (characters : List Char) :
    Option (Option (Bool × List Char) × List Char) :=
  match characters with
  | mark :: rest =>
      if mark == 'e' || mark == 'E' then
        let (negative, rest) :=
          match rest with
          | '+' :: rest => (false, rest)
          | '-' :: rest => (true, rest)
          | rest => (false, rest)
        match takeDigits rest with
        | ([], _) => none
        | (digits, rest) => some (some (negative, digits), rest)
      else some (none, characters)
  | [] => some (none, [])

def readNumber? (characters : List Char) : Option (Json × List Char) := do
  let (negative, rest) :=
    match characters with
    | '-' :: rest => (true, rest)
    | rest => (false, rest)
  let (whole, rest) ← readWhole? rest
  let (fraction, rest) ← readFraction? rest
  let (exponent, rest) ← readExponent? rest
  let number ← JsonNumber.ofLiteral? ⟨negative, whole, fraction, exponent⟩
  some (.number number, rest)

/-! ### Values -/

def readWord? (word : String) (value : Json) (characters : List Char) :
    Option (Json × List Char) :=
  if word.toList.isPrefixOf characters then some (value, characters.drop word.length) else none

mutual

def readValue? : Nat → Nat → List Char → Option (Json × List Char)
  | 0, _, _ => none
  | fuel + 1, levels, characters =>
      match skipGaps characters with
      | [] => none
      | '"' :: rest => do
          let (text, rest) ← readString? (rest.length + 1) [] rest
          some (.string text, rest)
      | '[' :: rest =>
          if levels = 0 then none
          else
            match skipGaps rest with
            | ']' :: rest => some (.array [], rest)
            | rest => do
                let (items, rest) ← readItems? fuel (levels - 1) [] rest
                some (.array items, rest)
      | '\x7b' :: rest =>
          if levels = 0 then none
          else
            match skipGaps rest with
            | '\x7d' :: rest => some (.object [], rest)
            | rest => do
                let (entries, rest) ← readEntries? fuel (levels - 1) [] rest
                some (.object (Keyed.ofList entries), rest)
      | 'n' :: rest => readWord? "ull" .null rest
      | 't' :: rest => readWord? "rue" (.bool true) rest
      | 'f' :: rest => readWord? "alse" (.bool false) rest
      | rest => readNumber? rest

def readItems? : Nat → Nat → List Json → List Char → Option (List Json × List Char)
  | 0, _, _, _ => none
  | fuel + 1, levels, collected, characters => do
      let (item, rest) ← readValue? fuel levels characters
      match skipGaps rest with
      | ',' :: rest => readItems? fuel levels (item :: collected) rest
      | ']' :: rest => some ((item :: collected).reverse, rest)
      | _ => none

def readEntries? : Nat → Nat → List (String × Json) → List Char →
    Option (List (String × Json) × List Char)
  | 0, _, _, _ => none
  | fuel + 1, levels, collected, characters =>
      match skipGaps characters with
      | '"' :: rest => do
          let (key, rest) ← readString? (rest.length + 1) [] rest
          match skipGaps rest with
          | ':' :: rest =>
              let (value, rest) ← readValue? fuel levels rest
              match skipGaps rest with
              | ',' :: rest => readEntries? fuel levels ((key, value) :: collected) rest
              | '\x7d' :: rest => some (((key, value) :: collected).reverse, rest)
              | _ => none
          | _ => none
      | _ => none

end

def parse? (text : String) : Option Json :=
  let characters := text.toList
  match readValue? (characters.length + 1) depthLimit characters with
  | some (value, rest) => if (skipGaps rest).isEmpty then some value else none
  | none => none

end ElmClient.Json
