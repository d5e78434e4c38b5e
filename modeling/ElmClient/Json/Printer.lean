/-
Writing JSON text: compact, or indented by two spaces per level. Floating point
numbers are written with the fewest digits that read back, positionally while
the first digit stands for a power of ten from `10 ^ -5` to `10 ^ 15`.
-/

import ElmClient.Decimal.Shortest
import ElmClient.Json.Basic
import ElmClient.Text.Edit

namespace ElmClient

/-! ### Numbers -/

/-- The digits `digits` with the point `places` digits from their end. -/
def Decimal.positional (digits : List Char) (exponent : Int) : List Char :=
  if 0 ≤ exponent then
    digits ++ List.replicate exponent.toNat '0' ++ ['.', '0']
  else
    let places := (-exponent).toNat
    if places < digits.length then
      digits.take (digits.length - places) ++ ['.'] ++ digits.drop (digits.length - places)
    else
      ['0', '.'] ++ List.replicate (places - digits.length) '0' ++ digits

/-- One digit before the point; a positive exponent is written with its sign. -/
def Decimal.scientific (digits : List Char) (leading : Int) : List Char :=
  let mantissa :=
    match digits with
    | [] => []
    | [only] => [only]
    | first :: rest => first :: '.' :: rest
  let sign := if 0 ≤ leading then "+" else ""
  mantissa ++ ['e'] ++ (sign ++ toString leading).toList

def Double.text (number : Double) : String :=
  let (digits, exponent) := Decimal.shortest number.magnitude
  let characters := Nat.toDigits 10 digits
  let leading := exponent + characters.length - 1
  let body :=
    if -5 ≤ leading && leading ≤ 15 then Decimal.positional characters exponent
    else Decimal.scientific characters leading
  String.ofList (if number.negative then '-' :: body else body)

def JsonNumber.text : JsonNumber → String
  | .whole value => toString value
  | .double value => value.text

namespace Json

/-! ### Strings -/

def hexDigit (value : Nat) : Char :=
  Char.ofNat (if value < 10 then '0'.toNat + value else 'a'.toNat + (value - 10))

def escapeChar (character : Char) : List Char :=
  match character with
  | '"' => ['\\', '"']
  | '\\' => ['\\', '\\']
  | '\x08' => ['\\', 'b']
  | '\x0c' => ['\\', 'f']
  | '\n' => ['\\', 'n']
  | '\r' => ['\\', 'r']
  | '\t' => ['\\', 't']
  | other =>
      if other.toNat < 0x20 then
        ['\\', 'u', '0', '0', hexDigit (other.toNat / 16), hexDigit (other.toNat % 16)]
      else [other]

def quote (text : String) : String :=
  String.ofList ('"' :: (text.toList.flatMap escapeChar ++ ['"']))

/-! ### Values -/

mutual

def compact : Json → String
  | .null => "null"
  | .bool true => "true"
  | .bool false => "false"
  | .number value => value.text
  | .string value => quote value
  | .array items => "[" ++ Text.join "," (compactItems items) ++ "]"
  | .object entries => "\x7b" ++ Text.join "," (compactEntries entries) ++ "\x7d"

def compactItems : List Json → List String
  | [] => []
  | item :: rest => compact item :: compactItems rest

def compactEntries : List (String × Json) → List String
  | [] => []
  | (key, value) :: rest => (quote key ++ ":" ++ compact value) :: compactEntries rest

end

def newLine (level : Nat) : String :=
  "\n" ++ String.ofList (List.replicate (2 * level) ' ')

def wrap (opening closing : String) (level : Nat) (parts : List String) : String :=
  if parts.isEmpty then opening ++ closing
  else
    opening ++ newLine (level + 1) ++ Text.join ("," ++ newLine (level + 1)) parts
      ++ newLine level ++ closing

mutual

def pretty : Nat → Json → String
  | level, .array items => wrap "[" "]" level (prettyItems (level + 1) items)
  | level, .object entries => wrap "\x7b" "\x7d" level (prettyEntries (level + 1) entries)
  | _, .null => "null"
  | _, .bool true => "true"
  | _, .bool false => "false"
  | _, .number value => value.text
  | _, .string value => quote value

def prettyItems : Nat → List Json → List String
  | _, [] => []
  | level, item :: rest => pretty level item :: prettyItems level rest

def prettyEntries : Nat → List (String × Json) → List String
  | _, [] => []
  | level, (key, value) :: rest =>
      (quote key ++ ": " ++ pretty level value) :: prettyEntries level rest

end

end Json

end ElmClient
