/-
Reading TOML text (version 1.0). Lines hold a pair, a table header or nothing,
each with an optional comment. Integers fit in 64 bits, dates must exist, and
arrays, inline tables and dotted keys stay below a depth.
-/

import ElmClient.Json.Reader
import ElmClient.Toml.Moment
import ElmClient.Toml.Table

namespace ElmClient.Toml

abbrev Read := StateT (List Char) Option

namespace Read

/-- Arrays and inline tables lie less deep in one another, and dotted keys have
fewer parts. -/
def depthLimit : Nat := 80

def peek : Read (Option Char) := do
  return (← get).head?

def advance (count : Nat) : Read Unit :=
  modify fun characters => characters.drop count

def accept (text : String) : Read Bool := do
  if text.toList.isPrefixOf (← get) then
    advance text.length
    return true
  else return false

def expect (text : String) : Read Unit := do
  if !(← accept text) then failure

def takeWhile (keep : Char → Bool) : Read (List Char) := do
  let characters ← get
  set (characters.dropWhile keep)
  return characters.takeWhile keep

def isGap (character : Char) : Bool :=
  character == ' ' || character == '\t'

def skipGaps : Read Unit := do
  let _ ← takeWhile isGap
  return ()

def isTextChar (character : Char) : Bool :=
  let code := character.toNat
  code == 0x09 || (0x20 ≤ code && code ≤ 0x7E) || 0x80 ≤ code

def skipComment : Read Unit := do
  if ← accept "#" then
    let _ ← takeWhile isTextChar
  return ()

def acceptNewline : Read Bool := do
  if ← accept "\n" then return true else accept "\r\n"

/-- Gaps, comments and line ends between the parts of an array. -/
def skipLines : Nat → Read Unit
  | 0 => return ()
  | fuel + 1 => do
      skipGaps
      skipComment
      if ← acceptNewline then skipLines fuel

/-! ### Strings -/

def hexDigits (count : Nat) : Read Char := do
  let digits := (← get).take count
  if digits.length < count then failure
  match digits.mapM Json.hexValue? with
  | none => failure
  | some values =>
      let code := values.foldl (fun value digit => value * 16 + digit) 0
      if (0xD800 ≤ code && code ≤ 0xDFFF) || 0x10FFFF < code then failure
      advance count
      return Char.ofNat code

def escape : Read Char := do
  match ← peek with
  | none => failure
  | some mark =>
      advance 1
      match mark with
      | 'b' => return '\x08'
      | 't' => return '\t'
      | 'n' => return '\n'
      | 'f' => return '\x0c'
      | 'r' => return '\r'
      | '"' => return '"'
      | '\\' => return '\\'
      | 'u' => hexDigits 4
      | 'U' => hexDigits 8
      | _ => failure

def basicString : Nat → List Char → Read String
  | 0, _ => failure
  | fuel + 1, collected => do
      match ← peek with
      | none => failure
      | some '"' => do
          advance 1
          return String.ofList collected.reverse
      | some '\\' => do
          advance 1
          basicString fuel ((← escape) :: collected)
      | some character => do
          if !isTextChar character then failure
          advance 1
          basicString fuel (character :: collected)

def literalString : Read String := do
  let text ← takeWhile fun character => isTextChar character && character != '\''
  expect "'"
  return String.ofList text

def skipFolded : Nat → Read Unit
  | 0 => return ()
  | fuel + 1 => do
      skipGaps
      if ← acceptNewline then skipFolded fuel

/-- Closing quotes; two more may stand in front of them. -/
def closeQuotes (quote : Char) (collected : List Char) : Read (Option String) := do
  let run := ((← get).takeWhile (· == quote)).length
  if run < 3 then return none
  let inside := min (run - 3) 2
  advance (3 + inside)
  return some (String.ofList (collected.reverse ++ List.replicate inside quote))

def tallString (quote : Char) (escapes : Bool) : Nat → List Char → Read String
  | 0, _ => failure
  | fuel + 1, collected => do
      match ← closeQuotes quote collected with
      | some text => return text
      | none =>
          if ← acceptNewline then tallString quote escapes fuel ('\n' :: collected)
          else
            match ← peek with
            | none => failure
            | some character => do
                if escapes && character == '\\' then
                  advance 1
                  let rest ← get
                  skipGaps
                  if ← acceptNewline then
                    skipFolded rest.length
                    tallString quote escapes fuel collected
                  else
                    set rest
                    tallString quote escapes fuel ((← escape) :: collected)
                else
                  if !isTextChar character then failure
                  advance 1
                  tallString quote escapes fuel (character :: collected)

def tallBody (quote : Char) (escapes : Bool) : Read String := do
  let _ ← acceptNewline
  tallString quote escapes ((← get).length + 1) []

def string (quote : Char) : Read String := do
  if quote == '"' then
    if ← accept "\"\"\"" then tallBody '"' true
    else
      advance 1
      basicString ((← get).length + 1) []
  else if ← accept "'''" then tallBody '\'' false
  else
    advance 1
    literalString

/-! ### Keys -/

def isBareKeyChar (character : Char) : Bool :=
  character.isAlphanum || character == '_' || character == '-'

def simpleKey : Read String := do
  match ← peek with
  | some '"' => do
      advance 1
      basicString ((← get).length + 1) []
  | some '\'' => do
      advance 1
      literalString
  | _ => do
      let name ← takeWhile isBareKeyChar
      if name.isEmpty then failure
      return String.ofList name

/-- The parts of a key: the tables on the way and the last one. -/
def keyParts : Nat → Read (List String × String)
  | 0 => failure
  | fuel + 1 => do
      skipGaps
      let first ← simpleKey
      skipGaps
      if ← accept "." then
        let (path, last) ← keyParts fuel
        return (first :: path, last)
      else return ([], first)

def dottedKey : Read (List String × String) := do
  let (path, last) ← keyParts ((← get).length + 1)
  if depthLimit ≤ path.length + 1 then failure
  return (path, last)

/-! ### Numbers and dates -/

def groupedDigits (isDigit : Char → Bool) : Nat → Read (List Char)
  | 0 => failure
  | fuel + 1 => do
      let digits ← takeWhile isDigit
      if digits.isEmpty then failure
      match (← get) with
      | '_' :: next :: _ =>
          if isDigit next then
            advance 1
            return digits ++ (← groupedDigits isDigit fuel)
          else failure
      | '_' :: _ => failure
      | _ => return digits

def basedInteger (base : Nat) (isDigit : Char → Bool) : Read Item := do
  advance 2
  let digits ← groupedDigits isDigit ((← get).length + 1)
  let value := digits.foldl
    (fun value digit => value * base + (Json.hexValue? digit).getD 0) 0
  if powerOfTwo 63 ≤ value then failure
  return .whole value

def isHexDigit (character : Char) : Bool :=
  (Json.hexValue? character).isSome

/-- An integer or a floating point number in base ten. A positive number may not
be too large; a negative one may. -/
def decimal : Read Item := do
  let negative ← accept "-"
  if !negative then
    let _ ← accept "+"
  if (← accept "inf") || (← accept "nan") then return .real
  let fuel := (← get).length + 1
  let zero := (← get).head? == some '0'
  let whole ←
    if zero then do
      advance 1
      pure ['0']
    else groupedDigits Char.isDigit fuel
  let fraction ←
    if ← accept "." then some <$> groupedDigits Char.isDigit fuel else pure none
  let hasExponent ← (do if ← accept "e" then return true else accept "E")
  let exponent : Int ←
    if hasExponent then do
      let down ← accept "-"
      if !down then
        let _ ← accept "+"
      let digits ← groupedDigits Char.isDigit fuel
      pure (if down then -(JsonNumber.naturalOf digits : Int) else JsonNumber.naturalOf digits)
    else pure 0
  if fraction.isNone && !hasExponent then
    let magnitude := JsonNumber.naturalOf whole
    if (if negative then powerOfTwo 63 < magnitude else powerOfTwo 63 ≤ magnitude) then failure
    return .whole (if negative then -magnitude else magnitude)
  else
    let places := (fraction.getD []).length
    match Decimal.ofScientific? (JsonNumber.naturalOf (whole ++ fraction.getD []))
        (exponent - places) with
    | some _ => return .real
    | none => if negative then return .real else failure

def fixedDigits (count : Nat) : Read Nat := do
  let digits := (← get).take count
  if digits.length < count || !digits.all Char.isDigit then failure
  advance count
  return JsonNumber.naturalOf digits

def date : Read Date := do
  let year ← fixedDigits 4
  expect "-"
  let month ← fixedDigits 2
  expect "-"
  let day ← fixedDigits 2
  let date : Date := { year := year, month := month, day := day }
  if date.isReal then return date else failure

/-- The digits of a fraction of a second; nine of them count. -/
def fraction : Read Nat := do
  if ← accept "." then
    let digits ← takeWhile Char.isDigit
    if digits.isEmpty then failure
    return Time.nanoseconds digits
  else return 0

def time : Read Time := do
  let hour ← fixedDigits 2
  expect ":"
  let minute ← fixedDigits 2
  expect ":"
  let second ← fixedDigits 2
  let time : Time :=
    { hour := hour, minute := minute, second := second, nanosecond := ← fraction }
  if time.isReal then return time else failure

def offset? : Read (Option Offset) := do
  if (← accept "Z") || (← accept "z") then return some .universal
  let behind ← accept "-"
  if behind || (← accept "+") then
    let hour ← fixedDigits 2
    expect ":"
    let minute ← fixedDigits 2
    if 23 < hour || 59 < minute then failure
    return some (.fixed behind (hour * 60 + minute))
  else return none

def startsTime : List Char → Bool
  | first :: second :: ':' :: _ => first.isDigit && second.isDigit
  | _ => false

def startsDate : List Char → Bool
  | first :: second :: third :: fourth :: '-' :: _ =>
      first.isDigit && second.isDigit && third.isDigit && fourth.isDigit
  | _ => false

def dateAndTime : Read Moment := do
  let date ← date
  match (← get) with
  | mark :: rest =>
      if mark == 'T' || mark == 't' || (mark == ' ' && startsTime rest) then
        advance 1
        let time ← time
        return .ofDateAndTime date time (← offset?)
      else return .ofDate date
  | [] => return .ofDate date

def number : Read Item := do
  let characters ← get
  if startsDate characters then return .moment (← dateAndTime).text
  else if startsTime characters then return .moment (Moment.ofTime (← time)).text
  else if "0x".toList.isPrefixOf characters then basedInteger 16 isHexDigit
  else if "0o".toList.isPrefixOf characters then
    basedInteger 8 fun digit => '0' ≤ digit && digit ≤ '7'
  else if "0b".toList.isPrefixOf characters then
    basedInteger 2 fun digit => digit == '0' || digit == '1'
  else decimal

/-! ### Values -/

mutual

/-- One value, below `levels` further arrays and inline tables. -/
def value : Nat → Nat → Read Item
  | 0, _ => failure
  | fuel + 1, levels => do
      match ← peek with
      | none => failure
      | some character =>
          if character == '"' || character == '\'' then return .string (← string character)
          else if character == '[' then
            if levels = 0 then failure
            advance 1
            return .array (← items fuel (levels - 1))
          else if character == '\x7b' then
            if levels = 0 then failure
            advance 1
            skipGaps
            if ← accept "\x7d" then return .table .inline []
            return .table .inline (← pairs fuel (levels - 1) [])
          else if ← accept "true" then return .boolean true
          else if ← accept "false" then return .boolean false
          else number

def items : Nat → Nat → Read (List Item)
  | 0, _ => failure
  | fuel + 1, levels => do
      skipLines ((← get).length + 1)
      if ← accept "]" then return []
      let item ← value fuel levels
      skipLines ((← get).length + 1)
      if ← accept "," then return item :: (← items fuel levels)
      expect "]"
      return [item]

/-- The pairs of an inline table; none may follow the last comma. -/
def pairs : Nat → Nat → Entries → Read Entries
  | 0, _, _ => failure
  | fuel + 1, levels, entries => do
      let (path, key) ← dottedKey
      expect "="
      skipGaps
      let item ← value fuel levels
      skipGaps
      match addPair path key item .header entries with
      | none => failure
      | some entries =>
          if ← accept "," then pairs fuel levels entries
          else
            expect "\x7d"
            return entries

end

/-! ### Documents -/

/-- The root table, and the path of the table that pairs are added to. -/
structure Document where
  root : Entries
  current : List String

def addHeader (path : List String) (key : String) (many : Bool) (document : Document) :
    Option Document := do
  let change := if many then openTables key else openTable key
  let root ← updateAt .implied change path .header document.root
  some { root := root, current := path ++ [key] }

def addLine (path : List String) (key : String) (item : Item) (document : Document) :
    Option Document := do
  let root ← updateAt .implied (addPair path key item) document.current .header document.root
  some { document with root := root }

def orFail {α : Type} : Option α → Read α
  | some value => pure value
  | none => failure

def line (document : Document) : Read Document := do
  skipGaps
  match ← peek with
  | none => return document
  | some character =>
      let document ←
        if character == '[' then do
          let many ← accept "[["
          if !many then advance 1
          let (path, key) ← dottedKey
          expect (if many then "]]" else "]")
          orFail (addHeader path key many document)
        else if character == '#' || character == '\n' || character == '\r' then pure document
        else do
          let (path, key) ← dottedKey
          expect "="
          skipGaps
          let item ← value ((← get).length + 1) (depthLimit - 1)
          orFail (addLine path key item document)
      skipGaps
      skipComment
      return document

def lines : Nat → Document → Read Document
  | 0, _ => failure
  | fuel + 1, document => do
      let document ← line document
      if (← get).isEmpty then return document
      if ← acceptNewline then lines fuel document else failure

end Read

def parse? (text : String) : Option Json := do
  let characters :=
    match text.toList with
    | '\ufeff' :: rest => rest
    | other => other
  let (document, _) ←
    (Read.lines (characters.length + 2) { root := [], current := [] }).run characters
  some (.object (entriesToJson document.root))

end ElmClient.Toml
