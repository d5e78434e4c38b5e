/-
The values of YAML nodes and their JSON form. Plain scalars follow the core
schema: null, booleans in three spellings, integers in bases 10, 16, 8 and 2,
and floating point numbers; a number with leading zeros is a string. A local tag
wraps its value in an object. JSON keys are made from scalars other than null.
-/

import ElmClient.Json.Printer
import ElmClient.Yaml.Expansion

namespace ElmClient.Yaml

/-- A scalar or collection. A floating point number can be infinite or no number. -/
inductive Value where
  | null
  | bool (value : Bool)
  | whole (value : Int)
  | double (value : Double)
  | infinite (negative : Bool)
  | notANumber
  | string (text : String)
  | sequence (items : List Value)
  | mapping (entries : List (Value × Value))
  | tagged (tag : String) (value : Value)
deriving Repr, Inhabited

namespace Value

/-! ### Plain scalars -/

def null? : List Char → Bool
  | characters => ["", "null", "Null", "NULL", "~"].contains (String.ofList characters)

def bool? (characters : List Char) : Option Bool :=
  let text := String.ofList characters
  if ["true", "True", "TRUE"].contains text then some true
  else if ["false", "False", "FALSE"].contains text then some false
  else none

def isSign (character : Char) : Bool :=
  character == '+' || character == '-'

def hasLeadingZero (characters : List Char) : Bool :=
  let digits :=
    match characters with
    | sign :: rest => if isSign sign then rest else sign :: rest
    | [] => []
  match digits with
  | '0' :: second :: rest => (second :: rest).all Char.isDigit
  | _ => false

def natural? (base : Nat) (digits : List Char) : Option Nat :=
  if digits.isEmpty then none
  else
    digits.foldlM
      (fun value digit => do
        let digitValue ← Json.hexValue? digit
        if digitValue < base then some (value * base + digitValue) else none)
      0

def based? : List Char → Option Nat
  | '0' :: 'x' :: digits => natural? 16 digits
  | '0' :: 'o' :: digits => natural? 8 digits
  | '0' :: 'b' :: digits => natural? 2 digits
  | _ => none

def unsigned? (characters : List Char) : Option Nat :=
  let body :=
    match characters with
    | '+' :: rest => rest
    | other => other
  match based? body with
  | some value => some value
  | none => if hasLeadingZero characters then none else natural? 10 body

def negated? (characters : List Char) : Option Nat :=
  match characters with
  | '-' :: body =>
      match based? body with
      | some value => some value
      | none => if hasLeadingZero characters then none else natural? 10 body
  | _ => none

/-- What an integer literal is read as: integers that 64 bits hold are values,
further ones that 128 bits hold are refused, and still larger ones are not
integers. -/
inductive Whole where
  | value (number : Int)
  | refused
  | other

def readWhole (characters : List Char) : Whole :=
  match unsigned? characters, negated? characters with
  | some magnitude, _ =>
      if magnitude < powerOfTwo 64 then .value magnitude
      else if magnitude < powerOfTwo 128 then .refused
      else .other
  | none, some magnitude =>
      if magnitude ≤ powerOfTwo 63 then .value (-magnitude)
      else if magnitude ≤ powerOfTwo 127 then .refused
      else .other
  | none, none => .other

def decimal? (characters : List Char) : Option (Nat × Int) := do
  let wholeDigits := characters.takeWhile Char.isDigit
  let rest := characters.dropWhile Char.isDigit
  let (fraction, rest) :=
    match rest with
    | '.' :: rest => (rest.takeWhile Char.isDigit, rest.dropWhile Char.isDigit)
    | other => ([], other)
  if wholeDigits.isEmpty && fraction.isEmpty then none
  else
    let digits := JsonNumber.naturalOf (wholeDigits ++ fraction)
    let places : Int := fraction.length
    match rest with
    | [] => some (digits, -places)
    | mark :: rest =>
        if mark == 'e' || mark == 'E' then
          let (negative, exponent) :=
            match rest with
            | '-' :: rest => (true, rest)
            | '+' :: rest => (false, rest)
            | other => (false, other)
          if exponent.isEmpty || !exponent.all Char.isDigit then none
          else
            let power : Int := JsonNumber.naturalOf exponent
            some (digits, (if negative then -power else power) - places)
        else none

def finite? (characters : List Char) : Option Double := do
  let body ←
    match characters with
    | '+' :: sign :: rest => if isSign sign then none else some (sign :: rest)
    | other => some other
  let (negative, magnitude) :=
    match body with
    | '-' :: rest => (true, rest)
    | '+' :: rest => (false, rest)
    | other => (false, other)
  let (digits, exponent) ← decimal? magnitude
  some ⟨negative, ← Decimal.ofScientific? digits exponent⟩

def double? (characters : List Char) : Option Value :=
  let text := String.ofList characters
  if [".inf", ".Inf", ".INF", "+.inf", "+.Inf", "+.INF"].contains text then
    some (.infinite false)
  else if ["-.inf", "-.Inf", "-.INF"].contains text then some (.infinite true)
  else if [".nan", ".NaN", ".NAN"].contains text then some .notANumber
  else (finite? characters).map .double

def ofPlain? (text : String) : Option Value :=
  let characters := text.toList
  if null? characters then some .null
  else
    match bool? characters with
    | some value => some (.bool value)
    | none =>
        match readWhole characters with
        | .value number => some (.whole number)
        | .refused => none
        | .other =>
            if hasLeadingZero characters then some (.string text)
            else some ((double? characters).getD (.string text))

/-! ### Tags -/

/-- The value of a scalar under a tag that is not local. Where the tag only begins
like a local one, a plain scalar is read as if there were none. -/
def ofTagged? (tag : Tag) (text : String) (plain : Bool) : Option Value :=
  let characters := text.toList
  if tag = Tag.core "bool" then (bool? characters).map .bool
  else if tag = Tag.core "int" then
    match readWhole characters with
    | .value number => some (.whole number)
    | _ => none
  else if tag = Tag.core "float" then double? characters
  else if tag = Tag.core "null" then
    if null? characters && text != "" then some .null else none
  else if plain && tag.beginsLocal then ofPlain? text
  else some (.string text)

def localKey? (tag : Option Tag) : Option String :=
  tag.bind Tag.key?

def withTag (tag : Option Tag) (value : Value) : Value :=
  match localKey? tag with
  | some key => .tagged key value
  | none => value

def ofScalar? (tag : Option Tag) (text : String) (plain : Bool) : Option Value :=
  match localKey? tag, tag with
  | none, some tag => ofTagged? tag text plain
  | _, _ => if plain then ofPlain? text else some (.string text)

/-! ### Equality of keys -/

mutual

/-- Equality of values; the order of mapping entries is ignored. -/
def same : Value → Value → Bool
  | .null, .null => true
  | .bool left, .bool right => left == right
  | .whole left, .whole right => left == right
  | .double left, .double right => left.same right
  | .infinite left, .infinite right => left == right
  | .notANumber, .notANumber => true
  | .string left, .string right => left == right
  | .sequence left, .sequence right => sameItems left right
  | .mapping left, .mapping right => left.length == right.length && entriesWithin left right
  | .tagged leftTag left, .tagged rightTag right => leftTag == rightTag && same left right
  | _, _ => false

def sameItems : List Value → List Value → Bool
  | [], [] => true
  | left :: lefts, right :: rights => same left right && sameItems lefts rights
  | _, _ => false

def entriesWithin : List (Value × Value) → List (Value × Value) → Bool
  | [], _ => true
  | (key, value) :: rest, others =>
      others.any (fun other => same key other.1 && same value other.2)
        && entriesWithin rest others

end

/-! ### Nodes -/

def addEntry? (entries : List (Value × Value)) (key value : Value) :
    Option (List (Value × Value)) :=
  if entries.any (fun entry => entry.1.same key) then none
  else some (entries ++ [(key, value)])

mutual

def ofNode? : Node → Option Value
  | .scalar tag text plain => (ofScalar? tag text plain).map (withTag tag)
  | .sequence tag items => do some (withTag tag (.sequence (← ofNodes? items)))
  | .mapping tag entries => do some (withTag tag (.mapping (← ofEntries? [] entries)))
  | .alias _ => none

def ofNodes? : List Node → Option (List Value)
  | [] => some []
  | item :: rest => do
      let value ← ofNode? item
      some (value :: (← ofNodes? rest))

def ofEntries? (collected : List (Value × Value)) :
    List (Node × Node) → Option (List (Value × Value))
  | [] => some collected
  | (key, value) :: rest => do
      let key ← ofNode? key
      let value ← ofNode? value
      ofEntries? (← addEntry? collected key value) rest

end

mutual

def depth : Value → Nat
  | .sequence items => depthItems items + 1
  | .mapping entries => depthEntries entries + 1
  | .tagged _ value => depth value
  | _ => 0

def depthItems : List Value → Nat
  | [] => 0
  | item :: rest => max (depth item) (depthItems rest)

def depthEntries : List (Value × Value) → Nat
  | [] => 0
  | (key, value) :: rest => max (max (depth key) (depth value)) (depthEntries rest)

end

/-! ### JSON -/

def key? : Value → Option String
  | .bool true => some "true"
  | .bool false => some "false"
  | .whole number => some (toString number)
  | .double number => some number.text
  | .string text => some text
  | _ => none

mutual

/-- The JSON form; `none` when a key is null or a collection. -/
def toJson? : Value → Option Json
  | .null => some .null
  | .bool value => some (.bool value)
  | .whole number => some (.number (.whole number))
  | .double number => some (.number (.double number))
  | .infinite _ => some .null
  | .notANumber => some .null
  | .string text => some (.string text)
  | .sequence items => do some (.array (← jsonItems? items))
  | .mapping entries => do some (.object (Keyed.ofList (← jsonEntries? entries)))
  | .tagged tag value => do some (.object [(tag, ← toJson? value)])

def jsonItems? : List Value → Option (List Json)
  | [] => some []
  | item :: rest => do
      let value ← toJson? item
      some (value :: (← jsonItems? rest))

def jsonEntries? : List (Value × Value) → Option (List (String × Json))
  | [] => some []
  | (key, value) :: rest => do
      let name ← key? key
      let value ← toJson? value
      some ((name, value) :: (← jsonEntries? rest))

end

/-- The value of a text; a text without document is null. -/
def parse? (text : String) : Option Value := do
  match ← Composition.parse? text with
  | none => some .null
  | some composition =>
      let value ← ofNode? (← composition.expand?)
      if value.depth ≤ depthLimit then some value else none

end Value

end ElmClient.Yaml
