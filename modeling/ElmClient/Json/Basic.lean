/-
JSON values. Objects are entry lists in insertion order. A number is a whole
number or a floating point number; `1` and `1.0` are different values.
-/

import ElmClient.Decimal.Binary
import ElmClient.Keyed

namespace ElmClient

inductive JsonNumber where
  | whole (value : Int)
  | double (value : Double)
deriving DecidableEq, Repr, Inhabited

inductive Json where
  | null
  | bool (value : Bool)
  | number (value : JsonNumber)
  | string (value : String)
  | array (items : List Json)
  | object (entries : List (String × Json))
deriving Repr, Inhabited

def JsonNumber.same : JsonNumber → JsonNumber → Bool
  | .whole left, .whole right => left == right
  | .double left, .double right => left.same right
  | _, _ => false

namespace Json

mutual

/-- Equality of values; the order of the entries of an object is ignored. -/
def same : Json → Json → Bool
  | .null, .null => true
  | .bool left, .bool right => left == right
  | .number left, .number right => left.same right
  | .string left, .string right => left == right
  | .array left, .array right => sameItems left right
  | .object left, .object right => left.length == right.length && entriesWithin left right
  | _, _ => false

def sameItems : List Json → List Json → Bool
  | [], [] => true
  | left :: lefts, right :: rights => same left right && sameItems lefts rights
  | _, _ => false

def entriesWithin : List (String × Json) → List (String × Json) → Bool
  | [], _ => true
  | (key, value) :: rest, others =>
      (match Keyed.find? key others with
        | some other => same value other
        | none => false)
        && entriesWithin rest others

end

mutual

def depth : Json → Nat
  | .array items => depthItems items + 1
  | .object entries => depthEntries entries + 1
  | _ => 0

def depthItems : List Json → Nat
  | [] => 0
  | item :: rest => max (depth item) (depthItems rest)

def depthEntries : List (String × Json) → Nat
  | [] => 0
  | (_, value) :: rest => max (depth value) (depthEntries rest)

end

def isNull : Json → Bool
  | .null => true
  | _ => false

def get? (key : String) : Json → Option Json
  | .object entries => Keyed.find? key entries
  | _ => none

def asString? : Json → Option String
  | .string text => some text
  | _ => none

def kindName : Json → String
  | .null => "null"
  | .bool _ => "boolean"
  | .number _ => "number"
  | .string _ => "string"
  | .array _ => "array"
  | .object _ => "object"

end Json

end ElmClient
