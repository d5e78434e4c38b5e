/-
Shapes: the types that schemas resolve to. References stay symbolic, so a shape
is finite even when components refer to one another. Fields keep the order in
which their keys first appeared.
-/

import ElmClient.Json.Basic
import ElmClient.Reference
import ElmClient.Sorted

namespace ElmClient

inductive PrimitiveKind where
  | string
  | integer
  | number
  | boolean
deriving DecidableEq, Repr, Inhabited

def PrimitiveKind.text : PrimitiveKind → String
  | .string => "string"
  | .integer => "integer"
  | .number => "number"
  | .boolean => "boolean"

structure Primitive where
  kind : PrimitiveKind
  format : Option String
  constant : Option Json
deriving Repr, Inhabited

structure FieldOf (σ : Type) where
  key : String
  required : Bool
  doc : Option String
  shape : σ
deriving Repr, Inhabited

structure VariantOf (σ : Type) where
  name : TypeName
  shape : σ
  doc : Option String
deriving Repr, Inhabited

inductive Shape where
  | nullable (inner : Shape)
  | object (fields : List (FieldOf Shape))
  | primitive (value : Primitive)
  | list (inner : Shape)
  | dict (inner : Shape)
  | union (name : TypeName) (variants : List (VariantOf Shape))
  | enum (values : List String)
  | ref (target : Reference)
  | bytes
  | unit
  | anyJson
deriving Repr, Inhabited

abbrev Field := FieldOf Shape

abbrev Variant := VariantOf Shape

structure Union where
  name : TypeName
  variants : List Variant
deriving Repr, Inhabited

def Union.toShape (union : Union) : Shape :=
  .union union.name union.variants

/-- The same union under another name; the names of its variants follow. -/
def Union.renamed (union : Union) (name : TypeName) : Union :=
  { name := name
    variants := union.variants.map fun variant =>
      { variant with name := variant.name.replaceLead union.name name } }

def Primitive.same (left right : Primitive) : Bool :=
  left.kind == right.kind && left.format == right.format
    && (match left.constant, right.constant with
      | none, none => true
      | some leftValue, some rightValue => leftValue.same rightValue
      | _, _ => false)

namespace Field

def find? (key : String) : List Field → Option Field
  | [] => none
  | field :: rest => if field.key = key then some field else find? key rest

def insert (field : Field) : List Field → List Field
  | [] => [field]
  | present :: rest =>
      if present.key = field.key then field :: rest else present :: insert field rest

def keys (fields : List Field) : List String :=
  fields.map FieldOf.key

end Field

namespace Shape

def plain (kind : PrimitiveKind) : Shape :=
  .primitive { kind := kind, format := none, constant := none }

def string : Shape :=
  plain .string

/-- Admit null; a shape that already does is kept. -/
def toNullable : Shape → Shape
  | .nullable inner => .nullable inner
  | other => .nullable other

def isNullable : Shape → Bool
  | .nullable _ => true
  | _ => false

def isUnit : Shape → Bool
  | .unit => true
  | _ => false

def canonicalValues (values : List String) : List String :=
  Sorted.texts values

def describe : Shape → String
  | .nullable inner => "nullable " ++ inner.describe
  | .object _ => "object"
  | .primitive value => value.kind.text
  | .list inner => "list of " ++ inner.describe
  | .dict inner => "dict of " ++ inner.describe
  | .union name _ => "union " ++ name.text
  | .enum _ => "enum"
  | .ref target => "reference to " ++ target.name
  | .bytes => "bytes"
  | .unit => "unit"
  | .anyJson => "arbitrary JSON"

mutual

/-- Equality of shapes; the order of the fields of an object is ignored. -/
def same : Shape → Shape → Bool
  | .nullable left, .nullable right => same left right
  | .object left, .object right => left.length == right.length && fieldsWithin left right
  | .primitive left, .primitive right => left.same right
  | .list left, .list right => same left right
  | .dict left, .dict right => same left right
  | .union leftName left, .union rightName right => leftName == rightName && sameVariants left right
  | .enum left, .enum right => left == right
  | .ref left, .ref right => left == right
  | .bytes, .bytes => true
  | .unit, .unit => true
  | .anyJson, .anyJson => true
  | _, _ => false

def fieldsWithin : List (FieldOf Shape) → List (FieldOf Shape) → Bool
  | [], _ => true
  | ⟨key, required, doc, shape⟩ :: rest, others =>
      (match Field.find? key others with
        | some other => required == other.required && doc == other.doc && same shape other.shape
        | none => false)
        && fieldsWithin rest others

def sameVariants : List (VariantOf Shape) → List (VariantOf Shape) → Bool
  | [], [] => true
  | ⟨name, shape, doc⟩ :: rest, other :: others =>
      name == other.name && doc == other.doc && same shape other.shape && sameVariants rest others
  | _, _ => false

end

mutual

def nested : Shape → List Shape
  | .nullable inner => .nullable inner :: nested inner
  | .object fields => .object fields :: nestedFields fields
  | .list inner => .list inner :: nested inner
  | .dict inner => .dict inner :: nested inner
  | .union name variants => .union name variants :: nestedVariants variants
  | other => [other]

def nestedFields : List (FieldOf Shape) → List Shape
  | [] => []
  | ⟨_, _, _, shape⟩ :: rest => nested shape ++ nestedFields rest

def nestedVariants : List (VariantOf Shape) → List Shape
  | [] => []
  | ⟨_, shape, _⟩ :: rest => nested shape ++ nestedVariants rest

end

mutual

def depth : Shape → Nat
  | .nullable inner => depth inner + 1
  | .object fields => depthFields fields + 1
  | .list inner => depth inner + 1
  | .dict inner => depth inner + 1
  | .union _ variants => depthVariants variants + 1
  | _ => 1

def depthFields : List (FieldOf Shape) → Nat
  | [] => 0
  | ⟨_, _, _, shape⟩ :: rest => max (depth shape) (depthFields rest)

def depthVariants : List (VariantOf Shape) → Nat
  | [] => 0
  | ⟨_, shape, _⟩ :: rest => max (depth shape) (depthVariants rest)

end

end Shape

def Union.same (left right : Union) : Bool :=
  left.name == right.name && Shape.sameVariants left.variants right.variants

end ElmClient
