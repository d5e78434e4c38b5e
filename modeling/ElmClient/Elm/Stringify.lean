/-
Turning parameter values into text for URLs and headers. Some values may be left
out, so a serializer gives text always or sometimes. A union is serialized by a
helper function, declared once under the union's name. References are followed
once, and not behind a reference.
-/

import ElmClient.Elm.Codec

namespace ElmClient.Elm

/-- A function expression that gives text, or text that may be missing. -/
inductive Stringifier where
  | always (function : String)
  | sometimes (function : String)
deriving DecidableEq, Repr, Inhabited

namespace Stringifier

def blank : Stringifier :=
  .always "(\\_ -> \"\")"

def unsupported (shape : Shape) : Run Helpers Stringifier :=
  Run.placeholderOr
    ("a parameter of type " ++ shape.describe ++ " cannot be serialized") blank

def primitiveFunction : PrimitiveKind → String
  | .string => "identity"
  | .integer => "String.fromInt"
  | .number => "String.fromFloat"
  | .boolean => "(\\flag -> if flag then \"true\" else \"false\")"

def ofPrimitive (naming : Naming) (primitive : Primitive) : Run Helpers Stringifier :=
  match naming.formatEntry? primitive with
  | some entry =>
      match entry.stringify with
      | some function => return .always function
      | none =>
          Run.placeholderOr
            ("format `" ++ primitive.format.getD "" ++ "` has no parameter serialization") blank
  | none => return .always (primitiveFunction primitive.kind)

def ofEnum (naming : Naming) (values : List String) : Stringifier :=
  match naming.enumName? values with
  | some name => .always (naming.qualified .types (name.toValueName ++ "ToString"))
  | none => .always "identity"

/-- Texts of the items, joined by commas; no items give no text. -/
def ofItems (function : String) : Stringifier :=
  .sometimes
    ("(\\items -> if List.isEmpty items then Nothing else Just (String.join \",\" "
      ++ "(List.map " ++ function ++ " items)))")

def ofNullable : Stringifier → Stringifier
  | .always function =>
      .sometimes ("(\\nullable -> Maybe.map " ++ function ++ " (" ++ common "nullableToMaybe"
        ++ " nullable))")
  | .sometimes function =>
      .sometimes ("(\\nullable -> Maybe.andThen " ++ function ++ " ("
        ++ common "nullableToMaybe" ++ " nullable))")

def helperName (union : Union) : String :=
  union.name.toValueName ++ "ToParam_"

def blankBranch (constructor : String) : String :=
  constructor ++ " _ ->\n            \"\""

def nullBranch (constructor : String) : String :=
  constructor ++ " ->\n            \"null\""

def innerBranch (constructor function : String) : String :=
  constructor ++ " inner ->\n            " ++ function ++ " inner"

def variantBranch (naming : Naming) (inner : Shape → Run Helpers Stringifier)
    (variant : Variant) : Run Helpers String := do
  let constructor := naming.typeRef variant.name
  match variant.shape with
  | .nullable _ =>
      Run.placeholderOr
        ("nullable union variant `" ++ variant.name.text ++ "` cannot be used as a parameter")
        (blankBranch constructor)
  | .unit => return nullBranch constructor
  | shape =>
      match ← inner shape with
      | .always function => return innerBranch constructor function
      | .sometimes _ =>
          Run.placeholderOr
            ("union variant `" ++ variant.name.text ++ "` does not serialize to a single value")
            (blankBranch constructor)

def helperText (naming : Naming) (union : Union) (branches : List String) : String :=
  let name := helperName union
  name ++ " : " ++ naming.typeRef union.name ++ " -> String\n" ++ name
    ++ " value =\n    case value of\n"
    ++ Text.join "\n\n" (branches.map fun branch => "        " ++ branch)

def helperSource (naming : Naming) (inner : Shape → Run Helpers Stringifier) (union : Union) :
    Run Helpers String := do
  return helperText naming union
    (← Run.traverse (variantBranch naming inner) union.variants)

/-- The helper of a union, declared when it is asked for the first time. -/
def ofUnion (naming : Naming) (inner : Shape → Run Helpers Stringifier) (union : Union) :
    Run Helpers Stringifier := do
  let name := helperName union
  if !Keyed.contains name (← Run.getStore) then
    let source ← helperSource naming inner union
    Run.setStore (Keyed.insert name (Declaration.value name none source) (← Run.getStore))
  return .always name

def ofShape (naming : Naming) (inner : Bool → Shape → Run Helpers Stringifier) (follow : Bool)
    (shape : Shape) : Run Helpers Stringifier :=
  match shape with
  | .primitive value => ofPrimitive naming value
  | .enum values => return ofEnum naming values
  | .list item => do
      match ← inner follow item with
      | .always function => return ofItems function
      | .sometimes _ => unsupported shape
  | .nullable item => do return ofNullable (← inner follow item)
  | .ref target =>
      if follow then
        match Keyed.find? target.typeName naming.components with
        | some component => inner false component
        | none => Run.fail ("reference to missing component `" ++ target.name ++ "`")
      else unsupported shape
  | .union name variants => ofUnion naming (inner follow) (naming.union ⟨name, variants⟩)
  | other => unsupported other

def within (naming : Naming) : Nat → Bool → Shape → Run Helpers Stringifier
  | 0, _, _ => Run.fail "a parameter type nests without end"
  | levels + 1, follow, shape => ofShape naming (within naming levels) follow shape

end Stringifier

def Naming.depth (naming : Naming) : Nat :=
  max ((naming.components.map fun component => component.2.depth).foldl max 0)
    ((naming.declared.unions.map fun union => union.2.toShape.depth).foldl max 0)

/-- The serializer of a parameter of the given shape. Behind the levels of the
shape at most those of one component follow. -/
def stringify (naming : Naming) (shape : Shape) : Run Helpers Stringifier :=
  Stringifier.within naming (shape.depth + 2 * naming.depth + 2) true shape

end ElmClient.Elm
