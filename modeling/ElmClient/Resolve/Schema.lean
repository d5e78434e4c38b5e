/-
Shapes of schemas. A schema is treated by the first of its keywords in a fixed
order. Enums and unions are registered under the name of their site; what is
nullable is wrapped, so it never takes the name of its component.
-/

import ElmClient.Json.Printer
import ElmClient.Resolve.AllOf

namespace ElmClient.Resolve

/-! ### Null and ownership -/

/-- Whether null is admitted by one of its three spellings. -/
def admitsNull (schema : Schema) : Bool :=
  schema.nullable == some true || schema.kinds.contains "null"
    || (schema.enumeration.getD []).any Json.isNull

/-- The component that owns a declaration made for the schema. A nullable schema
needs an alias of its own, so its declaration has no owner. -/
def registrationOwner (site : Site) (schema : Schema) : Option TypeName :=
  if admitsNull schema then none else site.owner

def nullableIf (wanted : Bool) (shape : Shape) : Shape :=
  if wanted then shape.toNullable else shape

/-! ### Enums, objects and arrays -/

def primitive (schema : Schema) (kind : PrimitiveKind) : Shape :=
  .primitive { kind := kind, format := schema.format, constant := schema.constant }

def enumMember : Json → Run Registry (Option String)
  | .string value => return some value
  | .null => return none
  | other => Run.fail ("enum member " ++ other.compact ++ " is not a string")

def enumeration (site : Site) (schema : Schema) (members : List Json) : Run Registry Shape := do
  let decoded ← Run.traverseIndexed "enum" enumMember members
  let values := Shape.canonicalValues (decoded.filterMap id)
  if values.isEmpty then return .unit
  else
    let _ ← Run.registerEnum
      { values := values, name := site.name, owner := registrationOwner site schema }
    return nullableIf (decoded.any Option.isNone) (.enum values)

def object (inner : Inner) (site : Site) (schema : Schema) : Run Registry Shape := do
  if schema.properties.isEmpty then
    match schema.additional with
    | some (.schema values) =>
        return .dict (← Run.withPath "additionalProperties"
          (inner.schema (site.child "Value") values))
    | some (.allowed false) => return .object []
    | some (.allowed true) | none => return .dict .anyJson
  else return .object (← properties inner site schema)

def array (inner : Inner) (site : Site) (schema : Schema) : Run Registry Shape := do
  let itemSite := site.child "Item"
  match schema.items with
  | none => Run.fail "array schema is missing `items`"
  | some (.single item) =>
      return .list (← Run.withPath "items" (inner.schema itemSite item))
  | some (.tuple []) => Run.fail "array schema has an empty `items` list"
  | some (.tuple (first :: rest)) =>
      if rest.all fun member => Schema.refSame member first then
        return .list (← Run.withPath "items[0]" (inner.schema itemSite first))
      else
        return .list (← Run.withPath "items"
          (Run.placeholderOr "heterogeneous tuple items are not supported" .anyJson))

/-! ### Unions -/

/-- What a member of a union is called: the component it refers to, its only
kind, or its title. -/
def memberLabel : RefOr Schema → Option String
  | .reference text =>
      match Reference.parse text with
      | .ok reference => some reference.name
      | .error _ => none
  | .inline schema =>
      match schema.kinds with
      | [kind] => some kind
      | _ => schema.title

/-- Labels by position; a label given before gets the position behind it. -/
def memberLabels : List String → Nat → List (RefOr Schema) → List String
  | _, _, [] => []
  | given, index, member :: rest =>
      let label := (memberLabel member).getD (toString index)
      let label := if given.contains label then label ++ toString index else label
      label :: memberLabels (given ++ [label]) (index + 1) rest

def variant (inner : Inner) (site : Site) (entry : RefOr Schema × String) :
    Run Registry Variant := do
  let name := site.name.child entry.2
  let shape ← inner.schema (Site.unowned name) entry.1
  return { name := name, shape := shape, doc := entry.1.doc }

def registeredUnion (site : Site) (owner : Option TypeName) (variants : List Variant) :
    Run Registry Shape := do
  let stored ← Run.registerUnion { name := site.name, variants := variants } owner
  return stored.toShape

def unionOf (inner : Inner) (site : Site) (owner : Option TypeName) (keyword : String)
    (members : List (RefOr Schema)) : Run Registry Shape := do
  let labelled := members.zip (memberLabels [] 0 members)
  registeredUnion site owner
    (← Run.traverseIndexed keyword (variant inner site) labelled)

/-- `anyOf` and `oneOf`. Of two members of which one describes only null, the
other is made nullable. -/
def alternatives (schemas : SchemaMap) (inner : Inner) (site : Site) (owner : Option TypeName)
    (keyword : String) : List (RefOr Schema) → Run Registry Shape
  | [] => Run.placeholderOr ("empty `" ++ keyword ++ "`") .anyJson
  | [only] => Run.withPath (keyword ++ "[0]") (inner.schema site only)
  | [first, second] =>
      let other (index : Nat) (member : RefOr Schema) : Run Registry Shape := do
        let shape ← Run.withPath (keyword ++ "[" ++ toString index ++ "]")
          (inner.schema (Site.unowned site.name) member)
        return shape.toNullable
      match isNull schemas first, isNull schemas second with
      | true, false => other 1 second
      | false, true => other 0 first
      | _, _ => unionOf inner site owner keyword [first, second]
  | members => unionOf inner site owner keyword members

/-! ### Dispatch -/

def constantKind? : Json → Option PrimitiveKind
  | .string _ => some .string
  | .bool _ => some .boolean
  | .number (.double _) => some .number
  | .number (.whole _) => some .integer
  | _ => none

/-- A schema without a kind, or an object built by composition. -/
def untyped (schemas : SchemaMap) (inner : Inner) (site : Site) (schema : Schema) :
    Run Registry Shape :=
  match schema.enumeration, schema.anyOf, schema.oneOf, schema.allOf with
  | some members, _, _, _ => enumeration site schema members
  | _, some members, _, _ =>
      alternatives schemas inner site (registrationOwner site schema) "anyOf" members
  | _, _, some members, _ =>
      alternatives schemas inner site (registrationOwner site schema) "oneOf" members
  | _, _, _, some members => allOf inner site schema members
  | none, none, none, none =>
      if !schema.properties.isEmpty || schema.additional.isSome then object inner site schema
      else if schema.items.isSome then array inner site schema
      else
        match schema.constant.bind constantKind? with
        | some kind => return primitive schema kind
        | none =>
            Run.placeholderOr
              "unsupported schema shape: no `type`, composition, properties or items" .anyJson

def ofKind (inner : Inner) (site : Site) (schema : Schema) (kind : String) :
    Run Registry Shape :=
  match kind with
  | "string" =>
      match schema.enumeration with
      | some members => enumeration site schema members
      | none =>
          if schema.format = some "binary" then return .bytes
          else return primitive schema .string
  | "integer" => return primitive schema .integer
  | "number" => return primitive schema .number
  | "boolean" => return primitive schema .boolean
  | "array" => array inner site schema
  | "object" => object inner site schema
  | other => Run.placeholderOr ("unsupported schema type `" ++ other ++ "`") .anyJson

def kindVariant (inner : Inner) (site : Site) (schema : Schema) (kind : String) :
    Run Registry Variant := do
  let name := site.name.child kind
  let shape ← ofKind inner (Site.unowned name) schema kind
  return { name := name, shape := shape, doc := none }

def kindUnion (inner : Inner) (site : Site) (schema : Schema) (kinds : List String) :
    Run Registry Shape := do
  registeredUnion site (registrationOwner site schema)
    (← Run.withPath "type" (Run.traverse (kindVariant inner site schema) kinds))

def hasComposition (schema : Schema) : Bool :=
  schema.allOf.isSome || schema.anyOf.isSome || schema.oneOf.isSome

def concreteKinds (schema : Schema) : List String :=
  schema.kinds.filter (· != "null")

def ofKinds (schemas : SchemaMap) (inner : Inner) (site : Site) (schema : Schema) :
    List String → Run Registry Shape
  | [] => untyped schemas inner site schema
  | [kind] =>
      if kind = "object" && hasComposition schema then untyped schemas inner site schema
      else ofKind inner site schema kind
  | kinds => kindUnion inner site schema kinds

def base (schemas : SchemaMap) (inner : Inner) (site : Site) (schema : Schema) :
    Run Registry Shape := do
  if schema.isUnconstrained then return .anyJson
  else
    let nullListed := schema.kinds.contains "null"
    if (concreteKinds schema).isEmpty && nullListed then return .unit
    else
      return nullableIf nullListed
        (← ofKinds schemas inner site schema (concreteKinds schema))

def inline (schemas : SchemaMap) (inner : Inner) (site : Site) (schema : Schema) :
    Run Registry Shape := do
  return nullableIf (schema.nullable == some true) (← base schemas inner site schema)

def schemaOrReference (schemas : SchemaMap) (inner : Inner) (site : Site) :
    RefOr Schema → Run Registry Shape
  | .reference text => do return .ref (← schemaReference schemas text)
  | .inline schema => inline schemas inner site schema

/-! ### Contributions to a merged object -/

def isPlainObject (schema : Schema) : Bool :=
  (schema.kinds.contains "object" || (schema.kind.isNone && !schema.properties.isEmpty))
    && schema.anyOf.isNone && schema.oneOf.isNone

/-- A member that is no object is resolved and left out, if the policy allows. -/
def noObject (schemas : SchemaMap) (inner : Inner) (site : Site) (schema : Schema) :
    Run Registry (Option (List Field)) := do
  let shape ← inline schemas inner site schema
  Run.placeholderOr
    ("`allOf` member resolves to " ++ shape.describe ++ " and cannot be merged into an object")
    none

def inlineContribution (schemas : SchemaMap) (inner : Inner) (expanding : List TypeName)
    (site : Site) (schema : Schema) : Run Registry (Option (List Field)) := do
  if schema.isUnconstrained then return none
  else if schema.allOf.isSome then return some (← mergedFields inner expanding site schema)
  else if isPlainObject schema then
    if !schema.properties.isEmpty then return some (← properties inner site schema)
    else
      match schema.additional with
      | some (.schema _) => noObject schemas inner site schema
      | _ => return some []
  else noObject schemas inner site schema

def contribution (schemas : SchemaMap) (inner : Inner) (expanding : List TypeName) (site : Site) :
    RefOr Schema → Run Registry (Option (List Field))
  | .inline schema => inlineContribution schemas inner expanding site schema
  | .reference text => do
      let reference ← schemaReference schemas text
      let name := reference.typeName
      if expanding.contains name then
        Run.fail ("`allOf` reference cycle: "
          ++ Text.join " -> " ((expanding ++ [name]).map TypeName.text))
      else
        match Keyed.find? reference.name schemas with
        | none => Run.fail ("reference to missing component `" ++ text ++ "`")
        | some target => inner.contribution (expanding ++ [name]) (Site.component name) target

/-! ### All levels -/

def endless {α : Type} : Run Registry α :=
  Run.fail "schema expands without end: a component reaches itself through `allOf` in a property"

mutual

/-- A schema, opening at most `levels` schemas inside one another. -/
def schemaWithin (schemas : SchemaMap) : Nat → Site → RefOr Schema → Run Registry Shape
  | 0, _, _ => endless
  | levels + 1, site, schema =>
      schemaOrReference schemas
        ⟨schemaWithin schemas levels, contributionWithin schemas levels⟩ site schema

def contributionWithin (schemas : SchemaMap) :
    Nat → List TypeName → Site → RefOr Schema → Run Registry (Option (List Field))
  | 0, _, _, _ => endless
  | levels + 1, expanding, site, schema =>
      contribution schemas
        ⟨schemaWithin schemas levels, contributionWithin schemas levels⟩ expanding site schema

end

/-- How deeply schemas open inside one another, for a number of components and a
depth that no schema exceeds, unless a component reaches itself through `allOf`
in a property. Between two references lie at most as many schemas as the depth
allows; a chain of merged references passes every component once; and a property
of a merged component starts a new chain at most once for every component. -/
def levelsFor (components depth : Nat) : Nat :=
  (components + 2) * (components + 2) * (depth + 2)

end ElmClient.Resolve

namespace ElmClient

def Document.levels (document : Document) : Nat :=
  Resolve.levelsFor document.components.schemas.length document.toJson.depth

end ElmClient
