/-
Merging `allOf`. The members contribute the fields of an object, in order and
before the schema's own properties; references contribute the merged fields of
their target. The components under expansion are listed, so that a component
that would be merged into itself is found.
-/

import ElmClient.Resolve.Fields
import ElmClient.Resolve.Site

namespace ElmClient.Resolve

/-- How the schemas inside a schema are treated: as sites of their own, or as
contributions to the object being merged. -/
structure Inner where
  schema : Site → RefOr Schema → Run Registry Shape
  contribution : List TypeName → Site → RefOr Schema → Run Registry (Option (List Field))

def property (inner : Inner) (site : Site) (required : List String)
    (entry : String × RefOr Schema) : Run Registry Field :=
  Run.withPath entry.1 do
    let shape ← inner.schema (site.child entry.1) entry.2
    return {
      key := entry.1, required := required.contains entry.1, doc := entry.2.doc
      shape := shape }

def properties (inner : Inner) (site : Site) (schema : Schema) : Run Registry (List Field) :=
  Run.withPath "properties" do
    Run.traverse (property inner site schema.required) schema.properties

/-- Keys required by the schema itself or by an inline member of its `allOf`. -/
def requiredKeys (schema : Schema) : List String :=
  schema.required
    ++ (schema.allOf.getD []).flatMap fun member =>
      match member with
      | .inline member => member.required
      | .reference _ => []

def mergedFields (inner : Inner) (expanding : List TypeName) (site : Site) (schema : Schema) :
    Run Registry (List Field) := do
  let contributions ←
    match schema.allOf with
    | some members => Run.traverseIndexed "allOf" (inner.contribution expanding site) members
    | none => pure []
  let inherited := (contributions.filterMap id).foldl Field.unite []
  let own ← if schema.properties.isEmpty then pure [] else properties inner site schema
  return Field.requireKeys (requiredKeys schema) (Field.unite inherited own)

def isSubstantive : RefOr Schema → Bool
  | .reference _ => true
  | .inline schema => !schema.isUnconstrained || !schema.required.isEmpty

def substantive (members : List (RefOr Schema)) : List (RefOr Schema × Nat) :=
  members.zipIdx.filter fun entry => isSubstantive entry.1

/-- `allOf` with its siblings: nothing to merge, a single schema, or an object. -/
def allOf (inner : Inner) (site : Site) (schema : Schema) (members : List (RefOr Schema)) :
    Run Registry Shape := do
  let alone := schema.properties.isEmpty && schema.required.isEmpty
  let merge : Run Registry Shape := do
    return .object (← mergedFields inner site.owner.toList site schema)
  match alone, substantive members with
  | true, [] => return .anyJson
  | true, [(only, index)] =>
      Run.withPath ("allOf[" ++ toString index ++ "]") (inner.schema site only)
  | _, _ => merge

end ElmClient.Resolve
