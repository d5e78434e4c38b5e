/-
Documents whose maps hold a key once, at any depth of their schemas. Maps are keyed
lists, so a key could be listed twice; then an object would differ from itself.
-/

import ElmClient.Document.Basic
import ElmClient.Media
import ElmClient.Proofs.Json.Place

namespace ElmClient

namespace Schema

/-- The schemas that stand directly inside a schema. -/
def children (schema : Schema) : List (RefOr Schema) :=
  (match schema.items with
    | some (.tuple members) => members
    | some (.single item) => [item]
    | none => [])
    ++ schema.properties.map Prod.snd
    ++ (match schema.additional with
      | some (.schema values) => [values]
      | _ => [])
    ++ schema.allOf.getD [] ++ schema.anyOf.getD [] ++ schema.oneOf.getD []

/-- A schema that stands inside a schema, or is it. -/
inductive Inside (part : Schema) : RefOr Schema → Prop
  | itself : Inside part (.inline part)
  | deeper {schema : Schema} {child : RefOr Schema} (listed : child ∈ schema.children)
      (below : Inside part child) : Inside part (.inline schema)

structure KeysOnceHere (schema : Schema) : Prop where
  properties : (Keyed.keys schema.properties).Nodup
  constant : ∀ value, schema.constant = some value → value.distinctKeys = true

/-- No map in the schema holds a key twice. -/
def KeysOnce (schema : RefOr Schema) : Prop :=
  ∀ part, Inside part schema → part.KeysOnceHere

theorem keysOnce_reference (text : String) : KeysOnce (.reference text) := nofun

theorem forall_inside_inline_iff {schema : Schema} {holds : Schema → Prop} :
    (∀ part, Inside part (.inline schema) → holds part) ↔
      holds schema ∧ ∀ child ∈ schema.children, ∀ part, Inside part child → holds part := by
  constructor
  · intro everywhere
    exact ⟨everywhere schema .itself, fun child listed part below =>
      everywhere part (.deeper listed below)⟩
  · rintro ⟨here, below⟩ part inside
    cases inside with
    | itself => exact here
    | deeper listed inside => exact below _ listed part inside

theorem keysOnce_inline_iff {schema : Schema} :
    KeysOnce (.inline schema) ↔
      schema.KeysOnceHere ∧ ∀ child ∈ schema.children, KeysOnce child :=
  forall_inside_inline_iff

theorem keysOnce_leaf {schema : Schema} (properties : schema.properties = [])
    (constant : schema.constant = none) (leaf : schema.children = []) :
    KeysOnce (.inline schema) := by
  rw [keysOnce_inline_iff, leaf]
  refine ⟨⟨?_, ?_⟩, nofun⟩
  · rw [properties]
    exact List.nodup_nil
  · rw [constant]
    exact nofun

section Children

variable {schema : Schema}

theorem mem_children_single {item : RefOr Schema} (single : schema.items = some (.single item)) :
    item ∈ schema.children := by
  simp [children, single]

theorem mem_children_tuple {members : List (RefOr Schema)} {member : RefOr Schema}
    (tuple : schema.items = some (.tuple members)) (listed : member ∈ members) :
    member ∈ schema.children := by
  simp [children, tuple, listed]

theorem mem_children_property {entry : String × RefOr Schema}
    (listed : entry ∈ schema.properties) : entry.2 ∈ schema.children := by
  have declared : entry.2 ∈ schema.properties.map Prod.snd := List.mem_map_of_mem listed
  simp only [children, List.mem_append, declared, true_or, or_true]

theorem mem_children_additional {values : RefOr Schema}
    (additional : schema.additional = some (.schema values)) : values ∈ schema.children := by
  simp [children, additional]

theorem mem_children_allOf {members : List (RefOr Schema)} {member : RefOr Schema}
    (allOf : schema.allOf = some members) (listed : member ∈ members) :
    member ∈ schema.children := by
  simp [children, allOf, listed]

theorem mem_children_anyOf {members : List (RefOr Schema)} {member : RefOr Schema}
    (anyOf : schema.anyOf = some members) (listed : member ∈ members) :
    member ∈ schema.children := by
  simp [children, anyOf, listed]

theorem mem_children_oneOf {members : List (RefOr Schema)} {member : RefOr Schema}
    (oneOf : schema.oneOf = some members) (listed : member ∈ members) :
    member ∈ schema.children := by
  simp [children, oneOf, listed]

end Children

end Schema

/-! ### Components -/

def MediaType.schemas (content : List (String × MediaType)) : List (RefOr Schema) :=
  content.filterMap fun entry => entry.2.schema

def Parameter.schemas (parameter : Parameter) : List (RefOr Schema) :=
  parameter.schema.toList ++ MediaType.schemas parameter.content

theorem MediaType.mem_of_select? {content : List (String × MediaType)} {entry : String × MediaType}
    (selected : MediaType.select? content = some entry) : entry ∈ content := by
  unfold MediaType.select? at selected
  simp only [Option.or_eq_some_iff] at selected
  rcases selected with found | ⟨_, found | ⟨_, found⟩⟩ <;> exact List.mem_of_find?_eq_some found

structure Components.KeysOnce (components : Components) : Prop where
  schemas : ∀ entry ∈ components.schemas, Schema.KeysOnce entry.2
  responses : ∀ entry ∈ components.responses, ∀ response, entry.2 = .inline response →
    ∀ schema ∈ MediaType.schemas response.content, Schema.KeysOnce schema
  requestBodies : ∀ entry ∈ components.requestBodies, ∀ body, entry.2 = .inline body →
    ∀ schema ∈ MediaType.schemas body.content, Schema.KeysOnce schema

end ElmClient
