/-
How deep schemas are. A schema is less deep than one that it stands in, and a component is
less deep than the document.
-/

import ElmClient.Proofs.Document.Keys
import ElmClient.Proofs.Document.Written

namespace ElmClient

theorem Json.depth_lt_object {key : String} {json : Json} {entries : List (String × Json)}
    (listed : (key, json) ∈ entries) : json.depth < (Json.object entries).depth := by
  rw [depth]
  exact Nat.lt_succ_of_le (depth_le_of_mem_entries listed)

namespace Schema

def depth (schema : RefOr Schema) : Nat :=
  (refToJson schema).depth

/-- Whatever is written for a schema is less deep than the schema. -/
theorem depth_lt_of_written {schema : Schema} {keyword : String} {json : Json}
    (written : (keyword, json) ∈ writtenFields schema) : json.depth < depth (.inline schema) := by
  rw [depth, refToJson, toJson_eq]
  exact Json.depth_lt_object written

theorem depth_lt_list {members : List (RefOr Schema)} {member : RefOr Schema}
    (listed : member ∈ members) : depth member < (listToJson refToJson members).depth := by
  rw [listToJson, Json.depth]
  exact Nat.lt_succ_of_le (Json.depth_le_of_mem (List.mem_map_of_mem listed))

theorem depth_lt_map {properties : List (String × RefOr Schema)} {entry : String × RefOr Schema}
    (listed : entry ∈ properties) :
    depth entry.2 < (membersToJson refToJson properties).depth := by
  have written : (entry.1, refToJson entry.2) ∈
      properties.map fun entry => (entry.1, refToJson entry.2) :=
    List.mem_map_of_mem listed
  exact Json.depth_lt_object written

private theorem mem_optionalField {α : Type} {name : String} {write : α → Json} {value : Option α}
    {found : α} (present : value = some found) :
    (name, write found) ∈ optionalField name write value := by
  rw [present]
  exact List.mem_singleton_self _

theorem depth_lt_of_child {schema : Schema} {child : RefOr Schema}
    (listed : child ∈ schema.children) : depth child < depth (.inline schema) := by
  have lists (members : Option (List (RefOr Schema))) (inside : child ∈ members.getD [])
      (keyword : String)
      (part : optionalField keyword (listToJson refToJson) members ⊆ writtenFields schema) :
      depth child < depth (.inline schema) := by
    cases members with
    | none => exact absurd inside List.not_mem_nil
    | some members =>
        exact Nat.lt_trans (depth_lt_list inside)
          (depth_lt_of_written (part (List.mem_singleton_self _)))
  -- one case for every keyword that holds schemas
  simp only [children, List.mem_append] at listed
  rcases listed with ((((inItems | inProperties) | inAdditional) | inAllOf) | inAnyOf) | inOneOf
  · split at inItems
    case h_1 members tuple =>
      have written : ("items", itemsToJson (.tuple members)) ∈ writtenFields schema := by
        simp only [writtenFields, List.mem_append, mem_optionalField tuple, true_or, or_true]
      refine Nat.lt_trans ?_ (depth_lt_of_written written)
      rw [itemsToJson, refsToJson_eq_map]
      exact depth_lt_list inItems
    case h_2 item single =>
      have written : ("items", itemsToJson (.single item)) ∈ writtenFields schema := by
        simp only [writtenFields, List.mem_append, mem_optionalField single, true_or, or_true]
      obtain rfl := List.mem_singleton.mp inItems
      exact depth_lt_of_written written
    · exact absurd inItems List.not_mem_nil
  · obtain ⟨entry, declared, rfl⟩ := List.mem_map.mp inProperties
    have filled : schema.properties.isEmpty = false :=
      List.isEmpty_eq_false_iff_exists_mem.mpr ⟨entry, declared⟩
    have written : ("properties", membersToJson refToJson schema.properties) ∈
        writtenFields schema := by
      simp [writtenFields, filledField, filled]
    exact Nat.lt_trans (depth_lt_map declared) (depth_lt_of_written written)
  · split at inAdditional
    case h_1 values additional =>
      have written : ("additionalProperties", additionalToJson (.schema values)) ∈
          writtenFields schema := by
        simp only [writtenFields, List.mem_append, mem_optionalField additional, true_or, or_true]
      obtain rfl := List.mem_singleton.mp inAdditional
      exact depth_lt_of_written written
    · exact absurd inAdditional List.not_mem_nil
  · refine lists _ inAllOf "allOf" fun entry inside => ?_
    simp only [writtenFields, List.mem_append, inside, true_or, or_true]
  · refine lists _ inAnyOf "anyOf" fun entry inside => ?_
    simp only [writtenFields, List.mem_append, inside, true_or, or_true]
  · refine lists _ inOneOf "oneOf" fun entry inside => ?_
    simp only [writtenFields, List.mem_append, inside, true_or, or_true]

end Schema

theorem Document.depth_component_lt {document : Document} {entry : String × RefOr Schema}
    (listed : entry ∈ document.components.schemas) :
    Schema.depth entry.2 < document.toJson.depth := by
  have inComponents : (membersToJson Schema.refToJson document.components.schemas).depth <
      document.components.toJson.depth :=
    Json.depth_lt_object List.mem_cons_self
  have written : ("components", document.components.toJson) ∈
      [("openapi", Json.string document.openapi), ("info", document.info.toJson),
        ("servers", listToJson Server.toJson document.servers),
        ("paths", membersToJson PathItem.toJson document.paths),
        ("components", document.components.toJson)] := by
    simp
  have inDocument : document.components.toJson.depth < document.toJson.depth :=
    Json.depth_lt_object (List.mem_append_left _ written)
  exact Nat.lt_trans (Schema.depth_lt_map listed) (Nat.lt_trans inComponents inDocument)

end ElmClient
