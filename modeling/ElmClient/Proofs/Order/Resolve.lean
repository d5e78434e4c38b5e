/-
Resolving looks components up by their names, and visits them by their names. So the
order in which a document lists them decides nothing.
-/

import ElmClient.Proofs.Order.Document
import ElmClient.Proofs.Resolve.Steps

namespace ElmClient

namespace Resolve

/-! ### Schemas -/

section Schemas

variable {schemas others : SchemaMap}

theorem schemaReference_reordered (same : Keyed.Reordered schemas others) (text : String) :
    (schemaReference schemas text : Run Registry Reference) = schemaReference others text := by
  unfold schemaReference
  refine bind_congr fun reference => ?_
  rw [same.contains_eq]

theorem referenced?_reordered (same : Keyed.Reordered schemas others) (text : String) :
    referenced? schemas text = referenced? others text := by
  unfold referenced?
  cases Reference.parse text with
  | ok reference => exact same.find?_eq reference.name
  | error malformed => rfl

theorem describesNull_reordered (same : Keyed.Reordered schemas others) (looks : Nat)
    (schema : RefOr Schema) :
    describesNull schemas looks schema = describesNull others looks schema := by
  induction looks generalizing schema with
  | zero => rfl
  | succ looks ih =>
      cases schema with
      | inline schema => rfl
      | reference text =>
          rw [describesNull, describesNull, referenced?_reordered same]
          cases referenced? others text with
          | none => rfl
          | some next => exact ih next

theorem isNull_reordered (same : Keyed.Reordered schemas others) (schema : RefOr Schema) :
    isNull schemas schema = isNull others schema := by
  rw [isNull, isNull, same.length_eq, describesNull_reordered same]

variable (inner : Inner) (site : Site)

theorem alternatives_reordered (same : Keyed.Reordered schemas others) (owner : Option TypeName)
    (keyword : String) (members : List (RefOr Schema)) :
    alternatives schemas inner site owner keyword members =
      alternatives others inner site owner keyword members := by
  rcases members with _ | ⟨first, _ | ⟨second, _ | ⟨third, rest⟩⟩⟩
  · rfl
  · rfl
  · rw [alternatives, alternatives, isNull_reordered same, isNull_reordered same]
  · rfl

theorem untyped_reordered (same : Keyed.Reordered schemas others) (schema : Schema) :
    untyped schemas inner site schema = untyped others inner site schema := by
  unfold untyped
  rcases schema.enumeration with _ | members
  · rcases schema.anyOf with _ | members
    · rcases schema.oneOf with _ | members
      · cases schema.allOf <;> rfl
      · exact alternatives_reordered inner site same _ _ members
    · exact alternatives_reordered inner site same _ _ members
  · rfl

theorem ofKinds_reordered (same : Keyed.Reordered schemas others) (schema : Schema)
    (kinds : List String) :
    ofKinds schemas inner site schema kinds = ofKinds others inner site schema kinds := by
  rcases kinds with _ | ⟨kind, _ | ⟨other, rest⟩⟩
  · exact untyped_reordered inner site same schema
  · rw [ofKinds, ofKinds, untyped_reordered inner site same]
  · rfl

theorem inline_reordered (same : Keyed.Reordered schemas others) (schema : Schema) :
    inline schemas inner site schema = inline others inner site schema := by
  simp only [inline, base, ofKinds_reordered inner site same]

theorem schemaOrReference_reordered (same : Keyed.Reordered schemas others)
    (schema : RefOr Schema) :
    schemaOrReference schemas inner site schema = schemaOrReference others inner site schema := by
  cases schema with
  | reference text => rw [schemaOrReference, schemaOrReference, schemaReference_reordered same]
  | inline schema => exact inline_reordered inner site same schema

theorem contribution_reordered (same : Keyed.Reordered schemas others)
    (expanding : List TypeName) (schema : RefOr Schema) :
    contribution schemas inner expanding site schema =
      contribution others inner expanding site schema := by
  cases schema with
  | inline schema =>
      simp only [contribution, inlineContribution, noObject, inline_reordered inner site same]
  | reference text =>
      rw [contribution, contribution, schemaReference_reordered same]
      refine bind_congr fun reference => ?_
      rw [same.find?_eq]

end Schemas

/-- Both resolvers of a level, by induction on the levels below. -/
theorem within_reordered {schemas others : SchemaMap} (same : Keyed.Reordered schemas others)
    (levels : Nat) :
    schemaWithin schemas levels = schemaWithin others levels ∧
      contributionWithin schemas levels = contributionWithin others levels := by
  induction levels with
  | zero => exact ⟨rfl, rfl⟩
  | succ levels ih =>
      obtain ⟨schemasBelow, contributionsBelow⟩ := ih
      constructor
      · funext site schema
        rw [schemaWithin, schemaWithin, schemasBelow, contributionsBelow,
          schemaOrReference_reordered _ _ same]
      · funext expanding site schema
        rw [contributionWithin, contributionWithin, schemasBelow, contributionsBelow,
          contribution_reordered _ _ same]

/-! ### References to other components -/

theorem lookup_reordered {σ α : Type} {components others : List (String × RefOr α)}
    (component : Section) (same : Keyed.Reordered components others) :
    (lookup component components : RefOr α → Run σ (Option String × α)) =
      lookup component others := by
  have everyLook : ∀ (looks : Nat) (origin : Option String) (item : RefOr α),
      (follow component components looks origin item : Run σ (Option String × α)) =
        follow component others looks origin item := by
    intro looks
    induction looks with
    | zero =>
        intro origin item
        rfl
    | succ looks ih =>
        intro origin item
        cases item with
        | inline item => rfl
        | reference text =>
            rw [follow, follow]
            refine bind_congr fun reference => ?_
            simp only [same.find?_eq, ih]
  funext item
  rw [lookup, lookup, same.length_eq, everyLook]

/-! ### Sources -/

structure Source.Reordered (left right : Source) : Prop where
  components : left.components.Reordered right.components
  levels : left.levels = right.levels

private theorem Source.of_reordered {left right : Document} (same : left.Reordered right) :
    (Source.ofDocument left).Reordered (Source.ofDocument right) where
  components := same.components
  levels := by
    change left.levels = right.levels
    rw [Document.levels, Document.levels, same.components.schemas.length_eq, same.depth_eq]

section Sources

variable {left right : Source} (same : left.Reordered right)

include same

theorem schema_reordered : left.schema = right.schema := by
  funext site schema
  rw [Source.schema, Source.schema, same.levels,
    (within_reordered same.components.schemas right.levels).1]

theorem components_reordered : components left = components right := by
  have visited : componentsFrom left = componentsFrom right := by
    funext seen entries
    induction entries generalizing seen with
    | nil => rfl
    | cons entry rest ih => simp only [componentsFrom, component, schema_reordered same, ih]
  rw [components, components, visited, Sorted.sortBy_text_reordered same.components.schemas]

/-! ### Operations -/

theorem payload_reordered : selectedPayload left = selectedPayload right := by
  funext site name media
  unfold selectedPayload payload
  rw [schema_reordered same]

theorem parameter_reordered : parameter left = parameter right := by
  funext operationName declared
  simp only [parameter, parameterShape, schema_reordered same]

theorem body_reordered : body left = body right := by
  funext operationName item
  simp only [body_eq, bodyPayload, lookup_reordered _ same.components.requestBodies,
    payload_reordered same]

theorem response_reordered : response left = response right := by
  funext operationName entry
  simp only [response_eq, responsePayload, lookup_reordered _ same.components.responses,
    payload_reordered same]

variable {placed other : PlacedOperation} (alike : placed.Reordered other)

include alike

theorem parameters_reordered (operationName : TypeName) :
    parameters left operationName placed = parameters right operationName other := by
  have item : placed.item.parameters = other.item.parameters := alike.item.parameters
  have operation : placed.operation.parameters = other.operation.parameters := by
    rw [← alike.operation.rest]
  simp only [parameters, declaredParameters, parameter_reordered same,
    lookup_reordered _ same.components.parameters, item, operation]

theorem responses_reordered (operationName : TypeName) :
    responses left operationName placed.operation =
      responses right operationName other.operation := by
  have sorted : Status.sort Prod.fst placed.operation.responses =
      Status.sort Prod.fst other.operation.responses := by
    rcases alike.operation.responses with equal | reordered
    · rw [equal]
    · exact Status.sort_reordered reordered
  rw [responses, responses, response_reordered same, sorted]

omit same in
private theorem operationName_reordered : operationName placed = operationName other := by
  rw [operationName, operationName, operationId, operationId, alike.path, alike.method,
    ← alike.operation.rest]

omit same in
private theorem assembled_reordered : assembled placed = assembled other := by
  funext parameters body responses
  rw [assembled, assembled, operationName_reordered alike, operationId, operationId, alike.path,
    alike.method, alike.item.summary, alike.item.description, ← alike.operation.rest]

theorem endpoint_reordered : endpoint left placed = endpoint right other := by
  have requestBody : placed.operation.requestBody = other.operation.requestBody := by
    rw [← alike.operation.rest]
  simp only [endpoint_eq, endpointBody, operationName_reordered alike, requestBody,
    parameters_reordered same alike, body_reordered same, responses_reordered same alike,
    assembled_reordered alike]

end Sources

theorem endpointsFrom_reordered {left right : Source} (same : left.Reordered right)
    {operations others : List PlacedOperation}
    (alike : List.Forall₂ PlacedOperation.Reordered operations others)
    (seen : List (TypeName × String)) :
    endpointsFrom left seen operations = endpointsFrom right seen others := by
  induction alike generalizing seen with
  | nil => rfl
  | cons first _ ih =>
      simp only [endpointsFrom, distinctEndpoint, first.path, first.method,
        endpoint_reordered same first, ih]

end Resolve

theorem Document.resolve_reordered {left right : Document} (same : left.Reordered right) :
    left.resolve = right.resolve := by
  have source := Resolve.Source.of_reordered same
  simp only [Document.resolve, Resolve.components_reordered source,
    Resolve.endpointsFrom_reordered source same.operations]

end ElmClient
