/-
Documents that differ in the order of their maps: paths, components and responses.
Such documents list the same operations and have schemas of the same depth.
-/

import ElmClient.Document.Printer
import ElmClient.Proofs.Order.Entries

namespace ElmClient

/-! ### The relation -/

structure Operation.Reordered (left right : Operation) : Prop where
  rest : { left with responses := right.responses } = right
  responses : left.responses = right.responses ∨ Status.Reordered left.responses right.responses

structure PathItem.Reordered (left right : PathItem) : Prop where
  summary : left.summary = right.summary
  description : left.description = right.description
  parameters : left.parameters = right.parameters
  get : Option.Rel Operation.Reordered left.get right.get
  put : Option.Rel Operation.Reordered left.put right.put
  post : Option.Rel Operation.Reordered left.post right.post
  delete : Option.Rel Operation.Reordered left.delete right.delete
  options : Option.Rel Operation.Reordered left.options right.options
  head : Option.Rel Operation.Reordered left.head right.head
  patch : Option.Rel Operation.Reordered left.patch right.patch
  trace : Option.Rel Operation.Reordered left.trace right.trace

structure Components.Reordered (left right : Components) : Prop where
  schemas : Keyed.Reordered left.schemas right.schemas
  responses : Keyed.Reordered left.responses right.responses
  parameters : Keyed.Reordered left.parameters right.parameters
  requestBodies : Keyed.Reordered left.requestBodies right.requestBodies
  securitySchemes : Keyed.Reordered left.securitySchemes right.securitySchemes

/-- The same document with the entries of its maps in another order. -/
structure Document.Reordered (left right : Document) : Prop where
  rest : { left with paths := right.paths, components := right.components } = right
  paths : Keyed.ReorderedBy PathItem.Reordered left.paths right.paths
  components : left.components.Reordered right.components

/-! ### Depth -/

namespace Json

theorem depthEntries_cons (name : String) (value : Json) (rest : List (String × Json)) :
    depthEntries ((name, value) :: rest) = max value.depth (depthEntries rest) :=
  rfl

theorem depth_object (entries : List (String × Json)) :
    (object entries).depth = depthEntries entries + 1 :=
  rfl

theorem depthEntries_append (left right : List (String × Json)) :
    depthEntries (left ++ right) = max (depthEntries left) (depthEntries right) := by
  induction left with
  | nil => exact (Nat.zero_max _).symm
  | cons entry rest ih =>
      rw [List.cons_append, depthEntries_cons, depthEntries_cons, ih, Nat.max_assoc]

theorem depthEntries_perm {left right : List (String × Json)} (same : left.Perm right) :
    depthEntries left = depthEntries right := by
  induction same with
  | nil => rfl
  | cons entry _ ih => rw [depthEntries_cons, depthEntries_cons, ih]
  | swap first second rest => exact Nat.max_left_comm ..
  | trans _ _ first second => exact first.trans second

end Json

theorem depth_membersToJson_perm {α : Type} (write : α → Json) {left right : List (String × α)}
    (same : left.Perm right) :
    (membersToJson write left).depth = (membersToJson write right).depth :=
  congrArg (· + 1) (Json.depthEntries_perm (same.map _))

theorem depth_membersToJson_related {α : Type} (write : α → Json)
    {left right : List (String × α)}
    (same : List.Forall₂ (fun first second => (write first.2).depth = (write second.2).depth)
      left right) :
    (membersToJson write left).depth = (membersToJson write right).depth := by
  refine congrArg (· + 1) ?_
  induction same with
  | nil => rfl
  | cons equal _ ih => exact congrArg₂ max equal ih

theorem depth_optionalField_related {α : Type} (name : String) (write : α → Json)
    {left right : Option α}
    (same : Option.Rel (fun first second => (write first).depth = (write second).depth)
      left right) :
    Json.depthEntries (optionalField name write left) =
      Json.depthEntries (optionalField name write right) := by
  cases same with
  | none => rfl
  | some equal => exact congrArg (max · 0) equal

theorem Operation.Reordered.depth_eq {left right : Operation} (same : left.Reordered right) :
    left.toJson.depth = right.toJson.depth := by
  have responses :
      (membersToJson (RefOr.toJson Response.toJson) left.responses).depth =
        (membersToJson (RefOr.toJson Response.toJson) right.responses).depth := by
    rcases same.responses with equal | reordered
    · rw [equal]
    · exact depth_membersToJson_perm _ reordered.perm
  rw [← same.rest]
  unfold Operation.toJson
  simp only [Json.depth_object, Json.depthEntries_append, Json.depthEntries_cons, responses]

private theorem optional_depth_eq (name : String) {left right : Option Operation}
    (same : Option.Rel Operation.Reordered left right) :
    Json.depthEntries (optionalField name Operation.toJson left) =
      Json.depthEntries (optionalField name Operation.toJson right) := by
  apply depth_optionalField_related
  cases same with
  | none => exact .none
  | some related => exact .some related.depth_eq

theorem PathItem.Reordered.depth_eq {left right : PathItem} (same : left.Reordered right) :
    left.toJson.depth = right.toJson.depth := by
  unfold PathItem.toJson
  simp only [Json.depth_object, Json.depthEntries_append, same.summary,
    same.description, same.parameters, optional_depth_eq _ same.get,
    optional_depth_eq _ same.put, optional_depth_eq _ same.post, optional_depth_eq _ same.delete,
    optional_depth_eq _ same.options, optional_depth_eq _ same.head,
    optional_depth_eq _ same.patch, optional_depth_eq _ same.trace]

theorem Components.Reordered.depth_eq {left right : Components} (same : left.Reordered right) :
    left.toJson.depth = right.toJson.depth := by
  unfold Components.toJson
  simp only [Json.depth_object, Json.depthEntries_cons,
    depth_membersToJson_perm _ same.schemas.perm, depth_membersToJson_perm _ same.responses.perm,
    depth_membersToJson_perm _ same.parameters.perm,
    depth_membersToJson_perm _ same.requestBodies.perm,
    depth_membersToJson_perm _ same.securitySchemes.perm]

theorem Document.Reordered.depth_eq {left right : Document} (same : left.Reordered right) :
    left.toJson.depth = right.toJson.depth := by
  have paths : (membersToJson PathItem.toJson left.paths).depth =
      (membersToJson PathItem.toJson right.paths).depth := by
    obtain ⟨middle, listed, related⟩ := same.paths
    rw [depth_membersToJson_perm _ listed.perm]
    apply depth_membersToJson_related
    exact related.imp fun _ _ both => both.2.depth_eq
  rw [← same.rest]
  unfold Document.toJson
  simp only [Json.depth_object, Json.depthEntries_append, Json.depthEntries_cons, paths,
    same.components.depth_eq]

/-! ### Operations -/

structure PlacedOperation.Reordered (left right : PlacedOperation) : Prop where
  path : left.path = right.path
  method : left.method = right.method
  item : left.item.Reordered right.item
  operation : left.operation.Reordered right.operation

/-- Operations of one method, if there are any, that differ in order only. -/
def Operation.AlikeAt (first second : Method × Option Operation) : Prop :=
  first.1 = second.1 ∧ Option.Rel Operation.Reordered first.2 second.2

private theorem PathItem.Reordered.operations {left right : PathItem}
    (same : left.Reordered right) :
    List.Forall₂ (fun first second => first.1 = second.1 ∧ first.2.Reordered second.2)
      left.operations right.operations := by
  have declared : List.Forall₂ Operation.AlikeAt
      [(Method.delete, left.delete), (.get, left.get), (.head, left.head),
        (.options, left.options), (.patch, left.patch), (.post, left.post), (.put, left.put),
        (.trace, left.trace)]
      [(Method.delete, right.delete), (.get, right.get), (.head, right.head),
        (.options, right.options), (.patch, right.patch), (.post, right.post), (.put, right.put),
        (.trace, right.trace)] :=
    .cons ⟨rfl, same.delete⟩ (.cons ⟨rfl, same.get⟩ (.cons ⟨rfl, same.head⟩
      (.cons ⟨rfl, same.options⟩ (.cons ⟨rfl, same.patch⟩ (.cons ⟨rfl, same.post⟩
        (.cons ⟨rfl, same.put⟩ (.cons ⟨rfl, same.trace⟩ .nil)))))))
  refine List.rel_filterMap ?_ declared
  rintro ⟨method, first⟩ ⟨other, second⟩ ⟨sameMethod, related⟩
  cases related with
  | none => exact .none
  | some related => exact .some ⟨sameMethod, related⟩

theorem Document.Reordered.operations {left right : Document} (same : left.Reordered right) :
    List.Forall₂ PlacedOperation.Reordered left.operations right.operations := by
  obtain ⟨middle, listed, related⟩ := same.paths
  have sorted :
      left.paths.mergeSort (fun first second => decide (first.1 ≤ second.1)) =
        middle.mergeSort fun first second => decide (first.1 ≤ second.1) := by
    have byText := Sorted.sortBy_text_reordered listed
    simp only [Sorted.sortBy, ← decide_not, String.not_lt] at byText
    exact byText
  have entries := Sorted.forall₂_mergeSort (fun _ _ both => both.1) related
  unfold Document.operations
  dsimp only
  rw [sorted]
  refine List.rel_flatMap entries ?_
  rintro ⟨path, item⟩ ⟨other, otherItem⟩ ⟨samePath, sameItem⟩
  dsimp only at samePath sameItem
  rw [List.forall₂_map_left_iff, List.forall₂_map_right_iff]
  refine sameItem.operations.imp ?_
  rintro ⟨method, operation⟩ ⟨otherMethod, otherOperation⟩ ⟨sameMethod, sameOperation⟩
  exact ⟨samePath, sameMethod, sameItem, sameOperation⟩

end ElmClient
