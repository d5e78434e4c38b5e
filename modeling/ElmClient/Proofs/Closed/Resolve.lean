/-
Resolving a document is made of basic runs and of unions. So a property that runs pass on
holds of all of it, if it also holds of registering an enum and of making a union for
alternatives or kinds that the document lists. The schemas of a document are those of its
components and operations, and whatever stands inside them.
-/

import ElmClient.Proofs.Closed.Schema
import ElmClient.Proofs.Document.Keys
import ElmClient.Proofs.Sorted

namespace ElmClient

namespace Document

def parameters (document : Document) : List (RefOr Parameter) :=
  Keyed.values document.components.parameters
    ++ document.operations.flatMap fun placed =>
      placed.item.parameters ++ placed.operation.parameters

def requestBodies (document : Document) : List (RefOr RequestBody) :=
  Keyed.values document.components.requestBodies
    ++ document.operations.filterMap fun placed => placed.operation.requestBody

def responses (document : Document) : List (RefOr Response) :=
  Keyed.values document.components.responses
    ++ document.operations.flatMap fun placed => Keyed.values placed.operation.responses

/-- A schema that is resolved for a component or an operation, or stands inside one. -/
inductive Contains (document : Document) : RefOr Schema → Prop
  | component {schema : RefOr Schema}
      (listed : schema ∈ Keyed.values document.components.schemas) : Contains document schema
  | parameter {parameter : Parameter} {schema : RefOr Schema}
      (listed : .inline parameter ∈ document.parameters)
      (within : schema ∈ parameter.schemas) : Contains document schema
  | requestBody {body : RequestBody} {schema : RefOr Schema}
      (listed : .inline body ∈ document.requestBodies)
      (within : schema ∈ MediaType.schemas body.content) : Contains document schema
  | response {response : Response} {schema : RefOr Schema}
      (listed : .inline response ∈ document.responses)
      (within : schema ∈ MediaType.schemas response.content) : Contains document schema
  | child {schema : Schema} {child : RefOr Schema} (inside : Contains document (.inline schema))
      (listed : child ∈ schema.children) : Contains document child

end Document

end ElmClient

namespace ElmClient

namespace Resolve

open Run

/-- Basic runs and the unions of a document have the property, if the runs for the members
of a union do, and it is kept in composing runs. What follows a run has to have it only
for values that the run can end with. -/
structure UnionsClosed (document : Document) (Holds : ∀ {α : Type}, Run Registry α → Prop) :
    Prop extends Closed Holds where
  bindOf : ∀ {α β : Type} {action : Run Registry α} {next : α → Run Registry β}
    {first : α → Prop}, Holds action → Returns action first →
      (∀ value, first value → Holds (next value)) → Holds (action >>= next)
  registerEnum : ∀ entry : EnumEntry, Holds (Run.registerEnum entry)
  unionOf : ∀ (inner : Inner) (site : Site) (owner : Option TypeName) (keyword : String)
    (schema : Schema) (members : List (RefOr Schema)), document.Contains (.inline schema) →
      members ∈ schema.alternatives →
      (∀ name, ∀ member ∈ members, Holds (inner.schema (Site.unowned name) member)) →
        Holds (unionOf inner site owner keyword members)
  kindUnion : ∀ (inner : Inner) (site : Site) (schema : Schema),
    document.Contains (.inline schema) →
      (∀ name kind, Holds (ofKind inner (Site.unowned name) schema kind)) →
        Holds (kindUnion inner site schema (concreteKinds schema))

variable {document : Document} {Holds : ∀ {α : Type}, Run Registry α → Prop}
  (closed : UnionsClosed document Holds)

include closed

private theorem UnionsClosed.resolving :
    Resolving (fun schema => document.Contains (.inline schema)) Holds :=
  { toComposed := closed.toComposed, bindOf := closed.bindOf, fail := fun _ => closed.fail _
    placeholderOr := fun _ _ => closed.placeholderOr _ _, registerEnum := closed.registerEnum
    unionOf := closed.unionOf, kindUnion := closed.kindUnion }

omit closed in
theorem contains_of_apart {schema : Schema} (contained : document.Contains (.inline schema))
    {child : RefOr Schema} (listed : child ∈ schema.apart) : document.Contains child :=
  contained.child (Schema.mem_children_iff.mpr (Or.inl listed))

omit closed in
theorem contains_of_member {schema : Schema} (contained : document.Contains (.inline schema))
    {member : RefOr Schema} (listed : member ∈ schema.allOf.getD []) : document.Contains member :=
  contained.child (Schema.mem_children_iff.mpr (Or.inr listed))

theorem contains_plan : Plan document.components.schemas
    (fun schema => document.Contains (.inline schema)) Holds
    (fun _ _ schema => document.Contains schema) fun _ _ _ schema => document.Contains schema where
  permitted contained := contained
  apart contained listed _ := contains_of_apart contained listed
  only contained listed := contains_of_apart contained
    (Schema.mem_apart_of_alternatives listed (List.mem_singleton_self _))
  member contained listed :=
    ⟨contains_of_member contained listed, contains_of_member contained listed⟩
  further contained listed := contains_of_member contained listed
  own contained listed _ := contains_of_apart contained listed
  alone contained _ := contained
  follow _ _ _ found := .component (List.mem_map_of_mem (Keyed.mem_of_find? found))
  cycle _ _ _ := closed.fail _
  endlessSchema _ := closed.fail _
  endlessContribution _ := closed.fail _

section Lookup

variable {α : Type} (component : Section) (components : List (String × RefOr α))

theorem follow_closed (looks : Nat) (origin : Option String) (item : RefOr α) :
    Holds (follow component components looks origin item : Run Registry (Option String × α)) := by
  induction looks generalizing origin item with
  | zero => exact closed.fail _
  | succ looks ih =>
      cases item with
      | inline item => exact closed.pure _
      | reference text =>
          unfold follow
          apply closed.bind (parseReference_holds closed.resolving text)
          intro reference
          split
          · exact closed.fail _
          · split
            · exact closed.fail _
            · exact ih _ _

theorem lookup_closed (item : RefOr α) :
    Holds (lookup component components item : Run Registry (Option String × α)) :=
  follow_closed closed component components _ _ _

omit closed in
theorem lookup_returns {listed : List (RefOr α)} (item : RefOr α) (present : item ∈ listed)
    (within : ∀ entry ∈ components, entry.2 ∈ listed) :
    Returns (lookup component components item : Run Registry (Option String × α))
      fun found => .inline found.2 ∈ listed := by
  have everyLook : ∀ looks (origin : Option String) (item : RefOr α), item ∈ listed →
      Returns (follow component components looks origin item : Run Registry (Option String × α))
        fun found => .inline found.2 ∈ listed := by
    intro looks
    induction looks with
    | zero => exact fun _ _ _ => Returns.fail
    | succ looks ih =>
        intro origin item present
        cases item with
        | inline item => exact Returns.pure present
        | reference text =>
            unfold follow
            refine Returns.bind (Returns.any _) fun reference _ => ?_
            split
            · exact Returns.fail
            · split
              · exact Returns.fail
              case h_2 next found => exact ih _ next (within _ (Keyed.mem_of_find? found))
  exact everyLook _ none item present

end Lookup

/-! ### Schemas -/

private theorem source_schema_closed (site : Site) {schema : RefOr Schema}
    (contained : document.Contains schema) :
    Holds ((Source.ofDocument document).schema site schema) :=
  (within_holds closed.resolving (contains_plan closed) document.levels).1 site schema contained

/-! ### Components -/

theorem componentsFrom_closed (seen : List (TypeName × String))
    (entries : List (String × RefOr Schema))
    (contained : ∀ entry ∈ entries, document.Contains entry.2) :
    Holds (componentsFrom (.ofDocument document) seen entries) := by
  induction entries generalizing seen with
  | nil => exact closed.pure _
  | cons entry rest ih =>
      obtain ⟨raw, schema⟩ := entry
      obtain ⟨first, later⟩ := List.forall_mem_cons.mp contained
      unfold componentsFrom
      dsimp only
      split
      · exact closed.fail _
      · have resolved : Holds (component (.ofDocument document) raw schema) :=
          closed.map _ (closed.withPath _ (source_schema_closed closed _ first))
        exact closed.bind resolved fun _ => closed.map _ (ih _ later)

theorem components_closed : Holds (components (.ofDocument document)) := by
  refine componentsFrom_closed closed [] _ fun entry listed => .component ?_
  exact List.mem_map_of_mem ((List.mergeSort_perm _ _).mem_iff.mp listed)

/-! ### Operations -/

section Operations

variable {placed : PlacedOperation} (listed : placed ∈ document.operations)

theorem parameterShape_closed (site : Site) {parameter : Parameter}
    (contained : .inline parameter ∈ document.parameters) :
    Holds (parameterShape (.ofDocument document) site parameter) := by
  unfold parameterShape
  split
  case h_1 schema present =>
    refine closed.withPath _ (source_schema_closed closed site (.parameter contained ?_))
    exact List.mem_append_left _ (Option.mem_toList.mpr present)
  · split
    case h_1 schema present =>
      refine closed.withPath _ (source_schema_closed closed site (.parameter contained ?_))
      obtain ⟨entry, inContent, has⟩ := List.exists_of_findSome?_eq_some present
      exact List.mem_append_right _ (List.mem_filterMap.mpr ⟨entry, inContent, has⟩)
    · exact closed.placeholderOr _ _

theorem declaredParameters_closed (placed : PlacedOperation) :
    Holds (declaredParameters (.ofDocument document) placed) := by
  apply closed.withPath
  apply closed.bind (closed.traverse (lookup_closed closed _ _) _)
  intro inherited
  exact closed.map _ (closed.traverse (lookup_closed closed _ _) _)

include listed

omit closed in
theorem declaredParameters_returns :
    Returns (declaredParameters (.ofDocument document) placed) fun declared =>
      ∀ found ∈ declared, .inline found.2 ∈ document.parameters := by
  have own : ∀ item ∈ placed.item.parameters ++ placed.operation.parameters,
      item ∈ document.parameters := fun item inPlaced =>
    List.mem_append_right _ (List.mem_flatMap.mpr ⟨placed, listed, inPlaced⟩)
  have look : ∀ items, (∀ item ∈ items, item ∈ document.parameters) →
      Returns (Run.traverse (lookup .parameters document.components.parameters) items :
          Run Registry (List (Option String × Parameter)))
        fun found => ∀ entry ∈ found, .inline entry.2 ∈ document.parameters := by
    intro items present
    have each : ∀ item ∈ items,
        Returns (lookup .parameters document.components.parameters item :
            Run Registry (Option String × Parameter))
          fun found => .inline found.2 ∈ document.parameters := fun item inItems =>
      lookup_returns _ _ item (present item inItems) fun entry inComponents =>
        List.mem_append_left _ (List.mem_map_of_mem inComponents)
    exact (Returns.traverseOf each).imp fun _ related => all_of_forall₂ related
  apply Returns.withPath
  refine Returns.bind (look _ fun item inItem => own item (List.mem_append_left _ inItem)) ?_
  intro inherited inheritedListed
  refine Returns.map (look _ fun item inItem => own item (List.mem_append_right _ inItem)) ?_
  intro declared declaredListed found inValues
  obtain ⟨entry, inEntries, rfl⟩ := List.mem_map.mp inValues
  obtain ⟨origin, inBoth, rfl⟩ := List.mem_map.mp (Keyed.mem_of_mem_ofList inEntries)
  rcases List.mem_append.mp inBoth with inInherited | inOwn
  · exact inheritedListed _ inInherited
  · exact declaredListed _ inOwn

theorem parameters_closed (operationName : TypeName) :
    Holds (parameters (.ofDocument document) operationName placed) := by
  apply closed.bindOf (declaredParameters_closed closed placed) (declaredParameters_returns listed)
  intro declared inDocument
  refine closed.withPath _ (closed.traverseOf fun found inDeclared => closed.withPath _ ?_)
  exact closed.map _ (parameterShape_closed closed _ (inDocument found inDeclared))

omit listed

theorem selectedPayload_closed (site : Site) {content : List (String × MediaType)}
    (contained : ∀ schema ∈ MediaType.schemas content, document.Contains schema)
    {name : String} {media : MediaType}
    (selected : MediaType.select? content = some (name, media)) :
    Holds (selectedPayload (.ofDocument document) site name media) := by
  refine closed.withPath _ (closed.withPath _ ?_)
  unfold payload
  split
  · split
    case h_1 schema present =>
      have inContent := MediaType.mem_of_select? selected
      have inside := contained schema (List.mem_filterMap.mpr ⟨_, inContent, present⟩)
      exact closed.map _ (closed.withPath _ (source_schema_closed closed site inside))
    · exact closed.pure _
  · exact closed.pure _
  · exact closed.pure _

private theorem bodyPayload_closed (site : Site) {content : List (String × MediaType)}
    (contained : ∀ schema ∈ MediaType.schemas content, document.Contains schema) :
    Holds (bodyPayload (.ofDocument document) site content) := by
  unfold bodyPayload
  split
  case h_1 selected => exact closed.map _ (selectedPayload_closed closed site contained selected)
  · split
    · exact closed.pure _
    · exact closed.map _ (closed.placeholderOr _ _)

private theorem responsePayload_closed (site : Site) {content : List (String × MediaType)}
    (contained : ∀ schema ∈ MediaType.schemas content, document.Contains schema) :
    Holds (responsePayload (.ofDocument document) site content) := by
  unfold responsePayload
  split
  case h_1 selected => exact selectedPayload_closed closed site contained selected
  · split
    · exact closed.pure _
    · exact closed.placeholderOr _ _

theorem body_closed (operationName : TypeName) {item : RefOr RequestBody}
    (present : item ∈ document.requestBodies) :
    Holds (body (.ofDocument document) operationName item) := by
  rw [body_eq]
  refine closed.bindOf (lookup_closed closed _ _ _) (lookup_returns _ _ item present ?_) ?_
  · exact fun entry inComponents => List.mem_append_left _ (List.mem_map_of_mem inComponents)
  · intro found inDocument
    exact closed.map _ (bodyPayload_closed closed _ fun schema within =>
      .requestBody inDocument within)

theorem response_closed (operationName : TypeName) {entry : String × RefOr Response}
    (present : entry.2 ∈ document.responses) :
    Holds (response (.ofDocument document) operationName entry) := by
  rw [response_eq]
  refine closed.withPath _ (closed.bindOf (lookup_closed closed _ _ _)
    (lookup_returns _ _ entry.2 present ?_) ?_)
  · exact fun entry inComponents => List.mem_append_left _ (List.mem_map_of_mem inComponents)
  · intro found inDocument
    exact closed.map _ (responsePayload_closed closed _ fun schema within =>
      .response inDocument within)

include listed

theorem endpoint_closed : Holds (endpoint (.ofDocument document) placed) := by
  rw [endpoint_eq]
  apply closed.bind (parameters_closed closed listed _)
  intro parameters
  apply closed.bind
  · unfold endpointBody
    split
    case h_1 item requested =>
      have present : item ∈ document.requestBodies :=
        List.mem_append_right _ (List.mem_filterMap.mpr ⟨placed, listed, requested⟩)
      exact closed.map _ (closed.withPath _ (body_closed closed _ present))
    · exact closed.pure _
  · intro body
    refine closed.map _ (closed.withPath _ (closed.traverseOf fun entry inSorted => ?_))
    have answered : entry ∈ placed.operation.responses :=
      (List.mergeSort_perm _ _).mem_iff.mp inSorted
    refine response_closed closed _ (List.mem_append_right _ ?_)
    exact List.mem_flatMap.mpr ⟨placed, listed, List.mem_map_of_mem answered⟩

theorem distinctEndpoint_closed (seen : List (TypeName × String)) :
    Holds (distinctEndpoint (.ofDocument document) seen placed) := by
  refine closed.withPath _ (closed.withPath _ (closed.bind (endpoint_closed closed listed) ?_))
  intro resolved
  split
  · exact closed.fail _
  · exact closed.pure _

end Operations

theorem endpointsFrom_closed (seen : List (TypeName × String))
    (operations : List PlacedOperation)
    (listed : ∀ placed ∈ operations, placed ∈ document.operations) :
    Holds (endpointsFrom (.ofDocument document) seen operations) := by
  induction operations generalizing seen with
  | nil => exact closed.pure _
  | cons placed rest ih =>
      obtain ⟨first, later⟩ := List.forall_mem_cons.mp listed
      unfold endpointsFrom
      exact closed.bind (distinctEndpoint_closed closed first seen) fun _ =>
        closed.map _ (ih _ later)

end Resolve

/-- Resolving a document has what its basic runs and its unions have. -/
theorem Document.resolve_closed {document : Document}
    {Holds : ∀ {α : Type}, Run Registry α → Prop} (closed : Resolve.UnionsClosed document Holds) :
    Holds document.resolve :=
  closed.bind (Resolve.components_closed closed) fun _ =>
    closed.map _ (Resolve.endpointsFrom_closed closed [] _ fun _ listed => listed)

end ElmClient
