/-
Runs of the resolver that choose between several actions before they go on, each
written as its choice followed by its continuation.
-/

import ElmClient.Resolve.Endpoint

namespace ElmClient.Resolve

theorem length_memberLabels (given : List String) (index : Nat) (members : List (RefOr Schema)) :
    (memberLabels given index members).length = members.length := by
  induction members generalizing given index with
  | nil => rfl
  | cons member rest ih => rw [memberLabels, List.length_cons, List.length_cons, ih]

def memberContributions (inner : Inner) (expanding : List TypeName) (site : Site)
    (schema : Schema) : Run Registry (List (Option (List Field))) :=
  match schema.allOf with
  | some members => Run.traverseIndexed "allOf" (inner.contribution expanding site) members
  | none => pure []

def ownFields (inner : Inner) (site : Site) (schema : Schema) : Run Registry (List Field) :=
  if schema.properties.isEmpty then pure [] else properties inner site schema

theorem mergedFields_eq (inner : Inner) (expanding : List TypeName) (site : Site)
    (schema : Schema) :
    mergedFields inner expanding site schema = do
      let contributions ← memberContributions inner expanding site schema
      let own ← ownFields inner site schema
      return Field.requireKeys (requiredKeys schema)
        (Field.unite ((contributions.filterMap id).foldl Field.unite []) own) := by
  unfold mergedFields memberContributions ownFields
  cases schema.allOf <;> cases schema.properties.isEmpty <;> rfl

def bodyPayload (source : Source) (site : Site) (content : List (String × MediaType)) :
    Run Registry (String × Payload) :=
  match MediaType.select? content with
  | some (name, media) => do return (name, ← selectedPayload source site name media)
  | none =>
      if content.isEmpty then pure ("application/json", .empty)
      else do
        return ("application/json", ← Run.placeholderOr
          ("unsupported request body media type `" ++ listedMedia content ++ "`")
          (.json .anyJson))

theorem body_eq (source : Source) (operationName : TypeName) (item : RefOr RequestBody) :
    body source operationName item = do
      let found ← lookup .requestBodies source.components.requestBodies item
      let chosen ← bodyPayload source (originSite found.1 (operationName.child "Body"))
        found.2.content
      return {
        payload := chosen.2, mediaType := chosen.1, required := found.2.required
        doc := found.2.description } := by
  unfold body bodyPayload
  apply bind_congr
  rintro ⟨origin, found⟩
  dsimp only
  rcases MediaType.select? found.content with _ | ⟨name, media⟩
  · cases found.content.isEmpty <;> simp
  · simp

def responsePayload (source : Source) (site : Site) (content : List (String × MediaType)) :
    Run Registry Payload :=
  match MediaType.select? content with
  | some (name, media) => selectedPayload source site name media
  | none =>
      if content.isEmpty then pure .empty
      else
        Run.placeholderOr
          ("unsupported response media type `" ++ listedMedia content ++ "`") .empty

theorem response_eq (source : Source) (operationName : TypeName)
    (entry : String × RefOr Response) :
    response source operationName entry = Run.withPath entry.1 do
      let found ← lookup .responses source.components.responses entry.2
      let payload ← responsePayload source
        (originSite found.1 (operationName.child ("Response" ++ entry.1))) found.2.content
      return {
        status := entry.1, payload := payload
        doc := if found.2.description.isEmpty then none else some found.2.description } := by
  unfold response responsePayload
  refine congrArg (Run.withPath entry.1) (bind_congr ?_)
  rintro ⟨origin, found⟩
  dsimp only
  rcases MediaType.select? found.content with _ | ⟨name, media⟩
  · cases found.content.isEmpty <;> rfl
  · rfl

def endpointBody (source : Source) (operationName : TypeName) (operation : Operation) :
    Run Registry (Option EndpointBody) :=
  match operation.requestBody with
  | some item => do return some (← Run.withPath "requestBody" (body source operationName item))
  | none => pure none

def operationName (placed : PlacedOperation) : TypeName :=
  TypeName.ofRaw (operationId placed)

def assembled (placed : PlacedOperation) (parameters : List EndpointParameter)
    (body : Option EndpointBody) (responses : List EndpointResponse) : Endpoint :=
  { id := operationId placed, name := operationName placed, method := placed.method
    path := placed.path
    summary := placed.operation.summary.or placed.item.summary
    description := placed.operation.description.or placed.item.description
    deprecated := placed.operation.deprecated
    parameters := parameters, body := body, responses := responses
    security := placed.operation.security }

theorem endpoint_eq (source : Source) (placed : PlacedOperation) :
    endpoint source placed = do
      let parameters ← parameters source (operationName placed) placed
      let body ← endpointBody source (operationName placed) placed.operation
      let responses ←
        Run.withPath "responses" (responses source (operationName placed) placed.operation)
      return assembled placed parameters body responses := by
  unfold endpoint endpointBody
  refine bind_congr fun parameters => ?_
  cases placed.operation.requestBody <;> simp [assembled, operationName]

end ElmClient.Resolve
