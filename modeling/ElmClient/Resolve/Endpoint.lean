/-
Resolving whole documents. Components are visited by name and operations by path
and method, so neither diagnostics nor names depend on the order of the
document. Two components or two operations of one name are refused.
-/

import ElmClient.Media
import ElmClient.Resolve.Api
import ElmClient.Resolve.Schema

namespace ElmClient

namespace Resolve

/-- What resolving needs of a document: its components, and levels enough for
its schemas. -/
structure Source where
  components : Components
  levels : Nat

def Source.ofDocument (document : Document) : Source :=
  { components := document.components, levels := document.levels }

def Source.extended (source : Source) (schema : RefOr Schema) : Source :=
  { source with
    levels := source.levels
      + levelsFor source.components.schemas.length (Schema.refToJson schema).depth }

def Source.schema (source : Source) (site : Site) (schema : RefOr Schema) : Run Registry Shape :=
  schemaWithin source.components.schemas source.levels site schema

/-! ### Components -/

def component (source : Source) (raw : String) (schema : RefOr Schema) :
    Run Registry Component := do
  let name := TypeName.ofRaw raw
  let shape ← Run.withPath raw (source.schema (Site.component name) schema)
  return { raw := raw, name := name, shape := shape, doc := schema.doc }

/-- Resolve components in turn; `seen` holds the names met before. -/
def componentsFrom (source : Source) :
    List (TypeName × String) → List (String × RefOr Schema) → Run Registry (List Component)
  | _, [] => return []
  | seen, (raw, schema) :: rest => do
      let name := TypeName.ofRaw raw
      match Keyed.find? name seen with
      | some previous =>
          Run.fail ("component names `" ++ previous ++ "` and `" ++ raw ++ "` both map to `"
            ++ name.text ++ "`")
      | none =>
          let resolved ← component source raw schema
          return resolved :: (← componentsFrom source ((name, raw) :: seen) rest)

def components (source : Source) : Run Registry (List Component) :=
  componentsFrom source []
    (Sorted.sortBy (fun left right => decide (left < right)) Prod.fst source.components.schemas)

/-! ### Parameters -/

def originSite (origin : Option String) (otherwise : TypeName) : Site :=
  Site.unowned (match origin with
    | some component => TypeName.ofRaw component
    | none => otherwise)

def parameterShape (source : Source) (site : Site) (parameter : Parameter) :
    Run Registry Shape :=
  match parameter.schema with
  | some schema => Run.withPath "schema" (source.schema site schema)
  | none =>
      match parameter.content.findSome? fun entry => entry.2.schema with
      | some schema => Run.withPath "content" (source.schema site schema)
      | none => Run.placeholderOr "parameter declares neither `schema` nor `content`" .string

/-- The parameters of an operation with the components they come from. One of
the operation replaces one of the path with the same name and location. -/
def declaredParameters (source : Source) (placed : PlacedOperation) :
    Run Registry (List (Option String × Parameter)) :=
  Run.withPath "parameters" do
    let look := lookup .parameters source.components.parameters
    let inherited ← Run.traverse look placed.item.parameters
    let own ← Run.traverse look placed.operation.parameters
    return Keyed.values (Keyed.ofList ((inherited ++ own).map fun found =>
      ((found.2.name, found.2.location), found)))

def parameter (source : Source) (operationName : TypeName)
    (declared : Option String × Parameter) : Run Registry EndpointParameter :=
  let (origin, parameter) := declared
  Run.withPath parameter.name do
    let site := originSite origin (operationName.child parameter.name)
    let shape ← parameterShape source site parameter
    return {
      name := parameter.name, location := parameter.location, required := parameter.required
      shape := shape, doc := parameter.description }

def parameters (source : Source) (operationName : TypeName) (placed : PlacedOperation) :
    Run Registry (List EndpointParameter) := do
  let declared ← declaredParameters source placed
  Run.withPath "parameters" (Run.traverse (parameter source operationName) declared)

/-! ### Bodies and responses -/

def payload (source : Source) (site : Site) (name : String) (media : MediaType) :
    Run Registry Payload :=
  match MediaType.rank? name with
  | some 0 =>
      match media.schema with
      | some schema => do return .json (← Run.withPath "schema" (source.schema site schema))
      | none => return .json .anyJson
  | some 1 => return .text
  | _ => return .bytes

def selectedPayload (source : Source) (site : Site) (name : String) (media : MediaType) :
    Run Registry Payload :=
  Run.withPath "content" (Run.withPath name (payload source site name media))

/-- The media types of a body that none of them supports. -/
def listedMedia (content : List (String × MediaType)) : String :=
  Text.join "`, `" (Keyed.keys content)

def body (source : Source) (operationName : TypeName) (item : RefOr RequestBody) :
    Run Registry EndpointBody := do
  let (origin, body) ← lookup .requestBodies source.components.requestBodies item
  let site := originSite origin (operationName.child "Body")
  let (mediaType, payload) ←
    match MediaType.select? body.content with
    | some (name, media) => do pure (name, ← selectedPayload source site name media)
    | none =>
        if body.content.isEmpty then pure ("application/json", Payload.empty)
        else do
          let payload ← Run.placeholderOr
            ("unsupported request body media type `" ++ listedMedia body.content ++ "`")
            (Payload.json .anyJson)
          pure ("application/json", payload)
  return {
    payload := payload, mediaType := mediaType, required := body.required
    doc := body.description }

def response (source : Source) (operationName : TypeName)
    (entry : String × RefOr Response) : Run Registry EndpointResponse :=
  let (status, item) := entry
  Run.withPath status do
    let (origin, response) ← lookup .responses source.components.responses item
    let site := originSite origin (operationName.child ("Response" ++ status))
    let payload ←
      match MediaType.select? response.content with
      | some (name, media) => selectedPayload source site name media
      | none =>
          if response.content.isEmpty then pure Payload.empty
          else
            Run.placeholderOr
              ("unsupported response media type `" ++ listedMedia response.content ++ "`")
              Payload.empty
    return {
      status := status, payload := payload
      doc := if response.description.isEmpty then none else some response.description }

def responses (source : Source) (operationName : TypeName) (operation : Operation) :
    Run Registry (List EndpointResponse) :=
  Run.traverse (response source operationName) (Status.sort Prod.fst operation.responses)

/-! ### Operations -/

def operationId (placed : PlacedOperation) : String :=
  placed.operation.operationId.getD (placed.method.text ++ " " ++ placed.path)

def endpoint (source : Source) (placed : PlacedOperation) : Run Registry Endpoint := do
  let operation := placed.operation
  let id := operationId placed
  let name := TypeName.ofRaw id
  let parameters ← parameters source name placed
  let body ←
    match operation.requestBody with
    | some item => do pure (some (← Run.withPath "requestBody" (body source name item)))
    | none => pure none
  let responses ← Run.withPath "responses" (responses source name operation)
  return {
    id := id, name := name, method := placed.method, path := placed.path
    summary := operation.summary.or placed.item.summary
    description := operation.description.or placed.item.description
    deprecated := operation.deprecated
    parameters := parameters, body := body, responses := responses
    security := operation.security }

def distinctEndpoint (source : Source) (seen : List (TypeName × String))
    (placed : PlacedOperation) : Run Registry Endpoint :=
  Run.withPath placed.path do
    Run.withPath placed.method.text do
      let resolved ← endpoint source placed
      match Keyed.find? resolved.name seen with
      | some previous =>
          Run.fail ("operations `" ++ previous ++ "` and `" ++ resolved.id ++ "` both generate `"
            ++ resolved.name.toValueName ++ "`")
      | none => return resolved

def endpointsFrom (source : Source) :
    List (TypeName × String) → List PlacedOperation → Run Registry (List Endpoint)
  | _, [] => return []
  | seen, placed :: rest => do
      let resolved ← distinctEndpoint source seen placed
      return resolved :: (← endpointsFrom source ((resolved.name, resolved.id) :: seen) rest)

end Resolve

def Document.resolve (document : Document) : Run Registry Api := do
  let source := Resolve.Source.ofDocument document
  let components ← Resolve.components source
  let endpoints ← Resolve.endpointsFrom source [] document.operations
  return { components := components, endpoints := endpoints }

end ElmClient
