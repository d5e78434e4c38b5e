/-
Generated clients. A document is resolved, the enums and unions found on the way
get their final names, and everything is declared in a fixed order: components,
enums and unions, servers, operations, the helpers these asked for, and the common
module.
-/

import ElmClient.Document.Reader
import ElmClient.Elm.Adapter
import ElmClient.Elm.Request
import ElmClient.Elm.SourceFile
import ElmClient.Elm.Types
import ElmClient.Overlay
import ElmClient.Packages
import ElmClient.Resolve.Endpoint

namespace ElmClient

open Elm

structure Client where
  declarations : List Grouped
  warnings : List Diagnostic
  packages : List String
deriving Repr, Inhabited

namespace Client

/-! ### Declarations -/

def ofComponent (naming : Naming) (component : Component) : Run Helpers (List Grouped) :=
  Run.withPath component.raw (componentDeclarations naming component)

def ofEndpoint (naming : Naming) (config : Config) (document : Document) (base : BaseUrl)
    (endpoint : Endpoint) : Run Helpers (List Grouped) :=
  Run.withPath endpoint.path do
    Run.withPath endpoint.method.text do
      let request ← Request.ofEndpoint naming document base endpoint
      return request.declarations config.profiles

def helperDeclarations : Run Helpers (List Grouped) := do
  let sorted := Sorted.sortBy (fun left right => decide (left < right)) Prod.fst (← Run.getStore)
  return sorted.map fun helper => (.requests, helper.2)

def declare (naming : Naming) (config : Config) (document : Document) (api : Api) :
    Run Helpers (List Grouped) := do
  let components ← Run.traverse (ofComponent naming) api.components
  let discovered ← discoveredDeclarations naming
  let servers := ServerPlan.ofMode naming document config.server
  let endpoints ←
    Run.traverse (ofEndpoint naming config document servers.base) api.endpoints
  let helpers ← helperDeclarations
  return components.flatten ++ discovered
    ++ servers.declarations.map (fun declaration => (.servers, declaration))
    ++ endpoints.flatten ++ helpers
    ++ (commonDeclarations config.profiles).map fun declaration => (.common, declaration)

/-! ### From documents -/

def scope (config : Config) : Scope :=
  Scope.root (Policy.ofTodos config.generateTodos)

def declaredTypes (api : Api) (registry : Registry) : DeclaredTypes :=
  registry.drain (api.components.map Component.name)

/-- The client of a document. The warnings of resolving precede those of the
declarations. -/
def ofDocument (config : Config) (document : Document) : Except Diagnostic Client :=
  match document.resolve.outcome (scope config) (Log.starting Registry.empty) with
  | (.error diagnostic, _) => throw diagnostic
  | (.ok api, log) =>
      let naming := Naming.ofApi config api (declaredTypes api log.store)
      match (declare naming config document api).outcome (scope config)
          { warnings := log.warnings, store := [] } with
      | (.error diagnostic, _) => throw diagnostic
      | (.ok declarations, finished) =>
          return {
            declarations := declarations, warnings := finished.warnings
            packages := Packages.required config api }

inductive Failure where
  | config (reason : Config.Invalid)
  | overlay (conflict : Overlay.Conflict)
  | document (reason : Document.Unreadable)
  | generation (diagnostic : Diagnostic)
deriving Repr

/-- The message of a failure; what is wrong with a malformed document is left
unsaid. -/
def Failure.message : Failure → String
  | .config reason => "Configuration error: " ++ reason.message
  | .overlay conflict => "Merge error: " ++ conflict.message
  | .document .malformed => "JSON parsing error: "
  | .document reason => "OpenAPI error: " ++ reason.message
  | .generation diagnostic => "Generation failed: " ++ diagnostic.display

def ofJson (config : Config) (base : Json) (overlays : List Json) : Except Failure Client := do
  config.validate.mapError .config
  let merged ← (Overlay.mergeAll base overlays).mapError .overlay
  let document ← (Document.ofJson merged).mapError .document
  (ofDocument config document).mapError .generation

/-! ### What a client holds -/

def group (client : Client) (group : Group) : List Declaration :=
  (client.declarations.filter fun entry => entry.1 == group).map Prod.snd

def find? (client : Client) (name : String) : Option Declaration :=
  (client.declarations.map Prod.snd).find? fun declaration => declaration.name == name

def files (client : Client) (config : Config) : List SourceFile :=
  SourceFile.render client.declarations config.namespaceName

end Client

end ElmClient
