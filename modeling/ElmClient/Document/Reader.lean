/-
Reading documents. Unknown keys are ignored and missing ones take defaults; null
stands for an absent optional field and is refused elsewhere. An object with a
text under `$ref` is a reference whatever else it holds. Elsewhere a list is read
as the record whose fields its items fill in order.
-/

import ElmClient.Document.Printer
import ElmClient.Json.Fields
import ElmClient.Json.Printer

namespace ElmClient

open Json

/-- A reference if the object has a text under `$ref`, otherwise the thing. Only an
object can be a reference. -/
def RefOr.ofJson? {α : Type} (read : Json → Option α) : Json → Option (RefOr α)
  | .object entries =>
      match required? string? "$ref" entries with
      | some target => some (.reference target)
      | none => (read (.object entries)).map .inline
  | other => (read other).map .inline

def SchemaKinds.ofJson? : Json → Option SchemaKinds
  | .string kind => some (.one kind)
  | json => (list? string? json).map .many

def anything? (json : Json) : Option Json := some json

def record? {α : Type} (names : List String) (read : List (String × Json) → Option α)
    (json : Json) : Option α :=
  (recordEntries? names false json).bind read

namespace Schema

def fieldNames : List String :=
  ["type", "format", "title", "description", "enum", "const", "nullable", "items", "properties",
    "required", "additionalProperties", "allOf", "anyOf", "oneOf", "deprecated"]

def items? (read : Json → Option (RefOr Schema)) (json : Json) : Option (ItemsOf Schema) :=
  match list? read json with
  | some members => some (.tuple members)
  | none => (read json).map .single

def additional? (read : Json → Option (RefOr Schema)) : Json → Option (AdditionalOf Schema)
  | .bool value => some (.allowed value)
  | json => (read json).map .schema

def ofEntries? (read : Json → Option (RefOr Schema)) (entries : List (String × Json)) :
    Option Schema := do
  some
    { kind := ← optional? SchemaKinds.ofJson? "type" entries
      format := ← optional? string? "format" entries
      title := ← optional? string? "title" entries
      description := ← optional? string? "description" entries
      enumeration := ← optional? (list? anything?) "enum" entries
      constant := ← optional? anything? "const" entries
      nullable := ← optional? bool? "nullable" entries
      items := ← optional? (items? read) "items" entries
      properties := ← defaulted? (members? read) [] "properties" entries
      required := ← defaulted? (list? string?) [] "required" entries
      additional := ← optional? (additional? read) "additionalProperties" entries
      allOf := ← optional? (list? read) "allOf" entries
      anyOf := ← optional? (list? read) "anyOf" entries
      oneOf := ← optional? (list? read) "oneOf" entries
      deprecated := ← defaulted? bool? false "deprecated" entries }

/-- A schema or reference whose value is at most as deep as the fuel. -/
def ofJsonWithin? : Nat → Json → Option (RefOr Schema)
  | 0, _ => none
  | fuel + 1, json =>
      RefOr.ofJson? (record? fieldNames (ofEntries? (ofJsonWithin? fuel))) json

def ofJson? (json : Json) : Option (RefOr Schema) :=
  ofJsonWithin? (json.depth + 1) json

end Schema

namespace ParameterLocation

def ofText : String → ParameterLocation
  | "path" => .path
  | "query" => .query
  | "header" => .header
  | "cookie" => .cookie
  | _ => .unknown

/-- A location by its name; the name may also be the only key of an object, with
null under it. -/
def ofJson? : Json → Option ParameterLocation
  | .string text => some (ofText text)
  | .object [(text, .null)] => some (ofText text)
  | _ => none

end ParameterLocation

def MediaType.ofJson? : Json → Option MediaType :=
  record? ["schema"] fun entries => do
    some { schema := ← optional? Schema.ofJson? "schema" entries }

def Parameter.ofJson? : Json → Option Parameter :=
  record? ["name", "in", "required", "description", "schema", "content", "deprecated"]
    fun entries => do
      some
        { name := ← required? string? "name" entries
          location := ← required? ParameterLocation.ofJson? "in" entries
          required := ← defaulted? bool? false "required" entries
          description := ← optional? string? "description" entries
          schema := ← optional? Schema.ofJson? "schema" entries
          content := ← defaulted? (members? MediaType.ofJson?) [] "content" entries
          deprecated := ← defaulted? bool? false "deprecated" entries }

def RequestBody.ofJson? : Json → Option RequestBody :=
  record? ["description", "content", "required"] fun entries => do
    some
      { description := ← optional? string? "description" entries
        content := ← defaulted? (members? MediaType.ofJson?) [] "content" entries
        required := ← defaulted? bool? false "required" entries }

def Response.ofJson? : Json → Option Response :=
  record? ["description", "content"] fun entries => do
    some
      { description := ← defaulted? string? "" "description" entries
        content := ← defaulted? (members? MediaType.ofJson?) [] "content" entries }

def requirement? : Json → Option SecurityRequirement :=
  members? (list? string?)

def SecurityScheme.ofJson? : Json → Option SecurityScheme :=
  record? ["type", "name", "in", "scheme", "bearerFormat", "description"] fun entries => do
    some
      { kind := ← required? string? "type" entries
        name := ← optional? string? "name" entries
        location := ← optional? string? "in" entries
        scheme := ← optional? string? "scheme" entries
        bearerFormat := ← optional? string? "bearerFormat" entries
        description := ← optional? string? "description" entries }

def Operation.ofJson? : Json → Option Operation :=
  record? ["operationId", "summary", "description", "tags", "parameters", "requestBody",
    "responses", "security", "deprecated"] fun entries => do
      some
        { operationId := ← optional? string? "operationId" entries
          summary := ← optional? string? "summary" entries
          description := ← optional? string? "description" entries
          tags := ← defaulted? (list? string?) [] "tags" entries
          parameters :=
            ← defaulted? (list? (RefOr.ofJson? Parameter.ofJson?)) [] "parameters" entries
          requestBody := ← optional? (RefOr.ofJson? RequestBody.ofJson?) "requestBody" entries
          responses :=
            ← defaulted? (members? (RefOr.ofJson? Response.ofJson?)) [] "responses" entries
          security := ← optional? (list? requirement?) "security" entries
          deprecated := ← defaulted? bool? false "deprecated" entries }

def PathItem.ofJson? : Json → Option PathItem :=
  record? ["summary", "description", "parameters", "get", "put", "post", "delete", "options",
    "head", "patch", "trace"] fun entries => do
      some
        { summary := ← optional? string? "summary" entries
          description := ← optional? string? "description" entries
          parameters :=
            ← defaulted? (list? (RefOr.ofJson? Parameter.ofJson?)) [] "parameters" entries
          get := ← optional? Operation.ofJson? "get" entries
          put := ← optional? Operation.ofJson? "put" entries
          post := ← optional? Operation.ofJson? "post" entries
          delete := ← optional? Operation.ofJson? "delete" entries
          options := ← optional? Operation.ofJson? "options" entries
          head := ← optional? Operation.ofJson? "head" entries
          patch := ← optional? Operation.ofJson? "patch" entries
          trace := ← optional? Operation.ofJson? "trace" entries }

def Info.empty : Info :=
  { title := "", version := "", description := none }

def Info.ofJson? : Json → Option Info :=
  record? ["title", "version", "description"] fun entries => do
    some
      { title := ← defaulted? string? "" "title" entries
        version := ← defaulted? string? "" "version" entries
        description := ← optional? string? "description" entries }

def serverVariable? : Json → Option String :=
  record? ["default"] (required? string? "default")

def Server.ofJson? : Json → Option Server :=
  record? ["url", "description", "variables"] fun entries => do
    some
      { url := ← required? string? "url" entries
        description := ← optional? string? "description" entries
        placeholders := ← defaulted? (members? serverVariable?) [] "variables" entries }

def Components.empty : Components :=
  { schemas := [], responses := [], parameters := [], requestBodies := [], securitySchemes := [] }

def Components.ofJson? : Json → Option Components :=
  record? ["schemas", "responses", "parameters", "requestBodies", "securitySchemes"]
    fun entries => do
      some
        { schemas := ← defaulted? (members? Schema.ofJson?) [] "schemas" entries
          responses :=
            ← defaulted? (members? (RefOr.ofJson? Response.ofJson?)) [] "responses" entries
          parameters :=
            ← defaulted? (members? (RefOr.ofJson? Parameter.ofJson?)) [] "parameters" entries
          requestBodies :=
            ← defaulted? (members? (RefOr.ofJson? RequestBody.ofJson?)) [] "requestBodies" entries
          securitySchemes :=
            ← defaulted? (members? SecurityScheme.ofJson?) [] "securitySchemes" entries }

namespace Document

inductive Unreadable where
  | oldVersion (swagger : Json)
  | otherVersion (version : String)
  | noVersion
  | malformed
deriving Repr

def Unreadable.message : Unreadable → String
  | .oldVersion swagger =>
      "Swagger " ++ swagger.compact
        ++ " documents are not supported; convert the document to OpenAPI 3 first"
  | .otherVersion version => "unsupported OpenAPI version `" ++ version ++ "`, expected 3.x"
  | .noVersion => "missing `openapi` version field"
  | .malformed => ""

def ofEntries? (entries : List (String × Json)) : Option Document := do
  some
    { openapi := ← defaulted? string? "" "openapi" entries
      info := ← defaulted? Info.ofJson? Info.empty "info" entries
      servers := ← defaulted? (list? Server.ofJson?) [] "servers" entries
      paths := ← defaulted? (members? PathItem.ofJson?) [] "paths" entries
      components := ← defaulted? Components.ofJson? Components.empty "components" entries
      security := ← optional? (list? requirement?) "security" entries }

def ofJson (json : Json) : Except Unreadable Document :=
  match json.get? "swagger" with
  | some swagger => throw (.oldVersion swagger)
  | none =>
      match (json.get? "openapi").bind Json.asString? with
      | none => throw .noVersion
      | some version =>
          if !Text.startsWith "3." version then throw (.otherVersion version)
          else
            match record? ["openapi", "info", "servers", "paths", "components", "security"]
                ofEntries? json with
            | some document => return document
            | none => throw .malformed

end Document

end ElmClient
