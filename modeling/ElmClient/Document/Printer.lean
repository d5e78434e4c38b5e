/-
The written form of documents. Fields are written in a fixed order. Absent
optional fields are left out, and so are a few empty collections; everything
else is written even when it equals its default.
-/

import ElmClient.Document.Basic

namespace ElmClient

def optionalField {α : Type} (name : String) (write : α → Json) :
    Option α → List (String × Json)
  | some value => [(name, write value)]
  | none => []

def filledField {α : Type} (name : String) (write : List α → Json) (values : List α) :
    List (String × Json) :=
  if values.isEmpty then [] else [(name, write values)]

def textsToJson (texts : List String) : Json :=
  .array (texts.map .string)

def referenceToJson (target : String) : Json :=
  .object [("$ref", .string target)]

def SchemaKinds.toJson : SchemaKinds → Json
  | .one kind => .string kind
  | .many kinds => textsToJson kinds

namespace Schema

mutual

def toJson : Schema → Json
  | ⟨kind, format, title, description, enumeration, constant, nullable, items, properties,
      required, additional, allOf, anyOf, oneOf, deprecated⟩ =>
      .object
        (optionalField "type" SchemaKinds.toJson kind
          ++ optionalField "format" .string format
          ++ optionalField "title" .string title
          ++ optionalField "description" .string description
          ++ optionalField "enum" .array enumeration
          ++ optionalField "const" id constant
          ++ optionalField "nullable" .bool nullable
          ++ (match items with
            | none => []
            | some (.tuple members) => [("items", .array (refsToJson members))]
            | some (.single item) => [("items", refToJson item)])
          ++ (if properties.isEmpty then []
            else [("properties", .object (propertiesToJson properties))])
          ++ filledField "required" textsToJson required
          ++ (match additional with
            | none => []
            | some (.allowed value) => [("additionalProperties", .bool value)]
            | some (.schema item) => [("additionalProperties", refToJson item)])
          ++ (match allOf with
            | none => []
            | some members => [("allOf", .array (refsToJson members))])
          ++ (match anyOf with
            | none => []
            | some members => [("anyOf", .array (refsToJson members))])
          ++ (match oneOf with
            | none => []
            | some members => [("oneOf", .array (refsToJson members))])
          ++ [("deprecated", .bool deprecated)])

def refToJson : RefOr Schema → Json
  | .reference target => referenceToJson target
  | .inline schema => toJson schema

def refsToJson : List (RefOr Schema) → List Json
  | [] => []
  | member :: rest => refToJson member :: refsToJson rest

def propertiesToJson : List (String × RefOr Schema) → List (String × Json)
  | [] => []
  | (name, member) :: rest => (name, refToJson member) :: propertiesToJson rest

end

/-- Two schemas are the same when they are written alike, apart from the order
of object entries. -/
def refSame (left right : RefOr Schema) : Bool :=
  (refToJson left).same (refToJson right)

end Schema

def RefOr.toJson {α : Type} (write : α → Json) : RefOr α → Json
  | .reference target => referenceToJson target
  | .inline value => write value

def membersToJson {α : Type} (write : α → Json) (entries : List (String × α)) : Json :=
  .object (entries.map fun entry => (entry.1, write entry.2))

def listToJson {α : Type} (write : α → Json) (values : List α) : Json :=
  .array (values.map write)

def MediaType.toJson (media : MediaType) : Json :=
  .object (optionalField "schema" Schema.refToJson media.schema)

/-- How a location is written; every unknown one in the same way. -/
def ParameterLocation.keyword : ParameterLocation → String
  | .unknown => "other"
  | known => known.text

def Parameter.toJson (parameter : Parameter) : Json :=
  .object
    ([("name", .string parameter.name), ("in", .string parameter.location.keyword),
        ("required", .bool parameter.required)]
      ++ optionalField "description" .string parameter.description
      ++ optionalField "schema" Schema.refToJson parameter.schema
      ++ filledField "content" (membersToJson MediaType.toJson) parameter.content
      ++ [("deprecated", .bool parameter.deprecated)])

def RequestBody.toJson (body : RequestBody) : Json :=
  .object
    (optionalField "description" .string body.description
      ++ [("content", membersToJson MediaType.toJson body.content),
        ("required", .bool body.required)])

def Response.toJson (response : Response) : Json :=
  .object
    [("description", .string response.description),
      ("content", membersToJson MediaType.toJson response.content)]

def requirementToJson (requirement : SecurityRequirement) : Json :=
  membersToJson textsToJson requirement

def SecurityScheme.toJson (scheme : SecurityScheme) : Json :=
  .object
    ([("type", .string scheme.kind)]
      ++ optionalField "name" .string scheme.name
      ++ optionalField "in" .string scheme.location
      ++ optionalField "scheme" .string scheme.scheme
      ++ optionalField "bearerFormat" .string scheme.bearerFormat
      ++ optionalField "description" .string scheme.description)

def Operation.toJson (operation : Operation) : Json :=
  .object
    (optionalField "operationId" .string operation.operationId
      ++ optionalField "summary" .string operation.summary
      ++ optionalField "description" .string operation.description
      ++ [("tags", textsToJson operation.tags),
        ("parameters", listToJson (RefOr.toJson Parameter.toJson) operation.parameters)]
      ++ optionalField "requestBody" (RefOr.toJson RequestBody.toJson) operation.requestBody
      ++ [("responses", membersToJson (RefOr.toJson Response.toJson) operation.responses)]
      ++ optionalField "security" (listToJson requirementToJson) operation.security
      ++ [("deprecated", .bool operation.deprecated)])

def PathItem.toJson (item : PathItem) : Json :=
  .object
    (optionalField "summary" .string item.summary
      ++ optionalField "description" .string item.description
      ++ [("parameters", listToJson (RefOr.toJson Parameter.toJson) item.parameters)]
      ++ optionalField "get" Operation.toJson item.get
      ++ optionalField "put" Operation.toJson item.put
      ++ optionalField "post" Operation.toJson item.post
      ++ optionalField "delete" Operation.toJson item.delete
      ++ optionalField "options" Operation.toJson item.options
      ++ optionalField "head" Operation.toJson item.head
      ++ optionalField "patch" Operation.toJson item.patch
      ++ optionalField "trace" Operation.toJson item.trace)

def Info.toJson (info : Info) : Json :=
  .object
    ([("title", .string info.title), ("version", .string info.version)]
      ++ optionalField "description" .string info.description)

def variableToJson (default : String) : Json :=
  .object [("default", .string default)]

def Server.toJson (server : Server) : Json :=
  .object
    ([("url", .string server.url)]
      ++ optionalField "description" .string server.description
      ++ filledField "variables" (membersToJson variableToJson) server.placeholders)

def Components.toJson (components : Components) : Json :=
  .object
    [("schemas", membersToJson Schema.refToJson components.schemas),
      ("responses", membersToJson (RefOr.toJson Response.toJson) components.responses),
      ("parameters", membersToJson (RefOr.toJson Parameter.toJson) components.parameters),
      ("requestBodies", membersToJson (RefOr.toJson RequestBody.toJson) components.requestBodies),
      ("securitySchemes", membersToJson SecurityScheme.toJson components.securitySchemes)]

def Document.toJson (document : Document) : Json :=
  .object
    ([("openapi", .string document.openapi), ("info", document.info.toJson),
        ("servers", listToJson Server.toJson document.servers),
        ("paths", membersToJson PathItem.toJson document.paths),
        ("components", document.components.toJson)]
      ++ optionalField "security" (listToJson requirementToJson) document.security)

end ElmClient
