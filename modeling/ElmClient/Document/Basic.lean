/-
The model of an OpenAPI 3 document. References are kept as they are written, and
keywords of a schema are optional, because an absent keyword and an empty one
mean different things. Maps keep the order of the document.
-/

import ElmClient.Json.Basic
import ElmClient.Text.Edit

namespace ElmClient

inductive RefOr (α : Type) where
  | reference (target : String)
  | inline (value : α)
deriving Repr, Inhabited

def RefOr.inline? {α : Type} : RefOr α → Option α
  | .reference _ => none
  | .inline value => some value

/-! ### Schemas -/

inductive SchemaKinds where
  | one (kind : String)
  | many (kinds : List String)
deriving DecidableEq, Repr, Inhabited

def SchemaKinds.toList : SchemaKinds → List String
  | .one kind => [kind]
  | .many kinds => kinds

inductive ItemsOf (σ : Type) where
  | tuple (members : List (RefOr σ))
  | single (item : RefOr σ)
deriving Repr, Inhabited

inductive AdditionalOf (σ : Type) where
  | allowed (value : Bool)
  | schema (item : RefOr σ)
deriving Repr, Inhabited

structure Schema where
  kind : Option SchemaKinds
  format : Option String
  title : Option String
  description : Option String
  enumeration : Option (List Json)
  constant : Option Json
  nullable : Option Bool
  items : Option (ItemsOf Schema)
  properties : List (String × RefOr Schema)
  required : List String
  additional : Option (AdditionalOf Schema)
  allOf : Option (List (RefOr Schema))
  anyOf : Option (List (RefOr Schema))
  oneOf : Option (List (RefOr Schema))
  deprecated : Bool
deriving Repr, Inhabited

def joinDoc : Option String → Option String → Option String
  | some title, some description => some (title ++ "\n\n" ++ description)
  | some text, none => some text
  | none, some text => some text
  | none, none => none

namespace Schema

def kinds (schema : Schema) : List String :=
  match schema.kind with
  | some kinds => kinds.toList
  | none => []

def isNullKind (schema : Schema) : Bool :=
  !schema.kinds.isEmpty && schema.kinds.all (· == "null")

def isUnconstrained (schema : Schema) : Bool :=
  schema.kind.isNone && schema.format.isNone && schema.enumeration.isNone
    && schema.constant.isNone && schema.items.isNone && schema.properties.isEmpty
    && schema.additional.isNone && schema.allOf.isNone && schema.anyOf.isNone
    && schema.oneOf.isNone

def doc (schema : Schema) : Option String :=
  joinDoc schema.title schema.description

end Schema

def RefOr.doc (schema : RefOr Schema) : Option String :=
  schema.inline?.bind Schema.doc

/-! ### Requests and responses -/

inductive ParameterLocation where
  | path
  | query
  | header
  | cookie
  | unknown
deriving DecidableEq, Repr, Inhabited

def ParameterLocation.text : ParameterLocation → String
  | .path => "path"
  | .query => "query"
  | .header => "header"
  | .cookie => "cookie"
  | .unknown => "unknown"

structure MediaType where
  schema : Option (RefOr Schema)
deriving Repr, Inhabited

structure Parameter where
  name : String
  location : ParameterLocation
  required : Bool
  description : Option String
  schema : Option (RefOr Schema)
  content : List (String × MediaType)
  deprecated : Bool
deriving Repr, Inhabited

structure RequestBody where
  description : Option String
  content : List (String × MediaType)
  required : Bool
deriving Repr, Inhabited

structure Response where
  description : String
  content : List (String × MediaType)
deriving Repr, Inhabited

abbrev SecurityRequirement := List (String × List String)

structure SecurityScheme where
  kind : String
  name : Option String
  location : Option String
  scheme : Option String
  bearerFormat : Option String
  description : Option String
deriving DecidableEq, Repr, Inhabited

/-! ### Operations -/

/-- HTTP methods, in the order of their names. -/
inductive Method where
  | delete
  | get
  | head
  | options
  | patch
  | post
  | put
  | trace
deriving DecidableEq, Repr, Inhabited

namespace Method

def text : Method → String
  | .delete => "delete"
  | .get => "get"
  | .head => "head"
  | .options => "options"
  | .patch => "patch"
  | .post => "post"
  | .put => "put"
  | .trace => "trace"

def verb (method : Method) : String :=
  Text.upper method.text

end Method

structure Operation where
  operationId : Option String
  summary : Option String
  description : Option String
  tags : List String
  parameters : List (RefOr Parameter)
  requestBody : Option (RefOr RequestBody)
  responses : List (String × RefOr Response)
  /-- An empty list opts out of the document's requirements. -/
  security : Option (List SecurityRequirement)
  deprecated : Bool
deriving Repr, Inhabited

structure PathItem where
  summary : Option String
  description : Option String
  parameters : List (RefOr Parameter)
  get : Option Operation
  put : Option Operation
  post : Option Operation
  delete : Option Operation
  options : Option Operation
  head : Option Operation
  patch : Option Operation
  trace : Option Operation
deriving Repr, Inhabited

def PathItem.operations (item : PathItem) : List (Method × Operation) :=
  [(Method.delete, item.delete), (.get, item.get), (.head, item.head), (.options, item.options),
    (.patch, item.patch), (.post, item.post), (.put, item.put), (.trace, item.trace)].filterMap
    fun entry => entry.2.map fun operation => (entry.1, operation)

/-! ### Documents -/

structure Info where
  title : String
  version : String
  description : Option String
deriving DecidableEq, Repr, Inhabited

structure Server where
  url : String
  description : Option String
  placeholders : List (String × String)
deriving DecidableEq, Repr, Inhabited

/-- The URL with every variable in braces replaced by its default, one variable
after the other. -/
def Server.resolvedUrl (server : Server) : String :=
  server.placeholders.foldl
    (fun url entry => Text.replaceAll ("\x7b" ++ entry.1 ++ "\x7d") entry.2 url) server.url

structure Components where
  schemas : List (String × RefOr Schema)
  responses : List (String × RefOr Response)
  parameters : List (String × RefOr Parameter)
  requestBodies : List (String × RefOr RequestBody)
  securitySchemes : List (String × SecurityScheme)
deriving Repr, Inhabited

structure Document where
  openapi : String
  info : Info
  servers : List Server
  paths : List (String × PathItem)
  components : Components
  security : Option (List SecurityRequirement)
deriving Repr, Inhabited

structure PlacedOperation where
  path : String
  method : Method
  item : PathItem
  operation : Operation
deriving Repr, Inhabited

/-- All operations, ordered by path and then by method. -/
def Document.operations (document : Document) : List PlacedOperation :=
  let paths := document.paths.mergeSort fun left right => decide (left.1 ≤ right.1)
  paths.flatMap fun entry =>
    entry.2.operations.map fun (method, operation) =>
      { path := entry.1, method := method, item := entry.2, operation := operation }

end ElmClient
