/-
The resolved form of a document: the shapes of its components and, for every
operation, the shapes of parameters, body and responses.
-/

import ElmClient.Document.Basic
import ElmClient.Shape

namespace ElmClient

structure Component where
  raw : String
  name : TypeName
  shape : Shape
  doc : Option String
deriving Repr, Inhabited

inductive Payload where
  | json (shape : Shape)
  | text
  | bytes
  | empty
deriving Repr, Inhabited

namespace Payload

def shape : Payload → Shape
  | .json shape => shape
  | .text => .string
  | .bytes => .bytes
  | .empty => .unit

def same : Payload → Payload → Bool
  | .json left, .json right => left.same right
  | .text, .text => true
  | .bytes, .bytes => true
  | .empty, .empty => true
  | _, _ => false

def isEmpty : Payload → Bool
  | .empty => true
  | _ => false

end Payload

structure EndpointParameter where
  name : String
  location : ParameterLocation
  required : Bool
  shape : Shape
  doc : Option String
deriving Repr, Inhabited

structure EndpointBody where
  payload : Payload
  mediaType : String
  required : Bool
  doc : Option String
deriving Repr, Inhabited

structure EndpointResponse where
  status : String
  payload : Payload
  doc : Option String
deriving Repr, Inhabited

structure Endpoint where
  id : String
  name : TypeName
  method : Method
  path : String
  summary : Option String
  description : Option String
  deprecated : Bool
  parameters : List EndpointParameter
  body : Option EndpointBody
  /-- Sorted by status. -/
  responses : List EndpointResponse
  security : Option (List SecurityRequirement)
deriving Repr, Inhabited

def Endpoint.trail (endpoint : Endpoint) : List String :=
  [endpoint.path, endpoint.method.text]

structure Api where
  components : List Component
  endpoints : List Endpoint
deriving Repr, Inhabited

end ElmClient
