/-
What a request expects. The first success response gives the result; every other
response gives an entry of the error decoder table. Errors that all carry the
same payload share its type, others are united in an error type of the operation.
-/

import ElmClient.Elm.Codec
import ElmClient.Media

namespace ElmClient.Elm

variable {σ : Type}

structure ResponsePlan where
  success : String
  error : String
  /-- An expression of type `Expect error success`. -/
  expect : String
  declaration : Option Declaration
deriving DecidableEq, Repr, Inhabited

namespace ResponsePlan

def split? : List EndpointResponse → Option (EndpointResponse × List EndpointResponse)
  | [] => none
  | response :: rest =>
      if Status.isSuccess response.status then some (response, rest)
      else (split? rest).map fun found => (found.1, response :: found.2)

def split (endpoint : Endpoint) : Run σ (EndpointResponse × List EndpointResponse) :=
  match split? endpoint.responses with
  | some found => return found
  | none => Run.fail ("operation `" ++ endpoint.id ++ "` declares no 2xx or 3xx response")

def distinctPayloads (payloads : List Payload) : List Payload :=
  payloads.foldl
    (fun found payload => if found.any payload.same then found else found ++ [payload]) []

/-! ### Error decoders -/

def errorHandler (naming : Naming) : Payload → Run σ String
  | .json shape => do
      return common "jsonErrorDecoder" ++ " " ++ atom (← decoder naming shape)
  | .text => return common "textErrorDecoder"
  | .bytes => return common "bytesErrorDecoder"
  | .empty => return common "unitErrorDecoder"

def statusHandler (naming : Naming) (response : EndpointResponse) : Run σ (String × String) := do
  let handler ← Run.withPath response.status (errorHandler naming response.payload)
  return (response.status, handler)

/-- The constructor of the error type for a status. -/
def errorVariant (endpoint : Endpoint) (response : EndpointResponse) : TypeName :=
  endpoint.name.child response.status

def errorConstructor (naming : Naming) (endpoint : Endpoint) (response : EndpointResponse) :
    String :=
  let name := (errorVariant endpoint response).text
  match response.payload with
  | .empty => name
  | payload => name ++ " " ++ atom (typeExpression naming payload.shape)

/-- A handler that wraps what it decodes in the constructor of the status. -/
def wrappedHandler (naming : Naming) (endpoint : Endpoint) (response : EndpointResponse) :
    Run σ (String × String) := do
  let constructor := naming.qualified .errors (errorVariant endpoint response).text
  let handler ← Run.withPath response.status (errorHandler naming response.payload)
  let wrapped :=
    match response.payload with
    | .empty =>
        common "mapErrorDecoder" ++ " (\\_ -> " ++ constructor ++ ") " ++ handler
    | _ => common "mapErrorDecoder" ++ " " ++ constructor ++ " " ++ atom handler
  return (response.status, atom wrapped)

def errorDeclaration (naming : Naming) (endpoint : Endpoint) (errors : List EndpointResponse) :
    Declaration :=
  let name := (endpoint.name.child "Error").text
  Declaration.customType name (some ("Error responses of `" ++ endpoint.id ++ "`"))
    ("type " ++ name
      ++ leadLines "    = " "    | " (errors.map (errorConstructor naming endpoint)))

/-- The error side: its type, the handlers by status and the declared type. -/
structure ErrorPlan where
  error : String
  handlers : List (String × String)
  declaration : Option Declaration
deriving DecidableEq, Repr, Inhabited

def errorPlan (naming : Naming) (endpoint : Endpoint) (errors : List EndpointResponse) :
    Run σ ErrorPlan :=
  match distinctPayloads (errors.map EndpointResponse.payload) with
  | [] => return { error := "()", handlers := [], declaration := none }
  | [payload] => do
      let handlers ← Run.traverse (statusHandler naming) errors
      let error := typeExpression naming payload.shape
      return { error := error, handlers := handlers, declaration := none }
  | _ => do
      let handlers ← Run.traverse (wrappedHandler naming endpoint) errors
      let declaration := errorDeclaration naming endpoint errors
      let error := naming.qualified .errors declaration.name
      return { error := error, handlers := handlers, declaration := some declaration }

def tableEntry (entry : String × String) : String :=
  "( " ++ stringLiteral (Status.key entry.1) ++ ", " ++ atom entry.2 ++ " )"

def errorTable (handlers : List (String × String)) : String :=
  if handlers.isEmpty then "Dict.empty"
  else "Dict.fromList " ++ list (handlers.map tableEntry)

/-! ### The whole plan -/

def expectation (naming : Naming) (table : String) : Payload → Run σ (String × String)
  | .json shape => do
      let decode ← decoder naming shape
      return (typeExpression naming shape,
        common "ExpectJson" ++ " " ++ table ++ " " ++ atom decode)
  | .text => return ("String", common "ExpectString" ++ " " ++ table ++ " identity")
  | .bytes => return ("Bytes.Bytes", common "ExpectBytes" ++ " " ++ table ++ " identity")
  | .empty => return ("()", common "ExpectWhatever" ++ " " ++ table ++ " ()")

def ofEndpoint (naming : Naming) (endpoint : Endpoint) : Run σ ResponsePlan := do
  let (success, errors) ← split endpoint
  let plan ← errorPlan naming endpoint errors
  let table := atom (errorTable plan.handlers)
  let (result, expect) ←
    Run.withPath success.status (expectation naming table success.payload)
  return {
    success := result, error := plan.error, expect := expect, declaration := plan.declaration }

end ResponsePlan

end ElmClient.Elm
