/-
Request functions. Every operation has a builder that describes its request
independently of the HTTP library, and for every configured profile one function
that hands the request to a runner of the common module.
-/

import ElmClient.Elm.Parameters
import ElmClient.Elm.Responses
import ElmClient.Elm.Security
import ElmClient.Elm.Servers

namespace ElmClient.Elm

/-! ### Names and documentation -/

def wireName (endpoint : Endpoint) : String :=
  endpoint.name.toValueName ++ "Wire_"

def functionName (endpoint : Endpoint) (profile : EffectProfile) : String :=
  endpoint.name.toValueName ++ profile.functionSuffix

/-- Summary and description; one that repeats the other is left out. -/
def descriptions (endpoint : Endpoint) : List String :=
  let texts := ([endpoint.summary, endpoint.description].filterMap id).map Text.trim
  match texts.filter fun text => !text.isEmpty with
  | [first, second] => if first = second then [first] else [first, second]
  | others => others

def requestDoc (endpoint : Endpoint) : Option String :=
  match descriptions endpoint ++ (if endpoint.deprecated then ["**Deprecated**"] else []) with
  | [] => none
  | parts => some (Text.join "\n\n" parts)

/-! ### Inputs -/

def bodyType? (naming : Naming) (body : EndpointBody) : Option String :=
  if body.payload.isEmpty then none
  else some (maybeUnless body.required (typeExpression naming body.payload.shape))

def parameterEntries (naming : Naming) (parameters : RequestParameters) :
    List (String × String) :=
  parameters.fields.map fun field => (field.field, parameterType naming field.parameter)

def inputEntries (naming : Naming) (endpoint : Endpoint) (base : BaseUrl)
    (authorization : Authorization) (parameters : RequestParameters) : List (String × String) :=
  (if base.isInput then [("server", "String")] else [])
    ++ (if authorization.isEmpty then [] else [("authorization", authorization.inputType)])
    ++ (if parameters.isEmpty then []
      else [("params", record (parameterEntries naming parameters) ":")])
    ++ (match endpoint.body.bind (bodyType? naming) with
      | some body => [("body", body)]
      | none => [])

def extensibleRecord (entries : List (String × String)) : String :=
  let inline := "\x7b config | " ++ inlineEntries entries ":" ++ " \x7d"
  if fitsOnLine inline then inline else tallExtension "config" entries ":"

/-- A signature; an input of several lines stands on lines of its own. -/
def signature (name input output : String) : String :=
  if Text.hasChar '\n' input then name ++ " :\n" ++ indent input 1 ++ "\n    -> " ++ output
  else name ++ " : " ++ input ++ " -> " ++ output

/-! ### Parts of a request -/

def bodyWrapper (naming : Naming) (mediaType : String) : Payload → Run Helpers String
  | .json shape => do
      let encode := atom (← encoder naming 1 shape)
      if MediaType.essence mediaType = "application/json" then
        return common "JsonBody" ++ " (" ++ encode ++ " payload)"
      else
        return common "StringBody" ++ " " ++ stringLiteral mediaType
          ++ " (Json.Encode.encode 0 (" ++ encode ++ " payload))"
  | .text => return common "StringBody" ++ " " ++ stringLiteral mediaType ++ " payload"
  | .bytes => return common "BytesBody" ++ " " ++ stringLiteral mediaType ++ " payload"
  | .empty => return common "EmptyBody"

def presentBody (naming : Naming) (body : EndpointBody) : Run Helpers String := do
  let wrapper := "(\\payload -> " ++ (← bodyWrapper naming body.mediaType body.payload) ++ ")"
  if body.required then return wrapper ++ " config.body"
  else
    return "Maybe.withDefault " ++ common "EmptyBody" ++ " (Maybe.map " ++ wrapper
      ++ " config.body)"

def bodyExpression (naming : Naming) (endpoint : Endpoint) : Run Helpers String :=
  match endpoint.body with
  | some body => if body.payload.isEmpty then return common "EmptyBody" else presentBody naming body
  | none => return common "EmptyBody"

def pathSegments (path : String) : List String :=
  (Text.splitOn '/' path).filter fun segment => !segment.isEmpty

def queryExpression (entries : List String) : String :=
  if entries.isEmpty then "[]"
  else
    "(List.map (\\( queryKey, queryValue ) -> Url.Builder.string queryKey queryValue) "
      ++ "(List.filterMap identity " ++ list entries ++ "))"

def urlExpression (naming : Naming) (endpoint : Endpoint) (base : BaseUrl)
    (authorization : Authorization) (parameters : RequestParameters) : Run Helpers String := do
  let segments ← Run.traverse (segmentExpression naming parameters) (pathSegments endpoint.path)
  let entries ← Run.traverse (pairEntry naming) parameters.query
  return "Url.Builder.crossOrigin " ++ atom base.expression ++ " " ++ list segments ++ " "
    ++ queryExpression (entries ++ authorization.query)

def headersExpression (naming : Naming) (authorization : Authorization)
    (parameters : RequestParameters) : Run Helpers String := do
  let entries ← Run.traverse (pairEntry naming) parameters.header
  match entries ++ authorization.headers with
  | [] => return "[]"
  | headers => return "List.filterMap identity " ++ list headers

/-! ### Whole requests -/

structure Request where
  endpoint : Endpoint
  responses : ResponsePlan
  inputs : List (String × String)
  url : String
  headers : String
  body : String

namespace Request

def ofEndpoint (naming : Naming) (document : Document) (base : BaseUrl) (endpoint : Endpoint) :
    Run Helpers Request := do
  let responses ← Run.withPath "responses" (ResponsePlan.ofEndpoint naming endpoint)
  let parameters ← Run.withPath "parameters" (RequestParameters.partition endpoint)
  let authorization ← Authorization.ofEndpoint document endpoint
  let url ← urlExpression naming endpoint base authorization parameters
  let headers ← headersExpression naming authorization parameters
  let body ← Run.withPath "requestBody" (bodyExpression naming endpoint)
  return {
    endpoint := endpoint, responses := responses
    inputs := inputEntries naming endpoint base authorization parameters
    url := url, headers := headers, body := body }

def outcomes (request : Request) : String :=
  atom request.responses.error ++ " " ++ atom request.responses.success

def failure (request : Request) : String :=
  "(" ++ common "Error" ++ " " ++ atom request.responses.error ++ ")"

def wireRecord (request : Request) : String :=
  tallRecord
    [("method", stringLiteral request.endpoint.method.verb), ("url", request.url),
      ("headers", request.headers), ("body", request.body),
      ("expect", request.responses.expect), ("timeout", "Nothing"), ("tracker", "Nothing")] "="

/-- A function of the record `config`, or a plain value when nothing is put in. -/
def functionSource (name input output body : String) (isPlain : Bool) : String :=
  if isPlain then name ++ " : " ++ output ++ "\n" ++ name ++ " =\n" ++ body
  else signature name input output ++ "\n" ++ name ++ " config =\n" ++ body

def wireDeclaration (request : Request) : Declaration :=
  let name := wireName request.endpoint
  Declaration.value name none
    (functionSource name (extensibleRecord request.inputs)
      (common "Wire" ++ " " ++ request.outcomes) (indent request.wireRecord 1)
      request.inputs.isEmpty)

def resultType (request : Request) : EffectProfile → String
  | ⟨.elmHttp, .cmd⟩ => "Cmd msg"
  | ⟨.elmHttp, .task⟩ =>
      "Task.Task " ++ request.failure ++ " " ++ atom request.responses.success
  | ⟨.elmHttp, .record⟩ => common "ElmHttpRecord" ++ " " ++ request.outcomes
  | ⟨.effect, .cmd⟩ => "Effect.Command.Command restriction toMsg msg"
  | ⟨.effect, .task⟩ =>
      "Effect.Task.Task restriction " ++ request.failure ++ " " ++ atom request.responses.success
  | ⟨.effect, .record⟩ => common "EffectRecord" ++ " restriction " ++ request.outcomes

def messageEntry (request : Request) : String × String :=
  ("toMsg", "Result " ++ request.failure ++ " " ++ atom request.responses.success ++ " -> msg")

def wireCall (request : Request) : String :=
  let name := wireName request.endpoint
  if request.inputs.isEmpty then name else "(" ++ name ++ " config)"

def functionDeclaration (request : Request) (profile : EffectProfile) : Declaration :=
  let name := functionName request.endpoint profile
  let isCommand := profile.convention == .cmd
  let inputs := request.inputs ++ (if isCommand then [request.messageEntry] else [])
  let runner := common profile.runner ++ (if isCommand then " config.toMsg" else "")
  Declaration.value name (requestDoc request.endpoint)
    (functionSource name (record inputs ":") (request.resultType profile)
      ("    " ++ runner ++ " " ++ request.wireCall) inputs.isEmpty)

def declarations (request : Request) (profiles : List EffectProfile) : List Grouped :=
  (match request.responses.declaration with
    | some declaration => [(Group.errors, declaration)]
    | none => [])
    ++ (.requests, request.wireDeclaration)
      :: profiles.map fun profile => (.requests, request.functionDeclaration profile)

end Request

end ElmClient.Elm
