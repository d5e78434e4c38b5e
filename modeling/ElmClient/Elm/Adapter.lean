/-
Runners on an HTTP library. The libraries offer the same functions under different
module names, so each helper is written once and specialised; only runners that a
configured profile uses are written.
-/

import ElmClient.Config.Basic
import ElmClient.Elm.Support

namespace ElmClient.Elm

/-- What sets an HTTP library apart. -/
structure Adapter where
  lead : String
  http : String
  /-- Type variables in front of the arguments of its types. -/
  restriction : String
  timeout : String
  timeoutType : String
  recordAlias : String
  commandType : String
  taskType : String

namespace Adapter

def ofLibrary : Library → Adapter
  | .elmHttp =>
      { lead := "elmHttp"
        http := "Http"
        restriction := ""
        timeout := "wire.timeout"
        timeoutType := "Maybe Float"
        recordAlias := "ElmHttpRecord"
        commandType := "Cmd msg"
        taskType := "Task.Task" }
  | .effect =>
      { lead := "effect"
        http := "Effect.Http"
        restriction := "restriction "
        timeout := "Maybe.map Duration.milliseconds wire.timeout"
        timeoutType := "Maybe Duration.Duration"
        recordAlias := "EffectRecord"
        commandType := "Effect.Command.Command restriction toMsg msg"
        taskType := "Effect.Task.Task restriction" }

def helper (adapter : Adapter) (role : String) : String :=
  adapter.lead ++ role

def member (adapter : Adapter) (name : String) : String :=
  adapter.http ++ "." ++ name

def define (adapter : Adapter) (role : String) (lines : String → List String) : Declaration :=
  Support.function (adapter.helper role) none (lines (adapter.helper role))

/-! ### Conversions -/

def response (adapter : Adapter) : Declaration :=
  adapter.define "Response" fun name =>
    [name ++ " : " ++ adapter.member "Response body -> Response body",
      name ++ " response =",
      "    case response of",
      "        " ++ adapter.member "BadUrl_ url ->",
      "            ResponseBadUrl url",
      "",
      "        " ++ adapter.member "Timeout_ ->",
      "            ResponseTimeout",
      "",
      "        " ++ adapter.member "NetworkError_ ->",
      "            ResponseNetworkError",
      "",
      "        " ++ adapter.member "BadStatus_ metadata body ->",
      "            ResponseBadStatus metadata body",
      "",
      "        " ++ adapter.member "GoodStatus_ metadata body ->",
      "            ResponseGoodStatus metadata body"]

def body (adapter : Adapter) : Declaration :=
  adapter.define "Body" fun name =>
    [name ++ " : Body -> " ++ adapter.member "Body",
      name ++ " body =",
      "    case body of",
      "        EmptyBody ->",
      "            " ++ adapter.member "emptyBody",
      "",
      "        JsonBody json ->",
      "            " ++ adapter.member "jsonBody json",
      "",
      "        StringBody mime text ->",
      "            " ++ adapter.member "stringBody mime text",
      "",
      "        BytesBody mime bytes ->",
      "            " ++ adapter.member "bytesBody mime bytes"]

def headers (adapter : Adapter) : Declaration :=
  adapter.define "Headers" fun name =>
    [name ++ " : List ( String, String ) -> List " ++ adapter.member "Header",
      name ++ " pairs =",
      "    List.map (\\( name, headerValue ) -> "
        ++ adapter.member "header name headerValue) pairs"]

def choice (adapter : Adapter) (onBytes onText : String) : List String :=
  let converted := " expect (" ++ adapter.helper "Response" ++ " response))"
  ["    if wantsBytes expect then",
    "        " ++ adapter.member onBytes ++ " (\\response -> resolveBytes" ++ converted,
    "",
    "    else",
    "        " ++ adapter.member onText ++ " (\\response -> resolveString" ++ converted]

def resolverType (adapter : Adapter) : String :=
  adapter.member "Resolver " ++ adapter.restriction ++ "(Error err) success"

def resolver (adapter : Adapter) : Declaration :=
  adapter.define "Resolver" fun name =>
    [name ++ " : Expect err success -> " ++ adapter.resolverType, name ++ " expect ="]
      ++ adapter.choice "bytesResolver" "stringResolver"

/-! ### Records -/

def recordType (adapter : Adapter) : String :=
  adapter.recordAlias ++ " " ++ adapter.restriction ++ "err success"

def recordAliasOf (adapter : Adapter) : Declaration :=
  Support.function adapter.recordAlias
    (some
      "Everything needed to run a request as a task, for callers that want to adjust it first")
    ["type alias " ++ adapter.recordType ++ " =",
      "    \x7b method : String",
      "    , headers : List " ++ adapter.member "Header",
      "    , url : String",
      "    , body : " ++ adapter.member "Body",
      "    , resolver : " ++ adapter.resolverType,
      "    , timeout : " ++ adapter.timeoutType,
      "    \x7d"]

def record (adapter : Adapter) : Declaration :=
  adapter.define "Record" fun name =>
    [name ++ " : Wire err success -> " ++ adapter.recordType,
      name ++ " wire =",
      "    \x7b method = wire.method",
      "    , headers = " ++ adapter.helper "Headers" ++ " wire.headers",
      "    , url = wire.url",
      "    , body = " ++ adapter.helper "Body" ++ " wire.body",
      "    , resolver = " ++ adapter.helper "Resolver" ++ " wire.expect",
      "    , timeout = " ++ adapter.timeout,
      "    \x7d"]

/-! ### Runners -/

def expect (adapter : Adapter) : Declaration :=
  adapter.define "Expect" fun name =>
    [name ++ " : (Result (Error err) success -> msg) -> Expect err success -> "
        ++ adapter.member "Expect msg",
      name ++ " toMsg expect ="]
      ++ adapter.choice "expectBytesResponse toMsg" "expectStringResponse toMsg"

def command (adapter : Adapter) : Declaration :=
  adapter.define "Cmd" fun name =>
    [name ++ " : (Result (Error err) success -> msg) -> Wire err success -> "
        ++ adapter.commandType,
      name ++ " toMsg wire =",
      "    " ++ adapter.member "request",
      "        \x7b method = wire.method",
      "        , headers = " ++ adapter.helper "Headers" ++ " wire.headers",
      "        , url = wire.url",
      "        , body = " ++ adapter.helper "Body" ++ " wire.body",
      "        , expect = " ++ adapter.helper "Expect" ++ " toMsg wire.expect",
      "        , timeout = " ++ adapter.timeout,
      "        , tracker = wire.tracker",
      "        \x7d"]

def task (adapter : Adapter) : Declaration :=
  adapter.define "Task" fun name =>
    [name ++ " : Wire err success -> " ++ adapter.taskType ++ " (Error err) success",
      name ++ " wire =",
      "    " ++ adapter.member "task (" ++ adapter.helper "Record" ++ " wire)"]

/-- The helpers of a library for the conventions in use; records are always there. -/
def declarations (library : Library) (conventions : List Convention) : List Declaration :=
  let adapter := ofLibrary library
  [adapter.response, adapter.body, adapter.headers, adapter.resolver, adapter.recordAliasOf,
      adapter.record]
    ++ (if conventions.contains .cmd then [adapter.expect, adapter.command] else [])
    ++ (if conventions.contains .task then [adapter.task] else [])

end Adapter

def conventionsOn (library : Library) (profiles : List EffectProfile) : List Convention :=
  (profiles.filter fun profile => profile.library == library).map EffectProfile.convention

def libraryDeclarations (profiles : List EffectProfile) (library : Library) : List Declaration :=
  match conventionsOn library profiles with
  | [] => []
  | conventions => Adapter.declarations library conventions

def commonDeclarations (profiles : List EffectProfile) : List Declaration :=
  Support.json ++ Support.response
    ++ [Library.elmHttp, Library.effect].flatMap (libraryDeclarations profiles)

end ElmClient.Elm
