/-
Request parameters by location. Every variable of the path template needs a
path parameter, and path parameters must be required and appear in the template.
Parameters are read from fields of one input record.
-/

import ElmClient.Elm.Stringify
import ElmClient.Elm.Template

namespace ElmClient.Elm

variable {σ : Type}

inductive Bucket where
  | path
  | query
  | header
deriving DecidableEq, Repr

structure ParameterField where
  field : String
  parameter : EndpointParameter
deriving Repr, Inhabited

structure RequestParameters where
  path : List ParameterField
  query : List ParameterField
  header : List ParameterField
deriving Repr, Inhabited

namespace RequestParameters

def fields (parameters : RequestParameters) : List ParameterField :=
  parameters.path ++ parameters.query ++ parameters.header

def isEmpty (parameters : RequestParameters) : Bool :=
  parameters.fields.isEmpty

/-- The bucket of a parameter; none when the parameter is left out. -/
def bucket? (template : String) (parameter : EndpointParameter) : Run σ (Option Bucket) := do
  let name := parameter.name
  match parameter.location with
  | .path =>
      if !parameter.required then
        Run.fail ("path parameter `" ++ name ++ "` must be required")
      else if !(templateVariables template).contains name then
        Run.placeholderOr
          ("path parameter `" ++ name ++ "` does not appear in `" ++ template ++ "`") none
      else return some .path
  | .query => return some .query
  | .header => return some .header
  | other =>
      Run.placeholderOr (other.text ++ " parameter `" ++ name ++ "` is not supported") none

def placed? (template : String) (parameter : EndpointParameter) :
    Run σ (Option (Bucket × EndpointParameter)) := do
  return (← bucket? template parameter).map fun bucket => (bucket, parameter)

def select (bucket : Bucket) (placed : List (Bucket × ParameterField)) : List ParameterField :=
  (placed.filter fun entry => entry.1 == bucket).map Prod.snd

def ofPlaced (placed : List (Bucket × EndpointParameter)) : RequestParameters :=
  let names := Fresh.assign Fresh.appendNumber
    (placed.map fun entry => Name.toValueName entry.2.name)
  let fields := (placed.zip names).map fun entry =>
    (entry.1.1, ({ field := entry.2, parameter := entry.1.2 } : ParameterField))
  { path := select .path fields, query := select .query fields, header := select .header fields }

def checkVariables (path : List ParameterField) : List String → Run σ Unit
  | [] => return ()
  | variableName :: rest =>
      if path.any fun entry => entry.parameter.name == variableName then checkVariables path rest
      else
        Run.fail ("path template variable `\x7b" ++ variableName
          ++ "\x7d` has no matching path parameter")

def partition (endpoint : Endpoint) : Run σ RequestParameters := do
  let placed ← Run.traverse (placed? endpoint.path) endpoint.parameters
  let parameters := ofPlaced (placed.filterMap id)
  checkVariables parameters.path (templateVariables endpoint.path)
  return parameters

end RequestParameters

def parameterType (naming : Naming) (parameter : EndpointParameter) : String :=
  maybeUnless parameter.required (typeExpression naming parameter.shape)

def parameterAccess (field : ParameterField) : String :=
  "config.params." ++ field.field

def pairEntry (naming : Naming) (field : ParameterField) : Run Helpers String := do
  let parameter := field.parameter
  let key := stringLiteral parameter.name
  let value := parameterAccess field
  let function ← Run.withPath parameter.name (stringify naming parameter.shape)
  match parameter.required, function with
  | true, .always function =>
      return "Just ( " ++ key ++ ", " ++ atom function ++ " " ++ value ++ " )"
  | true, .sometimes function =>
      return "Maybe.map (\\param -> ( " ++ key ++ ", param )) (" ++ atom function ++ " " ++ value
        ++ ")"
  | false, .always function =>
      return "Maybe.map (\\param -> ( " ++ key ++ ", " ++ atom function ++ " param )) " ++ value
  | false, .sometimes function =>
      return "Maybe.map (\\param -> ( " ++ key ++ ", param )) (Maybe.andThen " ++ atom function
        ++ " " ++ value ++ ")"

def interpolation (naming : Naming) (field : ParameterField) : Run Helpers String := do
  let value := parameterAccess field
  let function ←
    Run.withPath field.parameter.name (stringify naming field.parameter.shape)
  let text :=
    match function with
    | .always function => atom function ++ " " ++ value
    | .sometimes function => "Maybe.withDefault \"\" (" ++ atom function ++ " " ++ value ++ ")"
  return "Url.percentEncode (" ++ text ++ ")"

def pieceExpression (naming : Naming) (parameters : RequestParameters) : Piece → Run Helpers String
  | .literal text => return stringLiteral text
  | .variable name =>
      match parameters.path.find? fun entry => entry.parameter.name == name with
      | some field => interpolation naming field
      | none => return stringLiteral (Piece.variable name).text

def segmentExpression (naming : Naming) (parameters : RequestParameters) (segment : String) :
    Run Helpers String := do
  match Piece.ofTemplate segment with
  | [] => return stringLiteral ""
  | pieces =>
      return Text.join " ++ " (← Run.traverse (pieceExpression naming parameters) pieces)

end ElmClient.Elm
