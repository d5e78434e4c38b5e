/-
Elm packages that generated code depends on: those of the configuration, and
those of every format entry that a component, parameter, body or JSON response
makes use of.
-/

import ElmClient.Config.Basic
import ElmClient.Resolve.Api

namespace ElmClient.Packages

def ofPrimitive (formats : FormatRegistry) (primitive : Primitive) : List String :=
  match primitive.format.bind (formats.find? primitive.kind) with
  | some entry => entry.packages
  | none => []

def ofShape (formats : FormatRegistry) (shape : Shape) : List String :=
  shape.nested.flatMap fun inner =>
    match inner with
    | .primitive value => ofPrimitive formats value
    | _ => []

def payloadShapes : Payload → List Shape
  | .json shape => [shape]
  | _ => []

def endpointShapes (endpoint : Endpoint) : List Shape :=
  endpoint.parameters.map EndpointParameter.shape
    ++ (endpoint.body.toList.flatMap fun body => payloadShapes body.payload)
    ++ endpoint.responses.flatMap fun response => payloadShapes response.payload

def apiShapes (api : Api) : List Shape :=
  api.components.map Component.shape ++ api.endpoints.flatMap endpointShapes

def required (config : Config) (api : Api) : List String :=
  Sorted.texts (config.basePackages ++ (apiShapes api).flatMap (ofShape config.formats))

end ElmClient.Packages
