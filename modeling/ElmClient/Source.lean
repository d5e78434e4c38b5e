/-
Document texts. The name of a text decides its format: `.json` is strict JSON,
`.yaml` and `.yml` are YAML, and under any other name JSON is tried before YAML.
-/

import ElmClient.Json.Reader
import ElmClient.Yaml.Value

namespace ElmClient.Source

inductive Unreadable where
  | json
  | yaml
  | neither (name : String)
deriving DecidableEq, Repr

/-- A YAML text as JSON; a key that JSON cannot hold is a JSON failure. -/
def parseYaml (content : String) : Except Unreadable Json :=
  match Yaml.Value.parse? content with
  | none => throw .yaml
  | some value =>
      match value.toJson? with
      | none => throw .json
      | some json => return json

def parse (name content : String) : Except Unreadable Json :=
  if Text.endsWith ".json" name then
    match Json.parse? content with
    | some json => return json
    | none => throw .json
  else if Text.endsWith ".yaml" name || Text.endsWith ".yml" name then parseYaml content
  else
    match Json.parse? content with
    | some json => return json
    | none =>
        match parseYaml content with
        | .ok json => return json
        | .error _ => throw (.neither name)

/-- The part of the message that does not come from a parser. -/
def neitherMessage (name : String) : String :=
  "Failed to parse `" ++ name ++ "` as JSON or YAML: "

end ElmClient.Source
