/-
The written form of configurations. A configuration is read from a record; user
formats are layered over the ones that are always present. Writing gives every
field in a fixed order.
-/

import ElmClient.Config.Basic
import ElmClient.Json.Fields
import ElmClient.Toml.Reader

namespace ElmClient

namespace EffectProfile

def ofJson? (json : Json) : Option EffectProfile :=
  json.string?.bind ofTag?

end EffectProfile

namespace ServerMode

/-- A mode with the fields that belong to it; a list names the mode first. -/
def ofMode? (mode : String) (fields : Json) : Option ServerMode :=
  match mode with
  | "default" =>
      match fields with
      | .array (_ :: _) => none
      | _ => some .fromDocument
  | "single" => do
      some (.single (← Json.required? Json.string? "url"
        (← Json.recordEntries? ["url"] false fields)))
  | "multiple" => do
      some (.multiple (← Json.required? (Json.members? Json.string?) "servers"
        (← Json.recordEntries? ["servers"] false fields)))
  | _ => none

def ofJson? : Json → Option ServerMode
  | .object entries => do
      ofMode? (← Json.required? Json.string? "mode" entries) (.object entries)
  | .array (.string mode :: fields) => ofMode? mode (.array fields)
  | _ => none

def toJson : ServerMode → Json
  | .fromDocument => .object [("mode", .string "default")]
  | .single url => .object [("mode", .string "single"), ("url", .string url)]
  | .multiple servers =>
      .object [("mode", .string "multiple"),
        ("servers", .object (servers.map fun server => (server.1, .string server.2)))]

end ServerMode

namespace FormatEntry

def fieldNames : List String :=
  ["annotation", "encode", "decode", "param_stringify", "required_packages"]

def ofJson? (surplus : Bool) (json : Json) : Option FormatEntry := do
  let entries ← Json.recordEntries? fieldNames surplus json
  if !Json.onlyKeys fieldNames entries then none
  else
    some
      { elmType := ← Json.required? Json.string? "annotation" entries
        encode := ← Json.required? Json.string? "encode" entries
        decode := ← Json.required? Json.string? "decode" entries
        stringify := ← Json.optional? Json.string? "param_stringify" entries
        packages :=
          ← Json.defaulted? (Json.list? Json.string?) [] "required_packages" entries }

/-- Absent stringifiers and empty package lists are not written. -/
def toJson (entry : FormatEntry) : Json :=
  .object
    ([("annotation", .string entry.elmType), ("encode", .string entry.encode),
        ("decode", .string entry.decode)]
      ++ (match entry.stringify with
        | some function => [("param_stringify", .string function)]
        | none => [])
      ++ (if entry.packages.isEmpty then []
        else [("required_packages", .array (entry.packages.map .string))]))

end FormatEntry

namespace FormatRegistry

def ofJson? (surplus : Bool) (json : Json) : Option FormatRegistry :=
  (Json.members? (Json.members? (FormatEntry.ofJson? surplus)) json).map builtIn.layer

def toJson (registry : FormatRegistry) : Json :=
  .object (registry.kinds.map fun kind =>
    (kind.1, .object (kind.2.map fun format => (format.1, format.2.toJson))))

end FormatRegistry

namespace Config

def fieldNames : List String :=
  ["generate_todos", "effect_profiles", "server", "namespace", "formats"]

def ofJson? (surplus : Bool) (json : Json) : Option Config := do
  let entries ← Json.recordEntries? fieldNames surplus json
  if !Json.onlyKeys fieldNames entries then none
  else
    some
      { generateTodos :=
          ← Json.defaulted? Json.bool? default.generateTodos "generate_todos" entries
        profiles :=
          ← Json.defaulted?
              (fun value => (Json.list? EffectProfile.ofJson? value).map EffectProfile.canonical)
              default.profiles "effect_profiles" entries
        server := ← Json.defaulted? ServerMode.ofJson? default.server "server" entries
        namespaceName := ← Json.defaulted? Json.string? default.namespaceName "namespace" entries
        formats :=
          ← Json.defaulted? (FormatRegistry.ofJson? surplus) default.formats "formats" entries }

def toJson (config : Config) : Json :=
  .object
    [("generate_todos", .bool config.generateTodos),
      ("effect_profiles", .array (config.profiles.map fun profile => .string profile.tag)),
      ("server", config.server.toJson),
      ("namespace", .string config.namespaceName),
      ("formats", config.formats.toJson)]

def ofToml? (source : String) : Option Config :=
  (Toml.parse? source).bind (ofJson? true)

end Config

end ElmClient
