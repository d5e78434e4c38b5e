/-
Settings of a run: which request functions are generated, where the base URL
comes from, the namespace of the generated modules, and how string formats are
represented.
-/

import ElmClient.Shape

namespace ElmClient

/-! ### Effect profiles -/

inductive Library where
  | elmHttp
  | effect
deriving DecidableEq, Repr, Inhabited

namespace Library

def tag : Library → String
  | .elmHttp => "elm-http"
  | .effect => "effect"

def packages : Library → List String
  | .elmHttp => ["elm/http"]
  | .effect => ["lamdera/program-test", "ianmackenzie/elm-units"]

end Library

inductive Convention where
  | cmd
  | task
  | record
deriving DecidableEq, Repr, Inhabited

def Convention.tag : Convention → String
  | .cmd => "cmd"
  | .task => "task"
  | .record => "record"

structure EffectProfile where
  library : Library
  convention : Convention
deriving DecidableEq, Repr, Inhabited

namespace EffectProfile

def all : List EffectProfile :=
  [⟨.elmHttp, .cmd⟩, ⟨.elmHttp, .task⟩, ⟨.elmHttp, .record⟩,
    ⟨.effect, .cmd⟩, ⟨.effect, .task⟩, ⟨.effect, .record⟩]

def standard : EffectProfile := ⟨.elmHttp, .cmd⟩

def tag (profile : EffectProfile) : String :=
  profile.library.tag ++ "-" ++ profile.convention.tag

def ofTag? (tag : String) : Option EffectProfile :=
  all.find? fun profile => profile.tag == tag

/-- What is appended to the operation name for the profile's function. -/
def functionSuffix : EffectProfile → String
  | ⟨.elmHttp, .cmd⟩ => ""
  | ⟨.elmHttp, .task⟩ => "Task"
  | ⟨.elmHttp, .record⟩ => "Record"
  | ⟨.effect, .cmd⟩ => "Effect"
  | ⟨.effect, .task⟩ => "EffectTask"
  | ⟨.effect, .record⟩ => "EffectRecord"

def runner : EffectProfile → String
  | ⟨.elmHttp, .cmd⟩ => "elmHttpCmd"
  | ⟨.elmHttp, .task⟩ => "elmHttpTask"
  | ⟨.elmHttp, .record⟩ => "elmHttpRecord"
  | ⟨.effect, .cmd⟩ => "effectCmd"
  | ⟨.effect, .task⟩ => "effectTask"
  | ⟨.effect, .record⟩ => "effectRecord"

/-- The profiles of a list, each once, in canonical order. -/
def canonical (profiles : List EffectProfile) : List EffectProfile :=
  all.filter profiles.contains

end EffectProfile

/-! ### Servers and formats -/

inductive ServerMode where
  | fromDocument
  | single (url : String)
  | multiple (servers : List (String × String))
deriving DecidableEq, Repr, Inhabited

structure FormatEntry where
  elmType : String
  encode : String
  decode : String
  stringify : Option String
  packages : List String
deriving DecidableEq, Repr, Inhabited

/-- Format entries by kind and format, both levels sorted by name. -/
structure FormatRegistry where
  kinds : List (String × List (String × FormatEntry))
deriving DecidableEq, Repr, Inhabited

namespace FormatRegistry

def insertSorted {α : Type} (name : String) (value : α) : List (String × α) → List (String × α)
  | [] => [(name, value)]
  | (present, former) :: rest =>
      if name < present then (name, value) :: (present, former) :: rest
      else if present = name then (name, value) :: rest
      else (present, former) :: insertSorted name value rest

def find? (registry : FormatRegistry) (kind : PrimitiveKind) (format : String) :
    Option FormatEntry :=
  (Keyed.find? kind.text registry.kinds).bind fun formats => Keyed.find? format formats

def layerKind (registry : FormatRegistry) (kind : String) (formats : List (String × FormatEntry)) :
    FormatRegistry :=
  let present := (Keyed.find? kind registry.kinds).getD []
  let merged := formats.foldl (fun layered entry => insertSorted entry.1 entry.2 layered) present
  ⟨insertSorted kind merged registry.kinds⟩

def layer (registry : FormatRegistry) (kinds : List (String × List (String × FormatEntry))) :
    FormatRegistry :=
  kinds.foldl (fun layered kind => layered.layerKind kind.1 kind.2) registry

def size (registry : FormatRegistry) : Nat :=
  (registry.kinds.map fun kind => kind.2.length).foldl Nat.add 0

def plainString : FormatEntry :=
  { elmType := "String", encode := "Json.Encode.string", decode := "Json.Decode.string"
    stringify := some "identity", packages := [] }

def dateTime : FormatEntry :=
  { elmType := "Time.Posix", encode := "Iso8601.encode", decode := "Iso8601.decoder"
    stringify := some "Iso8601.fromTime"
    packages := ["elm/time", "rtfeldman/elm-iso8601-date-strings"] }

/-- The entries that are always present. -/
def builtIn : FormatRegistry :=
  ⟨[("string", [("date-time", dateTime), ("password", plainString), ("uuid", plainString)])]⟩

end FormatRegistry

/-! ### Configurations -/

structure Config where
  generateTodos : Bool
  profiles : List EffectProfile
  server : ServerMode
  namespaceName : String
  formats : FormatRegistry
deriving DecidableEq, Repr

namespace Config

def default : Config :=
  { generateTodos := false
    profiles := [⟨.elmHttp, .cmd⟩, ⟨.elmHttp, .task⟩]
    server := .fromDocument
    namespaceName := "Api"
    formats := FormatRegistry.builtIn }

instance : Inhabited Config := ⟨default⟩

inductive Invalid where
  | unknownProfile (tag : String)
  | badNamespace (name : String)
  | noProfile
  | emptyUrl
  | noServer
deriving DecidableEq, Repr

def Invalid.message : Invalid → String
  | .unknownProfile tag =>
      "unknown effect profile `" ++ tag ++ "`, expected one of: "
        ++ Text.join ", " (EffectProfile.all.map EffectProfile.tag)
  | .badNamespace name => "namespace `" ++ name ++ "` is not a valid Elm module name"
  | .noProfile => "at least one effect profile is required"
  | .emptyUrl => "single server mode needs a non-empty url"
  | .noServer => "multiple server mode needs at least one server"

/-- One part of a module path: a capital letter, then letters, digits and `_`. -/
def isModulePart : List Char → Bool
  | first :: rest => first.isUpper && rest.all Name.isNameChar
  | [] => false

def isModulePath (name : String) : Bool :=
  (Text.splitChars '.' name.toList).all isModulePart

def validate (config : Config) : Except Invalid Unit :=
  if !isModulePath config.namespaceName then throw (.badNamespace config.namespaceName)
  else if config.profiles.isEmpty then throw .noProfile
  else
    match config.server with
    | .single url => if Text.trim url == "" then throw .emptyUrl else return ()
    | .multiple [] => throw .noServer
    | _ => return ()

def basePackages (config : Config) : List String :=
  Sorted.texts (["elm/bytes", "elm/core", "elm/json", "elm/url"]
    ++ config.profiles.flatMap fun profile => profile.library.packages)

end Config

end ElmClient
