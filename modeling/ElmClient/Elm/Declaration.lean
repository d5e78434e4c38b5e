/-
Declarations of generated Elm code. A declaration belongs to a group, and every
group is written to one module; encoders and decoders share theirs.
-/

namespace ElmClient.Elm

inductive Group where
  | types
  | encoders
  | decoders
  | requests
  | errors
  | servers
  | common
deriving DecidableEq, Repr, Inhabited

def commonModule : String := "OpenApi.Common"

namespace Group

def all : List Group :=
  [.types, .encoders, .decoders, .requests, .errors, .servers, .common]

def text : Group → String
  | .types => "types"
  | .encoders => "encoders"
  | .decoders => "decoders"
  | .requests => "requests"
  | .errors => "errors"
  | .servers => "servers"
  | .common => "common"

def ofText? (text : String) : Option Group :=
  all.find? fun group => group.text == text

def moduleName (group : Group) (namespaceName : String) : String :=
  match group with
  | .types => namespaceName ++ ".Types"
  | .encoders => namespaceName ++ ".Json"
  | .decoders => namespaceName ++ ".Json"
  | .requests => namespaceName ++ ".Api"
  | .errors => namespaceName ++ ".Errors"
  | .servers => namespaceName ++ ".Servers"
  | .common => commonModule

end Group

/-- A top-level declaration: its name, its entry in the exposing list, and its
annotation and definition without the doc comment. -/
structure Declaration where
  name : String
  doc : Option String
  exposing : String
  source : String
deriving DecidableEq, Repr, Inhabited

namespace Declaration

def value (name : String) (doc : Option String) (source : String) : Declaration :=
  { name := name, doc := doc, exposing := name, source := source }

/-- A custom type is exposed with its constructors. -/
def customType (name : String) (doc : Option String) (source : String) : Declaration :=
  { name := name, doc := doc, exposing := name ++ "(..)", source := source }

end Declaration

abbrev Grouped := Group × Declaration

abbrev Helpers := List (String × Declaration)

end ElmClient.Elm
