/-
Authorization. The first security requirement of the operation and then that of
the document name the schemes of a request; an empty list at the operation asks
for none. Every scheme takes one text from the input and puts it into a header
or the query; no two schemes may set the same header.
-/

import ElmClient.Elm.Layout
import ElmClient.Elm.Naming
import ElmClient.Run

namespace ElmClient.Elm

variable {σ : Type}

/-- What the security requirements add to a request. -/
structure Authorization where
  fields : List String
  headers : List String
  query : List String
deriving DecidableEq, Repr, Inhabited

namespace Authorization

def empty : Authorization :=
  { fields := [], headers := [], query := [] }

def isEmpty (authorization : Authorization) : Bool :=
  authorization.fields.isEmpty

def inputType (authorization : Authorization) : String :=
  record (authorization.fields.map fun field => (field, "String")) ":"

/-! ### Schemes of an operation -/

/-- The scheme names of the first requirement at a level. -/
def firstRequirement (level : String) (requirements : List SecurityRequirement) :
    Run σ (List String) := do
  if requirements.length > 1 then
    Run.placeholderOr
      (level ++ " declares " ++ toString requirements.length
        ++ " alternative security requirements; only the first is used") ()
  match requirements with
  | [] => return []
  | first :: _ => return Keyed.keys first

def levelNames (level : String) : Option (List SecurityRequirement) → Run σ (List String)
  | some requirements => firstRequirement level requirements
  | none => return []

def distinct (names : List String) : List String :=
  names.foldl (fun found name => if found.contains name then found else found ++ [name]) []

def schemeNames (document : Document) (endpoint : Endpoint) : Run σ (List String) := do
  match endpoint.security with
  | some [] => return []
  | own =>
      let ownNames ← levelNames "operation" own
      let sharedNames ← levelNames "document" document.security
      return distinct (ownNames ++ sharedNames)

/-! ### One scheme -/

inductive Placement where
  /-- A header and what stands before the text in its value. -/
  | header (name : String) (lead : String)
  | query (key : String)
  | unsupported
deriving DecidableEq, Repr

def httpPlacement (scheme : Option String) : Placement :=
  match scheme.map Text.trim with
  | some kind =>
      if Text.equalIgnoringCase kind "bearer" then .header "Authorization" "Bearer "
      else if Text.equalIgnoringCase kind "basic" || kind.isEmpty then .unsupported
      else .header "Authorization" (kind ++ " ")
  | none => .unsupported

def keyName (name : String) (scheme : SecurityScheme) : Run σ String :=
  match scheme.name with
  | some key => return key
  | none => Run.fail ("apiKey scheme `" ++ name ++ "` has no `name`")

def placement (name : String) (scheme : SecurityScheme) : Run σ Placement :=
  match scheme.kind, scheme.location with
  | "apiKey", some "header" => do return .header (← keyName name scheme) ""
  | "apiKey", some "query" => do return .query (← keyName name scheme)
  | "http", _ => return httpPlacement scheme.scheme
  | _, _ => return .unsupported

def describe (scheme : SecurityScheme) : String :=
  match scheme.kind, scheme.scheme, scheme.location with
  | "http", some http, _ => "http `" ++ http ++ "`"
  | "apiKey", _, some location => "apiKey in " ++ location
  | kind, _, _ => kind

def pair (key lead field : String) : String :=
  let token := "config.authorization." ++ field
  let value := if lead.isEmpty then token else stringLiteral lead ++ " ++ " ++ token
  "Just ( " ++ stringLiteral key ++ ", " ++ value ++ " )"

/-! ### All schemes -/

/-- The authorization so far, with the lowered name of every header that is set
and the scheme that sets it. -/
structure Progress where
  authorization : Authorization
  headerOwners : List (String × String)
deriving Repr, Inhabited

def Progress.starting : Progress :=
  { authorization := Authorization.empty, headerOwners := [] }

def addHeader (progress : Progress) (name field header lead : String) : Run σ Progress :=
  let lowered := Text.lower header
  match Keyed.find? lowered progress.headerOwners with
  | some owner =>
      Run.fail ("security schemes `" ++ owner ++ "` and `" ++ name ++ "` both set the `" ++ header
        ++ "` header")
  | none =>
      return {
        authorization :=
          { progress.authorization with
            fields := progress.authorization.fields ++ [field]
            headers := progress.authorization.headers ++ [pair header lead field] }
        headerOwners := progress.headerOwners ++ [(lowered, name)] }

def addQuery (progress : Progress) (field key : String) : Progress :=
  { progress with
    authorization :=
      { progress.authorization with
        fields := progress.authorization.fields ++ [field]
        query := progress.authorization.query ++ [pair key "" field] } }

def addScheme (document : Document) (progress : Progress) (name : String) : Run σ Progress :=
  match Keyed.find? name document.components.securitySchemes with
  | none => Run.fail ("security requirement names undefined scheme `" ++ name ++ "`")
  | some scheme => do
      let field :=
        Fresh.unused Fresh.appendNumber progress.authorization.fields (Name.toValueName name)
      match ← placement name scheme with
      | .header header lead => addHeader progress name field header lead
      | .query key => return addQuery progress field key
      | .unsupported =>
          Run.placeholderOr
            ("security scheme `" ++ name ++ "` (" ++ describe scheme ++ ") is not supported")
            progress

def addSchemes (document : Document) : Progress → List String → Run σ Progress
  | progress, [] => return progress
  | progress, name :: rest => do
      addSchemes document (← addScheme document progress name) rest

def ofEndpoint (document : Document) (endpoint : Endpoint) : Run σ Authorization :=
  Run.withPath "security" do
    let names ← schemeNames document endpoint
    return (← addSchemes document Progress.starting names).authorization

end Authorization

end ElmClient.Elm
