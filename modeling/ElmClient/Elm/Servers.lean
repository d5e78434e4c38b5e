/-
Base URLs. Servers of the document or of the configuration become constants;
with several configured servers every request takes the URL as an input.
-/

import ElmClient.Elm.Layout
import ElmClient.Elm.Naming

namespace ElmClient.Elm

inductive BaseUrl where
  /-- A qualified server constant. -/
  | constant (reference : String)
  | literal (url : String)
  /-- The field `server` of the request input. -/
  | input
deriving DecidableEq, Repr, Inhabited

namespace BaseUrl

def expression : BaseUrl → String
  | .constant reference => reference
  | .literal url => stringLiteral url
  | .input => "config.server"

def isInput : BaseUrl → Bool
  | .input => true
  | _ => false

end BaseUrl

structure ServerPlan where
  base : BaseUrl
  declarations : List Declaration
deriving Repr, Inhabited

namespace ServerPlan

def constant (name : String) (doc : Option String) (url : String) : Declaration :=
  Declaration.value name doc (name ++ " : String\n" ++ name ++ " =\n    " ++ stringLiteral url)

def wantedName (index : Nat) (server : Server) : String :=
  match server.description with
  | some description =>
      let name := Name.toValueName description
      if name.isEmpty then "server" ++ toString index else name
  | none => "server" ++ toString index

def wantedNames : Nat → List Server → List String
  | _, [] => []
  | index, server :: rest => wantedName index server :: wantedNames (index + 1) rest

/-- One constant for every server of the document; the first is the default. -/
def ofServers (naming : Naming) (servers : List Server) : ServerPlan :=
  let names := Fresh.assign Fresh.appendNumber (wantedNames 0 servers)
  let declarations := (names.zip servers).map fun entry =>
    constant entry.1 entry.2.description entry.2.resolvedUrl
  { base :=
      match names with
      | first :: _ => .constant (naming.qualified .servers first)
      | [] => .literal ""
    declarations := declarations }

def ofNamed (servers : List (String × String)) : ServerPlan :=
  let names := Fresh.assign Fresh.appendNumber (servers.map fun server => Name.toValueName server.1)
  { base := .input
    declarations := (names.zip servers).map fun entry => constant entry.1 none entry.2.2 }

def ofMode (naming : Naming) (document : Document) : ServerMode → ServerPlan
  | .fromDocument => ofServers naming document.servers
  | .single url =>
      { base := .constant (naming.qualified .servers "server")
        declarations := [constant "server" none url] }
  | .multiple servers => ofNamed servers

end ServerPlan

end ElmClient.Elm
