/-
The commands. `generate` writes or prints the modules of a document, `merge`
prints a document with its overlays put over it. A command is a function of the
files it reads; what it does to the world is returned as an action.
-/

import ElmClient.Client
import ElmClient.Command.Arguments
import ElmClient.Config.Format
import ElmClient.FileTree
import ElmClient.Source

namespace ElmClient

structure Sources where
  spec : String
  overlays : List String
deriving DecidableEq, Repr, Inhabited

structure GenerateOptions where
  config : Option String
  folder : String
  namespaceName : Option String
  generateTodos : Bool
  /-- Exchanged for the configured profiles unless empty. -/
  profiles : List EffectProfile
  servers : List String
  print : Bool
deriving DecidableEq, Repr, Inhabited

inductive Command where
  | generate (sources : Sources) (options : GenerateOptions)
  | merge (sources : Sources)
deriving DecidableEq, Repr, Inhabited

namespace Command

/-! ### Reading commands -/

def valueOption (name : String) (repeatable : Bool) : OptionForm :=
  { name := name, takesValue := true, repeatable := repeatable }

def switch (name : String) : OptionForm :=
  { name := name, takesValue := false, repeatable := false }

def mergeForms : List OptionForm :=
  [valueOption "overlay" true]

def generateForms : List OptionForm :=
  [valueOption "overlay" true, valueOption "config" false, valueOption "output-dir" false,
    valueOption "namespace" false, switch "generate-todos", valueOption "effect" true,
    valueOption "server" true, switch "print"]

def isPath (text : String) : Bool :=
  !text.isEmpty

def sources? (arguments : Arguments) : Option Sources :=
  match arguments.positional with
  | [spec] =>
      let overlays := arguments.values "overlay"
      if isPath spec && overlays.all isPath then some { spec := spec, overlays := overlays }
      else none
  | _ => none

def defaultFolder : String := "generated"

def generateOptions? (arguments : Arguments) : Option GenerateOptions := do
  let config := arguments.value? "config"
  let folder := (arguments.value? "output-dir").getD defaultFolder
  let profiles ← (arguments.values "effect").mapM EffectProfile.ofTag?
  if config.all isPath && isPath folder then
    some
      { config := config
        folder := folder
        namespaceName := arguments.value? "namespace"
        generateTodos := !(arguments.values "generate-todos").isEmpty
        profiles := profiles
        servers := arguments.values "server"
        print := !(arguments.values "print").isEmpty }
  else none

def ofArguments? : List String → Option Command
  | "generate" :: words => do
      let arguments ← Arguments.ofList? generateForms words
      some (.generate (← sources? arguments) (← generateOptions? arguments))
  | "merge" :: words => do
      some (.merge (← sources? (← Arguments.ofList? mergeForms words)))
  | _ => none

/-! ### Running commands -/

inductive Action where
  | print (text : String)
  | write (folder : String) (files : List Elm.SourceFile)
deriving DecidableEq, Repr

inductive Failure where
  | config (path : String)
  | document (path : String)
  | overlay (path : String)
  | overlays
  | server (pair : String)
  | client (reason : Client.Failure)
  | write (folder : String)
deriving Repr

def Failure.message : Failure → String
  | .config path => "Failed to load config `" ++ path ++ "`"
  | .document path => "Failed to load OpenAPI document `" ++ path ++ "`"
  | .overlay path => "Failed to load overlay `" ++ path ++ "`"
  | .overlays => "Failed to merge overlays"
  | .server pair => "Expected `name=url` for --server, got `" ++ pair ++ "`"
  | .client reason => "Failed to generate Elm client: " ++ reason.message
  | .write folder => "Failed to write modules to `" ++ folder ++ "`"

abbrev Reader := String → Option String

def load (read : Reader) (path : String) (failure : Failure) : Except Failure Json :=
  match read path with
  | none => throw failure
  | some content => (Source.parse path content).mapError fun _ => failure

def merged (read : Reader) (sources : Sources) : Except Failure Json := do
  let base ← load read sources.spec (.document sources.spec)
  let overlays ← sources.overlays.mapM fun path => load read path (.overlay path)
  (Overlay.mergeAll base overlays).mapError fun _ => .overlays

def namedServer (pair : String) : Except Failure (String × String) :=
  match Text.splitOnce? '=' pair with
  | some (name, url) => return (Text.trim name, Text.trim url)
  | none => throw (.server pair)

/-- The server mode that server options ask for: one plain URL, or named ones. -/
def serverMode (servers : List String) : Except Failure (Option ServerMode) := do
  match servers with
  | [] => return none
  | [url] =>
      if Text.hasChar '=' url then return some (.multiple [← namedServer url])
      else return some (.single url)
  | pairs => return some (.multiple (Keyed.ofList (← pairs.mapM namedServer)))

/-- A configuration file must be readable, and valid before options change it. -/
def loadConfig (read : Reader) : Option String → Except Failure Config
  | none => return Config.default
  | some path =>
      match (read path).bind Config.ofToml? with
      | some config => do
          config.validate.mapError fun _ => Failure.config path
          return config
      | none => throw (.config path)

def configure (read : Reader) (options : GenerateOptions) : Except Failure Config := do
  let config ← loadConfig read options.config
  let server ← serverMode options.servers
  return {
    config with
    namespaceName := options.namespaceName.getD config.namespaceName
    generateTodos := config.generateTodos || options.generateTodos
    profiles :=
      if options.profiles.isEmpty then config.profiles
      else EffectProfile.canonical options.profiles
    server := server.getD config.server }

def listing (files : List Elm.SourceFile) : String :=
  String.join (files.map fun file => "-- " ++ file.path ++ "\n" ++ file.source ++ "\n")

def runGenerate (read : Reader) (sources : Sources) (options : GenerateOptions) :
    Except Failure Action := do
  let config ← configure read options
  let base ← merged read sources
  let client ← (Client.ofJson config base []).mapError .client
  let files := client.files config
  if options.print then return .print (listing files) else return .write options.folder files

def run (read : Reader) : Command → Except Failure Action
  | .generate sources options => runGenerate read sources options
  | .merge sources => do return .print (Json.pretty 0 (← merged read sources) ++ "\n")

end Command

end ElmClient
