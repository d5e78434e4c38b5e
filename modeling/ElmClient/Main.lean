/-
The command line on real files. All files that a command may read are read first;
then the command is a function of them.
-/

import ElmClient.Command.Report

namespace ElmClient.Command

def inputs : Command → List String
  | .generate sources options => options.config.toList ++ sources.spec :: sources.overlays
  | .merge sources => sources.spec :: sources.overlays

def usage : String :=
  "Usage: elm-client generate SPEC [OPTION...]\n       elm-client merge SPEC [--overlay FILE...]"

def readFile (path : String) : IO (Option String) := do
  try
    return some (← IO.FS.readFile path)
  catch _ =>
    return none

def readFiles : List String → IO (List (String × String))
  | [] => return []
  | path :: rest => do
      let others ← readFiles rest
      match ← readFile path with
      | some content => return (path, content) :: others
      | none => return others

def parent (path : String) : String :=
  Text.join "/" (FileTree.names path).dropLast

def writeFiles : List (String × String) → IO Unit
  | [] => return ()
  | (path, content) :: rest => do
      IO.FS.createDirAll (parent path)
      IO.FS.writeFile path content
      writeFiles rest

def showFailure (reason : Failure) : IO UInt32 := do
  IO.eprintln ("Error: " ++ reason.message)
  return 1

def act : Action → IO UInt32
  | .print text => do
      IO.print text
      return 0
  | .write folder files => do
      try
        writeFiles (Report.targets folder files)
        return 0
      catch _ =>
        showFailure (.write folder)

def execute (words : List String) : IO UInt32 := do
  match ofArguments? words with
  | none =>
      IO.eprintln usage
      return 2
  | some command =>
      let files ← readFiles command.inputs
      match command.run fun path => Keyed.find? path files with
      | .error reason => showFailure reason
      | .ok action => act action

end ElmClient.Command

def main (arguments : List String) : IO UInt32 :=
  ElmClient.Command.execute arguments
