/-
What a command line brings about in a directory: its exit code, what it prints,
the line it fails with, and the files it leaves.
-/

import ElmClient.Command.Basic

namespace ElmClient.Command

inductive Ending where
  | success
  | failure (reason : Failure)
  | misuse
deriving Repr

namespace Ending

def exitCode : Ending → Nat
  | .success => 0
  | .failure _ => 1
  | .misuse => 2

def headline : Ending → Option String
  | .failure reason => some ("Error: " ++ Text.before '\n' reason.message)
  | _ => none

end Ending

structure Report where
  ending : Ending
  printed : String
  tree : FileTree
deriving Repr

namespace Report

def failed (tree : FileTree) (reason : Failure) : Report :=
  { ending := .failure reason, printed := "", tree := tree }

def targets (folder : String) (files : List Elm.SourceFile) : List (String × String) :=
  files.map fun file => (folder ++ "/" ++ file.path, file.source)

/-- Do what a command asks for; files written before one that cannot be written
stay. -/
def ofAction (tree : FileTree) : Action → Report
  | .print text => { ending := .success, printed := text, tree := tree }
  | .write folder files =>
      match tree.writeAll (targets folder files) with
      | (after, true) => { ending := .success, printed := "", tree := after }
      | (after, false) => failed after (.write folder)

end Report

def perform (tree : FileTree) (words : List String) : Report :=
  match ofArguments? words with
  | none => { ending := .misuse, printed := "", tree := tree }
  | some command =>
      match command.run tree.read? with
      | .error reason => Report.failed tree reason
      | .ok action => Report.ofAction tree action

end ElmClient.Command
