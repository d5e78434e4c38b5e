/-
Files of generated modules. Declarations refer to one another by qualified names;
a module leaves its own qualifier out and imports what the remaining ones name.
-/

import ElmClient.Elm.Declaration
import ElmClient.Elm.Layout
import ElmClient.Elm.Qualifier

namespace ElmClient.Elm

open Text

structure SourceFile where
  name : String
  source : String
deriving DecidableEq, Repr, Inhabited

namespace SourceFile

/-- A path with one more segment; a segment that begins at the root replaces it. -/
def appendSegment (path segment : String) : String :=
  if startsWith "/" segment then segment
  else if path.isEmpty || endsWith "/" path then path ++ segment
  else path ++ "/" ++ segment

def path (file : SourceFile) : String :=
  (splitOn '.' file.name).foldl appendSegment "" ++ ".elm"

def declarationText (name : String) (declaration : Declaration) : String :=
  docComment declaration.doc ++ unqualify declaration.source name

def body (name : String) (declarations : List Declaration) : String :=
  join "\n\n\n" (declarations.map (declarationText name))

def importLines (modules : List String) : String :=
  if modules.isEmpty then ""
  else String.join (modules.map fun imported => "import " ++ imported ++ "\n") ++ "\n"

def ofDeclarations (name : String) (declarations : List Declaration) : SourceFile :=
  let body := body name declarations
  { name := name
    source :=
      "module " ++ name ++ " exposing (" ++ join ", " (declarations.map Declaration.exposing)
        ++ ")\n\n" ++ importLines (imports body name) ++ "\n" ++ body ++ "\n" }

/-- One file for every module that has declarations, sorted by module name; the
declarations keep their order. -/
def render (declarations : List Grouped) (namespaceName : String) : List SourceFile :=
  let moduleOf (entry : Grouped) := entry.1.moduleName namespaceName
  (Sorted.texts (declarations.map moduleOf)).map fun name =>
    ofDeclarations name ((declarations.filter fun entry => moduleOf entry == name).map Prod.snd)

end SourceFile

end ElmClient.Elm
