/-
A directory with its files. Paths are walked name by name: a point stays, two
points go up, and every other name leads into a folder. What lies outside of the
directory is not part of the tree: it cannot be read, and what is written there
leaves the tree as it is.
-/

import ElmClient.Keyed
import ElmClient.Text.Edit

namespace ElmClient

/-- The files by their names from the top down. A folder is there when a file lies
in it. -/
structure FileTree where
  files : List (List String × String)
deriving DecidableEq, Repr, Inhabited

namespace FileTree

def names (path : String) : List String :=
  Text.splitOn '/' path

def isMove (name : String) : Bool :=
  name == "" || name == "." || name == ".."

def ofList (files : List (String × String)) : FileTree :=
  ⟨Keyed.ofList (files.map fun file => ((names file.1).filter fun name => !isMove name, file.2))⟩

def toList (tree : FileTree) : List (String × String) :=
  tree.files.map fun file => (Text.join "/" file.1, file.2)

def isFile (tree : FileTree) (place : List String) : Bool :=
  Keyed.contains place tree.files

def isFolder (tree : FileTree) (place : List String) : Bool :=
  tree.files.any fun file => place.isPrefixOf file.1 && place != file.1

/-! ### Walking -/

def climbsOut : Nat → List String → Bool
  | _, [] => false
  | depth, name :: rest =>
      if name = ".." then
        match depth with
        | 0 => true
        | above + 1 => climbsOut above rest
      else if isMove name then climbsOut depth rest
      else climbsOut (depth + 1) rest

def isOutside (path : String) : Bool :=
  Text.startsWith "/" path || climbsOut 0 (names path)

/-- The folder that names lead to from a folder; missing folders are passed only
when they are being made, and files never. -/
def walk (tree : FileTree) (making : Bool) : List String → List String → Option (List String)
  | place, [] => some place
  | place, name :: rest =>
      if name = ".." then tree.walk making place.dropLast rest
      else if isMove name then tree.walk making place rest
      else if tree.isFile (place ++ [name]) then none
      else if making || tree.isFolder (place ++ [name]) then
        tree.walk making (place ++ [name]) rest
      else none

def place? (tree : FileTree) (making : Bool) (path : String) : Option (List String) :=
  match (names path).reverse with
  | [] => none
  | name :: above =>
      if isMove name then none
      else (tree.walk making [] above.reverse).map fun place => place ++ [name]

/-! ### Reading and writing -/

def read? (tree : FileTree) (path : String) : Option String :=
  if isOutside path then none
  else (tree.place? false path).bind fun place => Keyed.find? place tree.files

def write? (tree : FileTree) (path content : String) : Option FileTree :=
  if isOutside path then some tree
  else
    match tree.place? true path with
    | none => none
    | some place =>
        if tree.isFolder place then none else some ⟨Keyed.insert place content tree.files⟩

/-- Write files one after the other up to the first that cannot be written;
whether all were written is returned, too. -/
def writeAll (tree : FileTree) : List (String × String) → FileTree × Bool
  | [] => (tree, true)
  | (path, content) :: rest =>
      match tree.write? path content with
      | some next => next.writeAll rest
      | none => (tree, false)

def changes (before after : FileTree) : List (String × String) :=
  (FileTree.mk (after.files.filter fun file =>
    Keyed.find? file.1 before.files != some file.2)).toList

end FileTree

end ElmClient
