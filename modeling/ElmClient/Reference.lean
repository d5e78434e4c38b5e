/-
References to components of the same document: `#/components/SECTION/NAME`,
where the name is written as a pointer step and must not be empty.
-/

import ElmClient.Name
import ElmClient.Pointer

namespace ElmClient

inductive Section where
  | schemas
  | responses
  | parameters
  | requestBodies
deriving DecidableEq, Repr, Inhabited

namespace Section

def text : Section → String
  | .schemas => "schemas"
  | .responses => "responses"
  | .parameters => "parameters"
  | .requestBodies => "requestBodies"

def ofText? : String → Option Section
  | "schemas" => some .schemas
  | "responses" => some .responses
  | "parameters" => some .parameters
  | "requestBodies" => some .requestBodies
  | _ => none

instance : ToString Section := ⟨text⟩

end Section

structure Reference where
  component : Section
  name : String
deriving DecidableEq, Repr, Inhabited

namespace Reference

inductive Malformed where
  | notLocal (text : String)
  | unknownSection (text name : String)
  | otherShape (text : String)
deriving DecidableEq, Repr

def Malformed.message : Malformed → String
  | .notLocal text =>
      "unsupported reference `" ++ text ++ "`: only local references are supported"
  | .unknownSection text name =>
      "unsupported reference `" ++ text ++ "`: unknown component section `" ++ name ++ "`"
  | .otherShape text =>
      "malformed reference `" ++ text ++ "`: expected `#/components/<section>/<name>`"

/-- The steps of a local pointer, with their escapes undone. -/
def steps? (text : String) : Option (List String) :=
  (Text.dropLead? ['#', '/'] text.toList).map fun pointer =>
    (Text.splitChars '/' pointer).map fun step => String.ofList (Pointer.unescapeChars step)

def parse (text : String) : Except Malformed Reference :=
  match steps? text with
  | none => throw (.notLocal text)
  | some [root, component, name] =>
      if root = "components" ∧ name ≠ "" then
        match Section.ofText? component with
        | some found => return ⟨found, name⟩
        | none => throw (.unknownSection text component)
      else throw (.otherShape text)
  | some _ => throw (.otherShape text)

def render (reference : Reference) : String :=
  "#/components/" ++ reference.component.text ++ "/" ++ Pointer.escape reference.name

def segments (reference : Reference) : List String :=
  ["components", reference.component.text, reference.name]

def typeName (reference : Reference) : TypeName :=
  TypeName.ofRaw reference.name

end Reference

end ElmClient
