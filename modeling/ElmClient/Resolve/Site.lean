/-
Where a schema is resolved, and the references it may hold. A site has the name
that a declaration made there takes, and the component that owns it when the
schema is that component's whole schema.
-/

import ElmClient.Document.Printer
import ElmClient.Run

namespace ElmClient

structure Site where
  name : TypeName
  owner : Option TypeName
deriving DecidableEq, Repr, Inhabited

namespace Site

def unowned (name : TypeName) : Site :=
  { name := name, owner := none }

def component (name : TypeName) : Site :=
  { name := name, owner := some name }

def child (site : Site) (member : String) : Site :=
  unowned (site.name.child member)

end Site

abbrev SchemaMap := List (String × RefOr Schema)

namespace Resolve

variable {σ α : Type}

def parseReference (text : String) : Run σ Reference :=
  match Reference.parse text with
  | .ok reference => return reference
  | .error malformed => Run.fail malformed.message

/-- Check that a reference names a schema component; it stays symbolic. -/
def schemaReference (schemas : SchemaMap) (text : String) : Run σ Reference := do
  let reference ← parseReference text
  if reference.component ≠ .schemas then
    Run.fail ("`" ++ text ++ "` points into `" ++ reference.component.text
      ++ "` where a schema was expected")
  else if !Keyed.contains reference.name schemas then
    Run.fail ("reference to missing component `" ++ text ++ "`")
  else return reference

def referenced? (schemas : SchemaMap) (text : String) : Option (RefOr Schema) :=
  match Reference.parse text with
  | .ok reference => Keyed.find? reference.name schemas
  | .error _ => none

/-- Whether a schema describes only null, looking at no more than `looks`
schemas on the way along references. -/
def describesNull (schemas : SchemaMap) : Nat → RefOr Schema → Bool
  | 0, _ => false
  | _ + 1, .inline schema => schema.isNullKind
  | looks + 1, .reference text =>
      match referenced? schemas text with
      | some next => describesNull schemas looks next
      | none => false

def isNull (schemas : SchemaMap) (schema : RefOr Schema) : Bool :=
  describesNull schemas (schemas.length + 1) schema

/-- Follow references of one section to the inline item, looking at no more than
`looks` items. The first component name on the way is returned, too. -/
def follow (component : Section) (components : List (String × RefOr α)) :
    Nat → Option String → RefOr α → Run σ (Option String × α)
  | 0, _, _ => Run.fail ("reference cycle between `" ++ component.text ++ "` components")
  | _ + 1, origin, .inline item => return (origin, item)
  | looks + 1, origin, .reference text => do
      let reference ← parseReference text
      if reference.component ≠ component then
        Run.fail ("`" ++ text ++ "` points into `" ++ reference.component.text ++ "` where `"
          ++ component.text ++ "` was expected")
      else
        match Keyed.find? reference.name components with
        | none => Run.fail ("reference to missing component `" ++ text ++ "`")
        | some next =>
            follow component components looks (some (origin.getD reference.name)) next

/-- The inline item behind references. An acyclic chain passes each component at
most once, so one look more than there are components suffices. -/
def lookup (component : Section) (components : List (String × RefOr α)) (item : RefOr α) :
    Run σ (Option String × α) :=
  follow component components (components.length + 1) none item

end Resolve

end ElmClient
