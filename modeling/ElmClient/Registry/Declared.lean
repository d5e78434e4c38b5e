/-
Final names of the registered enums and unions. An entry owned by a component
takes the component's name, the first one where several claim it. Every other
entry keeps its name unless a component or an earlier entry has it; then it is
numbered.
-/

import ElmClient.Registry.Basic

namespace ElmClient

inductive Discovery where
  | enum (entry : EnumEntry)
  | union (entry : UnionEntry)
deriving Repr, Inhabited

namespace Discovery

def name : Discovery → TypeName
  | .enum entry => entry.name
  | .union entry => entry.union.name

def owner : Discovery → Option TypeName
  | .enum entry => entry.owner
  | .union entry => entry.owner

end Discovery

namespace Registry

def entries (registry : Registry) : List Discovery :=
  registry.enums.map .enum ++ registry.unions.map .union

/-- Entries that claim their owner's name first, with that name, and the owned
entries that come too late. -/
def claim : List TypeName → List Discovery → List (Discovery × TypeName) × List Discovery
  | _, [] => ([], [])
  | claimed, entry :: rest =>
      match entry.owner with
      | none => claim claimed rest
      | some owner =>
          if claimed.contains owner then
            let (finals, late) := claim claimed rest
            (finals, entry :: late)
          else
            let (finals, late) := claim (owner :: claimed) rest
            ((entry, owner) :: finals, late)

def finalNames (registry : Registry) (reserved : List TypeName) :
    List (Discovery × TypeName) :=
  let (claimed, late) := claim [] registry.entries
  let others := (registry.entries.filter fun entry => entry.owner.isNone) ++ late
  let names :=
    Fresh.assignAfter TypeName.withSuffix (reserved ++ claimed.map Prod.snd)
      (others.map Discovery.name)
  claimed ++ others.zip names

end Registry

inductive Declared where
  | enum (name : TypeName) (values : List String)
  | union (value : Union)
deriving Repr, Inhabited

def Declared.name : Declared → TypeName
  | .enum name _ => name
  | .union value => value.name

/-- Enums with their final names, and unions under the names they were stored
with. -/
structure DeclaredTypes where
  enums : List (List String × TypeName)
  unions : List (TypeName × Union)
deriving Repr, Inhabited

namespace DeclaredTypes

def enumName? (types : DeclaredTypes) (values : List String) : Option TypeName :=
  Keyed.find? values types.enums

/-- The union as declared, by the name it was resolved under. -/
def union? (types : DeclaredTypes) (name : TypeName) : Option Union :=
  Keyed.find? name types.unions

def size (types : DeclaredTypes) : Nat :=
  types.enums.length + types.unions.length

def declarations (types : DeclaredTypes) : List Declared :=
  Sorted.sortBy (fun left right => decide (left < right)) Declared.name
    (types.enums.map (fun entry => Declared.enum entry.2 entry.1)
      ++ types.unions.map fun entry => Declared.union entry.2)

end DeclaredTypes

def Registry.drain (registry : Registry) (reserved : List TypeName) : DeclaredTypes :=
  let finals := registry.finalNames reserved
  { enums := finals.filterMap fun final =>
      match final.1 with
      | .enum entry => some (entry.values, final.2)
      | .union _ => none
    unions := finals.filterMap fun final =>
      match final.1 with
      | .enum _ => none
      | .union entry => some (entry.union.name, entry.union.renamed final.2) }

end ElmClient
