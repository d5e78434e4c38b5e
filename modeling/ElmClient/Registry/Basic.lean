/-
The registry of enums and unions found while schemas are resolved. An enum is
identified by its values and keeps the name of its first registration. A union
is identified by its name; a different union that wants a taken name is stored
under a numbered one. Both lists are sorted by what identifies their entries.
-/

import ElmClient.Fresh
import ElmClient.Shape

namespace ElmClient

structure EnumEntry where
  values : List String
  name : TypeName
  owner : Option TypeName
deriving DecidableEq, Repr, Inhabited

structure UnionEntry where
  union : Union
  owner : Option TypeName
deriving Repr, Inhabited

/-- An owner is the component whose whole schema the entry is. -/
structure Registry where
  enums : List EnumEntry
  unions : List UnionEntry
deriving Repr, Inhabited

namespace EnumEntry

def before (left right : EnumEntry) : Bool :=
  decide (left.values < right.values)

def find? (values : List String) : List EnumEntry → Option EnumEntry
  | [] => none
  | entry :: rest => if entry.values = values then some entry else find? values rest

end EnumEntry

namespace UnionEntry

def before (left right : UnionEntry) : Bool :=
  decide (left.union.name < right.union.name)

def find? (name : TypeName) : List UnionEntry → Option UnionEntry
  | [] => none
  | entry :: rest => if entry.union.name = name then some entry else find? name rest

def clashes (entries : List UnionEntry) (union : Union) : Bool :=
  match find? union.name entries with
  | some entry => !entry.union.same union
  | none => false

end UnionEntry

namespace Registry

def empty : Registry :=
  { enums := [], unions := [] }

def size (registry : Registry) : Nat :=
  registry.enums.length + registry.unions.length

/-- Register a set of values; values registered before keep their name. -/
def registerEnum (registry : Registry) (entry : EnumEntry) : TypeName × Registry :=
  match EnumEntry.find? entry.values registry.enums with
  | some present => (present.name, registry)
  | none =>
      (entry.name, { registry with enums := Sorted.insert EnumEntry.before entry registry.enums })

/-- The union under its own or the first numbered name that no different union
has taken. -/
def placed (registry : Registry) (union : Union) : Union :=
  Fresh.search (UnionEntry.clashes registry.unions) union
    (fun wanted number => wanted.renamed (wanted.name.withSuffix number))
    registry.unions.length 0

def registerUnion (registry : Registry) (union : Union) (owner : Option TypeName) :
    Union × Registry :=
  let chosen := registry.placed union
  match UnionEntry.find? chosen.name registry.unions with
  | some _ => (chosen, registry)
  | none =>
      (chosen,
        { registry with
          unions := Sorted.insert UnionEntry.before ⟨chosen, owner⟩ registry.unions })

/-- Take over unions until one is stored differently on both sides; its name is
returned. -/
def mergeUnions : List UnionEntry → List UnionEntry → List UnionEntry × Option TypeName
  | present, [] => (present, none)
  | present, entry :: rest =>
      match UnionEntry.find? entry.union.name present with
      | none => mergeUnions (Sorted.insert UnionEntry.before entry present) rest
      | some found =>
          if found.union.same entry.union then mergeUnions present rest
          else (present, some found.union.name)

/-- Unite two registries; present entries are kept. Two unions of one name must
be equal, otherwise the name is returned with what was united so far. -/
def merge (registry other : Registry) : Registry × Option TypeName :=
  let (unions, conflict) := mergeUnions registry.unions other.unions
  ({ enums := Sorted.insertAll EnumEntry.before other.enums registry.enums, unions := unions },
    conflict)

end Registry

end ElmClient
