/-
Records in JSON. A record is written as an object; a list is read as a record,
too, its items filling the fields in their order. A reader sees a record as a
partial map from field names to values.
-/

import ElmClient.Json.Basic

namespace ElmClient.Json

/-- The entries of a record with the given field names. A list may hold more
items than there are fields only where `surplus` says so. -/
def recordEntries? (names : List String) (surplus : Bool) : Json → Option (List (String × Json))
  | .object entries => some entries
  | .array items =>
      if items.length ≤ names.length || surplus then some (names.zip items) else none
  | _ => none

def onlyKeys (names : List String) (entries : List (String × Json)) : Bool :=
  entries.all fun entry => names.contains entry.1

def string? : Json → Option String
  | .string text => some text
  | _ => none

def bool? : Json → Option Bool
  | .bool value => some value
  | _ => none

def list? {α : Type} (read : Json → Option α) : Json → Option (List α)
  | .array items => items.mapM read
  | _ => none

def members? {α : Type} (read : Json → Option α) : Json → Option (List (String × α))
  | .object entries => entries.mapM fun entry => (read entry.2).map fun value => (entry.1, value)
  | _ => none

def required? {α : Type} (read : Json → Option α) (name : String)
    (entries : List (String × Json)) : Option α :=
  (Keyed.find? name entries).bind read

def defaulted? {α : Type} (read : Json → Option α) (default : α) (name : String)
    (entries : List (String × Json)) : Option α :=
  match Keyed.find? name entries with
  | none => some default
  | some value => read value

def optional? {α : Type} (read : Json → Option α) (name : String)
    (entries : List (String × Json)) : Option (Option α) :=
  match Keyed.find? name entries with
  | none => some none
  | some .null => some none
  | some value => (read value).map some

end ElmClient.Json
