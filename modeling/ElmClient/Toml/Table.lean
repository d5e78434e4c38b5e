/-
TOML tables under construction. A table remembers how it came to be, because
that decides what may still be added: a header opens a table once, a dotted key
adds only to tables that dotted keys made, and an inline table is closed.
-/

import ElmClient.Json.Basic

namespace ElmClient.Toml

inductive Origin where
  | header
  | implied
  | dotted
  | inline
deriving DecidableEq, Repr

/-- Floating point numbers have no use here beyond being present. -/
inductive Item where
  | string (text : String)
  | boolean (value : Bool)
  | whole (value : Int)
  | real
  | moment (text : String)
  | array (items : List Item)
  | table (origin : Origin) (entries : List (String × Item))
  | tables (items : List (List (String × Item)))
deriving Repr, Inhabited

abbrev Entries := List (String × Item)

/-- Change the table at the end of a path, making the tables on the way. -/
def updateAt (made : Origin) (change : Origin → Entries → Option Entries) :
    List String → Origin → Entries → Option Entries
  | [], origin, entries => change origin entries
  | key :: path, _, entries =>
      match Keyed.find? key entries with
      | none => do
          let inner ← updateAt made change path made []
          some (Keyed.insert key (.table made inner) entries)
      | some (.table origin inner) =>
          if origin = .inline then none
          else if made = .dotted && origin = .header then none
          else do
            let inner ← updateAt made change path origin inner
            some (Keyed.insert key (.table origin inner) entries)
      | some (.tables items) =>
          match items.getLast? with
          | some last => do
              let last ← updateAt made change path .header last
              some (Keyed.insert key (.tables (items.dropLast ++ [last])) entries)
          | none => none
      | some _ => none

/-- Put a value under a new key. Below a dotted path the table must be one that
dotted keys made. -/
def insertValue (key : String) (value : Item) (plain : Bool) (origin : Origin)
    (entries : Entries) : Option Entries :=
  if (origin == .dotted) == plain then none
  else if Keyed.contains key entries then none
  else some (Keyed.insert key value entries)

def addPair (path : List String) (key : String) (value : Item) (origin : Origin)
    (entries : Entries) : Option Entries :=
  updateAt .dotted (insertValue key value path.isEmpty) path origin entries

def openTable (key : String) (_origin : Origin) (entries : Entries) : Option Entries :=
  match Keyed.find? key entries with
  | none => some (Keyed.insert key (.table .header []) entries)
  | some (.table .implied inner) => some (Keyed.insert key (.table .header inner) entries)
  | some _ => none

/-- Open one more table of an array of tables. -/
def openTables (key : String) (_origin : Origin) (entries : Entries) : Option Entries :=
  match Keyed.find? key entries with
  | none => some (Keyed.insert key (.tables [[]]) entries)
  | some (.tables items) => some (Keyed.insert key (.tables (items ++ [[]])) entries)
  | some _ => none

/-- The key that the text of a date or time is found under. -/
def momentKey : String := "$__toml_private_datetime"

mutual

/-- The JSON form. A floating point number becomes zero, and a date or time an
object that holds its text. -/
def Item.toJson : Item → Json
  | .string text => .string text
  | .boolean value => .bool value
  | .whole value => .number (.whole value)
  | .real => .number (.double ⟨false, 0⟩)
  | .moment text => .object [(momentKey, .string text)]
  | .array items => .array (itemsToJson items)
  | .table _ entries => .object (entriesToJson entries)
  | .tables items => .array (tablesToJson items)

def itemsToJson : List Item → List Json
  | [] => []
  | item :: rest => item.toJson :: itemsToJson rest

def entriesToJson : List (String × Item) → List (String × Json)
  | [] => []
  | (key, item) :: rest => (key, item.toJson) :: entriesToJson rest

def tablesToJson : List (List (String × Item)) → List Json
  | [] => []
  | entries :: rest => .object (entriesToJson entries) :: tablesToJson rest

end

end ElmClient.Toml
