/-
Laying one JSON document over another. Objects are united key by key, and a
null member deletes; arrays are united position by position, and a null item
keeps what is below it; anything else is replaced. An object never meets an
array: that is a conflict, reported with the way that leads to it.
-/

import ElmClient.Json.Printer
import ElmClient.Pointer

namespace ElmClient.Overlay

/-- An object and an array met at the end of `path`. -/
structure Conflict where
  path : List String
  base : Json
  overlay : Json
deriving Repr, Inhabited

def previewLength : Nat := 80

def preview (value : Json) : String :=
  let text := value.compact
  if text.length ≤ previewLength then text
  else String.ofList (text.toList.take previewLength) ++ "..."

def Conflict.message (conflict : Conflict) : String :=
  "cannot merge " ++ conflict.overlay.kindName ++ " onto " ++ conflict.base.kindName
    ++ " at `" ++ Pointer.render conflict.path ++ "` (base: " ++ preview conflict.base
    ++ ", override: " ++ preview conflict.overlay ++ ")"

/-- Entries of an overlay object that the base does not have; nulls are dropped. -/
def newEntries (base overlay : List (String × Json)) : List (String × Json) :=
  overlay.filter fun entry => !Keyed.contains entry.1 base && !entry.2.isNull

mutual

def mergeAt (path : List String) : Json → Json → Except Conflict Json
  | .object base, .object overlay => do
      let kept ← mergeEntries path base overlay
      return .object (kept ++ newEntries base overlay)
  | .array base, .array overlay => do
      return .array (← mergeItems path 0 base overlay)
  | .object base, .array overlay => throw ⟨path, .object base, .array overlay⟩
  | .array base, .object overlay => throw ⟨path, .array base, .object overlay⟩
  | _, overlay => return overlay

def mergeEntries (path : List String) :
    List (String × Json) → List (String × Json) → Except Conflict (List (String × Json))
  | [], _ => return []
  | (key, value) :: rest, overlay =>
      match Keyed.find? key overlay with
      | none => return (key, value) :: (← mergeEntries path rest overlay)
      | some .null => mergeEntries path rest overlay
      | some other => do
          let merged ← mergeAt (path ++ [key]) value other
          return (key, merged) :: (← mergeEntries path rest overlay)

/-- Items by position; `index` is the position of the first one. -/
def mergeItems (path : List String) :
    Nat → List Json → List Json → Except Conflict (List Json)
  | _, base, [] => return base
  | _, [], overlay => return overlay
  | index, item :: rest, .null :: others => do
      return item :: (← mergeItems path (index + 1) rest others)
  | index, item :: rest, other :: others => do
      let merged ← mergeAt (path ++ [toString index]) item other
      return merged :: (← mergeItems path (index + 1) rest others)

end

def merge (base overlay : Json) : Except Conflict Json :=
  mergeAt [] base overlay

def mergeAll (base : Json) : List Json → Except Conflict Json
  | [] => return base
  | overlay :: rest => do mergeAll (← merge base overlay) rest

end ElmClient.Overlay
