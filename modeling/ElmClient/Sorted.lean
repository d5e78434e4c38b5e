/-
Sorted lists without repetition. Inserting keeps the order, and an item that is
neither before nor after a present one is not inserted again.
-/

namespace ElmClient.Sorted

variable {α : Type}

def insert (before : α → α → Bool) (item : α) : List α → List α
  | [] => [item]
  | head :: tail =>
      if before item head then item :: head :: tail
      else if before head item then head :: insert before item tail
      else head :: tail

/-- Insert the items one after the other; an earlier item is kept. -/
def insertAll (before : α → α → Bool) (items present : List α) : List α :=
  items.foldl (fun collected item => insert before item collected) present

def ofList (before : α → α → Bool) (items : List α) : List α :=
  insertAll before items []

/-- The sorted texts of a list, each once, ordered by code points. -/
def texts (items : List String) : List String :=
  ofList (fun left right => decide (left < right)) items

def sortBy {κ : Type} (before : κ → κ → Bool) (key : α → κ) (items : List α) : List α :=
  items.mergeSort fun left right => !before (key right) (key left)

end ElmClient.Sorted
