/-
Keyed lists: pairs in the order in which their keys first appeared. Inserting
under a present key exchanges the value and keeps the position.
-/

namespace ElmClient.Keyed

variable {α β κ : Type} [DecidableEq κ]

def keys (entries : List (κ × α)) : List κ :=
  entries.map Prod.fst

def values (entries : List (κ × α)) : List α :=
  entries.map Prod.snd

def find? (key : κ) : List (κ × α) → Option α
  | [] => none
  | (present, value) :: rest => if present = key then some value else find? key rest

def contains (key : κ) (entries : List (κ × α)) : Bool :=
  (find? key entries).isSome

def insert (key : κ) (value : α) : List (κ × α) → List (κ × α)
  | [] => [(key, value)]
  | (present, former) :: rest =>
      if present = key then (key, value) :: rest
      else (present, former) :: insert key value rest

/-- First position, last value. -/
def ofList (entries : List (κ × α)) : List (κ × α) :=
  entries.foldl (fun collected entry => insert entry.1 entry.2 collected) []

theorem find?_insert (key other : κ) (value : α) (entries : List (κ × α)) :
    find? other (insert key value entries) =
      if key = other then some value else find? other entries := by
  induction entries with
  | nil => simp [insert, find?]
  | cons entry rest hypothesis =>
      obtain ⟨present, former⟩ := entry
      by_cases same : present = key
      · subst same
        by_cases found : present = other <;> simp [insert, find?, found]
      · by_cases found : present = other
        · subst found
          have different : ¬ key = present := fun equal => same equal.symm
          simp [insert, find?, same, different]
        · simp [insert, find?, same, found, hypothesis]

theorem contains_iff_mem_keys (key : κ) (entries : List (κ × α)) :
    contains key entries = true ↔ key ∈ keys entries := by
  induction entries with
  | nil => simp [contains, find?, keys]
  | cons entry rest hypothesis =>
      obtain ⟨present, value⟩ := entry
      by_cases same : present = key
      · simp [contains, find?, keys, same]
      · have different : ¬ key = present := fun equal => same equal.symm
        simpa [contains, find?, keys, same, different] using hypothesis

end ElmClient.Keyed
