/-
Places in JSON values. A way leads through the members of objects and the items of
arrays to at most one value. Objects hold a key once, at any depth; a null that stands
under a key is a null member, one that stands in an array is an item.
-/

import ElmClient.Json.Basic
import ElmClient.Proofs.Keyed

namespace ElmClient.Json

inductive Step where
  | member (key : String)
  | item (index : Nat)
deriving DecidableEq, Repr

def child? : Step → Json → Option Json
  | .member key, .object entries => Keyed.find? key entries
  | .item index, .array items => items[index]?
  | _, _ => none

/-- The value at the end of a way. -/
def at? : List Step → Json → Option Json
  | [], json => some json
  | step :: rest, json => (json.child? step).bind (at? rest)

def isLeaf : Json → Bool
  | .array _ => false
  | .object _ => false
  | _ => true

def sameContainer : Json → Json → Bool
  | .object _, .object _ => true
  | .array _, .array _ => true
  | _, _ => false

mutual

def distinctKeys : Json → Bool
  | .array items => distinctKeysItems items
  | .object entries => decide (Keyed.keys entries).Nodup && distinctKeysEntries entries
  | _ => true

def distinctKeysItems : List Json → Bool
  | [] => true
  | item :: rest => distinctKeys item && distinctKeysItems rest

def distinctKeysEntries : List (String × Json) → Bool
  | [] => true
  | (_, value) :: rest => distinctKeys value && distinctKeysEntries rest

end

mutual

def nullFree : Json → Bool
  | .array items => nullFreeItems items
  | .object entries => nullFreeEntries entries
  | _ => true

def nullFreeItems : List Json → Bool
  | [] => true
  | item :: rest => nullFree item && nullFreeItems rest

def nullFreeEntries : List (String × Json) → Bool
  | [] => true
  | (_, value) :: rest => !value.isNull && nullFree value && nullFreeEntries rest

end

/-! ### Ways -/

theorem at?_cons {step : Step} {json child : Json} (found : json.child? step = some child)
    (rest : List Step) : json.at? (step :: rest) = child.at? rest := by
  rw [at?, found, Option.bind_some]

theorem child?_of_at? {step : Step} {rest : List Step} {json value : Json}
    (found : json.at? (step :: rest) = some value) :
    ∃ child, json.child? step = some child ∧ child.at? rest = some value :=
  Option.bind_eq_some_iff.mp found

theorem isNull_of_child? {json : Json} {step : Step} {child : Json}
    (found : json.child? step = some child) : json.isNull = false := by
  cases json with
  | null => cases step <;> contradiction
  | _ => rfl

theorem isNull_of_at? {json value : Json} {way : List Step} (found : json.at? way = some value)
    (present : value.isNull = false) : json.isNull = false := by
  cases way with
  | nil =>
      obtain rfl := Option.some.inj found
      exact present
  | cons step rest =>
      obtain ⟨child, inside, _⟩ := child?_of_at? found
      exact isNull_of_child? inside

@[simp] theorem isNull_null : isNull .null = true := rfl

theorem isNull_eq_false_iff {json : Json} : json.isNull = false ↔ json ≠ .null := by
  cases json <;> simp [isNull]

theorem not_leaf_of_sameContainer {left right : Json}
    (same : left.sameContainer right = true) : ¬ (left.isLeaf = true ∨ right.isLeaf = true) := by
  cases left <;> cases right <;> simp_all [sameContainer, isLeaf]

theorem sameContainer_of_child? {left right : Json} {step : Step} {first second : Json}
    (inLeft : left.child? step = some first) (inRight : right.child? step = some second) :
    left.sameContainer right = true := by
  cases step <;> cases left <;> cases right <;> first | rfl | contradiction

/-! ### Keys held once -/

theorem distinctKeysItems_iff {items : List Json} :
    distinctKeysItems items = true ↔ ∀ item ∈ items, item.distinctKeys = true := by
  induction items with
  | nil => simp [distinctKeysItems]
  | cons item rest ih => simp [distinctKeysItems, ih]

theorem distinctKeysEntries_iff {entries : List (String × Json)} :
    distinctKeysEntries entries = true ↔ ∀ entry ∈ entries, entry.2.distinctKeys = true := by
  induction entries with
  | nil => simp [distinctKeysEntries]
  | cons entry rest ih => simp [distinctKeysEntries, ih]

theorem distinctKeys_object_iff {entries : List (String × Json)} :
    (object entries).distinctKeys = true ↔
      (Keyed.keys entries).Nodup ∧ ∀ entry ∈ entries, entry.2.distinctKeys = true := by
  rw [distinctKeys, Bool.and_eq_true, decide_eq_true_iff, distinctKeysEntries_iff]

theorem distinctKeys_child? {json child : Json} {step : Step}
    (distinct : json.distinctKeys = true) (found : json.child? step = some child) :
    child.distinctKeys = true := by
  cases json with
  | array items =>
      cases step with
      | member key => contradiction
      | item index =>
          exact distinctKeysItems_iff.mp distinct child (List.mem_of_getElem? found)
  | object entries =>
      cases step with
      | member key =>
          exact (distinctKeys_object_iff.mp distinct).2 _ (Keyed.mem_of_find? found)
      | item index => contradiction
  | _ => cases step <;> contradiction

theorem distinctKeys_at? {json value : Json} {way : List Step}
    (distinct : json.distinctKeys = true) (found : json.at? way = some value) :
    value.distinctKeys = true := by
  induction way generalizing json with
  | nil =>
      obtain rfl := Option.some.inj found
      exact distinct
  | cons step rest ih =>
      obtain ⟨child, inside, later⟩ := child?_of_at? found
      exact ih (distinctKeys_child? distinct inside) later

/-! ### Nulls under keys -/

theorem nullFreeItems_iff {items : List Json} :
    nullFreeItems items = true ↔ ∀ item ∈ items, item.nullFree = true := by
  induction items with
  | nil => simp [nullFreeItems]
  | cons item rest ih => simp [nullFreeItems, ih]

theorem nullFreeEntries_iff {entries : List (String × Json)} :
    nullFreeEntries entries = true ↔
      ∀ entry ∈ entries, entry.2.isNull = false ∧ entry.2.nullFree = true := by
  induction entries with
  | nil => simp [nullFreeEntries]
  | cons entry rest ih => simp [nullFreeEntries, ih]

theorem nullFree_leaf {json : Json} (leaf : json.isLeaf = true) : json.nullFree = true := by
  cases json <;> first | rfl | contradiction

end ElmClient.Json
