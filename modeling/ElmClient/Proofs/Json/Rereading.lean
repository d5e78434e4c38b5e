/-
Values that are read again from what is written for them. A reader may accept several
spellings of a value, and a writer uses one; rereading says that this one is accepted
and means the same value. It is closed under lists, maps, references and records, so a
reader of a whole format is treated field by field.

Readers of nested values give up beyond some depth. So the values are read again by a
second reader, which has to accept only what is written within a bound.
-/

import ElmClient.Document.Reader
import ElmClient.Proofs.Keyed

namespace ElmClient.Json

/-! ### Depth of parts -/

theorem depth_le_of_mem {item : Json} {items : List Json} (member : item ∈ items) :
    item.depth ≤ depthItems items := by
  induction items with
  | nil => contradiction
  | cons first rest ih =>
      rcases List.mem_cons.mp member with rfl | later
      · exact Nat.le_max_left ..
      · exact Nat.le_trans (ih later) (Nat.le_max_right ..)

theorem depth_le_of_mem_entries {entry : String × Json} {entries : List (String × Json)}
    (member : entry ∈ entries) : entry.2.depth ≤ depthEntries entries := by
  induction entries with
  | nil => contradiction
  | cons first rest ih =>
      rcases List.mem_cons.mp member with rfl | later
      · exact Nat.le_max_left ..
      · exact Nat.le_trans (ih later) (Nat.le_max_right ..)

theorem depth_le_of_find? {name : String} {value : Json} {entries : List (String × Json)}
    (found : Keyed.find? name entries = some value) : value.depth ≤ depthEntries entries :=
  depth_le_of_mem_entries (Keyed.mem_of_find? found)

/-! ### Rereading -/

variable {α : Type} {bound : Nat} {read reread : Json → Option α} {write : α → Json}

/-- What is read is read again from what is written for it, where that is not deeper than
the bound. Only null is written as null. -/
structure Rereads (bound : Nat) (read reread : Json → Option α) (write : α → Json) : Prop where
  again : ∀ json value, read json = some value → (write value).depth ≤ bound →
    reread (write value) = some value
  present : ∀ json value, read json = some value → json ≠ .null → write value ≠ .null

theorem string_rereads : Rereads bound string? string? .string where
  again _ _ _ _ := rfl
  present _ _ _ _ := nofun

theorem bool_rereads : Rereads bound bool? bool? .bool where
  again _ _ _ _ := rfl
  present _ _ _ _ := nofun

theorem anything_rereads : Rereads bound anything? anything? id where
  again _ _ _ _ := rfl
  present _ _ same present := Option.some.inj same ▸ present

private theorem mapM_eq_some_iff {α β : Type} {convert : α → Option β} {items : List α}
    {values : List β} :
    items.mapM convert = some values ↔
      List.Forall₂ (fun item value => convert item = some value) items values := by
  induction items generalizing values with
  | nil =>
      rw [List.mapM_nil, List.forall₂_nil_left_iff]
      exact ⟨fun same => (Option.some.inj same).symm, fun empty => empty ▸ rfl⟩
  | cons item rest ih =>
      rw [List.mapM_cons, List.forall₂_cons_left_iff]
      constructor
      · intro read
        obtain ⟨value, first, read⟩ := Option.bind_eq_some_iff.mp read
        obtain ⟨later, others, same⟩ := Option.bind_eq_some_iff.mp read
        exact ⟨value, later, first, ih.mp others, (Option.some.inj same).symm⟩
      · rintro ⟨value, later, first, others, rfl⟩
        exact Option.bind_eq_some_iff.mpr
          ⟨value, first, Option.bind_eq_some_iff.mpr ⟨later, ih.mpr others, rfl⟩⟩

private theorem exists_of_mem_mapM {α β : Type} {convert : α → Option β} {items : List α}
    {values : List β} (read : items.mapM convert = some values) {value : β}
    (member : value ∈ values) : ∃ item, convert item = some value := by
  have each := mapM_eq_some_iff.mp read
  clear read
  induction each with
  | nil => contradiction
  | cons first _ ih =>
      rcases List.mem_cons.mp member with rfl | later
      · exact ⟨_, first⟩
      · exact ih later

theorem mapM_map_eq_some {α β : Type} {convert : α → Option β} {write : β → α}
    {values : List β} (each : ∀ value ∈ values, convert (write value) = some value) :
    (values.map write).mapM convert = some values :=
  mapM_eq_some_iff.mpr (List.forall₂_map_left_iff.mpr (List.forall₂_same.mpr each))

theorem Rereads.list (values : Rereads bound read reread write) :
    Rereads bound (list? read) (list? reread) (listToJson write) where
  again json written readAll shallow := by
    cases json with
    | array items =>
        refine mapM_map_eq_some fun value listed => ?_
        obtain ⟨item, readItem⟩ := exists_of_mem_mapM readAll listed
        have inside : (write value).depth ≤ depthItems (written.map write) :=
          depth_le_of_mem (List.mem_map_of_mem listed)
        exact values.again item value readItem
          (Nat.le_trans inside (Nat.le_of_succ_le shallow))
    | _ => contradiction
  present _ _ _ _ := nofun

theorem Rereads.members (values : Rereads bound read reread write) :
    Rereads bound (members? read) (members? reread) (membersToJson write) where
  again json written readAll shallow := by
    cases json with
    | object entries =>
        refine mapM_map_eq_some fun entry listed => ?_
        obtain ⟨source, readEntry⟩ := exists_of_mem_mapM readAll listed
        obtain ⟨value, readValue, rfl⟩ := Option.map_eq_some_iff.mp readEntry
        have inside := depth_le_of_mem_entries
          (List.mem_map_of_mem (f := fun entry => (entry.1, write entry.2)) listed)
        rw [values.again _ value readValue (Nat.le_trans inside (Nat.le_of_succ_le shallow))]
        rfl
    | _ => contradiction
  present _ _ _ _ := nofun

/-- A reference is written as one; what is written for anything else is no reference. -/
theorem Rereads.reference (values : Rereads bound read reread write)
    (inline : ∀ value, ∃ entries, write value = .object entries ∧
      Keyed.find? "$ref" entries = none) :
    Rereads bound (RefOr.ofJson? read) (RefOr.ofJson? reread) (RefOr.toJson write) where
  again json written readAny shallow := by
    cases written with
    | reference target => rfl
    | inline value =>
        obtain ⟨source, readValue⟩ : ∃ source, read source = some value := by
          unfold RefOr.ofJson? at readAny
          split at readAny
          · split at readAny
            · cases readAny
            · obtain ⟨_, readValue, same⟩ := Option.map_eq_some_iff.mp readAny
              exact ⟨_, RefOr.inline.inj same ▸ readValue⟩
          · obtain ⟨_, readValue, same⟩ := Option.map_eq_some_iff.mp readAny
            exact ⟨_, RefOr.inline.inj same ▸ readValue⟩
        have again := values.again source value readValue shallow
        obtain ⟨entries, written, missing⟩ := inline value
        have noReference : required? string? "$ref" entries = none := by
          rw [required?, missing]
          rfl
        rw [written] at again
        change RefOr.ofJson? reread (write value) = _
        rw [written, RefOr.ofJson?, noReference, again]
        rfl
  present json written _ _ := by
    cases written with
    | reference target => exact nofun
    | inline value =>
        obtain ⟨entries, written, -⟩ := inline value
        exact fun null => Json.noConfusion (written.symm.trans null)

/-! ### Written entries -/

@[simp]
theorem find?_optionalField (key name : String) (write : α → Json) (value : Option α) :
    Keyed.find? key (optionalField name write value) =
      if name = key then value.map write else none := by
  cases value with
  | none => exact (ite_self none).symm
  | some value => rfl

@[simp]
theorem find?_filledField (key name : String) (write : List α → Json) (values : List α) :
    Keyed.find? key (filledField name write values) =
      if name = key then if values.isEmpty then none else some (write values) else none := by
  unfold filledField
  split
  · exact (ite_self none).symm
  · rfl

/-! ### Records -/

section Records

variable {name : String} {default : α} {entries written : List (String × Json)}

theorem required_again (values : Rereads bound read reread write) {value : α}
    (readField : required? read name entries = some value)
    (shallow : depthEntries written ≤ bound)
    (found : Keyed.find? name written = some (write value)) :
    required? reread name written = some value := by
  obtain ⟨json, -, readValue⟩ := Option.bind_eq_some_iff.mp readField
  have inside := Nat.le_trans (depth_le_of_find? found) shallow
  exact Option.bind_eq_some_iff.mpr ⟨_, found, values.again json value readValue inside⟩

theorem defaulted_again (values : Rereads bound read reread write)
    (ofDefault : reread (write default) = some default) {value : α}
    (readField : defaulted? read default name entries = some value)
    (shallow : depthEntries written ≤ bound)
    (found : Keyed.find? name written = some (write value)) :
    defaulted? reread default name written = some value := by
  have inside := Nat.le_trans (depth_le_of_find? found) shallow
  unfold defaulted? at readField ⊢
  rw [found]
  split at readField
  · exact Option.some.inj readField ▸ ofDefault
  · exact values.again _ value readField inside

theorem filled_again {read reread : Json → Option (List α)} {write : List α → Json}
    (collections : Rereads bound read reread write) {values : List α}
    (readField : defaulted? read [] name entries = some values)
    (shallow : depthEntries written ≤ bound)
    (found : Keyed.find? name written =
        if values.isEmpty then none else some (write values)) :
    defaulted? reread [] name written = some values := by
  cases values with
  | nil =>
      unfold defaulted?
      rw [show Keyed.find? name written = none from found]
  | cons value rest =>
      have inside := Nat.le_trans (depth_le_of_find? found) shallow
      unfold defaulted? at readField ⊢
      rw [show Keyed.find? name written = some (write (value :: rest)) from found]
      split at readField
      · cases readField
      · exact collections.again _ _ readField inside

theorem optional?_present {json : Json} (found : Keyed.find? name entries = some json)
    (present : json ≠ .null) : optional? read name entries = (read json).map some := by
  unfold optional?
  rw [found]
  cases json with
  | null => contradiction
  | _ => rfl

private theorem source_of_optional {value : α}
    (readField : optional? read name entries = some (some value)) :
    ∃ json, json ≠ .null ∧ read json = some value := by
  cases found : Keyed.find? name entries with
  | none =>
      rw [optional?, found] at readField
      cases readField
  | some json =>
      by_cases null : json = .null
      · rw [optional?, found, null] at readField
        cases readField
      · rw [optional?_present found null] at readField
        obtain ⟨_, readValue, same⟩ := Option.map_eq_some_iff.mp readField
        exact ⟨json, null, Option.some.inj same ▸ readValue⟩

theorem optional_again (values : Rereads bound read reread write) {value : Option α}
    (readField : optional? read name entries = some value)
    (shallow : depthEntries written ≤ bound)
    (found : Keyed.find? name written = value.map write) :
    optional? reread name written = some value := by
  cases value with
  | none =>
      unfold optional?
      rw [show Keyed.find? name written = none from found]
  | some value =>
      obtain ⟨json, present, readValue⟩ := source_of_optional readField
      have notNull := values.present json value readValue present
      have inside := Nat.le_trans (depth_le_of_find? found) shallow
      rw [optional?_present found notNull, values.again json value readValue inside]
      rfl

end Records

theorem record?_object (names : List String) (read : List (String × Json) → Option α)
    (entries : List (String × Json)) : record? names read (.object entries) = read entries :=
  rfl

/-- Reading a record is reading its entries, in whichever way it is spelled. -/
theorem Rereads.record {names : List String}
    {read reread : List (String × Json) → Option α} {fields : α → List (String × Json)}
    (again : ∀ entries value, read entries = some value → depthEntries (fields value) ≤ bound →
      reread (fields value) = some value) :
    Rereads bound (record? names read) (record? names reread) (fun value => .object (fields value))
    where
  again json value readRecord shallow := by
    obtain ⟨entries, -, readEntries⟩ := Option.bind_eq_some_iff.mp readRecord
    exact again entries value readEntries (Nat.le_of_succ_le shallow)
  present _ _ _ _ := nofun

end ElmClient.Json
