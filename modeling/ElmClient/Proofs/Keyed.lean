/-
Looking up keyed lists. Where no key comes twice, a key has exactly the value it is
listed with.
-/

import ElmClient.Keyed
import Mathlib.Data.List.Nodup

namespace ElmClient.Keyed

variable {α κ : Type} [DecidableEq κ]

theorem mem_of_find? {entries : List (κ × α)} {key : κ} {value : α}
    (found : find? key entries = some value) : (key, value) ∈ entries := by
  induction entries with
  | nil => contradiction
  | cons entry rest ih =>
      obtain ⟨present, former⟩ := entry
      rw [find?] at found
      split at found
      case isTrue same =>
        obtain rfl := Option.some.inj found
        rw [same]
        exact List.mem_cons_self
      case isFalse => exact List.mem_cons_of_mem _ (ih found)

theorem find?_eq_some_iff {entries : List (κ × α)} (distinct : (keys entries).Nodup) (key : κ)
    (value : α) : find? key entries = some value ↔ (key, value) ∈ entries := by
  induction entries with
  | nil => simp [find?]
  | cons entry rest ih =>
      obtain ⟨present, former⟩ := entry
      rw [keys, List.map_cons, List.nodup_cons] at distinct
      obtain ⟨absent, restDistinct⟩ := distinct
      by_cases same : present = key
      · subst same
        rw [find?, if_pos rfl, List.mem_cons, Option.some.injEq, Prod.mk.injEq]
        constructor
        · intro equal
          exact Or.inl ⟨rfl, equal.symm⟩
        · rintro (⟨_, equal⟩ | later)
          · exact equal.symm
          · exact absurd (List.mem_map.mpr ⟨_, later, rfl⟩) absent
      · rw [find?, if_neg same, ih restDistinct, List.mem_cons, Prod.mk.injEq]
        constructor
        · exact Or.inr
        · rintro (⟨equal, _⟩ | later)
          · exact absurd equal.symm same
          · exact later

theorem find?_eq_none_iff {entries : List (κ × α)} {key : κ} :
    find? key entries = none ↔ key ∉ keys entries := by
  rw [← contains_iff_mem_keys, contains, Bool.not_eq_true, Option.isSome_eq_false_iff,
    Option.isNone_iff_eq_none]

theorem find?_cons_eq_none_iff {entry : κ × α} {entries : List (κ × α)} {key : κ} :
    find? key (entry :: entries) = none ↔ key ≠ entry.1 ∧ find? key entries = none := by
  rw [find?_eq_none_iff, find?_eq_none_iff, keys, List.map_cons, List.mem_cons, not_or]
  rfl

theorem find?_append (key : κ) (first second : List (κ × α)) :
    find? key (first ++ second) = (find? key first).or (find? key second) := by
  induction first with
  | nil => rfl
  | cons entry rest ih =>
      obtain ⟨present, value⟩ := entry
      rw [List.cons_append, find?, find?, ih]
      split <;> rfl

theorem find?_filter {entries : List (κ × α)} (distinct : (keys entries).Nodup)
    (wanted : κ × α → Bool) (key : κ) :
    find? key (entries.filter wanted) =
      (find? key entries).filter fun value => wanted (key, value) := by
  have filtered : (keys (entries.filter wanted)).Nodup :=
    distinct.sublist (List.filter_sublist.map _)
  apply Option.ext
  intro value
  rw [find?_eq_some_iff filtered, List.mem_filter, ← find?_eq_some_iff distinct,
    Option.filter_eq_some_iff]

/-! ### Inserting -/

theorem keys_insert (key : κ) (value : α) (entries : List (κ × α)) :
    keys (insert key value entries) =
      if key ∈ keys entries then keys entries else keys entries ++ [key] := by
  induction entries with
  | nil => rfl
  | cons entry rest ih =>
      obtain ⟨present, former⟩ := entry
      have listed : keys ((present, former) :: rest) = present :: keys rest := rfl
      rw [insert, listed]
      split
      case isTrue same =>
        rw [same, if_pos List.mem_cons_self]
        rfl
      case isFalse different =>
        have inRest : key ∈ present :: keys rest ↔ key ∈ keys rest :=
          List.mem_cons.trans (or_iff_right (Ne.symm different))
        change present :: keys (insert key value rest) = _
        rw [ih, if_congr inRest rfl rfl]
        split <;> rfl

theorem nodup_keys_insert {entries : List (κ × α)} (distinct : (keys entries).Nodup) (key : κ)
    (value : α) : (keys (insert key value entries)).Nodup := by
  rw [keys_insert]
  split
  case isTrue => exact distinct
  case isFalse new => exact List.concat_eq_append ▸ distinct.concat new

theorem mem_of_mem_insert {key : κ} {value : α} {entry : κ × α} {entries : List (κ × α)}
    (member : entry ∈ insert key value entries) : entry = (key, value) ∨ entry ∈ entries := by
  induction entries with
  | nil => exact Or.inl (List.mem_singleton.mp member)
  | cons first rest ih =>
      rw [insert] at member
      split at member
      · exact (List.mem_cons.mp member).imp_right (List.mem_cons_of_mem _)
      · rcases List.mem_cons.mp member with rfl | later
        · exact Or.inr List.mem_cons_self
        · exact (ih later).imp_right (List.mem_cons_of_mem _)

theorem mem_of_mem_ofList {entry : κ × α} {entries : List (κ × α)}
    (member : entry ∈ ofList entries) : entry ∈ entries := by
  have everyStart : ∀ collected : List (κ × α),
      entry ∈ entries.foldl (fun collected entry => insert entry.1 entry.2 collected) collected →
        entry ∈ collected ∨ entry ∈ entries := by
    clear member
    induction entries with
    | nil => exact fun collected => Or.inl
    | cons first rest ih =>
        intro collected member
        rcases ih _ member with inserted | later
        · rcases mem_of_mem_insert inserted with same | before
          · exact Or.inr (same ▸ List.mem_cons_self)
          · exact Or.inl before
        · exact Or.inr (List.mem_cons_of_mem _ later)
  exact (everyStart [] member).resolve_left List.not_mem_nil

end ElmClient.Keyed
