/-
Looking up united fields. A key is there if any side has it, and it is required if any
side requires it; the first position and the last shape play no part in that.
-/

import ElmClient.Resolve.Fields
import Mathlib.Data.List.Basic

namespace ElmClient.Field

def Has (key : String) (fields : List Field) : Prop :=
  ∃ field, find? key fields = some field

def Requires (key : String) (fields : List Field) : Prop :=
  ∃ field, find? key fields = some field ∧ field.required = true

variable {key : String}

theorem has_nil : ¬ Has key [] := nofun

theorem requires_nil : ¬ Requires key [] := nofun

theorem has_iff_mem_keys {fields : List Field} : Has key fields ↔ key ∈ keys fields := by
  induction fields with
  | nil => exact iff_of_false has_nil List.not_mem_nil
  | cons field rest ih =>
      rw [keys, List.map_cons, List.mem_cons, Has, find?]
      split
      case isTrue same => exact iff_of_true ⟨field, rfl⟩ (Or.inl same.symm)
      case isFalse other => exact ih.trans (or_iff_right fun equal => other equal.symm).symm

theorem find?_filter_ne {other : String} (different : other ≠ key) (fields : List Field) :
    find? key (fields.filter fun field => field.key != other) = find? key fields := by
  induction fields with
  | nil => rfl
  | cons field rest ih =>
      rw [List.filter_cons]
      by_cases same : field.key = key
      · have kept : (field.key != other) = true := bne_iff_ne.mpr fun equal =>
          different (equal.symm.trans same)
        rw [if_pos kept, find?, find?, if_pos same, if_pos same]
      · split
        · rw [find?, find?, if_neg same, if_neg same, ih]
        · rw [find?, if_neg same, ih]

theorem find?_unite (present incoming : List Field) :
    find? key (unite present incoming) =
      match find? key present, find? key incoming with
      | none, field => field
      | some field, none => some field
      | some field, some other =>
          some ⟨key, field.required || other.required, field.doc.or other.doc,
            uniteShapes field.shape other.shape⟩ := by
  unfold unite
  induction present generalizing incoming with
  | nil => rfl
  | cons field rest ih =>
      obtain ⟨name, required, doc, shape⟩ := field
      rw [uniteWithin]
      by_cases same : name = key
      · subst same
        rw [find?, if_pos rfl]
        split
        case h_1 missing => rw [find?, if_pos rfl, missing]
        case h_2 other found => rw [find?, if_pos rfl, found]
      · rw [find?, if_neg same]
        split
        · rw [find?, if_neg same, ih]
        · rw [find?, if_neg same, ih, find?_filter_ne same]

theorem has_unite {present incoming : List Field} :
    Has key (unite present incoming) ↔ Has key present ∨ Has key incoming := by
  rw [Has, Has, Has, find?_unite]
  cases find? key present <;> cases find? key incoming <;> simp

theorem requires_unite {present incoming : List Field} :
    Requires key (unite present incoming) ↔ Requires key present ∨ Requires key incoming := by
  rw [Requires, Requires, Requires, find?_unite]
  cases find? key present <;> cases find? key incoming <;> simp

theorem has_foldl_unite {contributions : List (List Field)} {present : List Field} :
    Has key (contributions.foldl unite present) ↔
      Has key present ∨ ∃ fields ∈ contributions, Has key fields := by
  induction contributions generalizing present with
  | nil => simp
  | cons fields rest ih => simp [ih, has_unite, or_assoc]

theorem requires_foldl_unite {contributions : List (List Field)} {present : List Field} :
    Requires key (contributions.foldl unite present) ↔
      Requires key present ∨ ∃ fields ∈ contributions, Requires key fields := by
  induction contributions generalizing present with
  | nil => simp
  | cons fields rest ih => simp [ih, requires_unite, or_assoc]

theorem find?_requireKeys (wanted : List String) (fields : List Field) :
    find? key (requireKeys wanted fields) =
      (find? key fields).map fun field =>
        { field with required := wanted.contains key || field.required } := by
  induction fields with
  | nil => rfl
  | cons field rest ih =>
      rw [requireKeys, List.map_cons, ← requireKeys]
      by_cases wants : wanted.contains field.key = true
      · rw [if_pos wants, find?, find?]
        by_cases same : field.key = key
        · rw [if_pos same, if_pos same, Option.map_some, ← same, wants, Bool.true_or]
        · rw [if_neg same, if_neg same, ih]
      · rw [if_neg wants, find?, find?]
        by_cases same : field.key = key
        · rw [if_pos same, if_pos same, Option.map_some, ← same, Bool.eq_false_iff.mpr wants,
            Bool.false_or]
        · rw [if_neg same, if_neg same, ih]

theorem has_requireKeys {wanted : List String} {fields : List Field} :
    Has key (requireKeys wanted fields) ↔ Has key fields := by
  rw [Has, Has, find?_requireKeys]
  cases find? key fields <;> simp

theorem requires_requireKeys {wanted : List String} {fields : List Field} :
    Requires key (requireKeys wanted fields) ↔
      key ∈ wanted ∧ Has key fields ∨ Requires key fields := by
  rw [Requires, Requires, Has, find?_requireKeys]
  cases find? key fields <;> simp

end ElmClient.Field
