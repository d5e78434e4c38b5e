/-
Where the annotation of a format is written out. A primitive that is nested in a shape but
not in one of its unions is written in the type of the shape, so the type is at least as
long as the annotation of the primitive. Unions are written by name; what they hold is
written where they are declared.
-/

import ElmClient.Proofs.Formats.Agreement
import Mathlib.Data.List.Basic

namespace ElmClient

/-! ### Lengths of texts -/

namespace Text

private theorem length_le_replaceFrom {pattern replacement : List Char}
    (longer : pattern.length ≤ replacement.length) (inhabited : pattern ≠ []) (skip : Nat)
    (characters : List Char) :
    characters.length ≤ (replaceFrom pattern replacement skip characters).length + skip := by
  induction characters generalizing skip with
  | nil => exact Nat.zero_le _
  | cons character rest ih =>
      have positive := List.length_pos_of_ne_nil inhabited
      cases skip with
      | succ skip =>
          have later := ih skip
          rw [replaceFrom, List.length_cons]
          omega
      | zero =>
          rw [replaceFrom, List.length_cons]
          split
          · have later := ih (pattern.length - 1)
            rw [List.length_append]
            omega
          · have later := ih 0
            rw [List.length_cons]
            omega

private theorem length_le_replaceAll {pattern replacement : String}
    (longer : pattern.toList.length ≤ replacement.toList.length)
    (inhabited : pattern.toList ≠ []) (text : String) :
    text.length ≤ (replaceAll pattern replacement text).length := by
  have general := length_le_replaceFrom longer inhabited 0 text.toList
  rw [replaceAll, replaceChars, String.length_ofList]
  rwa [String.length_toList, Nat.add_zero] at general

private theorem sublist_intercalate {piece separator : List Char} {pieces : List (List Char)}
    (member : piece ∈ pieces) : piece.Sublist (separator.intercalate pieces) := by
  induction pieces with
  | nil => exact absurd member List.not_mem_nil
  | cons head rest ih =>
      by_cases last : rest = []
      · subst last
        rw [List.intercalate_singleton, List.mem_singleton.mp member]
      · rw [List.intercalate_cons_of_ne_nil last]
        rcases List.mem_cons.mp member with rfl | later
        · exact (List.sublist_append_left _ _).trans (List.sublist_append_left _ _)
        · exact (ih later).trans (List.sublist_append_right _ _)

private theorem length_le_join {piece : String} {pieces : List String} (separator : String)
    (member : piece ∈ pieces) : piece.length ≤ (join separator pieces).length := by
  rw [← String.length_toList, ← String.length_toList, join, String.toList_intercalate]
  exact (sublist_intercalate (List.mem_map_of_mem member)).length_le

theorem length_le_concat {piece : String} {pieces : List String} (member : piece ∈ pieces) :
    piece.length ≤ (String.join pieces).length := by
  rw [← String.length_toList, ← String.length_toList, String.toList_join]
  refine List.Sublist.length_le ?_
  rw [List.flatMap_def]
  exact List.sublist_flatten_of_mem (List.mem_map_of_mem member)

end Text

namespace Elm

open Text

variable {naming : Naming}

private theorem length_le_atom (text : String) : text.length ≤ (atom text).length := by
  unfold atom
  split
  · exact Nat.le_refl _
  · rw [String.length_append, String.length_append]
    omega

private theorem length_le_recordLine (separator : String) (entry : String × String) :
    entry.2.length ≤ (recordLine separator entry).length := by
  have longer := @length_le_replaceAll "\n" "\n    " (by decide) (by decide) entry.2
  rw [recordLine, String.length_append]
  omega

private theorem length_le_record {entry : String × String} {entries : List (String × String)}
    (separator : String) (member : entry ∈ entries) :
    entry.2.length ≤ (record entries separator).length := by
  unfold record
  rw [if_neg (by simpa using List.ne_nil_of_mem member)]
  dsimp only
  split
  · have inline : _ ≤ (inlineEntries entries separator).length :=
      length_le_join ", " (List.mem_map_of_mem (f := fun entry : String × String =>
        entry.1 ++ " " ++ separator ++ " " ++ entry.2) member)
    simp only [String.length_append] at inline ⊢
    omega
  · have line := length_le_recordLine separator entry
    have listed := List.mem_map_of_mem (f := recordLine separator) member
    unfold tallRecord
    cases lines : entries.map (recordLine separator) with
    | nil =>
        rw [lines] at listed
        exact absurd listed List.not_mem_nil
    | cons first rest =>
        rw [lines] at listed
        simp only [String.length_append]
        rcases List.mem_cons.mp listed with same | later
        · rw [← same]
          omega
        · have concat := length_le_concat
            (List.mem_map_of_mem (f := fun line => ", " ++ line ++ "\n") later)
          simp only [String.length_append] at concat
          omega

private theorem length_le_maybeUnless (required : Bool) (inner : String) :
    inner.length ≤ (maybeUnless required inner).length := by
  unfold maybeUnless
  split
  · exact Nat.le_refl _
  · have longer := length_le_atom inner
    rw [String.length_append]
    omega

theorem fieldTypes_eq_map (fields : List Field) :
    fieldTypes naming fields =
      fields.map fun field => maybeUnless field.required (typeExpression naming field.shape) := by
  induction fields with
  | nil => rfl
  | cons field rest ih =>
      unfold fieldTypes
      rw [ih]
      rfl

private theorem length_recordNames (fields : List Field) :
    (recordNames fields).length = fields.length := by
  rw [recordNames, Fresh.assign, Fresh.length_assignAfter, List.length_map]

private theorem length_le_objectType {field : Field} {fields : List Field}
    (member : field ∈ fields) :
    (typeExpression naming field.shape).length ≤
      (typeExpression naming (.object fields)).length := by
  have types : ((recordNames fields).zip (fieldTypes naming fields)).map Prod.snd =
      fieldTypes naming fields :=
    List.map_snd_zip (Nat.le_of_eq (by rw [length_recordNames, fieldTypes_eq_map, List.length_map]))
  have listed : maybeUnless field.required (typeExpression naming field.shape) ∈
      fieldTypes naming fields := by
    rw [fieldTypes_eq_map]
    exact List.mem_map_of_mem member
  rw [← types] at listed
  obtain ⟨entry, zipped, same⟩ := List.mem_map.mp listed
  refine Nat.le_trans (length_le_maybeUnless field.required _) ?_
  rw [← same]
  exact length_le_record ":" zipped

private theorem length_le_applied {lead argument : String} {length : Nat}
    (shorter : length ≤ argument.length) : length ≤ (lead ++ atom argument).length := by
  have longer := length_le_atom argument
  rw [String.length_append]
  omega

mutual

/-- A type is at least as long as the annotation of each primitive outside of unions. -/
theorem length_le_typeExpression {value : Primitive} {entry : FormatEntry}
    (formatted : naming.formatEntry? value = some entry) (shape : Shape)
    (direct : value ∈ shape.directPrimitives) :
    entry.elmType.length ≤ (typeExpression naming shape).length := by
  match shape with
  | .nullable inner => exact length_le_applied (length_le_typeExpression formatted inner direct)
  | .list inner => exact length_le_applied (length_le_typeExpression formatted inner direct)
  | .dict inner => exact length_le_applied (length_le_typeExpression formatted inner direct)
  | .primitive other =>
      obtain rfl := List.mem_singleton.mp direct
      unfold typeExpression
      simp only [formatted, Nat.le_refl]
  | .object fields =>
      obtain ⟨field, member, shorter⟩ := exists_longer_field formatted fields direct
      exact Nat.le_trans shorter (length_le_objectType member)
termination_by structural shape

theorem exists_longer_field {value : Primitive} {entry : FormatEntry}
    (formatted : naming.formatEntry? value = some entry) (fields : List (FieldOf Shape))
    (direct : value ∈ Shape.fieldPrimitives fields) :
    ∃ field ∈ fields, entry.elmType.length ≤ (typeExpression naming field.shape).length := by
  match fields with
  | ⟨key, required, doc, shape⟩ :: rest =>
      rcases List.mem_append.mp direct with here | later
      · exact ⟨_, List.mem_cons_self, length_le_typeExpression formatted shape here⟩
      · obtain ⟨field, member, shorter⟩ := exists_longer_field formatted rest later
        exact ⟨field, List.mem_cons_of_mem _ member, shorter⟩
termination_by structural fields

end

private theorem length_le_leadLines {item : String} {items : List String} (first further : String)
    (member : item ∈ items) : item.length ≤ (leadLines first further items).length := by
  cases items with
  | nil => exact absurd member List.not_mem_nil
  | cons head rest =>
      simp only [leadLines, String.length_append]
      rcases List.mem_cons.mp member with rfl | later
      · omega
      · have concat := length_le_concat
          (List.mem_map_of_mem (f := fun other => "\n" ++ further ++ other) later)
        simp only [String.length_append] at concat
        omega

/-- The declaration of a union is at least as long as the annotation of each primitive of
its variants. -/
theorem length_le_unionType {value : Primitive} {entry : FormatEntry}
    (formatted : naming.formatEntry? value = some entry) {union : Union} {variant : Variant}
    (member : variant ∈ union.variants) (direct : value ∈ variant.shape.directPrimitives) :
    entry.elmType.length ≤
      (customTypeSource union.name (union.variants.map (variantConstructor naming))).length := by
  have constructor : entry.elmType.length ≤ (variantConstructor naming variant).length := by
    unfold variantConstructor
    split
    case isTrue unit =>
      cases shape : variant.shape <;> rw [shape] at unit direct <;>
        first | exact absurd direct List.not_mem_nil | contradiction
    case isFalse =>
      exact length_le_applied (length_le_typeExpression formatted variant.shape direct)
  have lines := length_le_leadLines "    = " "    | "
    (List.mem_map_of_mem (f := variantConstructor naming) member)
  unfold customTypeSource
  rw [String.length_append]
  omega

end Elm

end ElmClient
