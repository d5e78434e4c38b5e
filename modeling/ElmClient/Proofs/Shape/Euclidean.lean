/-
Two things that equal a third one equal each other. Where no key comes twice in the third
one, both have its keys in some order, so an entry of the one is compared with the entry
of the other that equals the same entry of the third.
-/

import ElmClient.Proofs.Shape.Uniting
import Mathlib.Data.List.Perm.Subperm

namespace ElmClient

theorem keys_perm_of_subset {κ : Type} {keys others : List κ} (once : keys.Nodup)
    (subset : keys ⊆ others) (length : others.length ≤ keys.length) : keys.Perm others :=
  (once.subperm subset).perm_of_length_le length

namespace Json

theorem number_same_of_common {common left right : JsonNumber} (sameLeft : common.same left = true)
    (sameRight : common.same right = true) : left.same right = true := by
  cases common <;> cases left <;> cases right <;>
    simp only [JsonNumber.same, Double.same, Bool.false_eq_true, Bool.and_eq_true,
      Bool.or_eq_true, beq_iff_eq] at sameLeft sameRight ⊢
  case whole => exact sameLeft.symm.trans sameRight
  case double =>
    obtain ⟨magnitudeLeft, signLeft⟩ := sameLeft
    obtain ⟨magnitudeRight, signRight⟩ := sameRight
    refine ⟨magnitudeLeft.symm.trans magnitudeRight, ?_⟩
    rcases signLeft with equalLeft | zero
    · rcases signRight with equalRight | zero
      · exact Or.inl (equalLeft.symm.trans equalRight)
      · exact Or.inr (magnitudeLeft.symm.trans zero)
    · exact Or.inr (magnitudeLeft.symm.trans zero)

theorem entriesWithin_iff {entries others : List (String × Json)} :
    entriesWithin entries others = true ↔
      ∀ entry ∈ entries, ∃ other, Keyed.find? entry.1 others = some other ∧
        entry.2.same other = true := by
  induction entries with
  | nil => simp [entriesWithin]
  | cons entry rest ih =>
      obtain ⟨key, value⟩ := entry
      rw [entriesWithin, Bool.and_eq_true, ih, List.forall_mem_cons]
      cases Keyed.find? key others <;> simp

theorem object_same_of_common {common left right : List (String × Json)}
    (once : (Keyed.keys common).Nodup)
    (values : ∀ entry ∈ common, ∀ first second, entry.2.same first = true →
      entry.2.same second = true → first.same second = true)
    (sameLeft : (object common).same (.object left) = true)
    (sameRight : (object common).same (.object right) = true) :
    (object left).same (.object right) = true := by
  rw [same, Bool.and_eq_true, beq_iff_eq, entriesWithin_iff] at sameLeft sameRight ⊢
  obtain ⟨lengthLeft, inLeft⟩ := sameLeft
  obtain ⟨lengthRight, inRight⟩ := sameRight
  have subset : Keyed.keys common ⊆ Keyed.keys left := by
    intro key listed
    obtain ⟨entry, member, rfl⟩ := List.mem_map.mp listed
    obtain ⟨other, found, -⟩ := inLeft entry member
    exact List.mem_map.mpr ⟨_, Keyed.mem_of_find? found, rfl⟩
  have keys : (Keyed.keys common).Perm (Keyed.keys left) :=
    keys_perm_of_subset once subset (by simp [Keyed.keys, lengthLeft])
  refine ⟨lengthLeft.symm.trans lengthRight, fun entry member => ?_⟩
  have listed : entry.1 ∈ Keyed.keys common := keys.mem_iff.mpr (List.mem_map_of_mem member)
  obtain ⟨origin, inCommon, sameKey⟩ := List.mem_map.mp listed
  obtain ⟨first, foundLeft, sameFirst⟩ := inLeft origin inCommon
  obtain ⟨second, foundRight, sameSecond⟩ := inRight origin inCommon
  have itself : Keyed.find? entry.1 left = some entry.2 :=
    (Keyed.find?_eq_some_iff (keys.nodup_iff.mp once) _ _).mpr member
  rw [sameKey] at foundLeft foundRight
  obtain rfl : entry.2 = first := Option.some.inj (itself.symm.trans foundLeft)
  exact ⟨second, foundRight, values origin inCommon _ _ sameFirst sameSecond⟩

mutual

theorem same_of_common (common : Json) (distinct : common.distinctKeys = true)
    (left right : Json) (sameLeft : common.same left = true)
    (sameRight : common.same right = true) : left.same right = true := by
  match common with
  | .null => cases left <;> cases right <;> simp_all [same]
  | .bool value => cases left <;> cases right <;> simp_all [same]
  | .number value =>
      cases left <;> cases right <;> simp only [same, Bool.false_eq_true] at sameLeft sameRight
      exact number_same_of_common sameLeft sameRight
  | .string value => cases left <;> cases right <;> simp_all [same]
  | .array items =>
      cases left <;> cases right <;> simp only [same, Bool.false_eq_true] at sameLeft sameRight
      exact sameItems_of_common items (distinctKeysItems_iff.mp distinct) _ _ sameLeft sameRight
  | .object entries =>
      obtain ⟨once, values⟩ := distinctKeys_object_iff.mp distinct
      cases left with
      | object _ =>
          cases right with
          | object _ =>
              exact object_same_of_common once (entries_of_common entries values) sameLeft
                sameRight
          | _ => contradiction
      | _ => contradiction
termination_by structural common

theorem sameItems_of_common (common : List Json)
    (distinct : ∀ item ∈ common, item.distinctKeys = true) (left right : List Json)
    (sameLeft : sameItems common left = true) (sameRight : sameItems common right = true) :
    sameItems left right = true := by
  match common with
  | [] => cases left <;> cases right <;> simp_all [sameItems]
  | item :: rest =>
      obtain ⟨first, later⟩ := List.forall_mem_cons.mp distinct
      cases left <;> cases right <;>
        simp only [sameItems, Bool.false_eq_true, Bool.and_eq_true] at sameLeft sameRight ⊢
      exact ⟨same_of_common item first _ _ sameLeft.1 sameRight.1,
        sameItems_of_common rest later _ _ sameLeft.2 sameRight.2⟩
termination_by structural common

theorem entries_of_common (common : List (String × Json))
    (distinct : ∀ entry ∈ common, entry.2.distinctKeys = true) :
    ∀ entry ∈ common, ∀ left right, entry.2.same left = true → entry.2.same right = true →
      left.same right = true := by
  match common with
  | [] => exact fun entry member => absurd member List.not_mem_nil
  | (key, value) :: rest =>
      obtain ⟨first, later⟩ := List.forall_mem_cons.mp distinct
      exact List.forall_mem_cons.mpr
        ⟨same_of_common value first, entries_of_common rest later⟩
termination_by structural common

end

end Json

namespace Shape

theorem primitive_same_of_common {common left right : Primitive}
    (once : (primitive common).KeysOnce) (sameLeft : common.same left = true)
    (sameRight : common.same right = true) : left.same right = true := by
  obtain ⟨kind, format, constant⟩ := common
  obtain ⟨leftKind, leftFormat, leftConstant⟩ := left
  obtain ⟨rightKind, rightFormat, rightConstant⟩ := right
  simp only [Primitive.same, Bool.and_eq_true, beq_iff_eq] at sameLeft sameRight ⊢
  obtain ⟨⟨rfl, rfl⟩, constantLeft⟩ := sameLeft
  obtain ⟨⟨rfl, rfl⟩, constantRight⟩ := sameRight
  refine ⟨⟨rfl, rfl⟩, ?_⟩
  cases constant <;> cases leftConstant <;> cases rightConstant <;>
    simp only [Bool.false_eq_true] at constantLeft constantRight ⊢
  case some.some.some json _ _ =>
    exact json.same_of_common (once json rfl) _ _ constantLeft constantRight

theorem fieldsWithin_iff {fields others : List Field} :
    fieldsWithin fields others = true ↔
      ∀ field ∈ fields, ∃ other, Field.find? field.key others = some other ∧
        field.required = other.required ∧ field.doc = other.doc ∧
          field.shape.same other.shape = true := by
  induction fields with
  | nil => simp [fieldsWithin]
  | cons field rest ih =>
      obtain ⟨key, required, doc, shape⟩ := field
      rw [fieldsWithin, Bool.and_eq_true, ih, List.forall_mem_cons]
      cases Field.find? key others <;> simp [and_assoc]

theorem object_same_of_common {common left right : List Field}
    (once : (Field.keys common).Nodup)
    (shapes : ∀ field ∈ common, ∀ first second, field.shape.same first = true →
      field.shape.same second = true → first.same second = true)
    (sameLeft : (object common).same (.object left) = true)
    (sameRight : (object common).same (.object right) = true) :
    (object left).same (.object right) = true := by
  rw [same, Bool.and_eq_true, beq_iff_eq, fieldsWithin_iff] at sameLeft sameRight ⊢
  obtain ⟨lengthLeft, inLeft⟩ := sameLeft
  obtain ⟨lengthRight, inRight⟩ := sameRight
  have subset : Field.keys common ⊆ Field.keys left := by
    intro key listed
    obtain ⟨field, member, rfl⟩ := List.mem_map.mp listed
    obtain ⟨other, found, -⟩ := inLeft field member
    exact List.mem_map.mpr ⟨other, Field.mem_of_find? found, Field.key_of_find? found⟩
  have keys : (Field.keys common).Perm (Field.keys left) :=
    keys_perm_of_subset once subset (by simp [Field.keys, lengthLeft])
  refine ⟨lengthLeft.symm.trans lengthRight, fun field member => ?_⟩
  have listed : field.key ∈ Field.keys common := keys.mem_iff.mpr (List.mem_map_of_mem member)
  obtain ⟨origin, inCommon, sameKey⟩ := List.mem_map.mp listed
  obtain ⟨first, foundLeft, requiredLeft, docLeft, sameFirst⟩ := inLeft origin inCommon
  obtain ⟨second, foundRight, requiredRight, docRight, sameSecond⟩ := inRight origin inCommon
  have itself : Field.find? field.key left = some field :=
    Field.find?_of_mem (keys.nodup_iff.mp once) member
  rw [sameKey] at foundLeft foundRight
  obtain rfl : field = first := Option.some.inj (itself.symm.trans foundLeft)
  exact ⟨second, foundRight, requiredLeft.symm.trans requiredRight, docLeft.symm.trans docRight,
    shapes origin inCommon _ _ sameFirst sameSecond⟩

mutual

theorem same_of_common (common : Shape) (once : common.Everywhere KeysOnce) (left right : Shape)
    (sameLeft : common.same left = true) (sameRight : common.same right = true) :
    left.same right = true := by
  match common with
  | .nullable inner =>
      cases left <;> cases right <;> simp only [same, Bool.false_eq_true] at sameLeft sameRight ⊢
      exact same_of_common inner (everywhere_nullable_iff.mp once).2 _ _ sameLeft sameRight
  | .object fields =>
      obtain ⟨distinct, shapes⟩ := everywhere_object_iff.mp once
      cases left with
      | object _ =>
          cases right with
          | object _ =>
              exact object_same_of_common distinct (fields_of_common fields shapes) sameLeft
                sameRight
          | _ => contradiction
      | _ => contradiction
  | .primitive value =>
      cases left <;> cases right <;> simp only [same, Bool.false_eq_true] at sameLeft sameRight
      exact primitive_same_of_common once.here sameLeft sameRight
  | .list inner =>
      cases left <;> cases right <;> simp only [same, Bool.false_eq_true] at sameLeft sameRight ⊢
      exact same_of_common inner (everywhere_list_iff.mp once).2 _ _ sameLeft sameRight
  | .dict inner =>
      cases left <;> cases right <;> simp only [same, Bool.false_eq_true] at sameLeft sameRight ⊢
      exact same_of_common inner (everywhere_dict_iff.mp once).2 _ _ sameLeft sameRight
  | .union name variants =>
      cases left <;> cases right <;>
        simp only [same, Bool.false_eq_true, Bool.and_eq_true, beq_iff_eq]
          at sameLeft sameRight ⊢
      exact ⟨sameLeft.1.symm.trans sameRight.1,
        sameVariants_of_common variants (everywhere_union_iff.mp once).2 _ _ sameLeft.2
          sameRight.2⟩
  | .enum values => cases left <;> cases right <;> simp_all [same]
  | .ref target => cases left <;> cases right <;> simp_all [same]
  | .bytes => cases left <;> cases right <;> simp_all [same]
  | .unit => cases left <;> cases right <;> simp_all [same]
  | .anyJson => cases left <;> cases right <;> simp_all [same]
termination_by structural common

theorem fields_of_common (common : List (FieldOf Shape))
    (once : ∀ field ∈ common, field.shape.Everywhere KeysOnce) :
    ∀ field ∈ common, ∀ left right, field.shape.same left = true →
      field.shape.same right = true → left.same right = true := by
  match common with
  | [] => exact fun field member => absurd member List.not_mem_nil
  | ⟨key, required, doc, shape⟩ :: rest =>
      obtain ⟨first, later⟩ := List.forall_mem_cons.mp once
      exact List.forall_mem_cons.mpr ⟨same_of_common shape first, fields_of_common rest later⟩
termination_by structural common

theorem sameVariants_of_common (common : List (VariantOf Shape))
    (once : ∀ variant ∈ common, variant.shape.Everywhere KeysOnce) (left right : List Variant)
    (sameLeft : sameVariants common left = true) (sameRight : sameVariants common right = true) :
    sameVariants left right = true := by
  match common with
  | [] => cases left <;> cases right <;> simp_all [sameVariants]
  | ⟨name, shape, doc⟩ :: rest =>
      obtain ⟨first, later⟩ := List.forall_mem_cons.mp once
      cases left <;> cases right <;>
        simp only [sameVariants, Bool.false_eq_true, Bool.and_eq_true, beq_iff_eq]
          at sameLeft sameRight ⊢
      obtain ⟨⟨⟨nameLeft, docLeft⟩, shapeLeft⟩, restLeft⟩ := sameLeft
      obtain ⟨⟨⟨nameRight, docRight⟩, shapeRight⟩, restRight⟩ := sameRight
      exact ⟨⟨⟨nameLeft.symm.trans nameRight, docLeft.symm.trans docRight⟩,
        same_of_common shape first _ _ shapeLeft shapeRight⟩,
        sameVariants_of_common rest later _ _ restLeft restRight⟩
termination_by structural common

end

end Shape

theorem Union.same_of_common {common left right : Union}
    (once : ∀ variant ∈ common.variants, variant.shape.Everywhere Shape.KeysOnce)
    (sameLeft : common.same left = true) (sameRight : common.same right = true) :
    left.same right = true := by
  simp only [Union.same, Bool.and_eq_true, beq_iff_eq] at sameLeft sameRight ⊢
  exact ⟨sameLeft.1.symm.trans sameRight.1,
    Shape.sameVariants_of_common common.variants once _ _ sameLeft.2 sameRight.2⟩

end ElmClient
