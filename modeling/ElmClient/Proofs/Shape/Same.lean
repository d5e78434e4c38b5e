/-
Equality of values and shapes. The order of entries and fields is ignored, so an entry is
compared with the one that is found under its key; where no key comes twice that is the
entry itself, and everything equals itself.
-/

import ElmClient.Proofs.Json.Place
import ElmClient.Proofs.Shape.Everywhere

namespace ElmClient

namespace Json

theorem number_same_self (value : JsonNumber) : value.same value = true := by
  cases value with
  | whole value => exact beq_self_eq_true value
  | double value => simp [JsonNumber.same, Double.same]

mutual

theorem same_self (json : Json) (distinct : json.distinctKeys = true) :
    json.same json = true := by
  match json with
  | .null => rfl
  | .bool value => exact beq_self_eq_true value
  | .number value => exact number_same_self value
  | .string value => exact beq_self_eq_true value
  | .array items => exact sameItems_self items (distinctKeysItems_iff.mp distinct)
  | .object entries =>
      obtain ⟨keys, values⟩ := distinctKeys_object_iff.mp distinct
      have within : entriesWithin entries entries = true :=
        entriesWithin_self entries entries
          (fun entry member => (Keyed.find?_eq_some_iff keys _ _).mpr member) values
      rw [same, within, beq_self_eq_true, Bool.and_true]
termination_by structural json

theorem sameItems_self (items : List Json) (distinct : ∀ item ∈ items, item.distinctKeys = true) :
    sameItems items items = true := by
  match items with
  | [] => rfl
  | item :: rest =>
      obtain ⟨first, later⟩ := List.forall_mem_cons.mp distinct
      rw [sameItems, same_self item first, sameItems_self rest later, Bool.and_true]
termination_by structural items

theorem entriesWithin_self (entries others : List (String × Json))
    (found : ∀ entry ∈ entries, Keyed.find? entry.1 others = some entry.2)
    (distinct : ∀ entry ∈ entries, entry.2.distinctKeys = true) :
    entriesWithin entries others = true := by
  match entries with
  | [] => rfl
  | (key, value) :: rest =>
      obtain ⟨foundFirst, foundLater⟩ := List.forall_mem_cons.mp found
      obtain ⟨first, later⟩ := List.forall_mem_cons.mp distinct
      dsimp only at foundFirst first
      rw [entriesWithin, foundFirst]
      dsimp only
      rw [same_self value first, entriesWithin_self rest others foundLater later, Bool.and_true]
termination_by structural entries

end

end Json

namespace Field

theorem find?_of_mem {fields : List Field} {field : Field} (distinct : (keys fields).Nodup)
    (member : field ∈ fields) : find? field.key fields = some field := by
  induction fields with
  | nil => exact absurd member List.not_mem_nil
  | cons head rest ih =>
      rw [keys, List.map_cons, List.nodup_cons] at distinct
      obtain ⟨absent, restDistinct⟩ := distinct
      rw [find?]
      rcases List.mem_cons.mp member with rfl | later
      · rw [if_pos rfl]
      · have different : head.key ≠ field.key := fun same =>
          absent (List.mem_map.mpr ⟨field, later, same.symm⟩)
        rw [if_neg different, ih restDistinct later]

end Field

namespace Shape

/-- No key comes twice in the fields of an object or in a constant. -/
def KeysOnce : Shape → Prop
  | .object fields => (Field.keys fields).Nodup
  | .primitive value => ∀ constant, value.constant = some constant → constant.distinctKeys = true
  | _ => True

theorem primitive_same_self (value : Primitive) (once : (primitive value).KeysOnce) :
    value.same value = true := by
  obtain ⟨kind, format, constant⟩ := value
  rw [Primitive.same, beq_self_eq_true, beq_self_eq_true, Bool.true_and, Bool.true_and]
  cases constant with
  | none => rfl
  | some json => exact json.same_self (once json rfl)

mutual

theorem same_self (shape : Shape) (once : shape.Everywhere KeysOnce) :
    shape.same shape = true := by
  match shape with
  | .nullable inner => exact same_self inner (everywhere_nullable_iff.mp once).2
  | .object fields =>
      obtain ⟨distinct, shapes⟩ := everywhere_object_iff.mp once
      have within : fieldsWithin fields fields = true :=
        fieldsWithin_self fields fields (fun field => Field.find?_of_mem distinct) shapes
      rw [same, within, beq_self_eq_true, Bool.and_true]
  | .primitive value => exact primitive_same_self value once.here
  | .list inner => exact same_self inner (everywhere_list_iff.mp once).2
  | .dict inner => exact same_self inner (everywhere_dict_iff.mp once).2
  | .union name variants =>
      rw [same, sameVariants_self variants (everywhere_union_iff.mp once).2, beq_self_eq_true,
        Bool.and_true]
  | .enum values => exact beq_self_eq_true values
  | .ref target => exact beq_self_eq_true target
  | .bytes => rfl
  | .unit => rfl
  | .anyJson => rfl
termination_by structural shape

theorem fieldsWithin_self (fields others : List (FieldOf Shape))
    (found : ∀ field ∈ fields, Field.find? field.key others = some field)
    (once : ∀ field ∈ fields, field.shape.Everywhere KeysOnce) :
    fieldsWithin fields others = true := by
  match fields with
  | [] => rfl
  | ⟨key, required, doc, shape⟩ :: rest =>
      obtain ⟨foundFirst, foundLater⟩ := List.forall_mem_cons.mp found
      obtain ⟨first, later⟩ := List.forall_mem_cons.mp once
      dsimp only at foundFirst first
      rw [fieldsWithin, foundFirst]
      dsimp only
      rw [same_self shape first, fieldsWithin_self rest others foundLater later, beq_self_eq_true,
        beq_self_eq_true, Bool.and_true, Bool.and_true, Bool.and_true]
termination_by structural fields

theorem sameVariants_self (variants : List (VariantOf Shape))
    (once : ∀ variant ∈ variants, variant.shape.Everywhere KeysOnce) :
    sameVariants variants variants = true := by
  match variants with
  | [] => rfl
  | ⟨name, shape, doc⟩ :: rest =>
      obtain ⟨first, later⟩ := List.forall_mem_cons.mp once
      rw [sameVariants, same_self shape first, sameVariants_self rest later, beq_self_eq_true,
        beq_self_eq_true, Bool.and_true, Bool.and_true, Bool.and_true]
termination_by structural variants

end

end Shape

theorem Union.same_self (union : Union)
    (once : ∀ variant ∈ union.variants, variant.shape.Everywhere Shape.KeysOnce) :
    union.same union = true := by
  rw [Union.same, Shape.sameVariants_self union.variants once, beq_self_eq_true, Bool.and_true]

end ElmClient
