/-
Sound shapes. References have a target, enums and unions are registered, and nothing is
nullable twice, at any depth. A sound shape stays sound while the registry grows, and
uniting the fields of sound objects gives a sound object.
-/

import ElmClient.Proofs.Registry.Registering
import ElmClient.Proofs.Shape.Uniting
import ElmClient.Resolve.Schema

namespace ElmClient

/-- The same union, or one that differs only in the order of fields. -/
def Union.Equal (left right : Union) : Prop :=
  left = right ∨ left.same right = true

namespace Shape

def Equal (left right : Shape) : Prop :=
  left = right ∨ left.same right = true

/-- What a shape says about itself holds of the components and the registry. -/
def Settled (schemas : SchemaMap) (registry : Registry) : Shape → Prop
  | .nullable inner => inner.isNullable = false
  | .union name variants =>
      2 ≤ variants.length ∧ ∃ entry ∈ registry.unions, entry.union.name = name ∧
        entry.union.Equal ⟨name, variants⟩
  | .enum values =>
      values ≠ [] ∧ values.Pairwise (· < ·) ∧ ∃ entry ∈ registry.enums, entry.values = values
  | .ref target => target.component = .schemas ∧ Keyed.contains target.name schemas = true
  | _ => True

def Sound (schemas : SchemaMap) (registry : Registry) (shape : Shape) : Prop :=
  ∀ inner ∈ shape.nested, inner.Settled schemas registry

section Sound

variable {schemas : SchemaMap} {registry : Registry}

/-! ### Growing registries -/

private theorem Settled.mono {larger : Registry} (within : registry.Within larger) {shape : Shape}
    (settled : shape.Settled schemas registry) : shape.Settled schemas larger := by
  cases shape with
  | union name variants =>
      obtain ⟨several, entry, member, equal⟩ := settled
      exact ⟨several, entry, within.unions entry member, equal⟩
  | enum values =>
      obtain ⟨inhabited, sorted, entry, member, equal⟩ := settled
      exact ⟨inhabited, sorted, entry, within.enums entry member, equal⟩
  | _ => exact settled

theorem Sound.mono {larger : Registry} (within : registry.Within larger) {shape : Shape}
    (sound : shape.Sound schemas registry) : shape.Sound schemas larger :=
  fun inner member => (sound inner member).mono within

/-! ### Shapes inside shapes -/

theorem sound_nullable_iff {inner : Shape} :
    (nullable inner).Sound schemas registry ↔
      inner.isNullable = false ∧ inner.Sound schemas registry :=
  everywhere_nullable_iff

theorem sound_list_iff {inner : Shape} :
    (list inner).Sound schemas registry ↔ inner.Sound schemas registry :=
  everywhere_list_iff.trans (and_iff_right trivial)

theorem sound_dict_iff {inner : Shape} :
    (dict inner).Sound schemas registry ↔ inner.Sound schemas registry :=
  everywhere_dict_iff.trans (and_iff_right trivial)

theorem sound_object_iff {fields : List Field} :
    (object fields).Sound schemas registry ↔
      ∀ field ∈ fields, field.shape.Sound schemas registry :=
  everywhere_object_iff.trans (and_iff_right trivial)

theorem sound_union_iff {name : TypeName} {variants : List Variant} :
    (union name variants).Sound schemas registry ↔
      (union name variants).Settled schemas registry ∧
        ∀ variant ∈ variants, variant.shape.Sound schemas registry :=
  everywhere_union_iff

theorem sound_enum_iff {values : List String} :
    (enum values).Sound schemas registry ↔ (enum values).Settled schemas registry :=
  List.forall_mem_singleton

theorem sound_ref_iff {target : Reference} :
    (ref target).Sound schemas registry ↔ (ref target).Settled schemas registry :=
  List.forall_mem_singleton

@[simp] theorem sound_primitive (value : Primitive) :
    (primitive value).Sound schemas registry :=
  List.forall_mem_singleton.mpr trivial

@[simp] theorem sound_bytes : bytes.Sound schemas registry :=
  List.forall_mem_singleton.mpr trivial

@[simp] theorem sound_unit : unit.Sound schemas registry :=
  List.forall_mem_singleton.mpr trivial

@[simp] theorem sound_anyJson : anyJson.Sound schemas registry :=
  List.forall_mem_singleton.mpr trivial

theorem Sound.toNullable {shape : Shape} (sound : shape.Sound schemas registry) :
    shape.toNullable.Sound schemas registry := by
  cases shape with
  | nullable inner => exact sound
  | _ => exact sound_nullable_iff.mpr ⟨rfl, sound⟩

theorem Sound.nullableIf {shape : Shape} (wanted : Bool) (sound : shape.Sound schemas registry) :
    (Resolve.nullableIf wanted shape).Sound schemas registry := by
  cases wanted with
  | false => exact sound
  | true => exact sound.toNullable

end Sound

end Shape

/-! ### Fields -/

namespace Field

def AllSound (schemas : SchemaMap) (registry : Registry) (fields : List Field) : Prop :=
  ∀ field ∈ fields, field.shape.Sound schemas registry

section AllSound

variable {schemas : SchemaMap} {registry : Registry}

private theorem settled_keptByUniting : KeptByUniting (Shape.Settled schemas registry) :=
  fun _ _ _ _ => trivial

theorem unite_sound {present incoming : List Field}
    (presentSound : AllSound schemas registry present)
    (incomingSound : AllSound schemas registry incoming) :
    AllSound schemas registry (unite present incoming) :=
  uniteWithin_everywhere settled_keptByUniting present incoming presentSound incomingSound

theorem foldl_unite_sound {contributions : List (List Field)} {present : List Field}
    (presentSound : AllSound schemas registry present)
    (sound : ∀ fields ∈ contributions, AllSound schemas registry fields) :
    AllSound schemas registry (contributions.foldl unite present) := by
  induction contributions generalizing present with
  | nil => exact presentSound
  | cons fields rest ih =>
      obtain ⟨first, later⟩ := List.forall_mem_cons.mp sound
      exact ih (unite_sound presentSound first) later

theorem requireKeys_sound {fields : List Field} (keys : List String)
    (sound : AllSound schemas registry fields) :
    AllSound schemas registry (requireKeys keys fields) := by
  intro field member
  obtain ⟨original, inFields, rfl⟩ := List.mem_map.mp member
  split
  · exact sound original inFields
  · exact sound original inFields

end AllSound

end Field

end ElmClient
