/-
What holds of a shape at any depth. It holds of the shape itself and at any depth of the
shapes it is made of.
-/

import ElmClient.Shape

namespace ElmClient.Shape

/-- It holds of the shape and of every shape nested in it. -/
def Everywhere (holds : Shape → Prop) (shape : Shape) : Prop :=
  ∀ inner ∈ shape.nested, holds inner

theorem mem_nestedFields {inner : Shape} {fields : List Field} :
    inner ∈ nestedFields fields ↔ ∃ field ∈ fields, inner ∈ field.shape.nested := by
  induction fields with
  | nil => simp [nestedFields]
  | cons field rest ih => simp [nestedFields, ih]

private theorem mem_nestedVariants {inner : Shape} {variants : List Variant} :
    inner ∈ nestedVariants variants ↔ ∃ variant ∈ variants, inner ∈ variant.shape.nested := by
  induction variants with
  | nil => simp [nestedVariants]
  | cons variant rest ih => simp [nestedVariants, ih]

theorem mem_nested_self (shape : Shape) : shape ∈ shape.nested := by
  cases shape <;> exact List.mem_cons_self

variable {holds : Shape → Prop}

theorem Everywhere.here {shape : Shape} (everywhere : shape.Everywhere holds) : holds shape :=
  everywhere shape shape.mem_nested_self

theorem everywhere_nullable_iff {inner : Shape} :
    (nullable inner).Everywhere holds ↔ holds (nullable inner) ∧ inner.Everywhere holds :=
  List.forall_mem_cons

theorem everywhere_list_iff {inner : Shape} :
    (list inner).Everywhere holds ↔ holds (list inner) ∧ inner.Everywhere holds :=
  List.forall_mem_cons

theorem everywhere_dict_iff {inner : Shape} :
    (dict inner).Everywhere holds ↔ holds (dict inner) ∧ inner.Everywhere holds :=
  List.forall_mem_cons

theorem everywhere_object_iff {fields : List Field} :
    (object fields).Everywhere holds ↔
      holds (object fields) ∧ ∀ field ∈ fields, field.shape.Everywhere holds := by
  refine List.forall_mem_cons.trans (and_congr_right fun _ => ?_)
  constructor
  · intro everywhere field member inner within
    exact everywhere inner (mem_nestedFields.mpr ⟨field, member, within⟩)
  · intro everywhere inner within
    obtain ⟨field, member, within⟩ := mem_nestedFields.mp within
    exact everywhere field member inner within

theorem everywhere_union_iff {name : TypeName} {variants : List Variant} :
    (union name variants).Everywhere holds ↔
      holds (union name variants) ∧ ∀ variant ∈ variants, variant.shape.Everywhere holds := by
  refine List.forall_mem_cons.trans (and_congr_right fun _ => ?_)
  constructor
  · intro everywhere variant member inner within
    exact everywhere inner (mem_nestedVariants.mpr ⟨variant, member, within⟩)
  · intro everywhere inner within
    obtain ⟨variant, member, within⟩ := mem_nestedVariants.mp within
    exact everywhere variant member inner within

def isFlat : Shape → Bool
  | .nullable _ | .object _ | .list _ | .dict _ | .union _ _ => false
  | _ => true

theorem everywhere_flat_iff {shape : Shape} (flat : shape.isFlat = true) :
    shape.Everywhere holds ↔ holds shape := by
  cases shape <;> first | exact List.forall_mem_singleton | contradiction

end ElmClient.Shape
