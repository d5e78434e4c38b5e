/-
How deep requests for serializers go. Behind at most one reference they stay within a
component, and unions of a resolved document are declared with variants no deeper than
where they are mentioned. So the levels that a request is given are enough.
-/

import ElmClient.Proofs.Helpers.Demand
import ElmClient.Proofs.Shape.Uniting
import ElmClient.Proofs.Sound.WellFormed

namespace ElmClient

namespace Shape

/-! ### Depth of equal shapes -/

theorem depth_pos (shape : Shape) : 0 < shape.depth := by
  cases shape <;> exact Nat.succ_pos _

theorem depth_le_depthFields {field : Field} {fields : List Field} (member : field ∈ fields) :
    field.shape.depth ≤ depthFields fields := by
  induction fields with
  | nil => exact absurd member List.not_mem_nil
  | cons head rest ih =>
      rw [depthFields]
      rcases List.mem_cons.mp member with rfl | later
      · exact Nat.le_max_left _ _
      · exact Nat.le_trans (ih later) (Nat.le_max_right _ _)

theorem depth_le_depthVariants {variant : Variant} {variants : List Variant}
    (member : variant ∈ variants) : variant.shape.depth ≤ depthVariants variants := by
  induction variants with
  | nil => exact absurd member List.not_mem_nil
  | cons head rest ih =>
      rw [depthVariants]
      rcases List.mem_cons.mp member with rfl | later
      · exact Nat.le_max_left _ _
      · exact Nat.le_trans (ih later) (Nat.le_max_right _ _)

mutual

theorem depth_le_of_same (left right : Shape) (equal : left.same right = true) :
    left.depth ≤ right.depth := by
  match left, right with
  | .nullable left, .nullable right => exact Nat.succ_le_succ (depth_le_of_same left right equal)
  | .list left, .list right => exact Nat.succ_le_succ (depth_le_of_same left right equal)
  | .dict left, .dict right => exact Nat.succ_le_succ (depth_le_of_same left right equal)
  | .object left, .object right =>
      exact Nat.succ_le_succ (depthFields_le left right (Bool.and_eq_true_iff.mp equal).2)
  | .union _ left, .union _ right =>
      exact Nat.succ_le_succ (depthVariants_le left right (Bool.and_eq_true_iff.mp equal).2)
  | .primitive _, .primitive _ => exact Nat.le_refl 1
  | .enum _, .enum _ => exact Nat.le_refl 1
  | .ref _, .ref _ => exact Nat.le_refl 1
  | .bytes, .bytes => exact Nat.le_refl 1
  | .unit, .unit => exact Nat.le_refl 1
  | .anyJson, .anyJson => exact Nat.le_refl 1
termination_by structural left

theorem depthFields_le (fields others : List (FieldOf Shape))
    (inside : fieldsWithin fields others = true) : depthFields fields ≤ depthFields others := by
  match fields with
  | [] => exact Nat.zero_le _
  | ⟨key, required, doc, shape⟩ :: rest =>
      rw [fieldsWithin, Bool.and_eq_true] at inside
      obtain ⟨first, later⟩ := inside
      refine Nat.max_le.mpr ⟨?_, depthFields_le rest others later⟩
      cases found : Field.find? key others with
      | none =>
          rw [found] at first
          contradiction
      | some other =>
          rw [found] at first
          exact Nat.le_trans (depth_le_of_same shape other.shape (Bool.and_eq_true_iff.mp first).2)
            (depth_le_depthFields (Field.mem_of_find? found))
termination_by structural fields

theorem depthVariants_le (variants others : List (VariantOf Shape))
    (equal : sameVariants variants others = true) :
    depthVariants variants ≤ depthVariants others := by
  match variants, others with
  | [], _ => exact Nat.zero_le _
  | ⟨name, shape, doc⟩ :: rest, other :: others =>
      rw [sameVariants, Bool.and_eq_true, Bool.and_eq_true] at equal
      obtain ⟨⟨-, first⟩, later⟩ := equal
      exact Nat.max_le.mpr
        ⟨Nat.le_trans (depth_le_of_same shape other.shape first) (Nat.le_max_left _ _),
          Nat.le_trans (depthVariants_le rest others later) (Nat.le_max_right _ _)⟩
termination_by structural variants

end

end Shape

theorem Union.Equal.depth_le {left right : Union} (equal : left.Equal right) :
    Shape.depthVariants left.variants ≤ Shape.depthVariants right.variants := by
  rcases equal with rfl | same
  · exact Nat.le_refl _
  · exact Shape.depthVariants_le _ _ (Bool.and_eq_true_iff.mp same).2

namespace Elm

/-! ### Enough levels -/

/-- What a good shape mentions is found, and is good again. -/
structure Naming.Grounded (naming : Naming) (good : Shape → Prop) : Prop where
  nullable : ∀ {item : Shape}, good (.nullable item) → good item
  list : ∀ {item : Shape}, good (.list item) → good item
  ref : ∀ {target : Reference}, good (.ref target) → ∃ component,
    Keyed.find? target.typeName naming.components = some component ∧ good component
  union : ∀ {name : TypeName} {variants : List Variant}, good (.union name variants) →
    ∃ union, naming.declared.union? name = some union ∧ ∀ variant ∈ union.variants,
      good variant.shape ∧ variant.shape.depth ≤ Shape.depthVariants variants

section Grounded

variable {naming : Naming} {good : Shape → Prop} (grounded : naming.Grounded good)

include grounded

theorem Naming.Grounded.variants {name : TypeName} {variants : List Variant}
    (holds : good (.union name variants)) :
    ∀ variant ∈ (naming.union ⟨name, variants⟩).variants,
      good variant.shape ∧ variant.shape.depth ≤ Shape.depthVariants variants := by
  obtain ⟨union, declared, each⟩ := grounded.union holds
  rw [Naming.union, declared]
  exact each

theorem Naming.Grounded.declared_of_needs {follow mode : Bool} {shape : Shape} {union : Union}
    (holds : good shape) (needs : naming.Needs follow shape mode union) :
    ∃ name, naming.declared.union? name = some union := by
  induction needs with
  | nullable _ ih => exact ih (grounded.nullable holds)
  | list _ ih => exact ih (grounded.list holds)
  | ref found _ ih =>
      obtain ⟨component, also, inside⟩ := grounded.ref holds
      obtain rfl := Option.some.inj (found.symm.trans also)
      exact ih inside
  | @union follow name variants =>
      obtain ⟨union, declared, -⟩ := grounded.union holds
      refine ⟨name, ?_⟩
      rw [Naming.union, declared]
      rfl
  | variant member _ _ ih => exact ih (grounded.variants holds _ member).1

private theorem Naming.Grounded.enough_behind {levels : Nat} {shape : Shape} (holds : good shape)
    (deep : shape.depth ≤ levels) : naming.Enough levels false shape := by
  induction levels generalizing shape with
  | zero =>
      have positive := shape.depth_pos
      omega
  | succ levels ih =>
      cases shape with
      | nullable item => exact ih (grounded.nullable holds) (Nat.le_of_succ_le_succ deep)
      | list item => exact ih (grounded.list holds) (Nat.le_of_succ_le_succ deep)
      | ref target => exact nofun
      | union name variants =>
          intro variant member
          obtain ⟨inside, depth⟩ := grounded.variants holds variant member
          exact ih inside (Nat.le_trans depth (Nat.le_of_succ_le_succ deep))
      | _ => trivial

private theorem Naming.Grounded.enough_following {bound : Nat}
    (bounded : ∀ name component, Keyed.find? name naming.components = some component →
      component.depth ≤ bound) {levels : Nat} {shape : Shape} (holds : good shape)
    (deep : shape.depth + bound ≤ levels) : naming.Enough levels true shape := by
  induction levels generalizing shape with
  | zero =>
      have positive := shape.depth_pos
      omega
  | succ levels ih =>
      cases shape with
      | nullable item => exact ih (grounded.nullable holds) (by rw [Shape.depth] at deep; omega)
      | list item => exact ih (grounded.list holds) (by rw [Shape.depth] at deep; omega)
      | ref target =>
          intro _
          obtain ⟨component, found, inside⟩ := grounded.ref holds
          have shallow := bounded _ component found
          refine ⟨component, found, grounded.enough_behind inside ?_⟩
          have single : (Shape.ref target).depth = 1 := rfl
          omega
      | union name variants =>
          intro variant member
          obtain ⟨inside, depth⟩ := grounded.variants holds variant member
          exact ih inside (by rw [Shape.depth] at deep; omega)
      | _ => trivial

end Grounded

/-! ### Resolved documents -/

private theorem le_foldl_max {numbers : List Nat} {number start : Nat}
    (below : number ≤ start ∨ number ∈ numbers) : number ≤ numbers.foldl max start := by
  induction numbers generalizing start with
  | nil => exact below.resolve_right List.not_mem_nil
  | cons head rest ih =>
      refine ih ?_
      rcases below with already | member
      · exact Or.inl (Nat.le_trans already (Nat.le_max_left _ _))
      · rcases List.mem_cons.mp member with rfl | later
        · exact Or.inl (Nat.le_max_right _ _)
        · exact Or.inr later

theorem Naming.component_depth_le (naming : Naming) (name : TypeName) (component : Shape)
    (found : Keyed.find? name naming.components = some component) :
    component.depth ≤ naming.depth := by
  refine Nat.le_trans (le_foldl_max (Or.inr ?_)) (Nat.le_max_left _ _)
  exact List.mem_map.mpr ⟨_, Keyed.mem_of_find? found, rfl⟩

section Resolved

variable {document : Document} {api : Api} {registry : Registry}
  (registrySound : registry.Sound document.components.schemas)
  (sound : api.Sound document registry) (config : Config)

include registrySound sound

theorem sound_grounded :
    (Naming.ofApi config api (Client.declaredTypes api registry)).Grounded
      (Shape.Sound document.components.schemas registry) where
  nullable holds := (Shape.sound_nullable_iff.mp holds).2
  list holds := Shape.sound_list_iff.mp holds
  ref := by
    intro target holds
    obtain ⟨-, -, component, -, only, found⟩ :=
      anchored_ref config (Client.declaredTypes api registry) sound (Shape.sound_ref_iff.mp holds)
    have kept : component ∈ api.components.filter fun other => other.name == target.typeName := by
      rw [only]
      exact List.mem_cons_self
    refine ⟨component.shape, found, sound.shapes _ (List.mem_append_left _ ?_)⟩
    exact List.mem_map_of_mem (List.mem_of_mem_filter kept)
  union := by
    intro name variants holds
    obtain ⟨⟨-, entry, member, rfl, equal⟩, -⟩ := Shape.sound_union_iff.mp holds
    obtain ⟨final, declared⟩ :=
      Registry.drain_union? (api.components.map Component.name) registrySound.distinct member
    refine ⟨_, declared, fun variant listed => ?_⟩
    obtain ⟨stored, inUnion, rfl⟩ := List.mem_map.mp listed
    refine ⟨(registrySound.variants entry member stored inUnion).shape, ?_⟩
    have deep : stored.shape.depth ≤ _ := Shape.depth_le_depthVariants inUnion
    exact Nat.le_trans deep equal.depth_le

theorem stringify_enough {shape : Shape}
    (holds : shape.Sound document.components.schemas registry) :
    (Naming.ofApi config api (Client.declaredTypes api registry)).Enough
      (shape.depth + 2 * (Naming.ofApi config api (Client.declaredTypes api registry)).depth + 2)
      true shape :=
  (sound_grounded registrySound sound config).enough_following
    (Naming.component_depth_le _) holds (by omega)

end Resolved

end Elm

end ElmClient
