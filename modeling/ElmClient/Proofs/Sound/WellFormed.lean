/-
What the shapes of a resolved document rest on. A reference leads to exactly one
component, and enums and unions are declared under final names, so whatever is compiled
from a shape finds what it looks up.
-/

import ElmClient.Proofs.Sample
import ElmClient.Proofs.Sound.Document

namespace ElmClient

/-! ### Equal unions -/

private theorem Shape.forall₂_of_sameVariants {left right : List Variant}
    (same : sameVariants left right = true) :
    List.Forall₂ (fun first second => Equal first.shape second.shape) left right := by
  induction left generalizing right with
  | nil =>
      cases right with
      | nil => exact .nil
      | cons => contradiction
  | cons first rest ih =>
      obtain ⟨name, shape, doc⟩ := first
      cases right with
      | nil => contradiction
      | cons second others =>
          simp only [sameVariants, Bool.and_eq_true] at same
          exact .cons (Or.inr same.1.2) (ih same.2)

private theorem Union.Equal.shapes {left right : Union} (equal : left.Equal right) :
    List.Forall₂ (fun first second => Shape.Equal first.shape second.shape)
      left.variants right.variants := by
  rcases equal with rfl | same
  · exact List.forall₂_same.mpr fun _ _ => Or.inl rfl
  · exact Shape.forall₂_of_sameVariants (Bool.and_eq_true_iff.mp same).2

/-! ### Lookup by name -/

private theorem filter_name_eq {components : List Component}
    (distinct : (components.map Component.name).Nodup) {component : Component}
    (member : component ∈ components) :
    components.filter (fun other => other.name == component.name) = [component] := by
  induction components with
  | nil => exact absurd member List.not_mem_nil
  | cons head rest ih =>
      obtain ⟨absent, restDistinct⟩ := List.nodup_cons.mp distinct
      rcases List.mem_cons.mp member with rfl | later
      · have noOther : rest.filter (fun other => other.name == component.name) = [] := by
          refine List.filter_eq_nil_iff.mpr fun other inRest same => ?_
          exact absent (List.mem_map.mpr ⟨other, inRest, eq_of_beq same⟩)
        rw [List.filter_cons, if_pos (beq_self_eq_true _), noOther]
      · have different : ¬ (head.name == component.name) = true := fun same =>
          absent (List.mem_map.mpr ⟨component, later, (eq_of_beq same).symm⟩)
        rw [List.filter_cons, if_neg different, ih restDistinct later]

/-! ### Well-formed documents -/

/-- What the document, its components, the registry and the final names have for a
shape. -/
def Shape.Anchored (document : Document) (api : Api) (registry : Registry)
    (naming : Elm.Naming) : Shape → Prop
  | .nullable inner => inner.isNullable = false
  | .ref target =>
      target.component = .schemas ∧
        Keyed.contains target.name document.components.schemas = true ∧
        ∃ component, component.raw = target.name ∧
          api.components.filter (fun other => other.name == target.typeName) = [component] ∧
          Keyed.find? target.typeName naming.components = some component.shape
  | .enum values =>
      values ≠ [] ∧ values.Pairwise (· < ·) ∧ ∃ name, naming.enumName? values = some name
  | .union name variants =>
      2 ≤ variants.length ∧
        (∃ entry, UnionEntry.find? name registry.unions = some entry ∧
          entry.union.Equal ⟨name, variants⟩) ∧
        ∃ union, naming.declared.union? name = some union ∧
          List.Forall₂ (fun declared variant => Shape.Equal declared.shape variant.shape)
            union.variants variants
  | _ => True

section Anchored

variable {document : Document} {api : Api} {registry : Registry}

theorem Api.Sound.find?_components (config : Config) (declared : DeclaredTypes)
    (sound : api.Sound document registry) {component : Component}
    (member : component ∈ api.components) :
    Keyed.find? component.name (Elm.Naming.ofApi config api declared).components =
      some component.shape := by
  have keys : (Keyed.keys (Elm.Naming.ofApi config api declared).components).Nodup := by
    rw [Keyed.keys, Elm.Naming.ofApi, List.map_map]
    exact sound.distinct
  rw [Keyed.find?_eq_some_iff keys]
  exact List.mem_map_of_mem member

theorem anchored_ref (config : Config) (declared : DeclaredTypes)
    (sound : api.Sound document registry) {target : Reference}
    (settled : (Shape.ref target).Settled document.components.schemas registry) :
    (Shape.ref target).Anchored document api registry
      (Elm.Naming.ofApi config api declared) := by
  obtain ⟨section_, present⟩ := settled
  have listed : target.name ∈ api.components.map Component.raw :=
    sound.raws.mem_iff.mpr ((Keyed.contains_iff_mem_keys _ _).mp present)
  obtain ⟨component, member, raw⟩ := List.mem_map.mp listed
  have name : component.name = target.typeName := by
    rw [sound.names component member, raw]
    rfl
  refine ⟨section_, present, component, raw, ?_, ?_⟩
  · rw [← name]
    exact filter_name_eq sound.distinct member
  · rw [← name]
    exact sound.find?_components config declared member

private theorem anchored_enum (config : Config) {values : List String}
    (settled : (Shape.enum values).Settled document.components.schemas registry) :
    (Shape.enum values).Anchored document api registry
      (Elm.Naming.ofApi config api (Client.declaredTypes api registry)) := by
  obtain ⟨inhabited, sorted, entry, member, rfl⟩ := settled
  exact ⟨inhabited, sorted, registry.drain_enumName? _ member⟩

private theorem anchored_union (config : Config) (distinct : registry.Distinct) {name : TypeName}
    {variants : List Variant}
    (settled : (Shape.union name variants).Settled document.components.schemas registry) :
    (Shape.union name variants).Anchored document api registry
      (Elm.Naming.ofApi config api (Client.declaredTypes api registry)) := by
  obtain ⟨several, entry, member, rfl, equal⟩ := settled
  obtain ⟨final, declared⟩ :=
    Registry.drain_union? (api.components.map Component.name) distinct member
  refine ⟨several, ⟨entry, UnionEntry.find?_of_mem distinct.unions member, equal⟩,
    entry.union.renamed final, declared, ?_⟩
  rw [Union.renamed, List.forall₂_map_left_iff]
  exact equal.shapes

theorem Api.Sound.anchored (config : Config)
    (registrySound : registry.Sound document.components.schemas)
    (apiSound : api.Sound document registry) :
    ∀ shape ∈ Packages.apiShapes api ++
        registry.unions.flatMap (fun entry => entry.union.variants.map VariantOf.shape),
      ∀ inner ∈ shape.nested,
        inner.Anchored document api registry
          (Elm.Naming.ofApi config api (Client.declaredTypes api registry)) := by
  intro shape listed inner member
  have sound : shape.Sound document.components.schemas registry := by
    rcases List.mem_append.mp listed with inApi | inUnions
    · exact apiSound.shapes shape inApi
    · obtain ⟨entry, stored, inVariants⟩ := List.mem_flatMap.mp inUnions
      obtain ⟨variant, inUnion, rfl⟩ := List.mem_map.mp inVariants
      exact (registrySound.variants entry stored variant inUnion).shape
  have settled := sound inner member
  cases inner with
  | nullable inner => exact settled
  | ref target => exact anchored_ref config _ apiSound settled
  | enum values => exact anchored_enum config settled
  | union name variants => exact anchored_union config registrySound.distinct settled
  | _ => trivial

end Anchored

/-- Every shape at any depth of a resolved document, and of the unions found on the way,
has what it refers to. -/
theorem Document.resolve_anchored (document : Document) (config : Config) {scope : Scope}
    {api : Api} {log : Log Registry}
    (resolved : document.resolve.outcome scope (Log.starting Registry.empty) = (.ok api, log)) :
    ∀ shape ∈ Packages.apiShapes api ++
        log.store.unions.flatMap (fun entry => entry.union.variants.map VariantOf.shape),
      ∀ inner ∈ shape.nested,
        inner.Anchored document api log.store
          (Elm.Naming.ofApi config api (Client.declaredTypes api log.store)) := by
  obtain ⟨registrySound, apiSound⟩ := document.resolve_sound resolved
  exact apiSound.anchored config registrySound

/-- A component that refers to itself, with enums and a nullable union inside. -/
theorem Document.resolve_anchored_pet :
    let friend :=
      { Schema.bare with
        nullable := some true
        anyOf := some
          [.reference "#/components/schemas/Pet", .inline (Schema.oneOfTexts ["nobody"])] }
    let pet := Schema.record
      [("kind", .inline (Schema.oneOfTexts ["dog", "cat"])), ("friend", .inline friend)]
    let document := Document.ofParts [] [("Pet", .inline pet)]
    ∃ api log,
      document.resolve.outcome (Scope.root .failOnUnsupported) (Log.starting Registry.empty) =
          (.ok api, log) ∧
        ∀ shape ∈ Packages.apiShapes api ++
            log.store.unions.flatMap (fun entry => entry.union.variants.map VariantOf.shape),
          ∀ inner ∈ shape.nested,
            inner.Anchored document api log.store
              (Elm.Naming.ofApi Config.default api (Client.declaredTypes api log.store)) := by
  intro friend pet document
  have succeeds :
      (match document.resolve.outcome (Scope.root .failOnUnsupported)
          (Log.starting Registry.empty) with
        | (.ok _, log) => log.store.enums.length == 2 && log.store.unions.length == 1
        | (.error _, _) => false) = true := by
    decide +kernel
  split at succeeds
  case h_1 api log resolved =>
    exact ⟨api, log, resolved, document.resolve_anchored Config.default resolved⟩
  case h_2 => contradiction

end ElmClient
