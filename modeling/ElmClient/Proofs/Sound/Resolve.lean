/-
Resolving schemas gives sound shapes and keeps the registry sound. Every function is
shown to do so if the functions for the schemas inside do; the levels are closed by
induction.
-/

import ElmClient.Proofs.Resolve.Steps
import ElmClient.Proofs.Sound.Registry

namespace ElmClient

/-- The name for what is declared at a site, and the component that owns it. -/
structure Site.Proper (site : Site) : Prop where
  name : site.name.Proper
  owner : ∀ owner, site.owner = some owner → owner.Proper

theorem Site.unowned_proper {name : TypeName} (proper : name.Proper) :
    (Site.unowned name).Proper :=
  ⟨proper, nofun⟩

private theorem Site.Proper.child {site : Site} (proper : site.Proper) (member : String) :
    (site.child member).Proper :=
  Site.unowned_proper (proper.name.child member)

theorem Site.component_proper {name : TypeName} (proper : name.Proper) :
    (Site.component name).Proper := by
  refine ⟨proper, ?_⟩
  rintro owner equal
  obtain rfl := Option.some.inj equal
  exact proper

namespace Resolve

open Run

section Sound

variable (schemas : SchemaMap) (known : Registry → Prop)

def GivesShape (action : Run Registry Shape) : Prop :=
  Ensures (Registry.Sound schemas) known action fun later shape => shape.Sound schemas later

def GivesFields (action : Run Registry (List Field)) : Prop :=
  Ensures (Registry.Sound schemas) known action fun later fields =>
    Field.AllSound schemas later fields

def GivesContribution (action : Run Registry (Option (List Field))) : Prop :=
  Ensures (Registry.Sound schemas) known action fun later contributed =>
    ∀ fields, contributed = some fields → Field.AllSound schemas later fields

structure Inner.Sound (inner : Inner) : Prop where
  schema : ∀ known site schema, site.Proper → GivesShape schemas known (inner.schema site schema)
  contribution : ∀ known expanding site schema, site.Proper →
    GivesContribution schemas known (inner.contribution expanding site schema)

end Sound

variable {schemas : SchemaMap} {known : Registry → Prop} {inner : Inner} {site : Site}

theorem parseReference_any {valid : Registry → Prop} (text : String) :
    Ensures valid known (parseReference text) fun _ _ => True := by
  unfold parseReference
  split
  · exact Ensures.pure fun _ _ => trivial
  · exact Ensures.fail

theorem schemaReference_sound {valid : Registry → Prop} (text : String) :
    Ensures valid known (schemaReference schemas text) fun _ reference =>
      reference.component = .schemas ∧ Keyed.contains reference.name schemas = true := by
  unfold schemaReference
  apply Ensures.bind (parseReference_any text)
  intro reference
  split
  · exact Ensures.fail
  case isFalse expected =>
    split
    · exact Ensures.fail
    case isFalse present =>
      refine Ensures.pure fun _ _ => ⟨not_not.mp expected, ?_⟩
      simpa using present

/-! ### Objects, arrays and enums -/

theorem property_sound (sound : inner.Sound schemas) (proper : site.Proper)
    (required : List String) (entry : String × RefOr Schema) :
    Ensures (Registry.Sound schemas) known (property inner site required entry)
      fun later field => field.shape.Sound schemas later :=
  .withPath _ (.map (sound.schema _ _ _ (proper.child _)) fun _ _ _ shape => shape)

theorem properties_sound (sound : inner.Sound schemas) (proper : site.Proper) (schema : Schema) :
    GivesFields schemas known (properties inner site schema) := by
  apply Ensures.withPath
  apply Ensures.imp (Ensures.traverse fun entry _ _ => property_sound sound proper _ entry)
  exact fun _ _ _ related => all_of_forall₂ related

theorem registrationOwner_proper (proper : site.Proper) (schema : Schema) (owner : TypeName)
    (owned : registrationOwner site schema = some owner) : owner.Proper := by
  unfold registrationOwner at owned
  split at owned
  · contradiction
  · exact proper.owner owner owned

theorem enumeration_sound (proper : site.Proper) (schema : Schema) (members : List Json) :
    GivesShape schemas known (enumeration site schema members) := by
  have enumMember_any : ∀ member ∈ members, ∀ known,
      Ensures (Registry.Sound schemas) known (enumMember member) fun _ _ => True := by
    intro member _ known
    unfold enumMember
    split
    · exact Ensures.pure fun _ _ => trivial
    · exact Ensures.pure fun _ _ => trivial
    · exact Ensures.fail
  unfold enumeration
  apply Ensures.bind (Ensures.traverseIndexed "enum" enumMember_any)
  intro decoded
  dsimp only
  split
  · exact Ensures.pure fun _ _ => Shape.sound_unit
  case isFalse inhabited =>
    have entryProper : (Discovery.enum
        { values := Shape.canonicalValues (decoded.filterMap id), name := site.name
          owner := registrationOwner site schema }).Proper :=
      ⟨proper.name, registrationOwner_proper proper schema⟩
    refine Ensures.map (registerEnum_ensures entryProper) fun later _ _ registered => ?_
    apply Shape.Sound.nullableIf
    rw [Shape.sound_enum_iff]
    refine ⟨fun none => inhabited ?_, Sorted.texts_sorted _, registered⟩
    rw [none]
    rfl

theorem object_sound (sound : inner.Sound schemas) (proper : site.Proper) (schema : Schema) :
    GivesShape schemas known (object inner site schema) := by
  unfold object
  split
  · split
    · exact Ensures.map (.withPath _ (sound.schema _ _ _ (proper.child _)))
        fun _ _ _ values => Shape.sound_dict_iff.mpr values
    · exact Ensures.pure fun _ _ => Shape.sound_object_iff.mpr nofun
    · exact Ensures.pure fun _ _ => Shape.sound_dict_iff.mpr Shape.sound_anyJson
    · exact Ensures.pure fun _ _ => Shape.sound_dict_iff.mpr Shape.sound_anyJson
  · exact Ensures.map (properties_sound sound proper schema)
      fun _ _ _ fields => Shape.sound_object_iff.mpr fields

theorem array_sound (sound : inner.Sound schemas) (proper : site.Proper) (schema : Schema) :
    GivesShape schemas known (array inner site schema) := by
  unfold array
  dsimp only
  split
  · exact Ensures.fail
  · exact Ensures.map (.withPath _ (sound.schema _ _ _ (proper.child _)))
      fun _ _ _ item => Shape.sound_list_iff.mpr item
  · exact Ensures.fail
  · split
    · exact Ensures.map (.withPath _ (sound.schema _ _ _ (proper.child _)))
        fun _ _ _ item => Shape.sound_list_iff.mpr item
    · have placeholder : GivesShape schemas known
          (Run.placeholderOr "heterogeneous tuple items are not supported" .anyJson) :=
        Ensures.placeholderOr fun _ _ => Shape.sound_anyJson
      exact Ensures.map (.withPath _ placeholder) fun _ _ _ item => Shape.sound_list_iff.mpr item

/-! ### Unions -/

theorem registeredUnion_sound (proper : site.Proper) {owner : Option TypeName}
    (ownerProper : ∀ name, owner = some name → name.Proper) {variants : List Variant}
    (several : 2 ≤ variants.length) :
    GivesShape schemas
      (fun later => known later ∧ ∀ variant ∈ variants, variant.Sound schemas later)
      (registeredUnion site owner variants) := by
  have entryProper : (Discovery.union
      { union := { name := site.name, variants := variants }, owner := owner }).Proper :=
    ⟨proper.name, ownerProper⟩
  have registered : Ensures (Registry.Sound schemas)
      (fun later => known later ∧ ∀ variant ∈ variants, variant.Sound schemas later)
      (Run.registerUnion { name := site.name, variants := variants } owner)
      fun later stored => stored.toShape.Sound schemas later :=
    registerUnion_ensures several entryProper
  exact Ensures.map registered fun _ _ _ stored => stored

theorem variant_sound (sound : inner.Sound schemas) (proper : site.Proper)
    (entry : RefOr Schema × String) :
    Ensures (Registry.Sound schemas) known (variant inner site entry)
      fun later variant => variant.Sound schemas later :=
  have name := proper.name.child _
  .map (sound.schema _ _ _ (Site.unowned_proper name)) fun _ _ _ shape => ⟨name, shape⟩

theorem unionOf_sound (sound : inner.Sound schemas) (proper : site.Proper)
    {owner : Option TypeName} (ownerProper : ∀ name, owner = some name → name.Proper)
    (keyword : String) {members : List (RefOr Schema)} (several : 2 ≤ members.length) :
    GivesShape schemas known (unionOf inner site owner keyword members) := by
  unfold unionOf
  apply Ensures.bind
    (Ensures.traverseIndexed keyword fun entry _ _ => variant_sound sound proper entry)
  intro variants
  refine Ensures.given (?_ : ∀ later, _ → variants.length = members.length) fun lengths => ?_
  · rintro later ⟨_, related⟩
    rw [← related.length_eq, List.length_zip, length_memberLabels, Nat.min_self]
  · have registered : GivesShape schemas
        (fun later => known later ∧ ∀ variant ∈ variants, variant.Sound schemas later)
        (registeredUnion site owner variants) :=
      registeredUnion_sound proper ownerProper (by omega)
    exact registered.weaken fun later both => ⟨both.1, all_of_forall₂ both.2⟩

theorem alternatives_sound (sound : inner.Sound schemas) (proper : site.Proper)
    {owner : Option TypeName} (ownerProper : ∀ name, owner = some name → name.Proper)
    (keyword : String) (members : List (RefOr Schema)) :
    GivesShape schemas known (alternatives schemas inner site owner keyword members) := by
  have madeNullable : ∀ (index : Nat) (member : RefOr Schema),
      GivesShape schemas known (do
        let shape ← Run.withPath (keyword ++ "[" ++ toString index ++ "]")
          (inner.schema (Site.unowned site.name) member)
        return shape.toNullable) := by
    intro index member
    exact Ensures.map (.withPath _ (sound.schema _ _ _ (Site.unowned_proper proper.name)))
      fun _ _ _ shape => shape.toNullable
  unfold alternatives
  split
  · exact Ensures.placeholderOr fun _ _ => Shape.sound_anyJson
  · exact Ensures.withPath _ (sound.schema _ _ _ proper)
  · dsimp only
    split
    · exact madeNullable 1 _
    · exact madeNullable 0 _
    · exact unionOf_sound sound proper ownerProper keyword (Nat.le_refl 2)
  case h_4 notNone notOne _ =>
    refine unionOf_sound sound proper ownerProper keyword ?_
    rcases members with _ | ⟨first, _ | ⟨second, rest⟩⟩
    · exact absurd rfl notNone
    · exact absurd rfl (notOne first)
    · exact Nat.le_add_left 2 rest.length

/-! ### Merging -/

private theorem memberContributions_sound (sound : inner.Sound schemas) (proper : site.Proper)
    (expanding : List TypeName) (schema : Schema) :
    Ensures (Registry.Sound schemas) known (memberContributions inner expanding site schema)
      fun later contributions =>
        ∀ contributed ∈ contributions, ∀ fields, contributed = some fields →
          Field.AllSound schemas later fields := by
  unfold memberContributions
  split
  · apply Ensures.imp (Ensures.traverseIndexed "allOf" fun member _ known =>
      sound.contribution known expanding site member proper)
    exact fun _ _ _ related => all_of_forall₂ related
  · exact Ensures.pure fun _ _ => nofun

private theorem ownFields_sound (sound : inner.Sound schemas) (proper : site.Proper)
    (schema : Schema) :
    GivesFields schemas known (ownFields inner site schema) := by
  unfold ownFields
  split
  · exact Ensures.pure fun _ _ => nofun
  · exact properties_sound sound proper schema

theorem mergedFields_sound (sound : inner.Sound schemas) (proper : site.Proper)
    (expanding : List TypeName) (schema : Schema) :
    GivesFields schemas known (mergedFields inner expanding site schema) := by
  rw [mergedFields_eq]
  apply Ensures.bind (memberContributions_sound sound proper expanding schema)
  intro contributions
  apply Ensures.map (ownFields_sound sound proper schema)
  rintro later own ⟨_, contributed⟩ ownSound
  apply Field.requireKeys_sound
  refine Field.unite_sound (Field.foldl_unite_sound nofun ?_) ownSound
  intro fields member
  obtain ⟨found, inContributions, same⟩ := List.mem_filterMap.mp member
  exact contributed found inContributions fields same

theorem allOf_sound (sound : inner.Sound schemas) (proper : site.Proper) (schema : Schema)
    (members : List (RefOr Schema)) :
    GivesShape schemas known (allOf inner site schema members) := by
  unfold allOf
  dsimp only
  split
  · exact Ensures.pure fun _ _ => Shape.sound_anyJson
  · exact Ensures.withPath _ (sound.schema _ _ _ proper)
  · exact Ensures.map (mergedFields_sound sound proper _ schema)
      fun _ _ _ fields => Shape.sound_object_iff.mpr fields

/-! ### Dispatch -/

theorem primitive_sound (schema : Schema) (kind : PrimitiveKind) :
    GivesShape schemas known (pure (primitive schema kind)) :=
  Ensures.pure fun _ _ => Shape.sound_primitive _

theorem untyped_sound (sound : inner.Sound schemas) (proper : site.Proper) (schema : Schema) :
    GivesShape schemas known (untyped schemas inner site schema) := by
  have ownerProper := registrationOwner_proper proper schema
  unfold untyped
  split
  · exact enumeration_sound proper schema _
  · exact alternatives_sound sound proper ownerProper _ _
  · exact alternatives_sound sound proper ownerProper _ _
  · exact allOf_sound sound proper schema _
  · split
    · exact object_sound sound proper schema
    · split
      · exact array_sound sound proper schema
      · split
        · exact primitive_sound schema _
        · exact Ensures.placeholderOr fun _ _ => Shape.sound_anyJson

theorem ofKind_sound (sound : inner.Sound schemas) (proper : site.Proper) (schema : Schema)
    (kind : String) : GivesShape schemas known (ofKind inner site schema kind) := by
  unfold ofKind
  split
  · split
    · exact enumeration_sound proper schema _
    · split
      · exact Ensures.pure fun _ _ => Shape.sound_bytes
      · exact primitive_sound schema _
  · exact primitive_sound schema _
  · exact primitive_sound schema _
  · exact primitive_sound schema _
  · exact array_sound sound proper schema
  · exact object_sound sound proper schema
  · exact Ensures.placeholderOr fun _ _ => Shape.sound_anyJson

theorem kindUnion_sound (sound : inner.Sound schemas) (proper : site.Proper) (schema : Schema)
    {kinds : List String} (several : 2 ≤ kinds.length) :
    GivesShape schemas known (kindUnion inner site schema kinds) := by
  unfold kindUnion
  have kindVariant_sound : ∀ kind ∈ kinds, ∀ known,
      Ensures (Registry.Sound schemas) known (kindVariant inner site schema kind)
        fun later variant => variant.Sound schemas later := by
    intro kind _ known
    have name := proper.name.child kind
    exact Ensures.map (ofKind_sound sound (Site.unowned_proper name) schema kind)
      fun _ _ _ shape => ⟨name, shape⟩
  apply Ensures.bind (Ensures.withPath _ (Ensures.traverse kindVariant_sound))
  intro variants
  refine Ensures.given (?_ : ∀ later, _ → variants.length = kinds.length) fun lengths => ?_
  · rintro later ⟨_, related⟩
    exact related.length_eq.symm
  · have registered : GivesShape schemas
        (fun later => known later ∧ ∀ variant ∈ variants, variant.Sound schemas later)
        (registeredUnion site (registrationOwner site schema) variants) :=
      registeredUnion_sound proper (registrationOwner_proper proper schema) (by omega)
    exact registered.weaken fun later both => ⟨both.1, all_of_forall₂ both.2⟩

theorem ofKinds_sound (sound : inner.Sound schemas) (proper : site.Proper) (schema : Schema)
    (kinds : List String) :
    GivesShape schemas known (ofKinds schemas inner site schema kinds) := by
  rcases kinds with _ | ⟨kind, _ | ⟨other, rest⟩⟩
  · exact untyped_sound sound proper schema
  · unfold ofKinds
    dsimp only
    split
    · exact untyped_sound sound proper schema
    · exact ofKind_sound sound proper schema kind
  · exact kindUnion_sound sound proper schema (Nat.le_add_left 2 rest.length)

theorem inline_sound (sound : inner.Sound schemas) (proper : site.Proper) (schema : Schema) :
    GivesShape schemas known (inline schemas inner site schema) := by
  have base_sound : GivesShape schemas known (base schemas inner site schema) := by
    unfold base
    split
    · exact Ensures.pure fun _ _ => Shape.sound_anyJson
    · dsimp only
      split
      · exact Ensures.pure fun _ _ => Shape.sound_unit
      · exact Ensures.map (ofKinds_sound sound proper schema _)
          fun _ _ _ shape => shape.nullableIf _
  exact Ensures.map base_sound fun _ _ _ shape => shape.nullableIf _

theorem schemaOrReference_sound (sound : inner.Sound schemas) (proper : site.Proper)
    (schema : RefOr Schema) :
    GivesShape schemas known (schemaOrReference schemas inner site schema) := by
  cases schema with
  | reference text =>
      exact Ensures.map (schemaReference_sound text)
        fun _ _ _ found => Shape.sound_ref_iff.mpr found
  | inline schema => exact inline_sound sound proper schema

/-! ### Contributions -/

theorem noObject_sound (sound : inner.Sound schemas) (proper : site.Proper) (schema : Schema) :
    GivesContribution schemas known (noObject schemas inner site schema) := by
  apply Ensures.bind (inline_sound sound proper schema)
  intro shape
  exact Ensures.placeholderOr fun _ _ => nofun

theorem inlineContribution_sound (sound : inner.Sound schemas) (proper : site.Proper)
    (expanding : List TypeName) (schema : Schema) :
    GivesContribution schemas known
      (inlineContribution schemas inner expanding site schema) := by
  have given : ∀ action, GivesFields schemas known action →
      GivesContribution schemas known (action >>= fun fields => pure (some fields)) := by
    intro action gives
    refine Ensures.map gives fun _ _ _ fields others equal => ?_
    obtain rfl := Option.some.inj equal
    exact fields
  unfold inlineContribution
  split
  · exact Ensures.pure fun _ _ => nofun
  · split
    · exact given _ (mergedFields_sound sound proper expanding schema)
    · split
      · split
        · exact given _ (properties_sound sound proper schema)
        · split
          · exact noObject_sound sound proper schema
          · refine Ensures.pure fun _ _ fields equal => ?_
            obtain rfl := Option.some.inj equal
            exact nofun
      · exact noObject_sound sound proper schema

theorem contribution_sound (sound : inner.Sound schemas) (proper : site.Proper)
    (expanding : List TypeName) (schema : RefOr Schema) :
    GivesContribution schemas known (contribution schemas inner expanding site schema) := by
  cases schema with
  | inline schema => exact inlineContribution_sound sound proper expanding schema
  | reference text =>
      unfold contribution
      apply Ensures.bind (schemaReference_sound text)
      intro reference
      dsimp only
      split
      · exact Ensures.fail
      · split
        · exact Ensures.fail
        · exact sound.contribution _ _ _ _ (Site.component_proper (TypeName.ofRaw_proper _))

/-! ### All levels -/

theorem within_sound (schemas : SchemaMap) (levels : Nat) :
    Inner.Sound schemas ⟨schemaWithin schemas levels, contributionWithin schemas levels⟩ := by
  induction levels with
  | zero =>
      constructor
      · intro known site schema proper
        unfold schemaWithin
        exact Ensures.fail
      · intro known expanding site schema proper
        unfold contributionWithin
        exact Ensures.fail
  | succ levels ih =>
      constructor
      · intro known site schema proper
        unfold schemaWithin
        exact schemaOrReference_sound ih proper schema
      · intro known expanding site schema proper
        unfold contributionWithin
        exact contribution_sound ih proper expanding schema

end Resolve

end ElmClient
