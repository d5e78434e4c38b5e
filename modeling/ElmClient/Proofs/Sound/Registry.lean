/-
Sound registries. Entries are told apart by what identifies them, carry proper names,
and the members of unions are sound. Registering sound things under proper names keeps
a registry sound, and leaves a sound shape.
-/

import ElmClient.Proofs.Name.Proper
import ElmClient.Proofs.Registry.Draining
import ElmClient.Proofs.Sound.Run
import ElmClient.Proofs.Sound.Shape

namespace ElmClient

structure Discovery.Proper (entry : Discovery) : Prop where
  name : entry.name.Proper
  owner : ∀ owner, entry.owner = some owner → owner.Proper

structure VariantOf.Sound (schemas : SchemaMap) (registry : Registry) (variant : Variant) :
    Prop where
  name : variant.name.Proper
  shape : variant.shape.Sound schemas registry

private theorem VariantOf.Sound.mono {schemas : SchemaMap} {registry larger : Registry}
    (within : registry.Within larger) {variant : Variant}
    (sound : variant.Sound schemas registry) : variant.Sound schemas larger :=
  ⟨sound.name, sound.shape.mono within⟩

namespace Registry

structure Sound (schemas : SchemaMap) (registry : Registry) : Prop where
  distinct : registry.Distinct
  proper : ∀ entry ∈ registry.entries, entry.Proper
  variants : ∀ entry ∈ registry.unions, ∀ variant ∈ entry.union.variants,
    variant.Sound schemas registry

section Sound

variable {schemas : SchemaMap}

theorem empty_sound : empty.Sound schemas where
  distinct := ⟨List.nodup_nil, List.nodup_nil⟩
  proper := fun _ member => absurd member List.not_mem_nil
  variants := fun _ member => absurd member List.not_mem_nil

variable {registry next : Registry} (sound : registry.Sound schemas)

include sound

private theorem Sound.addsEnum {entry : EnumEntry} (added : registry.AddsEnum entry next)
    (proper : (Discovery.enum entry).Proper) : next.Sound schemas where
  distinct := added.distinct sound.distinct
  proper := by
    intro other member
    rcases mem_entries_iff.mp member with ⟨found, inEnums, rfl⟩ | ⟨found, inUnions, rfl⟩
    · rcases List.mem_cons.mp (added.enums.mem_iff.mp inEnums) with rfl | present
      · exact proper
      · exact sound.proper _ (enum_mem_entries present)
    · rw [added.unions] at inUnions
      exact sound.proper _ (union_mem_entries inUnions)
  variants := by
    intro other inUnions variant member
    rw [added.unions] at inUnions
    exact (sound.variants other inUnions variant member).mono added.within

private theorem Sound.addsUnion {entry : UnionEntry} (added : registry.AddsUnion entry next)
    (proper : (Discovery.union entry).Proper)
    (variants : ∀ variant ∈ entry.union.variants, variant.Sound schemas registry) :
    next.Sound schemas where
  distinct := added.distinct sound.distinct
  proper := by
    intro other member
    rcases mem_entries_iff.mp member with ⟨found, inEnums, rfl⟩ | ⟨found, inUnions, rfl⟩
    · rw [added.enums] at inEnums
      exact sound.proper _ (enum_mem_entries inEnums)
    · rcases List.mem_cons.mp (added.unions.mem_iff.mp inUnions) with rfl | present
      · exact proper
      · exact sound.proper _ (union_mem_entries present)
  variants := by
    intro other inUnions variant member
    rcases List.mem_cons.mp (added.unions.mem_iff.mp inUnions) with rfl | present
    · exact (variants variant member).mono added.within
    · exact (sound.variants other present variant member).mono added.within

end Sound

/-! ### Stored unions -/

theorem placed_proper (registry : Registry) {union : Union} (proper : union.name.Proper) :
    (registry.placed union).name.Proper := by
  rcases registry.placed_cases union with equal | ⟨number, equal⟩
  · rw [equal]
    exact proper
  · rw [equal]
    exact proper.withSuffix number

theorem renamed_sound {schemas : SchemaMap} {registry : Registry} {union : Union}
    {name : TypeName} (proper : name.Proper)
    (sound : ∀ variant ∈ union.variants, variant.Sound schemas registry) :
    ∀ variant ∈ (union.renamed name).variants, variant.Sound schemas registry := by
  intro variant member
  obtain ⟨original, inUnion, rfl⟩ := List.mem_map.mp member
  exact ⟨(sound original inUnion).name.replaceLead union.name proper,
    (sound original inUnion).shape⟩

theorem placed_sound {schemas : SchemaMap} {registry : Registry} {union : Union}
    (proper : union.name.Proper)
    (sound : ∀ variant ∈ union.variants, variant.Sound schemas registry) :
    ∀ variant ∈ (registry.placed union).variants, variant.Sound schemas registry := by
  rcases registry.placed_cases union with equal | ⟨number, equal⟩
  · rw [equal]
    exact sound
  · rw [equal]
    exact renamed_sound (proper.withSuffix number) sound

theorem placed_shapes (registry : Registry) (union : Union) :
    (registry.placed union).variants.map VariantOf.shape =
      union.variants.map VariantOf.shape := by
  rcases registry.placed_cases union with equal | ⟨number, equal⟩
  · rw [equal]
  · rw [equal, Union.renamed, List.map_map]
    rfl

end Registry

/-! ### Registering runs -/

namespace Run

variable {schemas : SchemaMap} {known : Registry → Prop}

theorem registerEnum_ensures {entry : EnumEntry} (proper : (Discovery.enum entry).Proper) :
    Ensures (Registry.Sound schemas) known (registerEnum entry)
      fun later _ => ∃ present ∈ later.enums, present.values = entry.values := by
  intro scope log value reached sound _ equal
  rw [outcome_registerEnum] at equal
  obtain ⟨present, member, same, registered⟩ | ⟨next, added, registered⟩ :=
    log.store.registerEnum_cases entry
  · rw [registered] at equal
    cases equal
    exact ⟨sound, .refl _, fun later within => ⟨present, within.enums present member, same⟩⟩
  · rw [registered] at equal
    cases equal
    refine ⟨sound.addsEnum added proper, added.within, fun later within => ⟨entry, ?_, rfl⟩⟩
    exact within.enums entry (added.enums.mem_iff.mpr List.mem_cons_self)

theorem registerUnion_ensures {union : Union} {owner : Option TypeName}
    (several : 2 ≤ union.variants.length)
    (proper : (Discovery.union ⟨union, owner⟩).Proper) :
    Ensures (Registry.Sound schemas)
      (fun later => known later ∧ ∀ variant ∈ union.variants, variant.Sound schemas later)
      (registerUnion union owner) fun later stored => stored.toShape.Sound schemas later := by
  intro scope log value reached sound knownLater equal
  have shapes := log.store.placed_shapes union
  have variants := Registry.placed_sound proper.name (knownLater log.store (.refl _)).2
  have stillSeveral : 2 ≤ (log.store.placed union).variants.length := by
    have lengths := congrArg List.length shapes
    rw [List.length_map, List.length_map] at lengths
    rwa [lengths]
  rw [outcome_registerUnion] at equal
  obtain ⟨present, member, sameName, same, registered⟩ | ⟨next, added, registered⟩ :=
    log.store.registerUnion_cases union owner
  · rw [registered] at equal
    cases equal
    refine ⟨sound, .refl _, fun later within => Shape.sound_union_iff.mpr ⟨?_, ?_⟩⟩
    · exact ⟨stillSeveral, present, within.unions present member, sameName, Or.inr same⟩
    · exact fun variant inUnion => (variants variant inUnion).shape.mono within
  · rw [registered] at equal
    cases equal
    have storedProper : (Discovery.union ⟨log.store.placed union, owner⟩).Proper :=
      ⟨log.store.placed_proper proper.name, proper.owner⟩
    refine ⟨sound.addsUnion added storedProper variants, added.within,
      fun later within => Shape.sound_union_iff.mpr ⟨?_, ?_⟩⟩
    · have member := added.unions.mem_iff.mpr List.mem_cons_self
      exact ⟨stillSeveral, _, within.unions _ member, rfl, Or.inl rfl⟩
    · exact fun variant inUnion => (variants variant inUnion).shape.mono (added.within.trans within)

end Run

end ElmClient
