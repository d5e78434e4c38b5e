/-
Registering again. The names that were refused before are still refused, since what has
them stays, and the name that was chosen is still accepted, since what is stored under it
equals what is registered. So the search for a name ends where it ended before.
-/

import ElmClient.Proofs.Again.Run
import ElmClient.Proofs.Shape.Same

namespace ElmClient

theorem EnumEntry.find?_of_mem {entries : List EnumEntry} {entry : EnumEntry}
    (distinct : (entries.map values).Nodup) (member : entry ∈ entries) :
    find? entry.values entries = some entry := by
  cases found : find? entry.values entries with
  | none => exact absurd rfl (find?_none found entry member)
  | some other =>
      obtain ⟨otherMember, sameValues⟩ := of_find? found
      rw [List.inj_on_of_nodup_map distinct otherMember member sameValues]

namespace Union

def Comparable (union : Union) : Prop :=
  ∀ variant ∈ union.variants, variant.shape.Everywhere Shape.KeysOnce

private theorem Comparable.renamed {union : Union} (comparable : union.Comparable)
    (name : TypeName) :
    (union.renamed name).Comparable := by
  intro variant member
  obtain ⟨original, inUnion, rfl⟩ := List.mem_map.mp member
  exact comparable original inUnion

end Union

namespace UnionEntry

variable {registry later : Registry} {union : Union}

theorem clashes_mono (within : registry.Within later) (distinct : later.Distinct)
    (clash : clashes registry.unions union = true) : clashes later.unions union = true := by
  unfold clashes at clash ⊢
  cases found : find? union.name registry.unions with
  | none =>
      rw [found] at clash
      contradiction
  | some entry =>
      rw [found] at clash
      obtain ⟨member, sameName⟩ := of_find? found
      rw [← sameName, find?_of_mem distinct.unions (within.unions entry member)]
      exact clash

theorem clashes_eq_false {entry : UnionEntry}
    (found : find? union.name later.unions = some entry)
    (same : entry.union.same union = true) : clashes later.unions union = false := by
  unfold clashes
  rw [found]
  dsimp only
  rw [same, Bool.not_true]

end UnionEntry

namespace Registry

variable {registry later : Registry}

private theorem Within.length_unions_le (within : registry.Within later)
    (distinct : registry.Distinct) :
    registry.unions.length ≤ later.unions.length :=
  (distinct.unions.of_map.subperm within.unions).length_le

theorem placed_again {union : Union} (within : registry.Within later)
    (distinct : registry.Distinct) (laterDistinct : later.Distinct)
    (accepted : UnionEntry.clashes later.unions (registry.placed union) = false) :
    later.placed union = registry.placed union := by
  obtain ⟨number, few, found, before⟩ := Fresh.search_first
    (UnionEntry.clashes registry.unions) union
    (fun wanted number => wanted.renamed (wanted.name.withSuffix number)) registry.unions.length 0
  unfold placed at accepted ⊢
  rw [found] at accepted ⊢
  refine Fresh.search_eq (few.trans (within.length_unions_le distinct)) ?_ accepted
  exact fun earlier less => UnionEntry.clashes_mono within laterDistinct (before earlier less)

theorem placed_comparable {union : Union} (comparable : union.Comparable) :
    (registry.placed union).Comparable := by
  rcases registry.placed_cases union with equal | ⟨number, equal⟩
  · rw [equal]
    exact comparable
  · rw [equal]
    exact comparable.renamed _

/-- What a union is stored as, it equals; and it is stored under the chosen name. -/
theorem registerUnion_stored (registry : Registry) {union : Union} (comparable : union.Comparable)
    (owner : Option TypeName) :
    (registry.registerUnion union owner).1 = registry.placed union ∧
      registry.Within (registry.registerUnion union owner).2 ∧
        ∃ entry ∈ (registry.registerUnion union owner).2.unions,
          entry.union.name = (registry.placed union).name ∧
            entry.union.same (registry.placed union) = true := by
  rcases registry.registerUnion_cases union owner with
    ⟨present, member, sameName, same, equal⟩ | ⟨next, added, equal⟩
  · rw [equal]
    exact ⟨rfl, .refl _, present, member, sameName, same⟩
  · rw [equal]
    refine ⟨rfl, added.within, _, added.unions.mem_iff.mpr List.mem_cons_self, rfl, ?_⟩
    exact Union.same_self (registry.placed union) (placed_comparable comparable)

/-- At any later moment the union is found as it was stored, and nothing is added. -/
theorem registerUnion_again {union : Union} {owner : Option TypeName}
    (comparable : union.Comparable) (distinct : registry.Distinct) (laterDistinct : later.Distinct)
    (within : (registry.registerUnion union owner).2.Within later) (other : Option TypeName) :
    later.registerUnion union other = ((registry.registerUnion union owner).1, later) := by
  obtain ⟨chosen, grown, entry, member, sameName, same⟩ :=
    registry.registerUnion_stored comparable owner
  have found : UnionEntry.find? (registry.placed union).name later.unions = some entry := by
    rw [← sameName]
    exact UnionEntry.find?_of_mem laterDistinct.unions (within.unions entry member)
  have placedAgain : later.placed union = registry.placed union :=
    placed_again (grown.trans within) distinct laterDistinct
      (UnionEntry.clashes_eq_false found same)
  rw [chosen, registerUnion, placedAgain, found]

theorem registerUnion_grows (distinct : registry.Distinct) (union : Union)
    (owner : Option TypeName) :
    (registry.registerUnion union owner).2.Distinct ∧
      registry.Within (registry.registerUnion union owner).2 := by
  rcases registry.registerUnion_cases union owner with ⟨_, _, _, _, equal⟩ | ⟨next, added, equal⟩
  · rw [equal]
    exact ⟨distinct, .refl _⟩
  · rw [equal]
    exact ⟨added.distinct distinct, added.within⟩

theorem registerEnum_grows (distinct : registry.Distinct) (entry : EnumEntry) :
    (registry.registerEnum entry).2.Distinct ∧
      registry.Within (registry.registerEnum entry).2 := by
  rcases registry.registerEnum_cases entry with ⟨_, _, _, equal⟩ | ⟨next, added, equal⟩
  · rw [equal]
    exact ⟨distinct, .refl _⟩
  · rw [equal]
    exact ⟨added.distinct distinct, added.within⟩

theorem registerEnum_again {entry : EnumEntry} (laterDistinct : later.Distinct)
    (within : (registry.registerEnum entry).2.Within later) :
    later.registerEnum entry = ((registry.registerEnum entry).1, later) := by
  have stored : ∃ present ∈ (registry.registerEnum entry).2.enums,
      present.values = entry.values ∧ present.name = (registry.registerEnum entry).1 := by
    rcases registry.registerEnum_cases entry with
      ⟨present, member, sameValues, equal⟩ | ⟨next, added, equal⟩
    · rw [equal]
      exact ⟨present, member, sameValues, rfl⟩
    · rw [equal]
      exact ⟨entry, added.enums.mem_iff.mpr List.mem_cons_self, rfl, rfl⟩
  obtain ⟨present, member, sameValues, sameName⟩ := stored
  have found := EnumEntry.find?_of_mem laterDistinct.enums (within.enums present member)
  rw [sameValues] at found
  rw [← sameName, registerEnum, found]

end Registry

namespace Run

variable {excused : String → Prop}

theorem registerEnum_repeats (entry : EnumEntry) :
    Repeats excused (registerEnum entry) (registerEnum entry) fun _ => True where
  grows scope log distinct := Registry.registerEnum_grows distinct entry
  returns := .any _
  recalls := by
    intro scope log name reached distinct equal other later _ laterDistinct within
    rw [outcome_registerEnum] at equal
    cases equal
    refine Or.inl ⟨later, ?_, rfl⟩
    rw [outcome_registerEnum, Registry.registerEnum_again laterDistinct within]

theorem registerUnion_repeats {union : Union} (comparable : union.Comparable)
    (owner : Option TypeName) :
    Repeats excused (registerUnion union owner) (registerUnion union owner) Union.Comparable where
  grows scope log distinct := Registry.registerUnion_grows distinct union owner
  returns := by
    intro scope log stored reached equal
    rw [outcome_registerUnion] at equal
    cases equal
    rw [(log.store.registerUnion_stored comparable owner).1]
    exact Registry.placed_comparable comparable
  recalls := by
    intro scope log stored reached distinct equal other later _ laterDistinct within
    rw [outcome_registerUnion] at equal
    cases equal
    refine Or.inl ⟨later, ?_, rfl⟩
    rw [outcome_registerUnion,
      Registry.registerUnion_again comparable distinct laterDistinct within owner]

end Run

end ElmClient
