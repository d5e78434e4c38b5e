/-
Final names. Every entry gets one, and no two get the same. A name that was reserved
goes to an entry only as the name of the entry's owner.
-/

import ElmClient.Proofs.Keyed
import ElmClient.Proofs.Registry.Registering

namespace ElmClient

def Discovery.declaredAs : Discovery → TypeName → Declared
  | .enum entry, name => .enum name entry.values
  | .union entry, name => .union (entry.union.renamed name)

@[simp] theorem Discovery.name_declaredAs (entry : Discovery) (name : TypeName) :
    (entry.declaredAs name).name = name := by
  cases entry <;> rfl

namespace Registry

/-! ### Claiming -/

section Claim

variable (claimed : List TypeName) (entry : Discovery) (rest : List Discovery)

theorem claim_unowned (unowned : entry.owner = none) :
    claim claimed (entry :: rest) = claim claimed rest := by
  rw [claim, unowned]

theorem claim_first {owner : TypeName} (owned : entry.owner = some owner)
    (first : owner ∉ claimed) :
    claim claimed (entry :: rest) =
      ((entry, owner) :: (claim (owner :: claimed) rest).1, (claim (owner :: claimed) rest).2) := by
  have notYet : claimed.contains owner = false := by
    rwa [← Bool.not_eq_true, List.contains_iff_mem]
  simp only [claim, owned, notYet, Bool.false_eq_true, if_false]

theorem claim_late {owner : TypeName} (owned : entry.owner = some owner)
    (late : owner ∈ claimed) :
    claim claimed (entry :: rest) = ((claim claimed rest).1, entry :: (claim claimed rest).2) := by
  have already : claimed.contains owner = true := List.contains_iff_mem.mpr late
  simp only [claim, owned, already, if_true]

end Claim

theorem claim_perm (claimed : List TypeName) (entries : List Discovery) :
    ((claim claimed entries).1.map Prod.fst
      ++ ((entries.filter fun entry => entry.owner.isNone) ++ (claim claimed entries).2)).Perm
        entries := by
  induction entries generalizing claimed with
  | nil => exact .refl _
  | cons entry rest ih =>
      -- an entry has no owner, claims its name first, or comes too late
      cases owned : entry.owner with
      | none =>
          rw [claim_unowned claimed entry rest owned, List.filter_cons_of_pos (by rw [owned]; rfl)]
          exact List.perm_middle.trans ((ih claimed).cons entry)
      | some owner =>
          have dropped : ((entry :: rest).filter fun entry => entry.owner.isNone) =
              rest.filter fun entry => entry.owner.isNone :=
            List.filter_cons_of_neg (by rw [owned]; exact Bool.false_ne_true)
          rw [dropped]
          by_cases late : owner ∈ claimed
          · rw [claim_late claimed entry rest owned late, ← List.append_assoc]
            exact List.perm_middle.trans
              ((List.append_assoc _ _ _ ▸ ih claimed : _).cons entry)
          · rw [claim_first claimed entry rest owned late]
            exact (ih (owner :: claimed)).cons entry

theorem claim_owner (claimed : List TypeName) (entries : List Discovery) :
    ∀ final ∈ (claim claimed entries).1, final.1.owner = some final.2 := by
  induction entries generalizing claimed with
  | nil => exact fun final member => absurd member List.not_mem_nil
  | cons entry rest ih =>
      cases owned : entry.owner with
      | none =>
          rw [claim_unowned claimed entry rest owned]
          exact ih claimed
      | some owner =>
          by_cases late : owner ∈ claimed
          · rw [claim_late claimed entry rest owned late]
            exact ih claimed
          · rw [claim_first claimed entry rest owned late]
            intro final member
            rcases List.mem_cons.mp member with rfl | later
            · exact owned
            · exact ih (owner :: claimed) final later

theorem claim_nodup (claimed : List TypeName) (entries : List Discovery) :
    ((claim claimed entries).1.map Prod.snd).Nodup ∧
      ∀ name ∈ (claim claimed entries).1.map Prod.snd, name ∉ claimed := by
  induction entries generalizing claimed with
  | nil => exact ⟨List.nodup_nil, fun name member => absurd member List.not_mem_nil⟩
  | cons entry rest ih =>
      cases owned : entry.owner with
      | none =>
          rw [claim_unowned claimed entry rest owned]
          exact ih claimed
      | some owner =>
          by_cases late : owner ∈ claimed
          · rw [claim_late claimed entry rest owned late]
            exact ih claimed
          · rw [claim_first claimed entry rest owned late, List.map_cons]
            obtain ⟨distinct, new⟩ := ih (owner :: claimed)
            constructor
            · rw [List.nodup_cons]
              exact ⟨fun again => new owner again List.mem_cons_self, distinct⟩
            · intro name member
              rcases List.mem_cons.mp member with rfl | later
              · exact late
              · exact fun already => new name later (List.mem_cons_of_mem _ already)

theorem claim_complete (claimed : List TypeName) {entries : List Discovery} {owner : TypeName}
    {entry : Discovery} (member : entry ∈ entries) (owned : entry.owner = some owner) :
    owner ∈ claimed ∨ owner ∈ (claim claimed entries).1.map Prod.snd := by
  induction entries generalizing claimed with
  | nil => exact absurd member List.not_mem_nil
  | cons head rest ih =>
      rcases List.mem_cons.mp member with rfl | later
      · by_cases late : owner ∈ claimed
        · exact Or.inl late
        · rw [claim_first claimed entry rest owned late]
          exact Or.inr List.mem_cons_self
      · cases headOwned : head.owner with
        | none =>
            rw [claim_unowned claimed head rest headOwned]
            exact ih claimed later
        | some other =>
            by_cases late : other ∈ claimed
            · rw [claim_late claimed head rest headOwned late]
              exact ih claimed later
            · rw [claim_first claimed head rest headOwned late]
              rcases ih (other :: claimed) later with already | found
              · rcases List.mem_cons.mp already with rfl | before
                · exact Or.inr List.mem_cons_self
                · exact Or.inl before
              · exact Or.inr (List.mem_cons_of_mem _ found)

/-! ### Final names -/

section FinalNames

variable (registry : Registry) (reserved : List TypeName)

/-- The entries that are named after all claims, and their names. -/
private theorem finalNames_eq :
    ∃ others names : List _,
      registry.finalNames reserved = (claim [] registry.entries).1 ++ others.zip names ∧
      others.length = names.length ∧
      ((claim [] registry.entries).1.map Prod.fst ++ others).Perm registry.entries ∧
      names.Nodup ∧
      ∀ name ∈ names, name ∉ reserved ++ (claim [] registry.entries).1.map Prod.snd := by
  refine ⟨_, _, rfl, ?_, claim_perm [] registry.entries,
    Fresh.assignAfter_nodup TypeName.candidate_injective _ _,
    Fresh.assignAfter_not_mem TypeName.candidate_injective _ _⟩
  rw [Fresh.length_assignAfter, List.length_map]

theorem finalNames_perm :
    ((registry.finalNames reserved).map Prod.fst).Perm registry.entries := by
  obtain ⟨others, names, equal, sameLength, entries, -, -⟩ := finalNames_eq registry reserved
  rw [equal, List.map_append, List.map_fst_zip (Nat.le_of_eq sameLength)]
  exact entries

theorem finalNames_nodup : ((registry.finalNames reserved).map Prod.snd).Nodup := by
  obtain ⟨others, names, equal, sameLength, -, distinct, apart⟩ := finalNames_eq registry reserved
  rw [equal, List.map_append, List.map_snd_zip (Nat.le_of_eq sameLength.symm), List.nodup_append]
  refine ⟨(claim_nodup [] registry.entries).1, distinct, ?_⟩
  rintro claimed inClaimed name inNames rfl
  exact apart claimed inNames (List.mem_append_right _ inClaimed)

theorem finalNames_reserved {final : Discovery × TypeName}
    (member : final ∈ registry.finalNames reserved) (taken : final.2 ∈ reserved) :
    final.1.owner = some final.2 := by
  obtain ⟨others, names, equal, -, -, -, apart⟩ := finalNames_eq registry reserved
  rw [equal] at member
  rcases List.mem_append.mp member with claimed | numbered
  · exact claim_owner [] registry.entries final claimed
  · have named : final.2 ∈ names := (List.of_mem_zip numbered).2
    exact absurd (List.mem_append_left _ taken) (apart final.2 named)

theorem exists_final_of_owner {entry : Discovery} {owner : TypeName}
    (member : entry ∈ registry.entries) (owned : entry.owner = some owner) :
    ∃ final ∈ registry.finalNames reserved, final.1.owner = some owner ∧ final.2 = owner := by
  obtain ⟨others, names, equal, -, -, -, -⟩ := finalNames_eq registry reserved
  have listed := (claim_complete [] member owned).resolve_left List.not_mem_nil
  obtain ⟨final, claimed, rfl⟩ := List.mem_map.mp listed
  rw [equal]
  exact ⟨final, List.mem_append_left _ claimed, claim_owner [] registry.entries final claimed, rfl⟩

theorem owner_mem_finalNames {entry : Discovery} {owner : TypeName}
    (member : entry ∈ registry.entries) (owned : entry.owner = some owner) :
    owner ∈ (registry.finalNames reserved).map Prod.snd := by
  obtain ⟨final, listed, -, rfl⟩ := exists_final_of_owner registry reserved member owned
  exact List.mem_map_of_mem listed

private theorem exists_finalName {entry : Discovery} (member : entry ∈ registry.entries) :
    ∃ name, (entry, name) ∈ registry.finalNames reserved := by
  have named := (finalNames_perm registry reserved).mem_iff.mpr member
  obtain ⟨⟨found, name⟩, inFinals, rfl⟩ := List.mem_map.mp named
  exact ⟨name, inFinals⟩

end FinalNames

/-- Final names are names of owners, or names of entries, perhaps numbered. -/
theorem finalNames_origin (registry : Registry) (reserved : List TypeName)
    {final : Discovery × TypeName} (member : final ∈ registry.finalNames reserved) :
    final.1.owner = some final.2 ∨
      ∃ entry ∈ registry.entries, ∃ number,
        final.2 = Fresh.candidate entry.name TypeName.withSuffix number := by
  unfold finalNames at member
  dsimp only at member
  rcases List.mem_append.mp member with claimed | numbered
  · exact Or.inl (claim_owner [] registry.entries final claimed)
  · obtain ⟨base, listed, number, equal⟩ :=
      Fresh.assignAfter_candidate _ _ final.2 (List.of_mem_zip numbered).2
    obtain ⟨entry, other, rfl⟩ := List.mem_map.mp listed
    have inEntries := (claim_perm [] registry.entries).mem_iff.mp (List.mem_append_right _ other)
    exact Or.inr ⟨entry, inEntries, number, equal⟩

/-! ### Declared types -/

section Drain

variable {registry : Registry} (reserved : List TypeName)

theorem drain_enumName? {entry : EnumEntry} (member : entry ∈ registry.enums) :
    ∃ name, (registry.drain reserved).enumName? entry.values = some name := by
  obtain ⟨name, final⟩ := registry.exists_finalName reserved (enum_mem_entries member)
  have named : (entry.values, name) ∈ (registry.drain reserved).enums :=
    List.mem_filterMap.mpr ⟨_, final, rfl⟩
  have listed : entry.values ∈ Keyed.keys (registry.drain reserved).enums :=
    List.mem_map.mpr ⟨_, named, rfl⟩
  have contained := (Keyed.contains_iff_mem_keys _ _).mpr listed
  exact Option.isSome_iff_exists.mp contained

def storedValues? : Discovery → Option (List String)
  | .enum entry => some entry.values
  | .union _ => none

theorem drain_enums_keys :
    (Keyed.keys (registry.drain reserved).enums).Perm (registry.enums.map EnumEntry.values) := by
  have keys : Keyed.keys (registry.drain reserved).enums =
      ((registry.finalNames reserved).map Prod.fst).filterMap storedValues? := by
    rw [Keyed.keys, drain, List.map_filterMap, List.filterMap_map]
    congr 1
    funext final
    rcases final with ⟨_ | _, _⟩ <;> rfl
  have entries : registry.entries.filterMap storedValues? =
      registry.enums.map EnumEntry.values := by
    rw [Registry.entries, List.filterMap_append, List.filterMap_map, List.filterMap_map]
    have noUnions : registry.unions.filterMap (storedValues? ∘ Discovery.union) = [] :=
      List.filterMap_eq_nil_iff.mpr fun _ _ => rfl
    rw [noUnions, List.append_nil, ← List.filterMap_eq_map]
    rfl
  rw [keys, ← entries]
  exact (finalNames_perm registry reserved).filterMap storedValues?

theorem drain_enumName?_of_final (distinct : registry.Distinct) {entry : EnumEntry}
    {name : TypeName} (final : (.enum entry, name) ∈ registry.finalNames reserved) :
    (registry.drain reserved).enumName? entry.values = some name := by
  have keysDistinct : (Keyed.keys (registry.drain reserved).enums).Nodup :=
    (drain_enums_keys reserved).nodup_iff.mpr distinct.enums
  refine (Keyed.find?_eq_some_iff keysDistinct _ _).mpr ?_
  exact List.mem_filterMap.mpr ⟨_, final, rfl⟩

def storedUnion? : Discovery → Option TypeName
  | .enum _ => none
  | .union entry => some entry.union.name

theorem drain_unions_keys :
    (Keyed.keys (registry.drain reserved).unions).Perm
      (registry.unions.map fun entry => entry.union.name) := by
  have keys : Keyed.keys (registry.drain reserved).unions =
      ((registry.finalNames reserved).map Prod.fst).filterMap storedUnion? := by
    rw [Keyed.keys, drain, List.map_filterMap, List.filterMap_map]
    congr 1
    funext final
    rcases final with ⟨_ | _, _⟩ <;> rfl
  have entries : registry.entries.filterMap storedUnion? =
      registry.unions.map fun entry => entry.union.name := by
    rw [Registry.entries, List.filterMap_append, List.filterMap_map, List.filterMap_map]
    have noEnums : registry.enums.filterMap (storedUnion? ∘ Discovery.enum) = [] :=
      List.filterMap_eq_nil_iff.mpr fun _ _ => rfl
    rw [noEnums, List.nil_append, ← List.filterMap_eq_map]
    rfl
  rw [keys, ← entries]
  exact (finalNames_perm registry reserved).filterMap storedUnion?

/-- A union is found under the name it was stored with, and has its final one. -/
theorem drain_union?_of_final (distinct : registry.Distinct) {entry : UnionEntry} {name : TypeName}
    (final : (.union entry, name) ∈ registry.finalNames reserved) :
    (registry.drain reserved).union? entry.union.name = some (entry.union.renamed name) := by
  have keysDistinct : (Keyed.keys (registry.drain reserved).unions).Nodup :=
    (drain_unions_keys reserved).nodup_iff.mpr distinct.unions
  refine (Keyed.find?_eq_some_iff keysDistinct _ _).mpr ?_
  exact List.mem_filterMap.mpr ⟨_, final, rfl⟩

theorem drain_union? (distinct : registry.Distinct) {entry : UnionEntry}
    (member : entry ∈ registry.unions) :
    ∃ name, (registry.drain reserved).union? entry.union.name =
      some (entry.union.renamed name) := by
  obtain ⟨name, final⟩ := registry.exists_finalName reserved (union_mem_entries member)
  exact ⟨name, drain_union?_of_final reserved distinct final⟩

/-- What is declared are the entries under their final names. -/
theorem drain_stored_perm (registry : Registry) :
    ((registry.drain reserved).enums.map (fun entry => Declared.enum entry.2 entry.1)
      ++ (registry.drain reserved).unions.map fun entry => Declared.union entry.2).Perm
        ((registry.finalNames reserved).map fun final => final.1.declaredAs final.2) := by
  unfold drain
  dsimp only
  induction registry.finalNames reserved with
  | nil => exact .refl _
  | cons final rest ih =>
      obtain ⟨entry | entry, name⟩ := final
      · exact ih.cons _
      · exact List.perm_middle.trans (ih.cons _)

theorem drain_declarations_perm (registry : Registry) :
    (registry.drain reserved).declarations.Perm
      ((registry.finalNames reserved).map fun final => final.1.declaredAs final.2) :=
  (List.mergeSort_perm _ _).trans (drain_stored_perm reserved registry)

theorem drain_names_perm (registry : Registry) :
    ((registry.drain reserved).enums.map Prod.snd
      ++ (registry.drain reserved).unions.map fun entry => entry.2.name).Perm
        ((registry.finalNames reserved).map Prod.snd) := by
  have names := (drain_stored_perm reserved registry).map Declared.name
  simp only [List.map_append, List.map_map, Function.comp_def, Discovery.name_declaredAs] at names
  exact names

end Drain

end Registry

end ElmClient
