/-
Registering. An entry is either there already or added, and what is there stays. Enums
stay apart by their values and unions by their names, since the name under which a
union is stored is free or has an equal union.
-/

import ElmClient.Proofs.Fresh
import ElmClient.Proofs.Sorted
import ElmClient.Registry.Declared
import Mathlib.Data.List.Lex

namespace ElmClient

/-! ### Entries told apart by a key -/

section Key

variable {α κ : Type} {key : α → κ} {entries : List α}

private theorem mem_of_find?_key [DecidableEq κ] {wanted : κ} {entry : α}
    (found : (entries.find? fun entry => decide (key entry = wanted)) = some entry) :
    entry ∈ entries ∧ key entry = wanted := by
  have satisfied := List.find?_some found
  exact ⟨List.mem_of_find?_eq_some found, of_decide_eq_true satisfied⟩

theorem key_ne_of_find?_none [DecidableEq κ] {wanted : κ}
    (missing : (entries.find? fun entry => decide (key entry = wanted)) = none) :
    ∀ entry ∈ entries, key entry ≠ wanted := by
  rw [List.find?_eq_none] at missing
  exact fun entry member same => missing entry member (decide_eq_true same)

theorem keys_nodup_of_added {entry : α} {next : List α} (added : next.Perm (entry :: entries))
    (absent : ∀ present ∈ entries, key present ≠ key entry)
    (distinct : (entries.map key).Nodup) : (next.map key).Nodup := by
  rw [(added.map key).nodup_iff, List.map_cons, List.nodup_cons]
  refine ⟨fun again => ?_, distinct⟩
  obtain ⟨present, member, same⟩ := List.mem_map.mp again
  exact absent present member same

end Key

/-! ### Finding entries -/

theorem EnumEntry.find?_eq (values : List String) (entries : List EnumEntry) :
    find? values entries = entries.find? fun entry => decide (entry.values = values) := by
  induction entries with
  | nil => rfl
  | cons entry rest ih =>
      rw [find?, List.find?_cons, ih]
      by_cases same : entry.values = values
      · simp only [same, if_true, decide_true]
      · simp only [same, if_false, decide_false]

theorem UnionEntry.find?_eq (name : TypeName) (entries : List UnionEntry) :
    find? name entries = entries.find? fun entry => decide (entry.union.name = name) := by
  induction entries with
  | nil => rfl
  | cons entry rest ih =>
      rw [find?, List.find?_cons, ih]
      by_cases same : entry.union.name = name
      · simp only [same, if_true, decide_true]
      · simp only [same, if_false, decide_false]

theorem EnumEntry.of_find? {values : List String} {entries : List EnumEntry} {entry : EnumEntry}
    (found : find? values entries = some entry) : entry ∈ entries ∧ entry.values = values := by
  rw [find?_eq] at found
  exact mem_of_find?_key found

theorem EnumEntry.find?_none {values : List String} {entries : List EnumEntry}
    (missing : find? values entries = none) : ∀ entry ∈ entries, entry.values ≠ values := by
  rw [find?_eq] at missing
  exact key_ne_of_find?_none missing

theorem UnionEntry.of_find? {name : TypeName} {entries : List UnionEntry} {entry : UnionEntry}
    (found : find? name entries = some entry) : entry ∈ entries ∧ entry.union.name = name := by
  rw [find?_eq] at found
  exact mem_of_find?_key found

theorem UnionEntry.find?_none {name : TypeName} {entries : List UnionEntry}
    (missing : find? name entries = none) : ∀ entry ∈ entries, entry.union.name ≠ name := by
  rw [find?_eq] at missing
  exact key_ne_of_find?_none missing

theorem UnionEntry.find?_of_mem {entries : List UnionEntry} {entry : UnionEntry}
    (distinct : (entries.map fun entry => entry.union.name).Nodup) (member : entry ∈ entries) :
    find? entry.union.name entries = some entry := by
  cases found : find? entry.union.name entries with
  | none => exact absurd rfl (find?_none found entry member)
  | some other =>
      obtain ⟨otherMember, sameName⟩ := of_find? found
      rw [List.inj_on_of_nodup_map distinct otherMember member sameName]

namespace Registry

/-! ### Entries of both kinds -/

theorem mem_entries_iff {registry : Registry} {entry : Discovery} :
    entry ∈ registry.entries ↔
      (∃ found ∈ registry.enums, .enum found = entry) ∨
        ∃ found ∈ registry.unions, .union found = entry := by
  rw [entries, List.mem_append, List.mem_map, List.mem_map]

theorem enum_mem_entries {registry : Registry} {entry : EnumEntry}
    (member : entry ∈ registry.enums) : .enum entry ∈ registry.entries :=
  mem_entries_iff.mpr (Or.inl ⟨entry, member, rfl⟩)

theorem union_mem_entries {registry : Registry} {entry : UnionEntry}
    (member : entry ∈ registry.unions) : .union entry ∈ registry.entries :=
  mem_entries_iff.mpr (Or.inr ⟨entry, member, rfl⟩)

/-! ### Growing registries -/

structure Within (left right : Registry) : Prop where
  enums : ∀ entry ∈ left.enums, entry ∈ right.enums
  unions : ∀ entry ∈ left.unions, entry ∈ right.unions

theorem Within.refl (registry : Registry) : registry.Within registry :=
  ⟨fun _ member => member, fun _ member => member⟩

theorem Within.trans {first second third : Registry} (left : first.Within second)
    (right : second.Within third) : first.Within third :=
  ⟨fun entry member => right.enums entry (left.enums entry member),
    fun entry member => right.unions entry (left.unions entry member)⟩

structure Distinct (registry : Registry) : Prop where
  enums : (registry.enums.map EnumEntry.values).Nodup
  unions : (registry.unions.map fun entry => entry.union.name).Nodup

structure AddsEnum (registry : Registry) (entry : EnumEntry) (next : Registry) : Prop where
  absent : ∀ present ∈ registry.enums, present.values ≠ entry.values
  enums : next.enums.Perm (entry :: registry.enums)
  unions : next.unions = registry.unions

structure AddsUnion (registry : Registry) (entry : UnionEntry) (next : Registry) : Prop where
  absent : ∀ present ∈ registry.unions, present.union.name ≠ entry.union.name
  unions : next.unions.Perm (entry :: registry.unions)
  enums : next.enums = registry.enums

section Adding

variable {registry next : Registry}

theorem AddsEnum.within {entry : EnumEntry} (added : registry.AddsEnum entry next) :
    registry.Within next where
  enums _ member := added.enums.mem_iff.mpr (List.mem_cons_of_mem _ member)
  unions _ member := added.unions ▸ member

theorem AddsUnion.within {entry : UnionEntry} (added : registry.AddsUnion entry next) :
    registry.Within next where
  enums _ member := added.enums ▸ member
  unions _ member := added.unions.mem_iff.mpr (List.mem_cons_of_mem _ member)

theorem AddsEnum.distinct {entry : EnumEntry} (added : registry.AddsEnum entry next)
    (distinct : registry.Distinct) : next.Distinct where
  enums := keys_nodup_of_added added.enums added.absent distinct.enums
  unions := by
    rw [added.unions]
    exact distinct.unions

theorem AddsUnion.distinct {entry : UnionEntry} (added : registry.AddsUnion entry next)
    (distinct : registry.Distinct) : next.Distinct where
  enums := by
    rw [added.enums]
    exact distinct.enums
  unions := keys_nodup_of_added added.unions added.absent distinct.unions

end Adding

/-! ### Registering -/

theorem registerEnum_cases (registry : Registry) (entry : EnumEntry) :
    (∃ present ∈ registry.enums, present.values = entry.values ∧
      registry.registerEnum entry = (present.name, registry)) ∨
    ∃ next, registry.AddsEnum entry next ∧ registry.registerEnum entry = (entry.name, next) := by
  unfold registerEnum
  split
  case h_1 present found =>
    obtain ⟨member, same⟩ := EnumEntry.of_find? found
    exact Or.inl ⟨present, member, same, rfl⟩
  case h_2 missing =>
    have absent := EnumEntry.find?_none missing
    refine Or.inr ⟨{ registry with enums := Sorted.insert EnumEntry.before entry registry.enums },
      ⟨absent, Sorted.insert_perm fun present member => ?_, rfl⟩, rfl⟩
    rcases lt_trichotomy entry.values present.values with low | same | high
    · exact Or.inl (decide_eq_true low)
    · exact absurd same.symm (absent present member)
    · exact Or.inr (decide_eq_true high)

/-- A union is stored as it is or under a numbered name. -/
theorem placed_cases (registry : Registry) (union : Union) :
    registry.placed union = union ∨
      ∃ number, registry.placed union = union.renamed (union.name.withSuffix number) := by
  obtain ⟨attempt, found⟩ := Fresh.search_candidate (UnionEntry.clashes registry.unions) union
    (fun wanted number => wanted.renamed (wanted.name.withSuffix number)) registry.unions.length 0
  rw [placed, found]
  cases attempt with
  | zero => exact Or.inl rfl
  | succ attempt => exact Or.inr ⟨attempt + 2, rfl⟩

theorem placed_accepted (registry : Registry) (union : Union) :
    UnionEntry.clashes registry.unions (registry.placed union) = false := by
  have candidateName : ∀ number,
      (Fresh.candidate union (fun wanted number =>
        wanted.renamed (wanted.name.withSuffix number)) number).name =
        Fresh.candidate union.name TypeName.withSuffix number := by
    intro number
    cases number <;> rfl
  have accepted := Fresh.search_accepted (UnionEntry.clashes registry.unions) union
    (fun wanted number => wanted.renamed (wanted.name.withSuffix number)) Union.name
    (registry.unions.map fun entry => entry.union.name) ?_ ?_
  · rw [List.length_map] at accepted
    exact accepted
  · intro first second same
    dsimp only at same
    rw [candidateName, candidateName] at same
    exact union.name.candidate_injective same
  · intro number refused
    unfold UnionEntry.clashes at refused
    split at refused
    case h_1 entry found =>
      obtain ⟨member, same⟩ := UnionEntry.of_find? found
      exact List.mem_map.mpr ⟨entry, member, same⟩
    case h_2 => contradiction

theorem registerUnion_cases (registry : Registry) (union : Union) (owner : Option TypeName) :
    (∃ present ∈ registry.unions, present.union.name = (registry.placed union).name ∧
      present.union.same (registry.placed union) = true ∧
      registry.registerUnion union owner = (registry.placed union, registry)) ∨
    ∃ next, registry.AddsUnion ⟨registry.placed union, owner⟩ next ∧
      registry.registerUnion union owner = (registry.placed union, next) := by
  have accepted := registry.placed_accepted union
  unfold registerUnion
  unfold UnionEntry.clashes at accepted
  dsimp only
  cases found : UnionEntry.find? (registry.placed union).name registry.unions with
  | some present =>
      rw [found] at accepted
      obtain ⟨member, same⟩ := UnionEntry.of_find? found
      refine Or.inl ⟨present, member, same, ?_, rfl⟩
      simpa using accepted
  | none =>
      have absent := UnionEntry.find?_none found
      refine Or.inr ⟨{ registry with
          unions :=
            Sorted.insert UnionEntry.before ⟨registry.placed union, owner⟩ registry.unions },
        ⟨absent, Sorted.insert_perm fun present member => ?_, rfl⟩, rfl⟩
      rcases lt_trichotomy (registry.placed union).name.text present.union.name.text with
        low | same | high
      · exact Or.inl (decide_eq_true low)
      · refine absurd ?_ (absent present member)
        exact congrArg TypeName.mk same.symm
      · exact Or.inr (decide_eq_true high)

end Registry

end ElmClient
