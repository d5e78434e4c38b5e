/-
The components under expansion. However schemas are resolved, no component is listed twice
there, so the list is never longer than there are components, apart from where it began. It
is shown by resolving with a check of the list before every contribution: that comes to the
same, since the check never fails.
-/

import ElmClient.Proofs.Closed.Schema
import Mathlib.Data.List.Perm.Subperm

namespace ElmClient.Resolve

open Run

/-- A component is listed once, and all that were added are components of the document. -/
def Expansion (schemas : SchemaMap) (expanding : List TypeName) : Prop :=
  expanding.Nodup ∧ ∀ name ∈ expanding.tail, name ∈ (Keyed.keys schemas).map TypeName.ofRaw

instance (schemas : SchemaMap) : DecidablePred (Expansion schemas) :=
  fun _ => inferInstanceAs (Decidable (_ ∧ _))

section Expansion

variable {schemas : SchemaMap}

theorem expansion_owner (owner : Option TypeName) : Expansion schemas owner.toList := by
  cases owner with
  | none => exact ⟨List.nodup_nil, nofun⟩
  | some name => exact ⟨List.nodup_singleton name, nofun⟩

theorem Expansion.follow {expanding : List TypeName} (expansion : Expansion schemas expanding)
    {text raw : String} (refers : RefersTo schemas text raw)
    (absent : TypeName.ofRaw raw ∉ expanding) :
    Expansion schemas (expanding ++ [TypeName.ofRaw raw]) := by
  refine ⟨List.nodup_append_comm.mp (List.nodup_cons.mpr ⟨absent, expansion.1⟩), ?_⟩
  have added : TypeName.ofRaw raw ∈ (Keyed.keys schemas).map TypeName.ofRaw :=
    List.mem_map_of_mem refers.listed
  intro name listed
  cases expanding with
  | nil => exact absurd listed List.not_mem_nil
  | cons first rest =>
      rcases List.mem_append.mp listed with before | last
      · exact expansion.2 name before
      · exact List.mem_singleton.mp last ▸ added

/-- Every component is expanded at most once inside the one where merging began. -/
theorem Expansion.length_le {expanding : List TypeName} (expansion : Expansion schemas expanding) :
    expanding.length ≤ schemas.length + 1 := by
  have bound := (expansion.1.tail.subperm expansion.2).length_le
  rw [List.length_map, Keyed.keys, List.length_map, List.length_tail] at bound
  omega

end Expansion

/-! ### Checking the list -/

/-- The same functions, except that contributing fails if the components under expansion are
not as they should be. -/
def Inner.checked (schemas : SchemaMap) (inner : Inner) : Inner where
  schema := inner.schema
  contribution expanding site schema :=
    if Expansion schemas expanding then inner.contribution expanding site schema
    else Run.fail "a component is under expansion twice"

mutual

def schemaChecked (schemas : SchemaMap) : Nat → Site → RefOr Schema → Run Registry Shape
  | 0, _, _ => endless
  | levels + 1, site, schema =>
      schemaOrReference schemas
        (Inner.checked schemas ⟨schemaChecked schemas levels, contributionChecked schemas levels⟩)
        site schema

def contributionChecked (schemas : SchemaMap) :
    Nat → List TypeName → Site → RefOr Schema → Run Registry (Option (List Field))
  | 0, _, _, _ => endless
  | levels + 1, expanding, site, schema =>
      contribution schemas
        (Inner.checked schemas ⟨schemaChecked schemas levels, contributionChecked schemas levels⟩)
        expanding site schema

end

structure Inner.Agrees (schemas : SchemaMap) (inner other : Inner) : Prop where
  schema : inner.schema = other.schema
  contribution : ∀ expanding, Expansion schemas expanding →
    inner.contribution expanding = other.contribution expanding

section Agreeing

variable {schemas : SchemaMap} {inner other : Inner} (agrees : inner.Agrees schemas other)
  (site : Site) (schema : Schema)

include agrees

theorem mergedFields_agrees {expanding : List TypeName} (expansion : Expansion schemas expanding) :
    mergedFields inner expanding site schema = mergedFields other expanding site schema := by
  have members : memberContributions inner expanding site schema =
      memberContributions other expanding site schema := by
    unfold memberContributions
    rw [agrees.contribution expanding expansion]
  have own : ownFields inner site schema = ownFields other site schema := by
    unfold ownFields properties property
    rw [agrees.schema]
  rw [mergedFields_eq, mergedFields_eq, members, own]

theorem allOf_agrees (members : List (RefOr Schema)) :
    allOf inner site schema members = allOf other site schema members := by
  unfold allOf
  rw [mergedFields_agrees agrees site schema (expansion_owner site.owner), agrees.schema]

theorem inline_agrees :
    inline schemas inner site schema = inline schemas other site schema := by
  have merging := allOf_agrees agrees site schema
  obtain ⟨resolve, contribute⟩ := inner
  obtain ⟨otherResolve, otherContribute⟩ := other
  obtain rfl : resolve = otherResolve := agrees.schema
  have untyped_eq : untyped schemas ⟨resolve, contribute⟩ site schema =
      untyped schemas ⟨resolve, otherContribute⟩ site schema := by
    simp only [untyped, merging]
    rfl
  have ofKinds_eq (kinds : List String) :
      ofKinds schemas ⟨resolve, contribute⟩ site schema kinds =
        ofKinds schemas ⟨resolve, otherContribute⟩ site schema kinds := by
    unfold ofKinds
    rw [untyped_eq]
    rfl
  unfold inline base
  rw [ofKinds_eq]

omit site schema in
theorem schemaOrReference_agrees (site : Site) (schema : RefOr Schema) :
    schemaOrReference schemas inner site schema = schemaOrReference schemas other site schema := by
  cases schema with
  | reference text => rfl
  | inline schema => exact inline_agrees agrees site schema

theorem inlineContribution_agrees {expanding : List TypeName}
    (expansion : Expansion schemas expanding) :
    inlineContribution schemas inner expanding site schema =
      inlineContribution schemas other expanding site schema := by
  have own : properties inner site schema = properties other site schema := by
    unfold properties property
    rw [agrees.schema]
  unfold inlineContribution noObject
  rw [mergedFields_agrees agrees site schema expansion, inline_agrees agrees site schema, own]

omit site schema in
theorem contribution_agrees {expanding : List TypeName} (expansion : Expansion schemas expanding)
    (site : Site) (schema : RefOr Schema) :
    contribution schemas inner expanding site schema =
      contribution schemas other expanding site schema := by
  cases schema with
  | inline schema => exact inlineContribution_agrees agrees site schema expansion
  | reference text =>
      refine (schemaReference_refersTo schemas text).bind_congr fun reference refers => ?_
      dsimp only
      split
      · rfl
      case isFalse new =>
        have absent : reference.typeName ∉ expanding := fun inside =>
          new (List.contains_iff_mem.mpr inside)
        have further : Expansion schemas (expanding ++ [reference.typeName]) :=
          expansion.follow refers.2 absent
        rw [agrees.contribution _ further]

end Agreeing

private theorem Inner.Agrees.checked {schemas : SchemaMap} {inner other : Inner}
    (schema : inner.schema = other.schema)
    (contribution : ∀ expanding, Expansion schemas expanding →
      inner.contribution expanding = other.contribution expanding) :
    Inner.Agrees schemas (inner.checked schemas) other where
  schema := schema
  contribution expanding expansion := by
    rw [← contribution expanding expansion]
    funext site schema
    exact if_pos expansion

/-- The check never fails, since every list that is handed on passes it. -/
theorem checked_agrees (schemas : SchemaMap) (levels : Nat) :
    Inner.Agrees schemas
      (Inner.checked schemas ⟨schemaChecked schemas levels, contributionChecked schemas levels⟩)
      ⟨schemaWithin schemas levels, contributionWithin schemas levels⟩ := by
  induction levels with
  | zero => exact .checked rfl fun _ _ => rfl
  | succ levels ih =>
      refine .checked ?_ fun expanding expansion => ?_
      · funext site schema
        unfold schemaChecked schemaWithin
        exact schemaOrReference_agrees ih site schema
      · funext site schema
        unfold contributionChecked contributionWithin
        exact contribution_agrees ih expansion site schema

theorem schemaChecked_eq (schemas : SchemaMap) (levels : Nat) (site : Site)
    (schema : RefOr Schema) :
    schemaChecked schemas levels site schema = schemaWithin schemas levels site schema :=
  congrFun (congrFun (checked_agrees schemas levels).schema site) schema

end ElmClient.Resolve
