/-
What a merge is made of. The members of `allOf` contribute fields in order, a reference the
fields of its target and a member with `allOf` those of its own merge; then come the own
properties. The contributions are united by the rules, and keys are marked as required.
-/

import ElmClient.Proofs.Again.Resolve
import ElmClient.Proofs.Resolve.Merged
import ElmClient.Proofs.Sample
import ElmClient.Proofs.Shape.Contributions

namespace ElmClient

namespace Resolve

/-- A shape that some run at some site resolves the schema to. -/
def ResolvesTo (schemas : SchemaMap) (schema : RefOr Schema) (shape : Shape) : Prop :=
  ∃ levels site scope log reached,
    (schemaWithin schemas levels site schema).outcome scope log = (.ok shape, reached)

structure DeclaresField (schemas : SchemaMap) (schema : Schema) (entry : String × RefOr Schema)
    (field : Field) : Prop where
  key : field.key = entry.1
  required : field.required = schema.required.contains entry.1
  doc : field.doc = entry.2.doc
  shape : ResolvesTo schemas entry.2 field.shape

def OwnFields (schemas : SchemaMap) (schema : Schema) (fields : List Field) : Prop :=
  List.Forall₂ (DeclaresField schemas schema) schema.properties fields

mutual

/-- The fields that a schema contributes to an object it is merged into. A schema that is
not merged itself and describes no object with properties contributes none. -/
inductive Contribution (schemas : SchemaMap) : RefOr Schema → List Field → Prop
  | reference {text : String} {target : RefOr Schema} {fields : List Field}
      (found : referenced? schemas text = some target)
      (contributed : Contribution schemas target fields) :
      Contribution schemas (.reference text) fields
  | merged {schema : Schema} {fields : List Field} (composed : schema.allOf.isSome = true)
      (merged : MergesTo schemas schema fields) : Contribution schemas (.inline schema) fields
  | plain {schema : Schema} {fields : List Field} (alone : schema.allOf = none)
      (plain : isPlainObject schema = true) (own : OwnFields schemas schema fields) :
      Contribution schemas (.inline schema) fields
  | nothing {schema : Schema} (alone : schema.allOf = none)
      (bare : isPlainObject schema = false ∨ schema.properties = []) :
      Contribution schemas (.inline schema) []

/-- The fields of a schema with the members of its `allOf` merged in. -/
inductive MergesTo (schemas : SchemaMap) : Schema → List Field → Prop
  | intro {schema : Schema} {contributions : List (List Field)} {own fields : List Field}
      (members : List.Forall₂ (Contribution schemas) (schema.allOf.getD []) contributions)
      (declared : OwnFields schemas schema own)
      (united : Field.Unites (contributions ++ [own]) fields) :
      MergesTo schemas schema (Field.requireKeys (requiredKeys schema) fields)

end

/-! ### What merging takes in -/

section Inside

variable {schemas : SchemaMap} {inner : Inner}

structure Inner.Traced (schemas : SchemaMap) (inner : Inner) : Prop where
  schema : ∀ site schema, Run.Returns (inner.schema site schema) (ResolvesTo schemas schema)
  contribution : ∀ expanding site schema, Schema.KeysOnce schema →
    Run.Returns (inner.contribution expanding site schema) fun contributed =>
      Contribution schemas schema (contributed.getD [])

variable (traced : inner.Traced schemas)

include traced

theorem properties_declared (site : Site) (schema : Schema) :
    Run.Returns (properties inner site schema) (OwnFields schemas schema) := by
  have each (entry : String × RefOr Schema) :
      Run.Returns (property inner site schema.required entry)
        (DeclaresField schemas schema entry) :=
    .withPath _ (.map (traced.schema _ entry.2) fun _ resolved => ⟨rfl, rfl, rfl, resolved⟩)
  exact .withPath _ (.traverse each schema.properties)

private theorem ownFields_declared (site : Site) (schema : Schema) :
    Run.Returns (ownFields inner site schema) (OwnFields schemas schema) := by
  unfold ownFields
  split
  case isTrue bare =>
    refine .pure ?_
    rw [OwnFields, List.isEmpty_iff.mp bare]
    exact .nil
  case isFalse => exact properties_declared traced site schema

variable (repeating : Inner.Repeat (fun _ => False) inner inner)

include repeating

private theorem memberContributions_given (expanding : List TypeName) (site : Site)
    {schema : Schema}
    (once : Schema.KeysOnce (.inline schema)) :
    Run.Returns (memberContributions inner expanding site schema) fun contributions =>
      List.Forall₂ (Contribution schemas) (schema.allOf.getD [])
          (contributions.map fun contributed => contributed.getD []) ∧
        ∀ fields ∈ contributions.map fun contributed => contributed.getD [],
          Field.AllOnce fields := by
  have below := (Schema.keysOnce_inline_iff.mp once).2
  have given : Run.Returns (memberContributions inner expanding site schema) fun contributions =>
      List.Forall₂ (Contribution schemas) (schema.allOf.getD [])
        (contributions.map fun contributed => contributed.getD []) := by
    unfold memberContributions
    split
    case h_1 members allOf =>
      rw [allOf]
      refine .imp (.traverseIndexedOf "allOf" fun member listed =>
        traced.contribution expanding site member
          (below member (Schema.mem_children_allOf allOf listed))) fun contributions related => ?_
      rwa [Option.getD_some, List.forall₂_map_right_iff]
    case h_2 none =>
      rw [none]
      exact .pure .nil
  have onceEach := (memberContributions_repeats repeating (.refl expanding) site once).returns
  refine (given.and onceEach).imp fun contributions both => ⟨both.1, fun fields listed => ?_⟩
  obtain ⟨contributed, member, rfl⟩ := List.mem_map.mp listed
  cases contributed with
  | none => exact Field.allOnce_nil
  | some fields => exact both.2 _ member fields rfl

theorem mergedFields_traced (expanding : List TypeName) (site : Site) {schema : Schema}
    (once : Schema.KeysOnce (.inline schema)) :
    Run.Returns (mergedFields inner expanding site schema) (MergesTo schemas schema) := by
  rw [mergedFields_eq]
  refine .bind (memberContributions_given traced repeating expanding site once)
    fun contributions members => ?_
  refine .map ((ownFields_declared traced site schema).and
    (ownFields_repeats repeating site once).returns) fun own declared => ?_
  have inTurn (inherited : List (List Field)) :
      Field.unite (inherited.foldl Field.unite []) own =
        (inherited ++ [own]).foldl Field.unite [] := (List.foldl_concat _ _ _ _).symm
  rw [Field.foldl_unite_filterMap, inTurn]
  refine .intro members.1 declared.1 (Field.unites_foldl fun fields listed => ?_)
  rcases List.mem_append.mp listed with given | last
  · exact members.2 fields given
  · exact List.mem_singleton.mp last ▸ declared.2

theorem inlineContribution_traced (expanding : List TypeName) (site : Site) {schema : Schema}
    (once : Schema.KeysOnce (.inline schema)) :
    Run.Returns (inlineContribution schemas inner expanding site schema) fun contributed =>
      Contribution schemas (.inline schema) (contributed.getD []) := by
  unfold inlineContribution
  split
  case isTrue unconstrained =>
    simp only [Schema.isUnconstrained, Bool.and_eq_true, Option.isNone_iff_eq_none,
      List.isEmpty_iff] at unconstrained
    exact .pure (.nothing unconstrained.1.1.2 (Or.inr unconstrained.1.1.1.1.2))
  case isFalse =>
    split
    case isTrue composed =>
      exact .map (mergedFields_traced traced repeating expanding site once)
        fun _ merged => .merged composed merged
    case isFalse simple =>
      have alone : schema.allOf = none := by simpa using simple
      split
      case isTrue plain =>
        split
        case isTrue =>
          exact .map (properties_declared traced site schema)
            fun _ declared => .plain alone plain declared
        case isFalse bare =>
          have nothing : Contribution schemas (.inline schema) [] :=
            .nothing alone (Or.inr (by simpa using bare))
          split
          · exact noObject_returns inner site schema nothing
          · exact .pure nothing
      case isFalse odd =>
        exact noObject_returns inner site schema (.nothing alone (Or.inl (by simpa using odd)))

theorem contribution_traced (components : ∀ entry ∈ schemas, Schema.KeysOnce entry.2)
    (expanding : List TypeName) (site : Site) {schema : RefOr Schema}
    (once : Schema.KeysOnce schema) :
    Run.Returns (contribution schemas inner expanding site schema) fun contributed =>
      Contribution schemas schema (contributed.getD []) := by
  cases schema with
  | inline schema => exact inlineContribution_traced traced repeating expanding site once
  | reference text =>
      refine .bind (schemaReference_returns text) fun reference found => ?_
      dsimp only
      split
      · exact .fail
      · cases stored : Keyed.find? reference.name schemas with
        | none => exact .fail
        | some target =>
            rw [stored] at found
            have targetOnce := components _ (Keyed.mem_of_find? stored)
            exact (traced.contribution _ _ target targetOnce).imp fun _ => .reference found

end Inside

section Within

variable {schemas : SchemaMap} (components : ∀ entry ∈ schemas, Schema.KeysOnce entry.2)
  (levels : Nat)

include components

theorem within_repeat_itself :
    Inner.Repeat (fun _ => False)
      ⟨schemaWithin schemas levels, contributionWithin schemas levels⟩
      ⟨schemaWithin schemas levels, contributionWithin schemas levels⟩ :=
  within_repeat components levels levels fun less => absurd less (Nat.lt_irrefl levels)

theorem within_traced :
    Inner.Traced schemas ⟨schemaWithin schemas levels, contributionWithin schemas levels⟩ := by
  have resolves (level : Nat) : ∀ site schema,
      Run.Returns (schemaWithin schemas level site schema) (ResolvesTo schemas schema) :=
    fun site schema scope log shape reached ended => ⟨level, site, scope, log, reached, ended⟩
  refine ⟨resolves levels, ?_⟩
  induction levels with
  | zero => exact fun _ _ _ _ => .fail
  | succ levels ih =>
      exact fun expanding site schema once => contribution_traced ⟨resolves levels, ih⟩
        (within_repeat_itself components levels) components expanding site once

end Within

/-! ### A component inherited along two branches -/

/-- Two components that each merge `Base`; the first one changes the type of its field. -/
def branches : SchemaMap :=
  let base : RefOr Schema := .reference "#/components/schemas/Base"
  [("Base", Schema.recordOf "id" "integer"),
    ("Left", .inline (Schema.merging [base, Schema.recordOf "id" "string"])),
    ("Right", .inline (Schema.merging [base, Schema.recordOf "name" "string"]))]

def mergingBranches (names : List String) : Schema :=
  Schema.merging (names.map fun name => .reference ("#/components/schemas/" ++ name))

def mergedBranches (names : List String) : Except Diagnostic (List Field) × Log Registry :=
  (mergedFields ⟨schemaWithin branches 6, contributionWithin branches 6⟩ []
      (Site.unowned (TypeName.ofRaw "Bottom")) (mergingBranches names)).outcome
    (Scope.root .failOnUnsupported) (Log.starting Registry.empty)

def described (fields : List Field) : List (String × String) :=
  fields.map fun field => (field.key, field.shape.describe)

private theorem recordOf_keysOnce (key kind : String) :
    Schema.KeysOnce (Schema.recordOf key kind) := by
  refine Schema.keysOnce_inline_iff.mpr ⟨⟨List.nodup_singleton key, nofun⟩, ?_⟩
  exact List.forall_mem_singleton.mpr (Schema.keysOnce_leaf rfl rfl rfl)

private theorem merging_keysOnce {members : List (RefOr Schema)}
    (once : ∀ member ∈ members, Schema.KeysOnce member) :
    Schema.KeysOnce (.inline (Schema.merging members)) := by
  refine Schema.keysOnce_inline_iff.mpr ⟨⟨List.nodup_nil, nofun⟩, fun child listed => ?_⟩
  exact once child (by simpa [Schema.children, Schema.merging, Schema.bare] using listed)

private theorem branches_keysOnce : ∀ entry ∈ branches, Schema.KeysOnce entry.2 := by
  have extending (key : String) : Schema.KeysOnce (.inline
      (Schema.merging [.reference "#/components/schemas/Base", Schema.recordOf key "string"])) :=
    merging_keysOnce (List.forall_mem_cons.mpr ⟨Schema.keysOnce_reference _,
      List.forall_mem_singleton.mpr (recordOf_keysOnce key "string")⟩)
  refine List.forall_mem_cons.mpr ⟨recordOf_keysOnce "id" "integer", ?_⟩
  exact List.forall_mem_cons.mpr ⟨extending "id", List.forall_mem_singleton.mpr (extending "name")⟩

private theorem mergingBranches_keysOnce (names : List String) :
    Schema.KeysOnce (.inline (mergingBranches names)) := by
  refine merging_keysOnce fun member listed => ?_
  obtain ⟨name, -, rfl⟩ := List.mem_map.mp listed
  exact Schema.keysOnce_reference _

/-! ### An ordered union -/

/-- Merging `allOf` is an ordered union: whatever the merge of a schema ends with is united
by the rules, at every depth, from what its members contribute in order and its own
properties. Uniting a contribution again leaves all but shapes as it was, and those, too,
where nothing in between has their key. -/
theorem mergedFields_unites {schemas : SchemaMap}
    (components : ∀ entry ∈ schemas, Schema.KeysOnce entry.2) {schema : Schema}
    (once : Schema.KeysOnce (.inline schema)) (levels : Nat) (expanding : List TypeName)
    (site : Site) :
    Run.Returns
        (mergedFields ⟨schemaWithin schemas levels, contributionWithin schemas levels⟩ expanding
          site schema)
        (MergesTo schemas schema) ∧
      ∀ present contribution others,
        Field.UnitesAgain (Field.reunited present contribution others) contribution others :=
  ⟨mergedFields_traced (within_traced components levels) (within_repeat_itself components levels)
      expanding site once,
    Field.reunited_unitesAgain⟩

theorem mergedFields_unites_branches : ∃ fields reached,
    mergedBranches ["Left", "Right"] = (.ok fields, reached) ∧
      described fields = [("id", "integer"), ("name", "string")] ∧
      MergesTo branches (mergingBranches ["Left", "Right"]) fields ∧
      Field.UnitesAgain (Field.unite [] fields) fields [] := by
  have outcome : (mergedBranches ["Left", "Right"]).1.toOption.map described =
      some [("id", "integer"), ("name", "string")] := by
    decide
  cases ended : mergedBranches ["Left", "Right"] with
  | mk result reached =>
      rw [ended] at outcome
      cases result with
      | error diagnostic => contradiction
      | ok fields =>
          obtain ⟨merges, again⟩ := mergedFields_unites branches_keysOnce
            (mergingBranches_keysOnce ["Left", "Right"]) 6 []
            (Site.unowned (TypeName.ofRaw "Bottom"))
          exact ⟨fields, reached, rfl, Option.some.inj outcome,
            merges _ _ fields reached ended, again [] fields []⟩

/-- Merging a component again restores the type that one of its fields had before another
member changed it. -/
theorem mergedFields_restores :
    (mergedBranches ["Left"]).1.toOption.map described = some [("id", "string")] ∧
      (mergedBranches ["Left", "Base"]).1.toOption.map described = some [("id", "integer")] ∧
      (mergedBranches ["Left", "Right"]).1.toOption.map described =
        some [("id", "integer"), ("name", "string")] := by
  decide

end Resolve

end ElmClient
