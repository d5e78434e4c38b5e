/-
What `allOf` merges. Members contribute fields to any depth, through references and
through `allOf` of their own, but a list of required keys reaches no further than the
schema it stands in and the one whose direct inline member that is.
-/

import ElmClient.Proofs.Resolve.Dispatch
import ElmClient.Proofs.Resolve.Fields
import ElmClient.Proofs.Resolve.Steps

namespace ElmClient.Resolve

/-- A schema that is merged into the schema. -/
inductive PartOf (schemas : SchemaMap) (part : Schema) : RefOr Schema → Prop
  | itself : PartOf schemas part (.inline part)
  | member {schema : Schema} {members : List (RefOr Schema)} {member : RefOr Schema}
      (allOf : schema.allOf = some members) (listed : member ∈ members)
      (below : PartOf schemas part member) : PartOf schemas part (.inline schema)
  | reference {text : String} {target : RefOr Schema}
      (found : referenced? schemas text = some target) (below : PartOf schemas part target) :
      PartOf schemas part (.reference text)

/-- A schema declares a key if it or a part of it that contributes fields has the key among
its properties. -/
inductive Declares (schemas : SchemaMap) (key : String) : RefOr Schema → Prop
  | own {schema : Schema} (contributes : schema.allOf.isSome = true ∨ isPlainObject schema = true)
      (listed : key ∈ Keyed.keys schema.properties) : Declares schemas key (.inline schema)
  | member {schema : Schema} {members : List (RefOr Schema)} {member : RefOr Schema}
      (allOf : schema.allOf = some members) (listed : member ∈ members)
      (below : Declares schemas key member) : Declares schemas key (.inline schema)
  | reference {text : String} {target : RefOr Schema}
      (found : referenced? schemas text = some target) (below : Declares schemas key target) :
      Declares schemas key (.reference text)

/-- Some part declares the key and requires it, itself or in a direct inline member. -/
def Demands (schemas : SchemaMap) (key : String) (schema : RefOr Schema) : Prop :=
  ∃ part, PartOf schemas part schema ∧ key ∈ requiredKeys part ∧
    Declares schemas key (.inline part)

section

variable {schemas : SchemaMap} {key : String}

private theorem declares_inline_iff {schema : Schema} :
    Declares schemas key (.inline schema) ↔
      (schema.allOf.isSome = true ∨ isPlainObject schema = true) ∧
          key ∈ Keyed.keys schema.properties ∨
        ∃ member ∈ schema.allOf.getD [], Declares schemas key member := by
  constructor
  · intro declares
    cases declares with
    | own contributes listed => exact Or.inl ⟨contributes, listed⟩
    | member allOf listed below =>
        rw [allOf]
        exact Or.inr ⟨_, listed, below⟩
  · rintro (⟨contributes, listed⟩ | ⟨member, listed, below⟩)
    · exact .own contributes listed
    · cases allOf : schema.allOf with
      | none =>
          rw [allOf] at listed
          exact absurd listed List.not_mem_nil
      | some members =>
          rw [allOf] at listed
          exact .member allOf listed below

private theorem declares_reference_iff {text : String} {target : RefOr Schema}
    (found : referenced? schemas text = some target) :
    Declares schemas key (.reference text) ↔ Declares schemas key target := by
  constructor
  · intro declares
    cases declares with
    | reference also below =>
        rw [found] at also
        obtain rfl := Option.some.inj also
        exact below
  · exact .reference found

theorem demands_inline_iff {schema : Schema} :
    Demands schemas key (.inline schema) ↔
      key ∈ requiredKeys schema ∧ Declares schemas key (.inline schema) ∨
        ∃ member ∈ schema.allOf.getD [], Demands schemas key member := by
  constructor
  · rintro ⟨part, within, required, declares⟩
    cases within with
    | itself => exact Or.inl ⟨required, declares⟩
    | member allOf listed below =>
        rw [allOf]
        exact Or.inr ⟨_, listed, part, below, required, declares⟩
  · rintro (⟨required, declares⟩ | ⟨member, listed, part, below, required, declares⟩)
    · exact ⟨schema, .itself, required, declares⟩
    · cases allOf : schema.allOf with
      | none =>
          rw [allOf] at listed
          exact absurd listed List.not_mem_nil
      | some members =>
          rw [allOf] at listed
          exact ⟨part, .member allOf listed below, required, declares⟩

theorem demands_reference_iff {text : String} {target : RefOr Schema}
    (found : referenced? schemas text = some target) :
    Demands schemas key (.reference text) ↔ Demands schemas key target := by
  constructor
  · rintro ⟨part, within, required, declares⟩
    cases within with
    | reference also below =>
        rw [found] at also
        obtain rfl := Option.some.inj also
        exact ⟨part, below, required, declares⟩
  · rintro ⟨part, below, required, declares⟩
    exact ⟨part, .reference found below, required, declares⟩

end

private theorem PartOf.declares {schemas : SchemaMap} {key : String} {part : Schema}
    {schema : RefOr Schema} (within : PartOf schemas part schema)
    (declares : Declares schemas key (.inline part)) : Declares schemas key schema := by
  induction within with
  | itself => exact declares
  | member allOf listed _ ih => exact .member allOf listed ih
  | reference found _ ih => exact .reference found ih

private theorem Demands.declares {schemas : SchemaMap} {key : String} {schema : RefOr Schema}
    (demands : Demands schemas key schema) : Declares schemas key schema := by
  obtain ⟨part, within, -, declares⟩ := demands
  exact within.declares declares

/-! ### Merged fields -/

/-- The fields are those that the schema declares, and those that it demands are required. -/
def Matches (schemas : SchemaMap) (schema : RefOr Schema) (fields : List Field) : Prop :=
  ∀ key, (Field.Has key fields ↔ Declares schemas key schema) ∧
    (Field.Requires key fields ↔ Demands schemas key schema)

/-- A contribution matches the schema it comes from; what contributes nothing declares
nothing. -/
def Contributes (schemas : SchemaMap) (schema : RefOr Schema) (contributed : Option (List Field)) :
    Prop :=
  Matches schemas schema (contributed.getD [])

private theorem listed_fields {entries : List (String × RefOr Schema)} {fields : List Field}
    {required : List String}
    (related : List.Forall₂
      (fun entry field => field.key = entry.1 ∧ field.required = required.contains entry.1)
      entries fields) (key : String) :
    (Field.Has key fields ↔ key ∈ Keyed.keys entries) ∧
      (Field.Requires key fields ↔ key ∈ required ∧ key ∈ Keyed.keys entries) := by
  induction related with
  | nil =>
      refine ⟨iff_of_false Field.has_nil List.not_mem_nil, ?_⟩
      exact iff_of_false Field.requires_nil fun both => List.not_mem_nil both.2
  | @cons entry field others rest first _ ih =>
      obtain ⟨sameKey, marked⟩ := first
      rw [Keyed.keys, List.map_cons, List.mem_cons, ← sameKey, Field.Has, Field.Requires,
        Field.find?]
      by_cases same : field.key = key
      · rw [if_pos same]
        simp [marked, ← sameKey, same]
      · rw [if_neg same, or_iff_right fun equal => same equal.symm]
        exact ih

def OwnProperties (schema : Schema) (fields : List Field) : Prop :=
  ∀ key, (Field.Has key fields ↔ key ∈ Keyed.keys schema.properties) ∧
    (Field.Requires key fields ↔ key ∈ schema.required ∧ key ∈ Keyed.keys schema.properties)

theorem properties_returns (inner : Inner) (site : Site) (schema : Schema) :
    Run.Returns (properties inner site schema) (OwnProperties schema) := by
  have each (entry : String × RefOr Schema) :
      Run.Returns (property inner site schema.required entry) fun field =>
        field.key = entry.1 ∧ field.required = schema.required.contains entry.1 :=
    .withPath _ (.map (.any _) fun _ _ => ⟨rfl, rfl⟩)
  exact .withPath _ ((Run.Returns.traverse each schema.properties).imp fun _ => listed_fields)

private theorem ownFields_returns (inner : Inner) (site : Site) (schema : Schema) :
    Run.Returns (ownFields inner site schema) (OwnProperties schema) := by
  unfold ownFields
  split
  case isTrue none =>
    refine .pure fun key => ?_
    rw [List.isEmpty_iff.mp none]
    exact listed_fields List.Forall₂.nil key
  case isFalse => exact properties_returns inner site schema

def Inner.Contributes (schemas : SchemaMap) (inner : Inner) : Prop :=
  ∀ expanding site schema,
    Run.Returns (inner.contribution expanding site schema) (Resolve.Contributes schemas schema)

variable {schemas : SchemaMap} {inner : Inner}

private theorem memberContributions_returns (contributes : inner.Contributes schemas)
    (expanding : List TypeName) (site : Site) (schema : Schema) :
    Run.Returns (memberContributions inner expanding site schema) fun contributions =>
      List.Forall₂ (Contributes schemas) (schema.allOf.getD []) contributions := by
  unfold memberContributions
  cases schema.allOf with
  | none => exact .pure List.Forall₂.nil
  | some members => exact .traverseIndexed "allOf" (contributes expanding site) members

private theorem inherited_matches {members : List (RefOr Schema)}
    {contributions : List (Option (List Field))}
    (related : List.Forall₂ (Contributes schemas) members contributions) (key : String) :
    (Field.Has key ((contributions.filterMap id).foldl Field.unite []) ↔
        ∃ member ∈ members, Declares schemas key member) ∧
      (Field.Requires key ((contributions.filterMap id).foldl Field.unite []) ↔
        ∃ member ∈ members, Demands schemas key member) := by
  rw [Field.has_foldl_unite, Field.requires_foldl_unite, or_iff_right Field.has_nil,
    or_iff_right Field.requires_nil]
  induction related with
  | nil => simp
  | @cons member contributed others rest first _ ih =>
      obtain ⟨memberHas, memberRequires⟩ := first key
      rw [List.exists_mem_cons_iff, List.exists_mem_cons_iff, ← memberHas, ← memberRequires,
        ← ih.1, ← ih.2]
      cases contributed with
      | none => simp [Field.has_nil, Field.requires_nil]
      | some fields => simp

theorem mergedFields_returns (contributes : inner.Contributes schemas)
    (expanding : List TypeName) (site : Site) {schema : Schema}
    (composed : schema.allOf.isSome = true) :
    Run.Returns (mergedFields inner expanding site schema) (Matches schemas (.inline schema)) := by
  rw [mergedFields_eq]
  refine .bind (memberContributions_returns contributes expanding site schema)
    fun contributions related => ?_
  refine .map (ownFields_returns inner site schema) fun own ownMatches key => ?_
  obtain ⟨inheritedHas, inheritedRequires⟩ := inherited_matches related key
  obtain ⟨ownHas, ownRequires⟩ := ownMatches key
  have ownListed : key ∈ schema.required → key ∈ requiredKeys schema :=
    List.mem_append_left _
  have declares : Declares schemas key (.inline schema) ↔
      key ∈ Keyed.keys schema.properties ∨
        ∃ member ∈ schema.allOf.getD [], Declares schemas key member := by
    rw [declares_inline_iff, and_iff_right (Or.inl composed)]
  have has : Field.Has key
      (Field.unite ((contributions.filterMap id).foldl Field.unite []) own) ↔
      Declares schemas key (.inline schema) := by
    rw [Field.has_unite, inheritedHas, ownHas, declares, or_comm]
  refine ⟨Field.has_requireKeys.trans has, ?_⟩
  rw [Field.requires_requireKeys, has, Field.requires_unite, inheritedRequires, ownRequires,
    demands_inline_iff, ← or_assoc]
  -- What the schema requires of its own properties is marked once more with the whole merge.
  exact or_iff_left_of_imp fun own =>
    Or.inl ⟨ownListed own.1, declares.mpr (Or.inl own.2)⟩

/-! ### Contributions -/

private theorem contributes_nothing {schema : RefOr Schema}
    (declaresNone : ∀ key, ¬ Declares schemas key schema) {contributed : Option (List Field)}
    (nothing : contributed.getD [] = []) : Contributes schemas schema contributed := by
  intro key
  rw [nothing]
  exact ⟨iff_of_false Field.has_nil (declaresNone key),
    iff_of_false Field.requires_nil fun demands => declaresNone key demands.declares⟩

theorem declares_alone_iff {schema : Schema} (alone : schema.allOf = none) {key : String} :
    Declares schemas key (.inline schema) ↔
      isPlainObject schema = true ∧ key ∈ Keyed.keys schema.properties := by
  rw [declares_inline_iff, alone]
  simp

private theorem not_declares_bare {schema : Schema} (alone : schema.allOf = none)
    (bare : schema.properties = []) (key : String) : ¬ Declares schemas key (.inline schema) := by
  rw [declares_alone_iff alone, bare]
  exact fun both => List.not_mem_nil both.2

theorem demands_alone_iff {schema : Schema} (alone : schema.allOf = none) {key : String} :
    Demands schemas key (.inline schema) ↔
      key ∈ schema.required ∧ Declares schemas key (.inline schema) := by
  have ownKeys : requiredKeys schema = schema.required := by
    rw [requiredKeys, alone, Option.getD_none, List.flatMap_nil, List.append_nil]
  rw [demands_inline_iff, ownKeys, alone]
  simp

theorem plain_matches {schema : Schema} (alone : schema.allOf = none)
    (plain : isPlainObject schema = true) {fields : List Field}
    (listed : OwnProperties schema fields) : Matches schemas (.inline schema) fields := by
  intro key
  rw [demands_alone_iff alone, declares_alone_iff alone, and_iff_right plain]
  exact listed key

theorem noObject_returns (inner : Inner) (site : Site) (schema : Schema)
    {described : Option (List Field) → Prop} (holds : described none) :
    Run.Returns (noObject schemas inner site schema) described :=
  .bind (.any _) fun _ _ => .placeholderOr holds

theorem inlineContribution_returns (contributes : inner.Contributes schemas)
    (expanding : List TypeName) (site : Site) (schema : Schema) :
    Run.Returns (inlineContribution schemas inner expanding site schema)
      (Contributes schemas (.inline schema)) := by
  -- Only a merge and a plain object with properties declare any key; whatever else a member
  -- may be, it contributes nothing.
  unfold inlineContribution
  split
  case isTrue unconstrained =>
    simp only [Schema.isUnconstrained, Bool.and_eq_true, Option.isNone_iff_eq_none,
      List.isEmpty_iff] at unconstrained
    have declaresNone : ∀ key, ¬ Declares schemas key (.inline schema) :=
      not_declares_bare unconstrained.1.1.2 unconstrained.1.1.1.1.2
    exact .pure (contributes_nothing declaresNone rfl)
  case isFalse =>
    split
    case isTrue composed =>
      exact .map (mergedFields_returns contributes expanding site composed) fun _ matched => matched
    case isFalse simple =>
      have alone : schema.allOf = none := by simpa using simple
      split
      case isTrue plain =>
        split
        case isTrue =>
          exact .map (properties_returns inner site schema) fun _ => plain_matches alone plain
        case isFalse bare =>
          have declaresNone : ∀ key, ¬ Declares schemas key (.inline schema) :=
            not_declares_bare alone (by simpa using bare)
          split
          · exact noObject_returns inner site schema (contributes_nothing declaresNone rfl)
          · exact .pure (contributes_nothing declaresNone rfl)
      case isFalse odd =>
        have declaresNone (key : String) : ¬ Declares schemas key (.inline schema) := by
          rw [declares_alone_iff alone, not_and]
          exact fun plain => absurd plain odd
        exact noObject_returns inner site schema (contributes_nothing declaresNone rfl)

theorem referenced?_of_parse {text : String} {reference : Reference}
    (parsed : Reference.parse text = .ok reference) :
    referenced? schemas text = Keyed.find? reference.name schemas := by
  rw [referenced?, parsed]

theorem schemaReference_returns (text : String) :
    Run.Returns (schemaReference schemas text : Run Registry Reference) fun reference =>
      referenced? schemas text = Keyed.find? reference.name schemas := by
  have parsed : Run.Returns (parseReference text : Run Registry Reference) fun reference =>
      Reference.parse text = .ok reference := by
    unfold parseReference
    split
    case h_1 equal => exact .pure equal
    case h_2 => exact .fail
  refine .bind parsed fun reference equal => ?_
  split
  · exact .fail
  · split
    · exact .fail
    · exact .pure (referenced?_of_parse equal)

theorem contribution_returns (contributes : inner.Contributes schemas)
    (expanding : List TypeName) (site : Site) (schema : RefOr Schema) :
    Run.Returns (contribution schemas inner expanding site schema)
      (Contributes schemas schema) := by
  cases schema with
  | inline schema => exact inlineContribution_returns contributes expanding site schema
  | reference text =>
      refine .bind (schemaReference_returns text) fun reference found => ?_
      dsimp only
      split
      · exact .fail
      · cases stored : Keyed.find? reference.name schemas with
        | none => exact .fail
        | some target =>
            rw [stored] at found
            refine (contributes _ _ target).imp fun contributed matched key => ?_
            rw [declares_reference_iff found, demands_reference_iff found]
            exact matched key

theorem within_contributes (schemas : SchemaMap) (levels : Nat) :
    Inner.Contributes schemas
      ⟨schemaWithin schemas levels, contributionWithin schemas levels⟩ := by
  induction levels with
  | zero => exact fun _ _ _ => .fail
  | succ levels ih => exact contribution_returns ih

theorem schemaWithin_returns {levels : Nat} {site : Site} {schema : Schema}
    {described : Shape → Prop}
    (resolves : ∀ inner : Inner, inner.Contributes schemas →
      Run.Returns (inline schemas inner site schema) described) :
    Run.Returns (schemaWithin schemas levels site (.inline schema)) described := by
  cases levels with
  | zero => exact .fail
  | succ levels => exact resolves _ (within_contributes schemas levels)

/-! ### Merged objects -/

/-- Null aside, a schema that merges the members of `allOf` is an object with the fields
that it declares. -/
theorem inline_merges (contributes : inner.Contributes schemas) (site : Site) {schema : Schema}
    (merges : MergesAllOf schema) :
    Run.Returns (inline schemas inner site schema) fun shape =>
      ∃ fields, shape.withoutNull = .object fields ∧ Matches schemas (.inline schema) fields := by
  obtain ⟨members, composed⟩ := Option.isSome_iff_exists.mp merges.composed
  have several := merges.several
  rw [composed, Option.getD_some] at several
  have isComposed : hasComposition schema = true := by
    rw [hasComposition, merges.composed, Bool.true_or, Bool.true_or]
  refine inline_returns (constrained_of_composed isComposed) merges.typed ?_
  rw [ofKinds_composed merges.typed isComposed,
    untyped_allOf merges.enumeration merges.anyOf merges.oneOf composed, allOf_merges several]
  exact .map (mergedFields_returns contributes _ site merges.composed)
    fun fields matched => ⟨fields, rfl, matched⟩

end ElmClient.Resolve
