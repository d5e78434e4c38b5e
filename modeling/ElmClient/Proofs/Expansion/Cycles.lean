/-
Components that are merged into themselves. Merging ends: it expands no component twice, and
where a way leads back it fails. It reports a cycle only for components that are one, so a
component that is merged along two ways is none.
-/

import ElmClient.Proofs.Expansion.Levels
import ElmClient.Proofs.Sample

namespace ElmClient

open Run

namespace Resolve

variable {schemas : SchemaMap}

/-! ### Cycles -/

private theorem transGen_of_way {walk : List String} {last : String}
    (way : List.IsChain (TakesIn schemas) (walk ++ [last])) :
    ∀ raw ∈ walk, Relation.TransGen (TakesIn schemas) raw last := by
  induction walk with
  | nil => exact nofun
  | cons first rest ih =>
      cases rest with
      | nil =>
          have step := (List.isChain_cons_cons.mp way).1
          exact List.forall_mem_singleton.mpr (.single step)
      | cons second others =>
          obtain ⟨step, later⟩ := List.isChain_cons_cons.mp way
          have behind := ih later
          refine List.forall_mem_cons.mpr ⟨.head step ?_, behind⟩
          exact behind second List.mem_cons_self

private theorem ReportsWalk.noCycle {message : String} (reports : ReportsWalk schemas message)
    (acyclic : ∀ raw, ¬ Relation.TransGen (TakesIn schemas) raw raw) :
    ¬ "`allOf` reference cycle: ".toList <+: message.toList := by
  intro report
  obtain ⟨walk, last, -, way, repeated⟩ := reports report
  exact acyclic last (transGen_of_way way last repeated)

/-- Every member is contributed with the components under expansion where the merge is,
whatever was under expansion inside the members before. -/
theorem memberContributions_alike (inner : Inner) (expanding : List TypeName) (site : Site)
    (schema : Schema) :
    Returns (memberContributions inner expanding site schema) fun contributions =>
      List.Forall₂
        (fun member contributed => ∃ scope log reached,
          (inner.contribution expanding site member).outcome scope log = (.ok contributed, reached))
        (schema.allOf.getD []) contributions := by
  unfold memberContributions
  cases schema.allOf with
  | none => exact .pure .nil
  | some members =>
      exact .traverseIndexed "allOf"
        (fun _ scope log contributed reached ended => ⟨scope, log, reached, ended⟩) members

end Resolve

namespace Document

open Resolve

/-- What holds of the components under expansion, while the schemas of a document are
resolved. -/
structure ExpandsSoundly (document : Document) : Prop where
  /-- No component is listed twice, in no merge and not at any depth; a check of that
  changes nothing. -/
  once : ∀ levels site schema,
    schemaChecked document.components.schemas levels site schema =
      schemaWithin document.components.schemas levels site schema
  bounded : ∀ expanding, Expansion document.components.schemas expanding →
    expanding.length ≤ document.components.schemas.length + 1
  /-- What the members of one merge expand does not stay for the members behind. -/
  restored : ∀ levels expanding site schema,
    Returns
      (memberContributions
        ⟨schemaWithin document.components.schemas levels,
          contributionWithin document.components.schemas levels⟩ expanding site schema)
      fun contributions => List.Forall₂
        (fun member contributed => ∃ scope log reached,
          (contributionWithin document.components.schemas levels expanding site member).outcome
            scope log = (.ok contributed, reached))
        (schema.allOf.getD []) contributions
  /-- A component is expanded to the end, if none reaches itself through an `allOf` inside
  another schema. -/
  ends : NestsNoReturn document.components.schemas →
    ∀ entry ∈ document.components.schemas, ∀ site,
      FailsWith (fun message => message ≠ endlessMessage)
        ((Source.ofDocument document).schema site entry.2)
  /-- A component from which a cycle is reached is not merged. -/
  caught : ∀ raw turn schema,
    Keyed.find? raw document.components.schemas = some (.inline schema) →
      Relation.ReflTransGen (Extends document.components.schemas) raw turn →
      Relation.TransGen (Extends document.components.schemas) turn turn →
      ∀ levels expanding site, Returns
        (mergedFields
          ⟨schemaWithin document.components.schemas levels,
            contributionWithin document.components.schemas levels⟩ expanding site schema)
        fun _ => False
  /-- A cycle that is reported for a component is a way back to a component on it. -/
  reported : ∀ levels raw schema,
    Keyed.find? raw document.components.schemas = some schema →
      FailsWith (ReportsWalk document.components.schemas)
        (schemaWithin document.components.schemas levels (Site.component (TypeName.ofRaw raw))
          schema)
  /-- So is one that is reported for any other schema. -/
  reportedElsewhere : ∀ levels name schema,
    FailsWith (ReportsWalk document.components.schemas)
      (schemaWithin document.components.schemas levels (Site.unowned name) schema)
  /-- None is reported where components are merged along several ways, but never into
  themselves. -/
  unreported : (∀ raw, ¬ Relation.TransGen (TakesIn document.components.schemas) raw raw) →
    ∀ levels raw schema, Keyed.find? raw document.components.schemas = some schema →
      FailsWith (fun message => ¬ "`allOf` reference cycle: ".toList <+: message.toList)
        (schemaWithin document.components.schemas levels (Site.component (TypeName.ofRaw raw))
          schema)

/-- Components are expanded soundly, if their names are distinct as names of types. -/
theorem expandsSoundly {document : Document}
    (distinct : ((Keyed.keys document.components.schemas).map TypeName.ofRaw).Nodup) :
    document.ExpandsSoundly where
  once := schemaChecked_eq _
  bounded _ := Expansion.length_le
  restored levels := memberContributions_alike
    ⟨schemaWithin document.components.schemas levels,
      contributionWithin document.components.schemas levels⟩
  ends noReturn _ listed site :=
    schemaWithin_ends noReturn (fun _ listed => (depth_component_lt listed).le)
      (depth_component_lt listed).le le_rfl site
  caught _ _ _ found way cycle levels := mergedFields_of_cycle found way cycle levels
  reported levels _ _ found := schemaWithin_reportsWalk distinct levels (ledSite_component found)
  reportedElsewhere levels name schema :=
    schemaWithin_reportsWalk distinct levels (ledSite_unowned name schema)
  unreported acyclic levels _ _ found :=
    (schemaWithin_reportsWalk distinct levels (ledSite_component found)).imp fun _ reports =>
      reports.noCycle acyclic

def failureOf (document : Document) (raw : String) : Option Diagnostic :=
  (Keyed.find? raw document.components.schemas).bind fun schema =>
    match (((Source.ofDocument document).schema (Site.component (TypeName.ofRaw raw))
        schema).outcome (Scope.root .failOnUnsupported) (Log.starting Registry.empty)).1 with
    | .error diagnostic => some diagnostic
    | .ok _ => none

end Document

/-! ### Two components that merge each other -/

namespace Resolve

def extending (raw key : String) : RefOr Schema :=
  .inline (Schema.merging
    [.reference ("#/components/schemas/" ++ raw), Schema.recordOf key "string"])

private theorem not_buries_childless {text : String} {schema : Schema}
    (childless : schema.children = []) :
    ¬ Buries text (.inline schema) := by
  have noMember : ∀ member, member ∉ schema.allOf.getD [] := fun member listed => by
    have inChildren := Schema.mem_children_iff.mpr (Or.inr listed)
    rw [childless] at inChildren
    exact absurd inChildren List.not_mem_nil
  rintro ⟨part, inside, inherits⟩
  cases inside with
  | itself =>
      cases inherits with
      | member listed _ => exact noMember _ listed
  | deeper listed _ =>
      rw [childless] at listed
      exact absurd listed List.not_mem_nil

private theorem not_nests_recordOf {text : String} (key kind : String) :
    ¬ Nests text (Schema.recordOf key kind) := by
  intro nests
  cases nests with
  | apart listed below =>
      obtain rfl := List.mem_singleton.mp listed
      exact not_buries_childless rfl below
  | member listed _ => exact absurd listed List.not_mem_nil

private theorem not_nests_extending {text : String} (raw key : String) :
    ¬ Nests text (extending raw key) := by
  intro nests
  cases nests with
  | apart listed _ => exact absurd listed List.not_mem_nil
  | member listed below =>
      rcases List.mem_cons.mp listed with rfl | last
      · cases below
      · obtain rfl := List.mem_singleton.mp last
        exact not_nests_recordOf key "string" below

/-- Two components that each merge the other one. -/
def mutually : Document :=
  Document.ofParts [] [("A", extending "B" "a"), ("B", extending "A" "b")]

private theorem mutually_nestsNoReturn : NestsNoReturn mutually.components.schemas := by
  rintro raw next ⟨schema, text, found, nests, -⟩
  have listed := Keyed.mem_of_find? found
  rcases List.mem_cons.mp listed with equal | last
  · obtain ⟨rfl, rfl⟩ := Prod.mk.inj equal
    exact absurd nests (not_nests_extending _ _)
  · obtain ⟨rfl, rfl⟩ := Prod.mk.inj (List.mem_singleton.mp last)
    exact absurd nests (not_nests_extending _ _)

private theorem mutually_extends :
    Extends mutually.components.schemas "A" "B" ∧ Extends mutually.components.schemas "B" "A" :=
  ⟨⟨extending "B" "a", _, rfl, .member List.mem_cons_self .itself,
      by decide, by decide⟩,
    ⟨extending "A" "b", _, rfl, .member List.mem_cons_self .itself,
      by decide, by decide⟩⟩

end Resolve

open Resolve in
theorem Document.expandsSoundly_mutually :
    ((Keyed.keys mutually.components.schemas).map TypeName.ofRaw).Nodup ∧
      mutually.ExpandsSoundly ∧ NestsNoReturn mutually.components.schemas ∧
      Relation.TransGen (Extends mutually.components.schemas) "A" "A" ∧
      mutually.failureOf "A" =
        some ⟨["allOf[0]", "allOf[0]"], "`allOf` reference cycle: A -> B -> A"⟩ := by
  have distinct : ((Keyed.keys mutually.components.schemas).map TypeName.ofRaw).Nodup := by
    decide
  refine ⟨distinct, Document.expandsSoundly distinct, mutually_nestsNoReturn,
    .head mutually_extends.1 (.single mutually_extends.2), ?_⟩
  decide

/-! ### Ways that are none through `allOf` alone -/

namespace Resolve

/-- No `allOf` inside a property of any schema holds a reference. -/
def PropertiesMergeNothing (schemas : SchemaMap) : Prop :=
  ∀ entry ∈ schemas, ∀ part, Schema.Inside part entry.2 →
    ∀ property ∈ part.properties, ∀ text, ¬ Buries text property.2

private theorem recordOf_mergesNothing (key kind : String) : ∀ part,
    Schema.Inside part (Schema.recordOf key kind) →
      ∀ property ∈ part.properties, ∀ text, ¬ Buries text property.2 := by
  refine Schema.forall_inside_inline_iff.mpr ⟨?_, ?_⟩
  · exact List.forall_mem_singleton.mpr fun text => not_buries_childless rfl
  · refine List.forall_mem_singleton.mpr (Schema.forall_inside_inline_iff.mpr ⟨nofun, nofun⟩)

private theorem extending_mergesNothing (raw key : String) : ∀ part,
    Schema.Inside part (extending raw key) →
      ∀ property ∈ part.properties, ∀ text, ¬ Buries text property.2 := by
  refine Schema.forall_inside_inline_iff.mpr ⟨nofun, ?_⟩
  exact List.forall_mem_cons.mpr ⟨nofun, List.forall_mem_singleton.mpr
    (recordOf_mergesNothing key "string")⟩

/-- A component whose only alternative merges it. What it contributes when it is merged are
the members of its own `allOf`, which are looked at before alternatives there. -/
def lone : Document :=
  Document.ofParts [] [("D", .inline
    { Schema.merging [Schema.recordOf "z" "string"] with
      anyOf := some [extending "D" "y"] })]

private theorem lone_mergesNothing : PropertiesMergeNothing lone.components.schemas := by
  refine List.forall_mem_singleton.mpr (Schema.forall_inside_inline_iff.mpr ⟨nofun, ?_⟩)
  exact List.forall_mem_cons.mpr ⟨recordOf_mergesNothing "z" "string",
    List.forall_mem_singleton.mpr (extending_mergesNothing "D" "y")⟩

private theorem lone_not_extends (next : String) : ¬ Extends lone.components.schemas "D" next := by
  rintro ⟨schema, text, found, inherits, -⟩
  obtain ⟨-, rfl⟩ := Prod.mk.inj (List.mem_singleton.mp (Keyed.mem_of_find? found))
  cases inherits with
  | member listed below =>
      obtain rfl := List.mem_singleton.mp listed
      cases below with
      | member listed _ => exact absurd listed List.not_mem_nil

section Endless

variable {α β : Type}

/-- However it begins, the run opens schemas until no levels are left. -/
def Endless (action : Run Registry α) : Prop :=
  ∀ scope log, ∃ path reached, action.outcome scope log = (.error ⟨path, endlessMessage⟩, reached)

private theorem Endless.bind {action : Run Registry α} (endless : Endless action)
    (next : α → Run Registry β) : Endless (action >>= next) := by
  intro scope log
  obtain ⟨path, reached, ended⟩ := endless scope log
  exact ⟨path, reached, by rw [outcome_bind, ended]⟩

private theorem Endless.withPath {action : Run Registry α} (endless : Endless action)
    (segment : String) :
    Endless (Run.withPath segment action) :=
  fun scope => endless (scope.below segment)

theorem endless_endless : Endless (endless : Run Registry α) :=
  fun scope log => ⟨scope.path, log, rfl⟩

end Endless

def namedList : RefOr Schema :=
  .inline (Schema.merging
    [.reference "#/components/schemas/List", Schema.recordOf "name" "string"])

def listOfItself : Schema :=
  { Schema.bare with kind := some (.one "array"), items := some (.single namedList) }

def listMap : SchemaMap :=
  [("List", .inline listOfItself)]

section List

variable {inner : Inner}

private theorem listOfItself_endless {site : Site}
    (items : Endless (inner.schema (site.child "Item") namedList)) :
    Endless (inline listMap inner site listOfItself) := by
  have kinds : concreteKinds listOfItself = ["array"] := by decide
  have nulls : listOfItself.kinds.contains "null" = false := by decide
  unfold inline base
  rw [kinds, nulls]
  exact (((items.withPath "items").bind _).bind _).bind _

private theorem namedList_endless {name : TypeName}
    (contributed : Endless
      (inner.contribution [] (Site.unowned name) (.reference "#/components/schemas/List"))) :
    Endless (schemaOrReference listMap inner (Site.unowned name) namedList) := by
  exact (((((((contributed.withPath _).bind _)).bind _).bind _).bind _).bind _)

theorem list_contribution_endless {expanding : List TypeName} {site : Site}
    (items : Endless (inner.schema (site.child "Item") namedList)) :
    Endless (contribution listMap inner expanding site (.inline listOfItself)) := by
  exact (listOfItself_endless items).bind _

theorem list_reference_endless {site : Site}
    (target : Endless (inner.contribution [TypeName.ofRaw "List"]
      (Site.component (TypeName.ofRaw "List")) (.inline listOfItself))) :
    Endless (contribution listMap inner [] site (.reference "#/components/schemas/List")) := by
  have parsed : Reference.parse "#/components/schemas/List" = .ok ⟨.schemas, "List"⟩ := by
    decide
  have present : Keyed.contains "List" listMap = true := by decide
  have found : (schemaReference listMap "#/components/schemas/List" : Run Registry Reference) =
      pure ⟨.schemas, "List"⟩ := by
    unfold schemaReference parseReference
    rw [parsed, pure_bind, if_neg (not_not.mpr rfl), if_neg (by rw [present]; exact nofun)]
  change Endless (schemaReference listMap "#/components/schemas/List" >>= _)
  rw [found]
  exact target

end List

theorem list_endless (levels : Nat) :
    (∀ site, Endless (schemaWithin listMap levels site (.inline listOfItself))) ∧
      (∀ name, Endless (schemaWithin listMap levels (Site.unowned name) namedList)) ∧
      (∀ site, Endless (contributionWithin listMap levels [] site
        (.reference "#/components/schemas/List"))) ∧
      ∀ expanding site, Endless
        (contributionWithin listMap levels expanding site (.inline listOfItself)) := by
  induction levels with
  | zero =>
      exact ⟨fun _ => endless_endless, fun _ => endless_endless, fun _ => endless_endless,
        fun _ _ => endless_endless⟩
  | succ levels ih =>
      obtain ⟨-, items, reference, contributed⟩ := ih
      exact ⟨fun site => listOfItself_endless (items _),
        fun name => namedList_endless (reference _),
        fun site => list_reference_endless (contributed _ _),
        fun expanding site => list_contribution_endless (items _)⟩

end Resolve

open Resolve in
/-- A cycle is reported although the component neither refers to itself nor in its `allOf`,
and a component is expanded without end although no property merges anything. -/
theorem Document.expansion_misreported :
    (((Keyed.keys lone.components.schemas).map TypeName.ofRaw).Nodup ∧
      PropertiesMergeNothing lone.components.schemas ∧
      ¬ Extends lone.components.schemas "D" "D" ∧
      lone.failureOf "D" =
        some ⟨["anyOf[0]", "allOf[0]"], "`allOf` reference cycle: D -> D"⟩) ∧
    ((Keyed.keys listMap).map TypeName.ofRaw).Nodup ∧ PropertiesMergeNothing listMap ∧
      ∀ levels, Endless (schemaWithin listMap levels (Site.component (TypeName.ofRaw "List"))
        (.inline listOfItself)) := by
  refine ⟨⟨by decide, lone_mergesNothing, lone_not_extends "D", by decide⟩,
    by decide, ?_, fun levels => (list_endless levels).1 _⟩
  refine List.forall_mem_singleton.mpr (Schema.forall_inside_inline_iff.mpr ⟨nofun, ?_⟩)
  exact List.forall_mem_singleton.mpr (extending_mergesNothing "List" "name")

end ElmClient
