/-
Resolving a schema is made of basic runs, of unions, and of the runs for the schemas that
stand inside it. So a property that runs pass on holds of all of it, if it holds of those.
Which schemas are resolved where, and with which components under expansion, is kept track
of, so that the property need not hold anywhere else.
-/

import ElmClient.Proofs.Closed.Run
import ElmClient.Proofs.Document.Keys
import ElmClient.Proofs.Keyed
import ElmClient.Proofs.Resolve.Steps
import ElmClient.Proofs.Text.Split

namespace ElmClient

namespace Schema

def alternatives (schema : Schema) : List (List (RefOr Schema)) :=
  schema.anyOf.toList ++ schema.oneOf.toList

/-- The schemas that stand directly inside a schema, apart from the members of `allOf`. -/
def apart (schema : Schema) : List (RefOr Schema) :=
  { schema with allOf := none }.children

theorem mem_children_iff {schema : Schema} {child : RefOr Schema} :
    child ∈ schema.children ↔ child ∈ schema.apart ∨ child ∈ schema.allOf.getD [] := by
  simp only [apart, children, List.mem_append, Option.getD_none, List.not_mem_nil]
  tauto

theorem mem_apart_of_alternatives {schema : Schema} {members : List (RefOr Schema)}
    (listed : members ∈ schema.alternatives) {member : RefOr Schema} (inside : member ∈ members) :
    member ∈ schema.apart := by
  rcases List.mem_append.mp listed with inAnyOf | inOneOf
  · exact mem_children_anyOf (Option.mem_toList.mp inAnyOf) inside
  · exact mem_children_oneOf (Option.mem_toList.mp inOneOf) inside

end Schema

namespace Resolve

open Run

/-! ### Ordinary failures -/

/-- The message is about neither a cycle of components nor a schema without end. -/
structure Ordinary (message : String) : Prop where
  noCycle : ¬ "`allOf` reference cycle: ".toList <+: message.toList
  noEnd : ¬ "schema expands without end".toList <+: message.toList

/-- Texts that begin like this go on neither like a message about a cycle nor like one about
a schema without end. -/
def Departs (head : String) : Prop :=
  (¬ "`allOf` reference cycle: ".toList <+: head.toList ∧
      ¬ head.toList <+: "`allOf` reference cycle: ".toList) ∧
    ¬ "schema expands without end".toList <+: head.toList ∧
      ¬ head.toList <+: "schema expands without end".toList

instance : DecidablePred Departs := fun _ => inferInstanceAs (Decidable (_ ∧ _))

private theorem ordinary_of_head {head message : String} (departs : Departs head)
    (begins : head.toList <+: message.toList) : Ordinary message where
  noCycle cycle := (List.prefix_or_prefix_of_prefix cycle begins).elim departs.1.1 departs.1.2
  noEnd endless := (List.prefix_or_prefix_of_prefix endless begins).elim departs.2.1 departs.2.2

private theorem Departs.ordinary {message : String} (departs : Departs message) :
    Ordinary message :=
  ordinary_of_head departs List.prefix_rfl

private theorem ordinary_append {head : String} (departs : Departs head) (rest : String) :
    Ordinary (head ++ rest) :=
  ordinary_of_head departs (String.toList_append ▸ List.prefix_append _ _)

private theorem malformed_ordinary (malformed : Reference.Malformed) :
    Ordinary malformed.message := by
  have unsupported : Departs "unsupported reference `" := by decide
  have shapeless : Departs "malformed reference `" := by decide
  unfold Reference.Malformed.message
  cases malformed with
  | notLocal text =>
      dsimp only
      rw [String.append_assoc]
      exact ordinary_append unsupported _
  | unknownSection text name =>
      dsimp only
      rw [String.append_assoc, String.append_assoc, String.append_assoc]
      exact ordinary_append unsupported _
  | otherShape text =>
      dsimp only
      rw [String.append_assoc]
      exact ordinary_append shapeless _

/-! ### References -/

structure RefersTo (schemas : SchemaMap) (text raw : String) : Prop where
  parsed : Reference.parse text = .ok ⟨.schemas, raw⟩
  listed : raw ∈ Keyed.keys schemas

theorem parseReference_parses {σ : Type} (text : String) :
    Returns (parseReference text : Run σ Reference) fun reference =>
      Reference.parse text = .ok reference := by
  unfold parseReference
  split
  case h_1 equal => exact .pure equal
  case h_2 => exact .fail

theorem schemaReference_refersTo (schemas : SchemaMap) (text : String) :
    Returns (schemaReference schemas text : Run Registry Reference) fun reference =>
      reference.component = .schemas ∧ RefersTo schemas text reference.name := by
  refine .bind (parseReference_parses text) fun reference parsed => ?_
  split
  · exact .fail
  case isFalse same =>
    split
    · exact .fail
    case isFalse present =>
      have component : reference.component = .schemas := not_not.mp same
      refine .pure ⟨component, ?_, ?_⟩
      · rw [parsed, ← component]
      · exact (Keyed.contains_iff_mem_keys _ _).mp (by simpa using present)

private theorem hash_of_parse {text : String} {reference : Reference}
    (parsed : Reference.parse text = .ok reference) : "#".toList <+: text.toList := by
  cases steps : Reference.steps? text with
  | none =>
      rw [Reference.parse, steps] at parsed
      contradiction
  | some found =>
      obtain ⟨pointer, dropped, -⟩ := Option.map_eq_some_iff.mp steps
      rw [Text.dropLead?_eq_some_iff.mp dropped]
      exact ⟨'/' :: pointer, rfl⟩

private theorem elsewhere_ordinary {text : String} {reference : Reference}
    (parsed : Reference.parse text = .ok reference) (rest : String) :
    Ordinary ("`" ++ text ++ rest) := by
  refine ordinary_of_head (by decide : Departs "`#") ?_
  obtain ⟨pointer, equal⟩ := hash_of_parse parsed
  rw [String.toList_append, String.toList_append, ← equal]
  exact ⟨pointer ++ rest.toList, rfl⟩

/-! ### One schema -/

/-- Basic runs have the property, failing ones if they fail for an ordinary reason, and so
do the unions of permitted schemas, if the runs for their members do; and it is kept in
composing runs. What follows a run has to have it only for values that the run can end
with. -/
structure Resolving (Permits : Schema → Prop) (Holds : ∀ {α : Type}, Run Registry α → Prop) :
    Prop extends Composed Holds where
  bindOf : ∀ {α β : Type} {action : Run Registry α} {next : α → Run Registry β}
    {first : α → Prop}, Holds action → Returns action first →
      (∀ value, first value → Holds (next value)) → Holds (action >>= next)
  fail : ∀ {α : Type} {message : String}, Ordinary message →
    Holds (Run.fail message : Run Registry α)
  placeholderOr : ∀ {α : Type} {message : String} (placeholder : α), Ordinary message →
    Holds (Run.placeholderOr message placeholder : Run Registry α)
  registerEnum : ∀ entry : EnumEntry, Holds (Run.registerEnum entry)
  unionOf : ∀ (inner : Inner) (site : Site) (owner : Option TypeName) (keyword : String)
    (schema : Schema) (members : List (RefOr Schema)), Permits schema →
      members ∈ schema.alternatives →
      (∀ name, ∀ member ∈ members, Holds (inner.schema (Site.unowned name) member)) →
        Holds (unionOf inner site owner keyword members)
  kindUnion : ∀ (inner : Inner) (site : Site) (schema : Schema), Permits schema →
    (∀ name kind, Holds (ofKind inner (Site.unowned name) schema kind)) →
      Holds (kindUnion inner site schema (concreteKinds schema))

/-- The runs for the schemas inside a schema have the property. At the site of the schema
itself, only the members of `allOf` and a lone alternative are resolved. -/
structure Inner.Calls (inner : Inner) (Permits : Schema → Prop)
    (Holds : ∀ {α : Type}, Run Registry α → Prop) (site : Site) (schema : Schema) : Prop where
  permitted : Permits schema
  apart : ∀ child ∈ schema.apart, ∀ name, Holds (inner.schema (Site.unowned name) child)
  only : ∀ member, [member] ∈ schema.alternatives → Holds (inner.schema site member)
  member : ∀ member ∈ schema.allOf.getD [], Holds (inner.schema site member)
  merged : ∀ member ∈ schema.allOf.getD [],
    Holds (inner.contribution site.owner.toList site member)

section Schemas

variable {Permits : Schema → Prop} {Holds : ∀ {α : Type}, Run Registry α → Prop}
  (closed : Resolving Permits Holds)

include closed

theorem parseReference_holds (text : String) :
    Holds (parseReference text : Run Registry Reference) := by
  unfold parseReference
  split
  · exact closed.pure _
  · exact closed.fail (malformed_ordinary _)

theorem schemaReference_holds (schemas : SchemaMap) (text : String) :
    Holds (schemaReference schemas text : Run Registry Reference) := by
  refine closed.bindOf (parseReference_holds closed text) (parseReference_parses text)
    fun reference parsed => ?_
  split
  · rw [String.append_assoc, String.append_assoc, String.append_assoc, ← String.append_assoc]
    exact closed.fail (elsewhere_ordinary parsed _)
  · split
    · rw [String.append_assoc]
      exact closed.fail (ordinary_append (by decide) _)
    · exact closed.pure _

theorem enumMember_holds (member : Json) : Holds (enumMember member) := by
  unfold enumMember
  split
  · exact closed.pure _
  · exact closed.pure _
  · rw [String.append_assoc]
    exact closed.fail (ordinary_append (by decide) _)

theorem enumeration_holds (site : Site) (schema : Schema) (members : List Json) :
    Holds (enumeration site schema members) := by
  unfold enumeration
  apply closed.bind (closed.traverseIndexed _ (enumMember_holds closed) _)
  intro decoded
  dsimp only
  split
  · exact closed.pure _
  · exact closed.map _ (closed.registerEnum _)

variable {inner : Inner} {schema : Schema}

section Apart

variable (apart : ∀ child ∈ schema.apart, ∀ name, Holds (inner.schema (Site.unowned name) child))
  (site : Site)

include apart

theorem properties_holds : Holds (properties inner site schema) := by
  refine closed.withPath _ (closed.traverseOf fun entry listed => closed.withPath _ ?_)
  exact closed.map _ (apart entry.2 (Schema.mem_children_property listed) _)

theorem object_holds : Holds (object inner site schema) := by
  unfold object
  split
  · split
    case h_1 values additional =>
      exact closed.map _ (closed.withPath _
        (apart values (Schema.mem_children_additional additional) _))
    · exact closed.pure _
    · exact closed.pure _
    · exact closed.pure _
  · exact closed.map _ (properties_holds closed apart site)

theorem array_holds : Holds (array inner site schema) := by
  unfold array
  dsimp only
  split
  · exact closed.fail (Departs.ordinary (by decide))
  case h_2 item single =>
    exact closed.map _ (closed.withPath _ (apart item (Schema.mem_children_single single) _))
  · exact closed.fail (Departs.ordinary (by decide))
  case h_4 first rest tuple =>
    split
    · exact closed.map _ (closed.withPath _
        (apart first (Schema.mem_children_tuple tuple List.mem_cons_self) _))
    · exact closed.map _ (closed.withPath _
        (closed.placeholderOr _ (Departs.ordinary (by decide))))

theorem ofKind_holds (kind : String) : Holds (ofKind inner site schema kind) := by
  unfold ofKind
  split
  · split
    · exact enumeration_holds closed site schema _
    · split
      · exact closed.pure _
      · exact closed.pure _
  · exact closed.pure _
  · exact closed.pure _
  · exact closed.pure _
  · exact array_holds closed apart site
  · exact object_holds closed apart site
  · rw [String.append_assoc]
    exact closed.placeholderOr _ (ordinary_append (by decide) _)

theorem mergedFields_holds {expanding : List TypeName}
    (members : ∀ member ∈ schema.allOf.getD [], Holds (inner.contribution expanding site member)) :
    Holds (mergedFields inner expanding site schema) := by
  rw [mergedFields_eq]
  apply closed.bind
  · unfold memberContributions
    split
    case h_1 listed allOf =>
      rw [allOf] at members
      exact closed.traverseIndexedOf _ members
    · exact closed.pure _
  · intro contributions
    apply closed.map
    unfold ownFields
    split
    · exact closed.pure _
    · exact properties_holds closed apart site

end Apart

variable {site : Site} (calls : inner.Calls Permits Holds site schema)

include calls

theorem alternatives_holds (schemas : SchemaMap) (owner : Option TypeName) {keyword : String}
    {members : List (RefOr Schema)} (listed : members ∈ schema.alternatives) :
    Holds (alternatives schemas inner site owner keyword members) := by
  have union : Holds (unionOf inner site owner keyword members) :=
    closed.unionOf inner site owner keyword schema members calls.permitted listed
      fun name member inside =>
        calls.apart member (Schema.mem_apart_of_alternatives listed inside) name
  unfold alternatives
  split
  · rw [String.append_assoc]
    exact closed.placeholderOr _ (ordinary_append (by decide) _)
  case h_2 only => exact closed.withPath _ (calls.only only listed)
  case h_3 first second =>
    have nullable (member : RefOr Schema) (inside : member ∈ [first, second]) (segment : String) :
        Holds (do
          let shape ← Run.withPath segment (inner.schema (Site.unowned site.name) member)
          return shape.toNullable) :=
      closed.map _ (closed.withPath _
        (calls.apart member (Schema.mem_apart_of_alternatives listed inside) site.name))
    dsimp only
    split
    · exact nullable second (by simp) _
    · exact nullable first (by simp) _
    · exact union
  · exact union

theorem allOf_holds {members : List (RefOr Schema)} (listed : schema.allOf = some members) :
    Holds (allOf inner site schema members) := by
  unfold allOf
  dsimp only
  split
  · exact closed.pure _
  case h_2 only index _ lone =>
    have kept : (only, index) ∈ substantive members := by
      rw [lone]
      exact List.mem_singleton_self _
    have inMembers : only ∈ members :=
      List.fst_mem_of_mem_zipIdx (List.mem_filter.mp kept).1
    refine closed.withPath _ (calls.member only ?_)
    rw [listed]
    exact inMembers
  · exact closed.map _ (mergedFields_holds closed calls.apart site calls.merged)

theorem untyped_holds (schemas : SchemaMap) : Holds (untyped schemas inner site schema) := by
  unfold untyped
  split
  · exact enumeration_holds closed site schema _
  case h_2 members anyOf _ =>
    exact alternatives_holds closed calls _ _
      (List.mem_append_left _ (Option.mem_toList.mpr anyOf))
  case h_3 members oneOf _ _ =>
    exact alternatives_holds closed calls _ _
      (List.mem_append_right _ (Option.mem_toList.mpr oneOf))
  case h_4 members allOf _ _ _ => exact allOf_holds closed calls allOf
  · split
    · exact object_holds closed calls.apart site
    · split
      · exact array_holds closed calls.apart site
      · split
        · exact closed.pure _
        · exact closed.placeholderOr _ (Departs.ordinary (by decide))

theorem ofKinds_holds (schemas : SchemaMap) :
    Holds (ofKinds schemas inner site schema (concreteKinds schema)) := by
  have several := closed.kindUnion inner site schema calls.permitted fun name kind =>
    ofKind_holds closed calls.apart (Site.unowned name) kind
  generalize concreteKinds schema = kinds at several
  unfold ofKinds
  split
  · exact untyped_holds closed calls schemas
  · split
    · exact untyped_holds closed calls schemas
    · exact ofKind_holds closed calls.apart site _
  · exact several

theorem inline_holds (schemas : SchemaMap) : Holds (inline schemas inner site schema) := by
  apply closed.map
  unfold base
  split
  · exact closed.pure _
  · dsimp only
    split
    · exact closed.pure _
    · exact closed.map _ (ofKinds_holds closed calls schemas)

omit calls in
theorem inlineContribution_holds (schemas : SchemaMap) {expanding : List TypeName}
    (members : ∀ member ∈ schema.allOf.getD [], Holds (inner.contribution expanding site member))
    (apart : ∀ child ∈ schema.apart, ∀ name, Holds (inner.schema (Site.unowned name) child))
    (alone : schema.allOf = none → inner.Calls Permits Holds site schema) :
    Holds (inlineContribution schemas inner expanding site schema) := by
  have noObject_holds (none : schema.allOf = none) :
      Holds (noObject schemas inner site schema) := by
    refine closed.bind (inline_holds closed (alone none) schemas) fun shape => ?_
    rw [String.append_assoc]
    exact closed.placeholderOr _ (ordinary_append (by decide) _)
  unfold inlineContribution
  split
  · exact closed.pure _
  · split
    · exact closed.map _ (mergedFields_holds closed apart site members)
    case isFalse simple =>
      have none : schema.allOf = none := by simpa using simple
      split
      · split
        · exact closed.map _ (properties_holds closed apart site)
        · split
          · exact noObject_holds none
          · exact closed.pure _
      · exact noObject_holds none

end Schemas

/-! ### All levels -/

/-- Which schemas are resolved at which sites, and which are contributed with which
components under expansion, where so many levels are left. It contains whatever is called
from there. -/
structure Plan (schemas : SchemaMap) (Permits : Schema → Prop)
    (Holds : ∀ {α : Type}, Run Registry α → Prop) (AtSite : Nat → Site → RefOr Schema → Prop)
    (Under : Nat → List TypeName → Site → RefOr Schema → Prop) : Prop where
  permitted : ∀ {levels site schema}, AtSite (levels + 1) site (.inline schema) → Permits schema
  apart : ∀ {levels site schema child}, AtSite (levels + 1) site (.inline schema) →
    child ∈ schema.apart → ∀ name, AtSite levels (Site.unowned name) child
  only : ∀ {levels site schema member}, AtSite (levels + 1) site (.inline schema) →
    [member] ∈ schema.alternatives → AtSite levels site member
  member : ∀ {levels site schema member}, AtSite (levels + 1) site (.inline schema) →
    member ∈ schema.allOf.getD [] →
      AtSite levels site member ∧ Under levels site.owner.toList site member
  further : ∀ {levels expanding site schema member},
    Under (levels + 1) expanding site (.inline schema) → member ∈ schema.allOf.getD [] →
      Under levels expanding site member
  own : ∀ {levels expanding site schema child},
    Under (levels + 1) expanding site (.inline schema) → child ∈ schema.apart → ∀ name,
      AtSite levels (Site.unowned name) child
  alone : ∀ {levels expanding site schema},
    Under (levels + 1) expanding site (.inline schema) → schema.allOf = none →
      AtSite (levels + 1) site (.inline schema)
  follow : ∀ {levels expanding site text raw target},
    Under (levels + 1) expanding site (.reference text) → RefersTo schemas text raw →
      TypeName.ofRaw raw ∉ expanding → Keyed.find? raw schemas = some target →
        Under levels (expanding ++ [TypeName.ofRaw raw]) (Site.component (TypeName.ofRaw raw))
          target
  cycle : ∀ {levels expanding site text raw},
    Under (levels + 1) expanding site (.reference text) → RefersTo schemas text raw →
      TypeName.ofRaw raw ∈ expanding → Holds (Run.fail ("`allOf` reference cycle: "
        ++ Text.join " -> " ((expanding ++ [TypeName.ofRaw raw]).map TypeName.text)) :
          Run Registry (Option (List Field)))
  endlessSchema : ∀ {site schema}, AtSite 0 site schema → Holds (endless : Run Registry Shape)
  endlessContribution : ∀ {expanding site schema}, Under 0 expanding site schema →
    Holds (endless : Run Registry (Option (List Field)))

section Levels

variable {schemas : SchemaMap} {Permits : Schema → Prop}
  {Holds : ∀ {α : Type}, Run Registry α → Prop} {AtSite : Nat → Site → RefOr Schema → Prop}
  {Under : Nat → List TypeName → Site → RefOr Schema → Prop}
  (closed : Resolving Permits Holds) (plan : Plan schemas Permits Holds AtSite Under)

include closed plan

theorem within_holds (levels : Nat) :
    (∀ site schema, AtSite levels site schema → Holds (schemaWithin schemas levels site schema)) ∧
      ∀ expanding site schema, Under levels expanding site schema →
        Holds (contributionWithin schemas levels expanding site schema) := by
  induction levels with
  | zero =>
      unfold schemaWithin contributionWithin
      exact ⟨fun _ _ => plan.endlessSchema, fun _ _ _ => plan.endlessContribution⟩
  | succ levels ih =>
      obtain ⟨ihSchema, ihContribution⟩ := ih
      have calls {site : Site} {schema : Schema}
          (atSite : AtSite (levels + 1) site (.inline schema)) :
          Inner.Calls ⟨schemaWithin schemas levels, contributionWithin schemas levels⟩ Permits Holds
            site schema :=
        ⟨plan.permitted atSite,
          fun _ listed name => ihSchema _ _ (plan.apart atSite listed name),
          fun _ listed => ihSchema _ _ (plan.only atSite listed),
          fun _ listed => ihSchema _ _ (plan.member atSite listed).1,
          fun _ listed => ihContribution _ _ _ (plan.member atSite listed).2⟩
      constructor
      · intro site schema atSite
        unfold schemaWithin
        cases schema with
        | reference text => exact closed.map _ (schemaReference_holds closed schemas text)
        | inline schema => exact inline_holds closed (calls atSite) schemas
      · intro expanding site schema under
        unfold contributionWithin
        cases schema with
        | inline schema =>
            exact inlineContribution_holds closed schemas
              (fun _ listed => ihContribution _ _ _ (plan.further under listed))
              (fun _ listed name => ihSchema _ _ (plan.own under listed name))
              fun none => calls (plan.alone under none)
        | reference text =>
            refine closed.bindOf (schemaReference_holds closed schemas text)
              (schemaReference_refersTo schemas text) fun reference refers => ?_
            dsimp only
            split
            case isTrue repeated =>
              exact plan.cycle under refers.2 (List.contains_iff_mem.mp repeated)
            case isFalse new =>
              split
              · rw [String.append_assoc]
                exact closed.fail (ordinary_append (by decide) _)
              case h_2 target found =>
                have absent : TypeName.ofRaw reference.name ∉ expanding := fun inside =>
                  new (List.contains_iff_mem.mpr inside)
                exact ihContribution _ _ _ (plan.follow under refers.2 absent found)

end Levels

end Resolve

end ElmClient
