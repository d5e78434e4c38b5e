/-
Resolving schemas can be repeated, with as many levels or more; with fewer levels it may
end at the last one. Every function is shown to repeat if the functions for the schemas
inside do; the levels are closed by induction.
-/

import ElmClient.Proofs.Again.Registry
import ElmClient.Proofs.Document.Keys
import ElmClient.Proofs.Keyed
import ElmClient.Proofs.Resolve.Steps
import ElmClient.Proofs.Shape.Uniting

namespace ElmClient.Resolve

open Run

section Repeating

variable (excused : String → Prop)

def RepeatsShape (action again : Run Registry Shape) : Prop :=
  Repeats excused action again (Shape.Everywhere Shape.KeysOnce)

def RepeatsFields (action again : Run Registry (List Field)) : Prop :=
  Repeats excused action again Field.AllOnce

def RepeatsContribution (action again : Run Registry (Option (List Field))) : Prop :=
  Repeats excused action again fun contributed =>
    ∀ fields, contributed = some fields → Field.AllOnce fields

def cycleMessage (names : List TypeName) : String :=
  "`allOf` reference cycle: " ++ Text.join " -> " (names.map TypeName.text)

/-- No more components are under expansion, or cycles are excused. -/
def Laxer (expanding other : List TypeName) : Prop :=
  other ⊆ expanding ∨ ∀ names, excused (cycleMessage names)

/-- The second functions for the schemas inside a schema repeat the first ones. -/
structure Inner.Repeat (first again : Inner) : Prop where
  schema : ∀ site schema, Schema.KeysOnce schema →
    RepeatsShape excused (first.schema site schema) (again.schema site schema)
  contribution : ∀ expanding other site schema, Laxer excused expanding other →
    Schema.KeysOnce schema →
      RepeatsContribution excused (first.contribution expanding site schema)
        (again.contribution other site schema)

end Repeating

variable {excused : String → Prop} {schemas : SchemaMap} {first again : Inner}

theorem Laxer.refl (expanding : List TypeName) : Laxer excused expanding expanding :=
  Or.inl (List.Subset.refl expanding)

private theorem Laxer.append {expanding other : List TypeName}
    (laxer : Laxer excused expanding other)
    (name : TypeName) : Laxer excused (expanding ++ [name]) (other ++ [name]) :=
  laxer.imp_left fun subset =>
    List.append_subset.mpr
      ⟨List.subset_append_of_subset_left _ subset, List.subset_append_right _ _⟩

theorem flat_once {shape : Shape} (flat : shape.isFlat = true) (once : shape.KeysOnce) :
    shape.Everywhere Shape.KeysOnce :=
  (Shape.everywhere_flat_iff flat).mpr once

private theorem anyJson_once : Shape.anyJson.Everywhere Shape.KeysOnce :=
  flat_once rfl trivial

private theorem dict_once {values : Shape} (once : values.Everywhere Shape.KeysOnce) :
    (Shape.dict values).Everywhere Shape.KeysOnce :=
  Shape.everywhere_dict_iff.mpr ⟨trivial, once⟩

theorem list_once {item : Shape} (once : item.Everywhere Shape.KeysOnce) :
    (Shape.list item).Everywhere Shape.KeysOnce :=
  Shape.everywhere_list_iff.mpr ⟨trivial, once⟩

theorem toNullable_once {shape : Shape} (once : shape.Everywhere Shape.KeysOnce) :
    shape.toNullable.Everywhere Shape.KeysOnce := by
  cases shape with
  | nullable inner => exact once
  | _ => exact Shape.everywhere_nullable_iff.mpr ⟨trivial, once⟩

theorem nullableIf_once (wanted : Bool) {shape : Shape}
    (once : shape.Everywhere Shape.KeysOnce) :
    (nullableIf wanted shape).Everywhere Shape.KeysOnce := by
  cases wanted with
  | false => exact once
  | true => exact toNullable_once once

theorem primitive_once {schema : Schema} (once : schema.KeysOnceHere) (kind : PrimitiveKind) :
    (primitive schema kind).Everywhere Shape.KeysOnce :=
  flat_once rfl once.constant

theorem parseReference_repeats (text : String) :
    Repeats excused (parseReference text) (parseReference text) fun _ => True := by
  unfold parseReference
  split
  · exact .pure trivial
  · exact .fail

theorem schemaReference_repeats (text : String) :
    Repeats excused (schemaReference schemas text) (schemaReference schemas text)
      fun _ => True := by
  unfold schemaReference
  refine .bind (parseReference_repeats text) fun reference _ => ?_
  split
  · exact .fail
  · split
    · exact .fail
    · exact .pure trivial

section Inside

variable (repeating : Inner.Repeat excused first again)

include repeating

/-! ### Objects and arrays -/

theorem property_repeats (site : Site) (required : List String)
    {entry : String × RefOr Schema} (once : Schema.KeysOnce entry.2) :
    Repeats excused (property first site required entry) (property again site required entry)
      fun field => field.key = entry.1 ∧ field.shape.Everywhere Shape.KeysOnce :=
  .withPath _ _ (.map (repeating.schema _ _ once) fun _ shape => ⟨rfl, shape⟩)

theorem properties_repeats (site : Site) {schema : Schema}
    (once : Schema.KeysOnce (.inline schema)) :
    RepeatsFields excused (properties first site schema) (properties again site schema) := by
  obtain ⟨here, below⟩ := Schema.keysOnce_inline_iff.mp once
  refine .withPath _ _ (.imp (.traverse fun entry listed =>
    property_repeats repeating site schema.required
      (below entry.2 (Schema.mem_children_property listed))) fun fields related => ?_)
  have sameKeys : Keyed.keys schema.properties = Field.keys fields := by
    unfold Keyed.keys Field.keys
    rw [← List.forall₂_eq_eq_eq, List.forall₂_map_left_iff, List.forall₂_map_right_iff]
    exact related.imp fun _ _ both => both.1.symm
  refine Field.allOnce_iff.mpr ⟨sameKeys ▸ here.properties, ?_⟩
  exact all_of_forall₂ (related.imp fun _ _ both => both.2)

theorem object_repeats (site : Site) {schema : Schema}
    (once : Schema.KeysOnce (.inline schema)) :
    RepeatsShape excused (object first site schema) (object again site schema) := by
  have below := (Schema.keysOnce_inline_iff.mp once).2
  unfold object
  split
  · split
    case h_1 values additional =>
      have valuesOnce := below values (Schema.mem_children_additional additional)
      exact .map (.withPath _ _ (repeating.schema _ _ valuesOnce)) fun _ shape => dict_once shape
    · exact .pure Field.allOnce_nil
    · exact .pure (dict_once anyJson_once)
    · exact .pure (dict_once anyJson_once)
  · exact .map (properties_repeats repeating site once) fun _ fields => fields

theorem array_repeats (site : Site) {schema : Schema} (once : Schema.KeysOnce (.inline schema)) :
    RepeatsShape excused (array first site schema) (array again site schema) := by
  have below := (Schema.keysOnce_inline_iff.mp once).2
  unfold array
  dsimp only
  split
  · exact .fail
  case h_2 item single =>
    have itemOnce := below item (Schema.mem_children_single single)
    exact .map (.withPath _ _ (repeating.schema _ _ itemOnce)) fun _ shape => list_once shape
  · exact .fail
  case h_4 member rest tuple =>
    split
    · have memberOnce := below member (Schema.mem_children_tuple tuple List.mem_cons_self)
      exact .map (.withPath _ _ (repeating.schema _ _ memberOnce)) fun _ shape => list_once shape
    · have placeholder : RepeatsShape excused
          (Run.placeholderOr "heterogeneous tuple items are not supported" .anyJson)
          (Run.placeholderOr "heterogeneous tuple items are not supported" .anyJson) :=
        .placeholderOr anyJson_once
      exact .map (.withPath _ _ placeholder) fun _ shape => list_once shape

/-! ### Enums and unions -/

omit repeating in
theorem enumeration_repeats (site : Site) (schema : Schema) (members : List Json) :
    RepeatsShape excused (enumeration site schema members)
      (enumeration site schema members) := by
  have enumMember_repeats : ∀ member ∈ members,
      Repeats excused (enumMember member) (enumMember member) fun _ => True := by
    intro member _
    unfold enumMember
    split
    · exact .pure trivial
    · exact .pure trivial
    · exact .fail
  unfold enumeration
  refine .bind (.traverseIndexed "enum" enumMember_repeats) fun decoded _ => ?_
  dsimp only
  split
  · exact .pure (flat_once rfl trivial)
  · exact .map (registerEnum_repeats _) fun _ _ => nullableIf_once _ (flat_once rfl trivial)

omit repeating in
theorem registeredUnion_repeats (site : Site) (owner : Option TypeName) {variants : List Variant}
    (once : ∀ variant ∈ variants, variant.shape.Everywhere Shape.KeysOnce) :
    RepeatsShape excused (registeredUnion site owner variants)
      (registeredUnion site owner variants) := by
  have comparable : Union.Comparable { name := site.name, variants := variants } := once
  exact .map (registerUnion_repeats comparable owner) fun stored storedComparable =>
    Shape.everywhere_union_iff.mpr ⟨trivial, storedComparable⟩

theorem variant_repeats (site : Site) {entry : RefOr Schema × String}
    (once : Schema.KeysOnce entry.1) :
    Repeats excused (variant first site entry) (variant again site entry)
      fun variant => variant.shape.Everywhere Shape.KeysOnce :=
  .map (repeating.schema _ _ once) fun _ shape => shape

theorem unionOf_repeats (site : Site) (owner : Option TypeName) (keyword : String)
    {members : List (RefOr Schema)} (once : ∀ member ∈ members, Schema.KeysOnce member) :
    RepeatsShape excused (unionOf first site owner keyword members)
      (unionOf again site owner keyword members) := by
  refine .bind (.traverseIndexed keyword fun entry listed =>
    variant_repeats repeating site (once entry.1 (List.of_mem_zip listed).1))
    fun variants related => ?_
  exact registeredUnion_repeats site owner (all_of_forall₂ related)

theorem alternatives_repeats (site : Site) (owner : Option TypeName) (keyword : String)
    {members : List (RefOr Schema)} (once : ∀ member ∈ members, Schema.KeysOnce member) :
    RepeatsShape excused (alternatives schemas first site owner keyword members)
      (alternatives schemas again site owner keyword members) := by
  unfold alternatives
  split
  · exact .placeholderOr anyJson_once
  case h_2 only => exact .withPath _ _ (repeating.schema _ _ (once only List.mem_cons_self))
  case h_3 one two =>
    have oneOnce := once one List.mem_cons_self
    have twoOnce := once two (List.mem_cons_of_mem _ List.mem_cons_self)
    dsimp only
    split
    · exact .map (.withPath _ _ (repeating.schema _ _ twoOnce)) fun _ shape => toNullable_once shape
    · exact .map (.withPath _ _ (repeating.schema _ _ oneOnce)) fun _ shape => toNullable_once shape
    · exact unionOf_repeats repeating site owner keyword once
  · exact unionOf_repeats repeating site owner keyword once

/-! ### Merging -/

theorem memberContributions_repeats {expanding other : List TypeName}
    (laxer : Laxer excused expanding other) (site : Site) {schema : Schema}
    (once : Schema.KeysOnce (.inline schema)) :
    Repeats excused (memberContributions first expanding site schema)
      (memberContributions again other site schema) fun contributions =>
        ∀ contributed ∈ contributions, ∀ fields, contributed = some fields →
          Field.AllOnce fields := by
  have below := (Schema.keysOnce_inline_iff.mp once).2
  unfold memberContributions
  split
  case h_1 members allOf =>
    exact .imp (.traverseIndexed "allOf" fun member listed =>
      repeating.contribution expanding other site member laxer
        (below member (Schema.mem_children_allOf allOf listed)))
      fun _ related => all_of_forall₂ related
  · exact .pure nofun

theorem ownFields_repeats (site : Site) {schema : Schema}
    (once : Schema.KeysOnce (.inline schema)) :
    RepeatsFields excused (ownFields first site schema) (ownFields again site schema) := by
  unfold ownFields
  split
  · exact .pure Field.allOnce_nil
  · exact properties_repeats repeating site once

theorem mergedFields_repeats {expanding other : List TypeName}
    (laxer : Laxer excused expanding other) (site : Site) {schema : Schema}
    (once : Schema.KeysOnce (.inline schema)) :
    RepeatsFields excused (mergedFields first expanding site schema)
      (mergedFields again other site schema) := by
  rw [mergedFields_eq, mergedFields_eq]
  refine .bind (memberContributions_repeats repeating laxer site once)
    fun contributions contributed => ?_
  refine .map (ownFields_repeats repeating site once) fun own ownOnce => ?_
  refine Field.requireKeys_allOnce _ (Field.unite_allOnce
    (Field.foldl_unite_allOnce Field.allOnce_nil fun fields member => ?_) ownOnce)
  obtain ⟨found, inContributions, same⟩ := List.mem_filterMap.mp member
  exact contributed found inContributions fields same

theorem allOf_repeats (site : Site) {schema : Schema} (once : Schema.KeysOnce (.inline schema))
    {members : List (RefOr Schema)} (listed : schema.allOf = some members) :
    RepeatsShape excused (allOf first site schema members) (allOf again site schema members) := by
  have below := (Schema.keysOnce_inline_iff.mp once).2
  unfold allOf
  dsimp only
  split
  · exact .pure anyJson_once
  case h_2 only index alone single =>
    have inSubstantive : (only, index) ∈ substantive members := by
      rw [single]
      exact List.mem_cons_self
    have inMembers : only ∈ members :=
      List.fst_mem_of_mem_zipIdx (List.mem_filter.mp inSubstantive).1
    have onlyOnce := below only (Schema.mem_children_allOf listed inMembers)
    exact .withPath _ _ (repeating.schema _ _ onlyOnce)
  · exact .map (mergedFields_repeats repeating (.refl _) site once) fun _ fields => fields

/-! ### Dispatch -/

theorem untyped_repeats (site : Site) {schema : Schema}
    (once : Schema.KeysOnce (.inline schema)) :
    RepeatsShape excused (untyped schemas first site schema)
      (untyped schemas again site schema) := by
  obtain ⟨here, below⟩ := Schema.keysOnce_inline_iff.mp once
  unfold untyped
  split
  · exact enumeration_repeats site schema _
  case h_2 members anyOf _ =>
    exact alternatives_repeats repeating site _ _ fun member listed =>
      below member (Schema.mem_children_anyOf anyOf listed)
  case h_3 members oneOf _ _ =>
    exact alternatives_repeats repeating site _ _ fun member listed =>
      below member (Schema.mem_children_oneOf oneOf listed)
  case h_4 members listed _ _ _ => exact allOf_repeats repeating site once listed
  · split
    · exact object_repeats repeating site once
    · split
      · exact array_repeats repeating site once
      · split
        · exact .pure (primitive_once here _)
        · exact .placeholderOr anyJson_once

theorem ofKind_repeats (site : Site) {schema : Schema} (once : Schema.KeysOnce (.inline schema))
    (kind : String) :
    RepeatsShape excused (ofKind first site schema kind) (ofKind again site schema kind) := by
  have here := (Schema.keysOnce_inline_iff.mp once).1
  unfold ofKind
  split
  · split
    · exact enumeration_repeats site schema _
    · split
      · exact .pure (flat_once rfl trivial)
      · exact .pure (primitive_once here _)
  · exact .pure (primitive_once here _)
  · exact .pure (primitive_once here _)
  · exact .pure (primitive_once here _)
  · exact array_repeats repeating site once
  · exact object_repeats repeating site once
  · exact .placeholderOr anyJson_once

theorem kindUnion_repeats (site : Site) {schema : Schema}
    (once : Schema.KeysOnce (.inline schema)) (kinds : List String) :
    RepeatsShape excused (kindUnion first site schema kinds)
      (kindUnion again site schema kinds) := by
  have kindVariant_repeats : ∀ kind ∈ kinds,
      Repeats excused (kindVariant first site schema kind) (kindVariant again site schema kind)
        fun variant => variant.shape.Everywhere Shape.KeysOnce := fun kind _ =>
    .map (ofKind_repeats repeating _ once kind) fun _ shape => shape
  refine .bind (.withPath _ _ (.traverse kindVariant_repeats)) fun variants related => ?_
  exact registeredUnion_repeats site _ (all_of_forall₂ related)

theorem ofKinds_repeats (site : Site) {schema : Schema} (once : Schema.KeysOnce (.inline schema))
    (kinds : List String) :
    RepeatsShape excused (ofKinds schemas first site schema kinds)
      (ofKinds schemas again site schema kinds) := by
  rcases kinds with _ | ⟨kind, _ | ⟨other, rest⟩⟩
  · exact untyped_repeats repeating site once
  · unfold ofKinds
    dsimp only
    split
    · exact untyped_repeats repeating site once
    · exact ofKind_repeats repeating site once kind
  · exact kindUnion_repeats repeating site once _

theorem inline_repeats (site : Site) {schema : Schema} (once : Schema.KeysOnce (.inline schema)) :
    RepeatsShape excused (inline schemas first site schema) (inline schemas again site schema) := by
  have base_repeats : RepeatsShape excused (base schemas first site schema)
      (base schemas again site schema) := by
    unfold base
    split
    · exact .pure anyJson_once
    · dsimp only
      split
      · exact .pure (flat_once rfl trivial)
      · exact .map (ofKinds_repeats repeating site once _) fun _ shape => nullableIf_once _ shape
  exact .map base_repeats fun _ shape => nullableIf_once _ shape

theorem schemaOrReference_repeats (site : Site) {schema : RefOr Schema}
    (once : Schema.KeysOnce schema) :
    RepeatsShape excused (schemaOrReference schemas first site schema)
      (schemaOrReference schemas again site schema) := by
  cases schema with
  | reference text => exact .map (schemaReference_repeats text) fun _ _ => flat_once rfl trivial
  | inline schema => exact inline_repeats repeating site once

/-! ### Contributions -/

theorem noObject_repeats (site : Site) {schema : Schema}
    (once : Schema.KeysOnce (.inline schema)) :
    RepeatsContribution excused (noObject schemas first site schema)
      (noObject schemas again site schema) :=
  .bind (inline_repeats repeating site once) fun _ _ => .placeholderOr nofun

theorem inlineContribution_repeats {expanding other : List TypeName}
    (laxer : Laxer excused expanding other) (site : Site) {schema : Schema}
    (once : Schema.KeysOnce (.inline schema)) :
    RepeatsContribution excused (inlineContribution schemas first expanding site schema)
      (inlineContribution schemas again other site schema) := by
  have some_once : ∀ fields, Field.AllOnce fields →
      ∀ others, some fields = some others → Field.AllOnce others := by
    rintro fields fieldsOnce others equal
    obtain rfl := Option.some.inj equal
    exact fieldsOnce
  unfold inlineContribution
  split
  · exact .pure nofun
  · split
    · exact .map (mergedFields_repeats repeating laxer site once) some_once
    · split
      · split
        · exact .map (properties_repeats repeating site once) some_once
        · split
          · exact noObject_repeats repeating site once
          · exact .pure (some_once [] Field.allOnce_nil)
      · exact noObject_repeats repeating site once

theorem contribution_repeats (components : ∀ entry ∈ schemas, Schema.KeysOnce entry.2)
    {expanding other : List TypeName} (laxer : Laxer excused expanding other) (site : Site)
    {schema : RefOr Schema} (once : Schema.KeysOnce schema) :
    RepeatsContribution excused (contribution schemas first expanding site schema)
      (contribution schemas again other site schema) := by
  cases schema with
  | inline schema => exact inlineContribution_repeats repeating laxer site once
  | reference text =>
      unfold contribution
      refine .bind (schemaReference_repeats text) fun reference _ => ?_
      have merging := laxer.append reference.typeName
      dsimp only
      split
      · exact .fail
      case isFalse new =>
        split
        · exact .fail
        case h_2 target found =>
          have targetOnce := components _ (Keyed.mem_of_find? found)
          have repeats := repeating.contribution _ _ (Site.component reference.typeName) target
            merging targetOnce
          split
          case isTrue cycle =>
            refine .failing ?_ repeats
            rcases laxer with subset | allowed
            · have inOther := List.contains_iff_mem.mp cycle
              exact absurd (List.contains_iff_mem.mpr (subset inOther)) new
            · exact allowed _
          case isFalse => exact repeats

end Inside

/-! ### All levels -/

def endlessMessage : String :=
  "schema expands without end: a component reaches itself through `allOf` in a property"

theorem endless_eq {α : Type} : (endless : Run Registry α) = Run.fail endlessMessage := rfl

/-- Only with fewer levels it may end on the last one. -/
theorem within_repeat (components : ∀ entry ∈ schemas, Schema.KeysOnce entry.2)
    (levels other : Nat) (fewer : other < levels → excused endlessMessage) :
    Inner.Repeat excused ⟨schemaWithin schemas levels, contributionWithin schemas levels⟩
      ⟨schemaWithin schemas other, contributionWithin schemas other⟩ := by
  induction levels generalizing other with
  | zero =>
      constructor
      · intro site schema once
        unfold schemaWithin
        exact .fail
      · intro expanding others site schema laxer once
        unfold contributionWithin
        exact .fail
  | succ levels ih =>
      cases other with
      | zero =>
          have itself : Inner.Repeat excused _ _ := ih levels fun less =>
            absurd less (Nat.lt_irrefl levels)
          have allowed := fewer (Nat.zero_lt_succ levels)
          constructor
          · intro site schema once
            unfold schemaWithin
            rw [endless_eq]
            exact .failing allowed (schemaOrReference_repeats itself site once)
          · intro expanding others site schema laxer once
            unfold contributionWithin
            rw [endless_eq]
            exact .failing allowed (contribution_repeats itself components laxer site once)
      | succ other =>
          have below := ih other fun less => fewer (Nat.succ_lt_succ less)
          constructor
          · intro site schema once
            unfold schemaWithin
            exact schemaOrReference_repeats below site once
          · intro expanding others site schema laxer once
            unfold contributionWithin
            exact contribution_repeats below components laxer site once

end ElmClient.Resolve
