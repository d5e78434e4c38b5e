/-
What requests for serializers ask for, and when they succeed. A union is asked for in one
of two modes: from a parameter its variants may refer to components, and behind a
reference they may not. Whoever allows placeholders gets a serializer for every shape.
-/

import ElmClient.Proofs.Closed.Run
import ElmClient.Proofs.Helpers.Expression

namespace ElmClient.Elm

open Run Stringifier

/-! ### Demand -/

/-- A request for the shape in the first mode asks for the union in the second one. -/
inductive Naming.Needs (naming : Naming) : Bool → Shape → Bool → Union → Prop where
  | nullable {follow mode : Bool} {item : Shape} {union : Union}
      (inside : Needs naming follow item mode union) :
      Needs naming follow (.nullable item) mode union
  | list {follow mode : Bool} {item : Shape} {union : Union}
      (inside : Needs naming follow item mode union) : Needs naming follow (.list item) mode union
  | ref {mode : Bool} {target : Reference} {component : Shape} {union : Union}
      (found : Keyed.find? target.typeName naming.components = some component)
      (inside : Needs naming false component mode union) :
      Needs naming true (.ref target) mode union
  | union {follow : Bool} {name : TypeName} {variants : List Variant} :
      Needs naming follow (.union name variants) follow (naming.union ⟨name, variants⟩)
  | variant {follow mode : Bool} {name : TypeName} {variants : List Variant} {variant : Variant}
      {union : Union} (member : variant ∈ (naming.union ⟨name, variants⟩).variants)
      (single : variant.shape.isNullable = false)
      (inside : Needs naming follow variant.shape mode union) :
      Needs naming follow (.union name variants) mode union

theorem Naming.Needs.of_variant {naming : Naming} {follow mode inner : Bool} {shape : Shape}
    {union another : Union} (needs : naming.Needs follow shape mode union) {variant : Variant}
    (member : variant ∈ union.variants) (single : variant.shape.isNullable = false)
    (inside : naming.Needs mode variant.shape inner another) :
    naming.Needs follow shape inner another := by
  induction needs with
  | nullable _ ih => exact .nullable (ih member inside)
  | list _ ih => exact .list (ih member inside)
  | ref found _ ih => exact .ref found (ih member inside)
  | union => exact .variant member single inside
  | variant outer outerSingle _ ih => exact .variant outer outerSingle (ih member inside)

inductive Naming.Writable (naming : Naming) : Bool → Shape → Prop where
  | primitive {follow : Bool} {value : Primitive}
      (formatted : ∀ entry, naming.formatEntry? value = some entry →
        entry.stringify.isSome = true) : Writable naming follow (.primitive value)
  | enum {follow : Bool} {values : List String} : Writable naming follow (.enum values)
  | nullable {follow : Bool} {item : Shape} (inside : Writable naming follow item) :
      Writable naming follow (.nullable item)
  | list {follow : Bool} {item : Shape} (inside : Writable naming follow item)
      (always : (expressionAt naming follow item).isAlways = true) :
      Writable naming follow (.list item)
  | ref {target : Reference} {component : Shape}
      (found : Keyed.find? target.typeName naming.components = some component)
      (inside : Writable naming false component) : Writable naming true (.ref target)
  | union {follow : Bool} {name : TypeName} {variants : List Variant}
      (single : ∀ variant ∈ (naming.union ⟨name, variants⟩).variants,
        variant.shape.isUnit = false → variant.shape.isNullable = false ∧
          (expressionAt naming follow variant.shape).isAlways = true)
      (inside : ∀ variant ∈ (naming.union ⟨name, variants⟩).variants,
        variant.shape.isUnit = false → Writable naming follow variant.shape) :
      Writable naming follow (.union name variants)

section Writable

variable {naming : Naming} {follow : Bool} {item : Shape}

private theorem Naming.Writable.formatted {value : Primitive}
    (writable : naming.Writable follow (.primitive value)) :
    ∀ entry, naming.formatEntry? value = some entry → entry.stringify.isSome = true := by
  cases writable with
  | primitive formatted => exact formatted

private theorem Naming.Writable.insideNullable
    (writable : naming.Writable follow (.nullable item)) :
    naming.Writable follow item := by
  cases writable with
  | nullable inside => exact inside

private theorem Naming.Writable.insideList (writable : naming.Writable follow (.list item)) :
    naming.Writable follow item ∧ (expressionAt naming follow item).isAlways = true := by
  cases writable with
  | list inside always => exact ⟨inside, always⟩

private theorem Naming.Writable.component {target : Reference} {component : Shape}
    (writable : naming.Writable follow (.ref target))
    (found : Keyed.find? target.typeName naming.components = some component) :
    naming.Writable false component := by
  cases writable with
  | ref also inside => exact Option.some.inj (also.symm.trans found) ▸ inside

end Writable

def Naming.WritableUnion (naming : Naming) (follow : Bool) (union : Union) : Prop :=
  ∀ variant ∈ union.variants, variant.shape.isUnit = false →
    variant.shape.isNullable = false ∧
      (expressionAt naming follow variant.shape).isAlways = true ∧
      naming.Writable follow variant.shape

theorem Naming.writable_union_iff {naming : Naming} {follow : Bool} {name : TypeName}
    {variants : List Variant} :
    naming.Writable follow (.union name variants) ↔
      naming.WritableUnion follow (naming.union ⟨name, variants⟩) := by
  constructor
  · rintro (_ | _ | _ | _ | _ | ⟨single, inside⟩) variant member content
    obtain ⟨noNull, always⟩ := single variant member content
    exact ⟨noNull, always, inside variant member content⟩
  · intro writable
    refine .union (fun variant member content => ?_) fun variant member content => ?_
    · obtain ⟨noNull, always, -⟩ := writable variant member content
      exact ⟨noNull, always⟩
    · exact (writable variant member content).2.2

/-- The levels reach to the end of every way into the shape. -/
def Naming.Enough (naming : Naming) : Nat → Bool → Shape → Prop
  | 0, _, _ => False
  | levels + 1, follow, .nullable item => Enough naming levels follow item
  | levels + 1, follow, .list item => Enough naming levels follow item
  | levels + 1, follow, .ref target =>
      follow = true → ∃ component,
        Keyed.find? target.typeName naming.components = some component ∧
          Enough naming levels false component
  | levels + 1, follow, .union name variants =>
      ∀ variant ∈ (naming.union ⟨name, variants⟩).variants,
        Enough naming levels follow variant.shape
  | _ + 1, _, _ => True

/-! ### Success -/

section Succeeds

variable {naming : Naming} {policy : Policy}

theorem variantBranch_succeeds {inner : Shape → Run Helpers Stringifier}
    {serializer : Shape → Stringifier}
    (returns : ∀ shape, Returns (inner shape) fun found => found = serializer shape)
    {variant : Variant} (succeeds : variant.shape.isUnit = false →
      variant.shape.isNullable = false → Succeeds policy (inner variant.shape))
    (allowed : policy = .generateTodos ∨ (variant.shape.isUnit = false →
      variant.shape.isNullable = false ∧ (serializer variant.shape).isAlways = true)) :
    Succeeds policy (variantBranch naming inner variant) := by
  obtain ⟨name, shape, doc⟩ := variant
  unfold variantBranch
  cases shape with
  | nullable item =>
      refine Succeeds.placeholderOr (allowed.resolve_right fun single => ?_)
      exact Bool.noConfusion (single rfl).1
  | unit => exact Succeeds.pure _
  | _ =>
      refine Succeeds.bind (succeeds rfl rfl) (returns _) ?_
      rintro _ rfl
      cases written : serializer _ with
      | always function => exact Succeeds.pure _
      | sometimes function =>
          refine Succeeds.placeholderOr (allowed.resolve_right fun single => ?_)
          have always := (single rfl).2
          rw [written] at always
          contradiction

theorem helperSource_succeeds {inner : Shape → Run Helpers Stringifier} {union : Union}
    (each : ∀ variant ∈ union.variants, Succeeds policy (variantBranch naming inner variant)) :
    Succeeds policy (helperSource naming inner union) :=
  Succeeds.map _ (Succeeds.traverse each)

theorem ofUnion_succeeds {inner : Shape → Run Helpers Stringifier} {union : Union}
    (source : Succeeds policy (helperSource naming inner union)) :
    Succeeds policy (ofUnion naming inner union) := by
  unfold ofUnion
  dsimp only
  refine Succeeds.bind Succeeds.getStore (Returns.any _) fun helpers _ => ?_
  split
  · refine Succeeds.bind source (Returns.any _) fun text _ => ?_
    refine Succeeds.bind Succeeds.getStore (Returns.any _) fun later _ => ?_
    exact Succeeds.map _ (Succeeds.setStore _)
  · exact Succeeds.pure _

theorem ofPrimitive_succeeds {value : Primitive}
    (allowed : policy = .generateTodos ∨ ∀ entry, naming.formatEntry? value = some entry →
      entry.stringify.isSome = true) : Succeeds policy (ofPrimitive naming value) := by
  unfold ofPrimitive
  split
  case h_1 entry found =>
    split
    · exact Succeeds.pure _
    case h_2 absent =>
      refine Succeeds.placeholderOr (allowed.resolve_right fun formatted => ?_)
      have present := formatted entry found
      rw [absent] at present
      contradiction
  case h_2 => exact Succeeds.pure _

theorem within_succeeds {levels : Nat} {follow : Bool} {shape : Shape}
    (enough : naming.Enough levels follow shape)
    (allowed : policy = .generateTodos ∨ naming.Writable follow shape) :
    Succeeds policy (within naming levels follow shape) := by
  induction levels generalizing follow shape with
  | zero => exact enough.elim
  | succ levels ih =>
      cases shape with
      | primitive value => exact ofPrimitive_succeeds (allowed.imp_right Naming.Writable.formatted)
      | enum values => exact Succeeds.pure _
      | nullable item =>
          exact Succeeds.map _ (ih enough (allowed.imp_right Naming.Writable.insideNullable))
      | list item =>
          have inside := allowed.imp_right Naming.Writable.insideList
          refine Succeeds.bind (ih enough (inside.imp_right And.left))
            (within_returns naming levels follow item) ?_
          rintro _ rfl
          cases written : expressionAt naming follow item with
          | always function => exact Succeeds.pure _
          | sometimes function =>
              refine Succeeds.placeholderOr (inside.resolve_right ?_)
              rintro ⟨-, always⟩
              rw [written] at always
              contradiction
      | ref target =>
          cases follow with
          | false => exact Succeeds.placeholderOr (allowed.resolve_right nofun)
          | true =>
              obtain ⟨component, found, inside⟩ := enough rfl
              unfold within ofShape
              dsimp only
              rw [if_pos rfl, found]
              exact ih inside (allowed.imp_right fun writable => writable.component found)
      | union name variants =>
          have writable := allowed.imp_right Naming.writable_union_iff.mp
          refine ofUnion_succeeds (helperSource_succeeds fun variant member => ?_)
          refine variantBranch_succeeds (within_returns naming levels follow) ?_ ?_
          · intro content single
            refine ih (enough variant member) (writable.imp_right fun each => ?_)
            exact (each variant member content).2.2
          · exact writable.imp_right fun each content =>
              ⟨(each variant member content).1, (each variant member content).2.1⟩
      | _ => exact Succeeds.placeholderOr (allowed.resolve_right nofun)

end Succeeds

end ElmClient.Elm
