/-
Tables of helpers. Every helper was compiled for a union that was asked for, in a mode in
which it was asked for. Where a helper's name belongs to one union, and a union asked for
in both modes holds no reference, it does not matter who asked first.
-/

import ElmClient.Proofs.Helpers.Demand
import ElmClient.Proofs.Keyed

namespace ElmClient

def Shape.wrapsReference : Shape → Bool
  | .ref _ => true
  | .list item => item.wrapsReference
  | .nullable item => item.wrapsReference
  | _ => false

/-- No variant that is serialized holds a reference. -/
def Union.Plain (union : Union) : Prop :=
  ∀ variant ∈ union.variants, variant.shape.isNullable = false →
    variant.shape.wrapsReference = false

namespace Elm

open Run Stringifier

/-! ### Modes -/

theorem expression_congr (naming : Naming) (first second : TypeName → Stringifier) :
    (shape : Shape) → shape.wrapsReference = false →
      expression naming first shape = expression naming second shape
  | .list item, plain => by
      unfold expression
      rw [expression_congr naming first second item plain]
  | .nullable item, plain => congrArg ofNullable (expression_congr naming first second item plain)
  | .primitive _, _ => rfl
  | .enum _, _ => rfl
  | .union _ _, _ => rfl
  | .object _, _ => rfl
  | .dict _, _ => rfl
  | .bytes, _ => rfl
  | .unit, _ => rfl
  | .anyJson, _ => rfl

private theorem expressionAt_eq {naming : Naming} {shape : Shape}
    (plain : shape.wrapsReference = false)
    (follow other : Bool) : expressionAt naming follow shape = expressionAt naming other shape := by
  cases follow <;> cases other <;> exact expression_congr naming _ _ shape plain

theorem sourceText_eq {naming : Naming} {union : Union} (plain : union.Plain)
    (follow other : Bool) : sourceText naming follow union = sourceText naming other union := by
  unfold sourceText
  refine congrArg (helperText naming union) (List.map_congr_left fun variant member => ?_)
  have same := plain variant member
  obtain ⟨name, shape, doc⟩ := variant
  unfold branchText
  cases shape with
  | nullable item => rfl
  | unit => rfl
  | _ =>
      dsimp only
      rw [expressionAt_eq (same rfl) follow other]

/-- Of what is asked for together with all that it asks for, no two unions have one helper
name, and a union that is asked for in both modes is plain. -/
structure Unambiguous (naming : Naming) (asked : Bool → Union → Prop) : Prop where
  closed : ∀ {follow : Bool} {union : Union}, asked follow union → ∀ variant ∈ union.variants,
    variant.shape.isNullable = false →
      ∀ mode another, naming.Needs follow variant.shape mode another → asked mode another
  names : ∀ {follow other : Bool} {union another : Union}, asked follow union →
    asked other another → helperName union = helperName another → union = another
  plain : ∀ {union : Union}, asked true union → asked false union → union.Plain

theorem Unambiguous.plain_of_ne {naming : Naming} {asked : Bool → Union → Prop}
    (clear : Unambiguous naming asked) {follow other : Bool} (different : follow ≠ other)
    {union : Union} (first : asked follow union) (second : asked other union) : union.Plain := by
  cases follow <;> cases other
  · contradiction
  · exact clear.plain second first
  · exact clear.plain first second
  · contradiction

section Asked

variable {naming : Naming} {policy : Policy} {asked : Bool → Union → Prop}
  (clear : Unambiguous naming asked)

include clear

private theorem writable_of_writable {follow other : Bool} (different : follow ≠ other)
    {shape : Shape}
    (writable : naming.Writable follow shape) (plain : shape.wrapsReference = false)
    (first : ∀ union, naming.Needs follow shape follow union → asked follow union)
    (second : ∀ union, naming.Needs other shape other union → asked other union) :
    naming.Writable other shape := by
  induction writable with
  | primitive formatted => exact .primitive formatted
  | enum => exact .enum
  | nullable _ ih =>
      exact .nullable (ih different plain (fun union needs => first union (.nullable needs))
        fun union needs => second union (.nullable needs))
  | @list follow item _ always ih =>
      have inside : item.wrapsReference = false := plain
      refine .list (ih different plain (fun union needs => first union (.list needs))
        fun union needs => second union (.list needs)) ?_
      rw [expressionAt_eq inside other follow]
      exact always
  | ref => contradiction
  | union single _ ih =>
      have unionPlain := clear.plain_of_ne different (first _ .union) (second _ .union)
      refine .union (fun variant member content => ?_) fun variant member content => ?_
      · obtain ⟨noNull, always⟩ := single variant member content
        refine ⟨noNull, ?_⟩
        rw [expressionAt_eq (unionPlain variant member noNull) other _]
        exact always
      · obtain ⟨noNull, -⟩ := single variant member content
        exact ih variant member content different (unionPlain variant member noNull)
          (fun union needs => first union (.variant member noNull needs))
          fun union needs => second union (.variant member noNull needs)

private theorem writableUnion_of_writableUnion {follow other : Bool} {union : Union}
    (first : asked follow union) (second : asked other union)
    (writable : naming.WritableUnion follow union) : naming.WritableUnion other union := by
  by_cases same : follow = other
  · exact same ▸ writable
  · have plain := clear.plain_of_ne same first second
    intro variant member content
    obtain ⟨noNull, always, inside⟩ := writable variant member content
    have alone := plain variant member noNull
    refine ⟨noNull, expressionAt_eq alone follow other ▸ always, ?_⟩
    exact writable_of_writable clear same inside alone
      (fun another needs => clear.closed first variant member noNull follow another needs)
      fun another needs => clear.closed second variant member noNull other another needs

/-! ### Requests -/

omit clear in
/-- Where nothing unsupported is let through, there is no placeholder to answer for. -/
theorem placeholderOr_behaves {σ α : Type} {valid : σ → Prop} {message : String} {placeholder : α}
    {described : α → Prop} :
    Behaves policy valid (Run.placeholderOr message placeholder : Run σ α) fun value =>
      policy = .failOnUnsupported → described value :=
  Behaves.placeholderOr fun lenient strict => absurd (lenient.symm.trans strict) (by decide)

/-- Every helper was compiled for a union that was asked for, in that mode, and without a
placeholder where none is allowed. -/
def Justified (naming : Naming) (policy : Policy) (asked : Bool → Union → Prop)
    (helpers : Helpers) : Prop :=
  ∀ helper declaration, Keyed.find? helper helpers = some declaration →
    ∃ follow union, asked follow union ∧ helperName union = helper ∧
      declaration = Declaration.value helper none (sourceText naming follow union) ∧
      (policy = .failOnUnsupported → naming.WritableUnion follow union)

omit clear in
private theorem Justified.insert {helpers : Helpers}
    (justified : Justified naming policy asked helpers)
    {follow : Bool} {union : Union} (known : asked follow union)
    (writable : policy = .failOnUnsupported → naming.WritableUnion follow union) :
    Justified naming policy asked (Keyed.insert (helperName union)
      (Declaration.value (helperName union) none (sourceText naming follow union)) helpers) := by
  intro helper declaration found
  rw [Keyed.find?_insert] at found
  split at found
  case isTrue same =>
    subst same
    exact ⟨follow, union, known, rfl, (Option.some.inj found).symm, writable⟩
  case isFalse => exact justified helper declaration found

/-- A union that was compiled in either mode is writable in the mode that it is asked for
in. -/
theorem ofUnion_behaves {inner : Shape → Run Helpers Stringifier} {follow : Bool} {name : TypeName}
    {variants : List Variant}
    (needs : ∀ mode union, naming.Needs follow (.union name variants) mode union → asked mode union)
    (source : Behaves policy (Justified naming policy asked)
      (helperSource naming inner (naming.union ⟨name, variants⟩)) fun text =>
        (policy = .failOnUnsupported →
          naming.WritableUnion follow (naming.union ⟨name, variants⟩)) ∧
        text = sourceText naming follow (naming.union ⟨name, variants⟩)) :
    Behaves policy (Justified naming policy asked)
      (ofUnion naming inner (naming.union ⟨name, variants⟩)) fun _ =>
        policy = .failOnUnsupported → naming.Writable follow (.union name variants) := by
  have known := needs _ _ .union
  unfold ofUnion
  dsimp only
  refine Behaves.bind Behaves.getStore fun helpers justified => ?_
  split
  case isTrue =>
    refine Behaves.bind source ?_
    rintro _ ⟨writable, rfl⟩
    refine Behaves.bind Behaves.getStore fun later laterJustified => ?_
    have valid := laterJustified.insert known writable
    refine Behaves.map (Behaves.setStore valid) fun _ _ strict => ?_
    exact Naming.writable_union_iff.mpr (writable strict)
  case isFalse cached =>
    refine Behaves.pure fun strict => ?_
    rw [Bool.not_eq_true', Bool.not_eq_false] at cached
    obtain ⟨declaration, found⟩ := Option.isSome_iff_exists.mp cached
    obtain ⟨other, another, former, same, -, writable⟩ := justified _ declaration found
    obtain rfl := clear.names former known same
    exact Naming.writable_union_iff.mpr
      (writableUnion_of_writableUnion clear former known (writable strict))

omit clear in
theorem ofPrimitive_behaves {valid : Helpers → Prop} {follow : Bool} (value : Primitive) :
    Behaves policy valid (ofPrimitive naming value) fun _ =>
      policy = .failOnUnsupported → naming.Writable follow (.primitive value) := by
  unfold ofPrimitive
  split
  case h_1 entry found =>
    split
    case h_1 function present =>
      refine Behaves.pure fun _ => .primitive fun other equal => ?_
      obtain rfl := Option.some.inj (found.symm.trans equal)
      rw [present]
      rfl
    case h_2 => exact placeholderOr_behaves
  case h_2 absent =>
    exact Behaves.pure fun _ => .primitive fun other equal =>
      absurd (absent.symm.trans equal) (Option.some_ne_none other).symm

omit clear in
theorem variantBranch_behaves {valid : Helpers → Prop} {follow : Bool}
    {inner : Shape → Run Helpers Stringifier}
    (returns : ∀ shape, Returns (inner shape) fun found =>
      found = expressionAt naming follow shape) {variant : Variant}
    (behaves : variant.shape.isNullable = false → Behaves policy valid (inner variant.shape)
      fun _ => policy = .failOnUnsupported → naming.Writable follow variant.shape) :
    Behaves policy valid (variantBranch naming inner variant) fun _ =>
      policy = .failOnUnsupported → variant.shape.isUnit = false →
        variant.shape.isNullable = false ∧
          (expressionAt naming follow variant.shape).isAlways = true ∧
          naming.Writable follow variant.shape := by
  obtain ⟨name, shape, doc⟩ := variant
  unfold variantBranch
  cases shape with
  | nullable item =>
      exact placeholderOr_behaves
  | unit => exact Behaves.pure nofun
  | _ =>
      refine Behaves.bind ((behaves rfl).and_returns (returns _)) ?_
      rintro _ ⟨writable, rfl⟩
      cases written : expressionAt naming follow _ with
      | always function => exact Behaves.pure fun strict _ => ⟨rfl, rfl, writable strict⟩
      | sometimes function =>
          exact placeholderOr_behaves

omit clear in
theorem helperSource_behaves {valid : Helpers → Prop} {follow : Bool}
    {inner : Shape → Run Helpers Stringifier}
    (returns : ∀ shape, Returns (inner shape) fun found =>
      found = expressionAt naming follow shape) {union : Union}
    (each : ∀ variant ∈ union.variants, variant.shape.isNullable = false →
      Behaves policy valid (inner variant.shape) fun _ =>
        policy = .failOnUnsupported → naming.Writable follow variant.shape) :
    Behaves policy valid (helperSource naming inner union) fun text =>
      (policy = .failOnUnsupported → naming.WritableUnion follow union) ∧
        text = sourceText naming follow union := by
  have branches : Behaves policy valid (Run.traverse (variantBranch naming inner) union.variants)
      fun _ => ∀ variant ∈ union.variants, policy = .failOnUnsupported →
        variant.shape.isUnit = false → variant.shape.isNullable = false ∧
          (expressionAt naming follow variant.shape).isAlways = true ∧
          naming.Writable follow variant.shape :=
    Behaves.traverse fun variant member => variantBranch_behaves returns (each variant member)
  have source : Behaves policy valid (helperSource naming inner union) fun _ =>
      policy = .failOnUnsupported → naming.WritableUnion follow union :=
    branches.map fun _ found strict variant member => found variant member strict
  exact source.and_returns (helperSource_returns naming returns union)

/-- A request keeps every helper justified, and a strict one that succeeds needed no
placeholder. -/
theorem within_behaves {levels : Nat} {follow : Bool} {shape : Shape}
    (needs : ∀ mode union, naming.Needs follow shape mode union → asked mode union) :
    Behaves policy (Justified naming policy asked) (within naming levels follow shape) fun _ =>
      policy = .failOnUnsupported → naming.Writable follow shape := by
  induction levels generalizing follow shape with
  | zero => exact Behaves.fail
  | succ levels ih =>
      cases shape with
      | primitive value => exact ofPrimitive_behaves value
      | enum values => exact Behaves.pure fun _ => .enum
      | nullable item =>
          refine Behaves.map (ih fun mode union inside => needs mode union (.nullable inside)) ?_
          exact fun _ writable strict => .nullable (writable strict)
      | list item =>
          have inside := ih fun mode union inside => needs mode union (.list inside)
          refine Behaves.bind (inside.and_returns (within_returns naming levels follow item)) ?_
          rintro _ ⟨writable, rfl⟩
          cases written : expressionAt naming follow item with
          | always function =>
              exact Behaves.pure fun strict => .list (writable strict) (by rw [written]; rfl)
          | sometimes function =>
              exact placeholderOr_behaves
      | ref target =>
          cases follow with
          | false =>
              exact placeholderOr_behaves
          | true =>
              unfold within ofShape
              dsimp only
              rw [if_pos rfl]
              split
              case h_1 component found =>
                have inside := ih fun mode union inside => needs mode union (.ref found inside)
                exact inside.imp fun _ writable strict => .ref found (writable strict)
              case h_2 => exact Behaves.fail
      | union name variants =>
          refine ofUnion_behaves clear needs ?_
          refine helperSource_behaves (within_returns naming levels follow) ?_
          intro variant member single
          exact ih fun mode union inside => needs mode union (.variant member single inside)
      | _ => exact placeholderOr_behaves

end Asked

end Elm

end ElmClient
