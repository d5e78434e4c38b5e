/-
Which rule applies to the schema of an object. Whatever the rule gives, the keyword
`nullable` and a listed `null` only wrap it.
-/

import ElmClient.Proofs.Run
import ElmClient.Resolve.Schema

namespace ElmClient

namespace Shape

def withoutNull : Shape → Shape
  | .nullable inner => inner
  | other => other

@[simp]
private theorem withoutNull_toNullable (shape : Shape) :
    shape.toNullable.withoutNull = shape.withoutNull := by
  cases shape <;> rfl

end Shape

namespace Resolve

@[simp]
private theorem withoutNull_nullableIf (wanted : Bool) (shape : Shape) :
    (nullableIf wanted shape).withoutNull = shape.withoutNull := by
  cases wanted
  · rfl
  · exact shape.withoutNull_toNullable

/-- The type, if one is given, is that of objects, perhaps along with null. -/
def ObjectTyped (schema : Schema) : Prop :=
  schema.kinds = [] ∨ concreteKinds schema = ["object"]

instance (schema : Schema) : Decidable (ObjectTyped schema) :=
  inferInstanceAs (Decidable (_ ∨ _))

/-- The members of `allOf` are merged, together with what stands next to them. -/
structure MergesAllOf (schema : Schema) : Prop where
  typed : ObjectTyped schema
  composed : schema.allOf.isSome = true
  enumeration : schema.enumeration = none
  anyOf : schema.anyOf = none
  oneOf : schema.oneOf = none
  several : schema.properties ≠ [] ∨ schema.required ≠ [] ∨
    2 ≤ (substantive (schema.allOf.getD [])).length

variable {schemas : SchemaMap} {inner : Inner} {site : Site} {schema : Schema}

/-- Null aside, an inline schema is the object that the rule for its kinds gives. -/
theorem inline_returns {described : List Field → Prop}
    (constrained : schema.isUnconstrained = false) (typed : ObjectTyped schema)
    (within : Run.Returns (ofKinds schemas inner site schema (concreteKinds schema))
      fun shape => ∃ fields, shape.withoutNull = .object fields ∧ described fields) :
    Run.Returns (inline schemas inner site schema)
      fun shape => ∃ fields, shape.withoutNull = .object fields ∧ described fields := by
  have rewrapped (wanted : Bool) (shape : Shape) :
      (∃ fields, shape.withoutNull = .object fields ∧ described fields) →
        ∃ fields, (nullableIf wanted shape).withoutNull = .object fields ∧ described fields := by
    rw [withoutNull_nullableIf]
    exact id
  have notOnlyNull : ((concreteKinds schema).isEmpty && schema.kinds.contains "null") = false := by
    rcases typed with untyped | object
    · rw [untyped, List.contains_nil, Bool.and_false]
    · rw [object, List.isEmpty_cons, Bool.false_and]
  refine .map ?_ (rewrapped _)
  unfold base
  rw [constrained, if_neg Bool.false_ne_true]
  dsimp only
  rw [notOnlyNull, if_neg Bool.false_ne_true]
  exact .map within (rewrapped _)

theorem constrained_of_composed (composed : hasComposition schema = true) :
    schema.isUnconstrained = false := by
  simp only [hasComposition, Bool.or_eq_true, Option.isSome_iff_exists] at composed
  rcases composed with (⟨members, present⟩ | ⟨members, present⟩) | ⟨members, present⟩
  all_goals simp [Schema.isUnconstrained, present]

/-- Composition comes before the type `object`. -/
theorem ofKinds_composed (typed : ObjectTyped schema) (composed : hasComposition schema = true) :
    ofKinds schemas inner site schema (concreteKinds schema) =
      untyped schemas inner site schema := by
  rcases typed with none | object
  · rw [concreteKinds, none, List.filter_nil, ofKinds]
  · rw [object, ofKinds, composed]
    rfl

theorem ofKinds_plain (typed : ObjectTyped schema) (simple : hasComposition schema = false)
    (enumeration : schema.enumeration = none) (declares : schema.properties ≠ []) :
    ofKinds schemas inner site schema (concreteKinds schema) = object inner site schema := by
  rcases typed with none | object
  · simp only [hasComposition, Bool.or_eq_false_iff, Option.isSome_eq_false_iff,
      Option.isNone_iff_eq_none] at simple
    obtain ⟨⟨allOf, anyOf⟩, oneOf⟩ := simple
    rw [concreteKinds, none, List.filter_nil, ofKinds, untyped, enumeration, anyOf, oneOf, allOf]
    simp [declares]
  · rw [object, ofKinds, simple, Bool.and_false, if_neg Bool.false_ne_true, ofKind]

theorem untyped_anyOf {members : List (RefOr Schema)} (enumeration : schema.enumeration = none)
    (present : schema.anyOf = some members) :
    untyped schemas inner site schema =
      alternatives schemas inner site (registrationOwner site schema) "anyOf" members := by
  rw [untyped, enumeration, present]

theorem untyped_oneOf {members : List (RefOr Schema)} (enumeration : schema.enumeration = none)
    (anyOf : schema.anyOf = none) (present : schema.oneOf = some members) :
    untyped schemas inner site schema =
      alternatives schemas inner site (registrationOwner site schema) "oneOf" members := by
  rw [untyped, enumeration, anyOf, present]

theorem untyped_allOf {members : List (RefOr Schema)} (enumeration : schema.enumeration = none)
    (anyOf : schema.anyOf = none) (oneOf : schema.oneOf = none)
    (composed : schema.allOf = some members) :
    untyped schemas inner site schema = allOf inner site schema members := by
  rw [untyped, enumeration, anyOf, oneOf, composed]

theorem allOf_merges {members : List (RefOr Schema)}
    (several : schema.properties ≠ [] ∨ schema.required ≠ [] ∨ 2 ≤ (substantive members).length) :
    allOf inner site schema members = do
      return .object (← mergedFields inner site.owner.toList site schema) := by
  have atLeastTwo (alone : (schema.properties.isEmpty && schema.required.isEmpty) = true) :
      2 ≤ (substantive members).length := by
    rw [Bool.and_eq_true, List.isEmpty_iff, List.isEmpty_iff] at alone
    exact (several.resolve_left (not_not_intro alone.1)).resolve_left (not_not_intro alone.2)
  unfold allOf
  dsimp only
  split
  case h_1 alone none =>
    have two := atLeastTwo alone
    rw [none] at two
    exact absurd two (Nat.not_succ_le_zero 1)
  case h_2 only index alone single =>
    have two := atLeastTwo alone
    rw [single] at two
    exact absurd two (Nat.not_succ_le_self 1)
  case h_3 => rfl

end Resolve

end ElmClient
