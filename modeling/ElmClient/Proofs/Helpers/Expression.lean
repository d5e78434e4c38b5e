/-
What serializers are called. The function for a shape is written from the shape alone: a
union is called by the name of its helper, whether or not the helper is declared yet. So
what a request returns does not depend on the helpers that were asked for before.
-/

import ElmClient.Elm.Stringify
import ElmClient.Proofs.Run

namespace ElmClient.Elm

open Run

namespace Stringifier

def isAlways : Stringifier → Bool
  | .always _ => true
  | .sometimes _ => false

def primitiveExpression (naming : Naming) (value : Primitive) : Stringifier :=
  match naming.formatEntry? value with
  | some entry =>
      match entry.stringify with
      | some function => .always function
      | none => blank
  | none => .always (primitiveFunction value.kind)

/-- The serializer of a shape, given those of the components that it refers to. -/
def expression (naming : Naming) (referred : TypeName → Stringifier) : Shape → Stringifier
  | .primitive value => primitiveExpression naming value
  | .enum values => ofEnum naming values
  | .list item =>
      match expression naming referred item with
      | .always function => ofItems function
      | .sometimes _ => blank
  | .nullable item => ofNullable (expression naming referred item)
  | .ref target => referred target.typeName
  | .union name variants => .always (helperName (naming.union ⟨name, variants⟩))
  | _ => blank

/-- References are followed from a parameter, and not behind a reference. -/
def expressionAt (naming : Naming) : Bool → Shape → Stringifier
  | false => expression naming fun _ => blank
  | true => expression naming fun name =>
      match Keyed.find? name naming.components with
      | some component => expression naming (fun _ => blank) component
      | none => blank

private theorem expressionAt_list (naming : Naming) (follow : Bool) (item : Shape) :
    expressionAt naming follow (.list item) =
      match expressionAt naming follow item with
      | .always function => ofItems function
      | .sometimes _ => blank := by
  cases follow <;> rfl

private theorem expressionAt_nullable (naming : Naming) (follow : Bool) (item : Shape) :
    expressionAt naming follow (.nullable item) = ofNullable (expressionAt naming follow item) := by
  cases follow <;> rfl

private theorem expressionAt_ref {naming : Naming} {target : Reference} {component : Shape}
    (found : Keyed.find? target.typeName naming.components = some component) :
    expressionAt naming true (.ref target) = expressionAt naming false component := by
  change (match Keyed.find? target.typeName naming.components with
    | some component => expression naming (fun _ => blank) component
    | none => blank) = _
  rw [found]
  rfl

def branchText (naming : Naming) (inner : Shape → Stringifier) (variant : Variant) : String :=
  let constructor := naming.typeRef variant.name
  match variant.shape with
  | .nullable _ => blankBranch constructor
  | .unit => nullBranch constructor
  | shape =>
      match inner shape with
      | .always function => innerBranch constructor function
      | .sometimes _ => blankBranch constructor

def sourceText (naming : Naming) (follow : Bool) (union : Union) : String :=
  helperText naming union (union.variants.map (branchText naming (expressionAt naming follow)))

section Returns

variable (naming : Naming)

theorem unsupported_returns (shape : Shape) : Returns (unsupported shape) fun found =>
    found = blank :=
  Returns.placeholderOr rfl

theorem ofPrimitive_returns (value : Primitive) :
    Returns (ofPrimitive naming value) fun found => found = primitiveExpression naming value := by
  unfold ofPrimitive primitiveExpression
  cases naming.formatEntry? value with
  | none => exact Returns.pure rfl
  | some entry =>
      dsimp only
      cases entry.stringify with
      | none => exact Returns.placeholderOr rfl
      | some function => exact Returns.pure rfl

theorem variantBranch_returns {inner : Shape → Run Helpers Stringifier}
    {serializer : Shape → Stringifier}
    (each : ∀ shape, Returns (inner shape) fun found => found = serializer shape)
    (variant : Variant) :
    Returns (variantBranch naming inner variant) fun branch =>
      branch = branchText naming serializer variant := by
  obtain ⟨name, shape, doc⟩ := variant
  unfold variantBranch branchText
  cases shape with
  | nullable item => exact Returns.placeholderOr rfl
  | unit => exact Returns.pure rfl
  | _ =>
      refine Returns.bind (each _) ?_
      rintro _ rfl
      dsimp only
      cases serializer _ with
      | always function => exact Returns.pure rfl
      | sometimes function => exact Returns.placeholderOr rfl

private theorem eq_map_of_forall₂ {α β : Type} {text : α → β} {items : List α} {values : List β}
    (related : List.Forall₂ (fun item value => value = text item) items values) :
    values = items.map text := by
  induction related with
  | nil => rfl
  | cons first _ ih => rw [List.map_cons, first, ih]

theorem helperSource_returns {inner : Shape → Run Helpers Stringifier}
    {serializer : Shape → Stringifier}
    (each : ∀ shape, Returns (inner shape) fun found => found = serializer shape)
    (union : Union) :
    Returns (helperSource naming inner union) fun source =>
      source = helperText naming union (union.variants.map (branchText naming serializer)) := by
  refine Returns.map (Returns.traverse (variantBranch_returns naming each) _)
    fun branches related => ?_
  rw [eq_map_of_forall₂ related]

theorem ofUnion_returns (inner : Shape → Run Helpers Stringifier) (union : Union) :
    Returns (ofUnion naming inner union) fun found => found = .always (helperName union) := by
  unfold ofUnion
  dsimp only
  refine Returns.bind (Returns.any _) fun helpers _ => ?_
  split
  · refine Returns.bind (Returns.any _) fun source _ => ?_
    refine Returns.bind (Returns.any _) fun later _ => ?_
    exact Returns.map (Returns.any _) fun _ _ => rfl
  · exact Returns.pure rfl

theorem ofShape_returns {inner : Bool → Shape → Run Helpers Stringifier}
    (each : ∀ follow shape, Returns (inner follow shape) fun found =>
      found = expressionAt naming follow shape)
    (follow : Bool) (shape : Shape) :
    Returns (ofShape naming inner follow shape) fun found =>
      found = expressionAt naming follow shape := by
  cases shape with
  | primitive value => cases follow <;> exact ofPrimitive_returns naming value
  | enum values => cases follow <;> exact Returns.pure rfl
  | list item =>
      rw [expressionAt_list]
      refine Returns.bind (each follow item) ?_
      rintro _ rfl
      cases expressionAt naming follow item with
      | always function => exact Returns.pure rfl
      | sometimes function => exact unsupported_returns _
  | nullable item =>
      rw [expressionAt_nullable]
      refine Returns.map (each follow item) ?_
      rintro _ rfl
      rfl
  | ref target =>
      cases follow with
      | false => exact unsupported_returns _
      | true =>
          unfold ofShape
          dsimp only
          rw [if_pos rfl]
          split
          case h_1 component found =>
            rw [expressionAt_ref found]
            exact each false component
          case h_2 => exact Returns.fail
  | union name variants => cases follow <;> exact ofUnion_returns naming _ _
  | _ => cases follow <;> exact unsupported_returns _

/-- A request that succeeds returns the same from every table. -/
theorem within_returns (levels : Nat) (follow : Bool) (shape : Shape) :
    Returns (within naming levels follow shape) fun found =>
      found = expressionAt naming follow shape := by
  induction levels generalizing follow shape with
  | zero => exact Returns.fail
  | succ levels ih => exact ofShape_returns naming ih follow shape

end Returns

end Stringifier

end ElmClient.Elm
