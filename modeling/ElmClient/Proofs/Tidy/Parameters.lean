/-
Expressions that write parameters into a request are tidy, and so are the helpers that are
stored for unions on the way.
-/

import ElmClient.Elm.Parameters
import ElmClient.Proofs.Closed.Run
import ElmClient.Proofs.Formats.Requests
import ElmClient.Proofs.Tidy.Types

namespace ElmClient.Elm

open Lexer Name Run Text

def TidyHelpers (helpers : Helpers) : Prop :=
  ∀ helper ∈ helpers, Tidy helper.2.source

def Stringifier.IsTidy : Stringifier → Prop
  | .always function => Tidy function
  | .sometimes function => Tidy function

def Naming.CoversComponents (naming : Naming) : Prop :=
  ∀ component ∈ naming.components, naming.Covers component.2

structure Naming.HoldsField (naming : Naming) (field : ParameterField) : Prop where
  small : Small field.field.toList
  covers : naming.Covers field.parameter.shape

variable {naming : Naming} {policy : Policy}

namespace Stringifier

/-! ### Functions -/

theorem unsupported_tidy {valid : Helpers → Prop} (shape : Shape) :
    Behaves policy valid (unsupported shape) Stringifier.IsTidy :=
  .placeholderOr fun _ => .fixed (by decide)

private theorem tidy_ofItems {function : String} (tidy : Tidy function) :
    (ofItems function).IsTidy :=
  (Lead.code (Lead.comp .fixed .fixed) tidy).close

private theorem IsTidy.ofNullable {stringifier : Stringifier} (tidy : stringifier.IsTidy) :
    (ofNullable stringifier).IsTidy := by
  cases stringifier with
  | always function => exact ((Lead.code .fixed tidy).gap.code tidy_common).close
  | sometimes function => exact ((Lead.code .fixed tidy).gap.code tidy_common).close

theorem holdable_helperName {union : Union} (proper : union.name.Proper) :
    Holdable (helperName union).toList :=
  holdable_valueName proper (holdable_of_all (by decide))

section Tidy

variable (tidy : naming.IsTidy)

include tidy

theorem ofPrimitive_tidy {valid : Helpers → Prop} (value : Primitive) :
    Behaves policy valid (ofPrimitive naming value) Stringifier.IsTidy := by
  unfold ofPrimitive
  split
  case h_1 entry found =>
    split
    case h_1 function written =>
      exact .pure ((tidy.formats value entry found).stringify function written)
    case h_2 => exact .placeholderOr fun _ => .fixed (by decide)
  case h_2 =>
    refine .pure ?_
    cases value.kind
    all_goals exact .fixed (by decide)

private theorem tidy_ofEnum (values : List String) : (ofEnum naming values).IsTidy := by
  unfold ofEnum
  split
  case h_1 name found =>
    exact tidy_qualified tidy.valid .types
      (holdable_valueName (tidy.enumName found) (holdable_of_all (by decide)))
  case h_2 => exact .fixed (by decide)

/-! ### Helpers of unions -/

variable {inner : Shape → Run Helpers Stringifier}
  (each : ∀ shape, naming.Covers shape →
    Behaves policy TidyHelpers (inner shape) Stringifier.IsTidy)

include each

theorem variantBranch_tidy {variant : Variant} (proper : variant.name.Proper)
    (covers : naming.Covers variant.shape) :
    Behaves policy TidyHelpers (variantBranch naming inner variant) Tidy := by
  have constructor := tidy_typeRef tidy proper
  have blank : Tidy (blankBranch (naming.typeRef variant.name)) := constructor.close
  have behaves := each variant.shape covers
  unfold variantBranch
  dsimp only
  split
  · exact .placeholderOr fun _ => blank
  · exact .pure constructor.close
  · refine .bind behaves fun found foundTidy => ?_
    cases found with
    | always function => exact .pure (constructor.gap.code foundTidy).close
    | sometimes function => exact .placeholderOr fun _ => blank

theorem helperSource_tidy {union : Union} (proper : union.name.Proper)
    (members : ∀ variant ∈ union.variants, variant.name.Proper ∧ naming.Covers variant.shape) :
    Behaves policy TidyHelpers (helperSource naming inner union) Tidy := by
  have name := tidy_word (holdable_helperName proper)
  refine .map (.traverseValues fun variant member =>
    variantBranch_tidy tidy each (members variant member).1 (members variant member).2)
      fun branches branchesTidy => ?_
  have lines : Tidy (join "\n\n" (branches.map fun branch => "        " ++ branch)) :=
    Gap.join .fixed (List.forall_mem_map.mpr fun branch member =>
      Lead.code .fixed (branchesTidy branch member))
  exact ((name.gap.code (tidy_typeRef tidy proper)).gap.code name).gap.code lines

theorem ofUnion_tidy {union : Union} (proper : union.name.Proper)
    (members : ∀ variant ∈ union.variants, variant.name.Proper ∧ naming.Covers variant.shape) :
    Behaves policy TidyHelpers (ofUnion naming inner union) Stringifier.IsTidy := by
  have name := tidy_word (holdable_helperName proper)
  unfold ofUnion
  dsimp only
  refine .bind .getStore fun helpers _ => ?_
  split
  · refine .bind (helperSource_tidy tidy each proper members) fun source sourceTidy => ?_
    refine .bind .getStore fun later laterTidy => ?_
    refine .map (.setStore fun helper stored => ?_) fun _ _ => name
    rcases Keyed.mem_of_mem_insert stored with rfl | former
    · exact sourceTidy
    · exact laterTidy helper former
  · exact .pure name

end Tidy

/-! ### Shapes -/

section Shapes

variable (tidy : naming.IsTidy) (components : naming.CoversComponents)

include tidy components

theorem ofShape_tidy {inner : Bool → Shape → Run Helpers Stringifier}
    (each : ∀ follow shape, naming.Covers shape →
      Behaves policy TidyHelpers (inner follow shape) Stringifier.IsTidy)
    (follow : Bool) {shape : Shape} (covers : naming.Covers shape) :
    Behaves policy TidyHelpers (ofShape naming inner follow shape) Stringifier.IsTidy := by
  unfold ofShape
  split
  · exact ofPrimitive_tidy tidy _
  · exact .pure (tidy_ofEnum tidy _)
  · refine .bind (each follow _ (Shape.everywhere_list_iff.mp covers).2) fun found foundTidy => ?_
    cases found with
    | always function => exact .pure (tidy_ofItems foundTidy)
    | sometimes function => exact unsupported_tidy _
  · exact .map (each follow _ (Shape.everywhere_nullable_iff.mp covers).2)
      fun _ found => found.ofNullable
  · split
    · split
      case h_1 component found =>
        exact each false component (components _ (Keyed.mem_of_find? found))
      case h_2 => exact .fail
    · exact unsupported_tidy _
  case h_6 name variants =>
    obtain ⟨union, found⟩ := covers.here
    have final : naming.union ⟨name, variants⟩ = union := by
      rw [Naming.union, found, Option.getD_some]
    rw [final]
    have listed := Keyed.mem_of_find? found
    exact ofUnion_tidy tidy (each follow) (tidy.unions _ listed) (tidy.members _ listed)
  · exact unsupported_tidy _

theorem within_tidy (levels : Nat) : ∀ (follow : Bool) (shape : Shape), naming.Covers shape →
    Behaves policy TidyHelpers (within naming levels follow shape) Stringifier.IsTidy := by
  induction levels with
  | zero => exact fun _ _ _ => .fail
  | succ levels ih => exact fun follow _ covers => ofShape_tidy tidy components ih follow covers

end Shapes

end Stringifier

/-! ### Entries -/

private theorem tidy_parameterAccess {field : ParameterField} (small : Small field.field.toList) :
    Tidy (parameterAccess field) :=
  tidy_field (by decide) small

section Entries

variable (tidy : naming.IsTidy) (components : naming.CoversComponents)

include tidy components

theorem stringify_tidy {shape : Shape} (covers : naming.Covers shape) :
    Behaves policy TidyHelpers (stringify naming shape) Stringifier.IsTidy :=
  Stringifier.within_tidy tidy components _ true shape covers

theorem pairEntry_tidy {field : ParameterField} (holds : naming.HoldsField field) :
    Behaves policy TidyHelpers (pairEntry naming field) Tidy := by
  have key := tidy_stringLiteral field.parameter.name
  have value := tidy_parameterAccess holds.small
  unfold pairEntry
  dsimp only
  refine .bind (.withPath _ (stringify_tidy tidy components holds.covers)) fun found foundTidy => ?_
  split
  · exact .pure (((Lead.code .fixed key).gap.code (tidy_atom foundTidy)).gap.code value).close
  · exact .pure (((Lead.code .fixed key).gap.code (tidy_atom foundTidy)).gap.code value).close
  · exact .pure (((Lead.code .fixed key).gap.code (tidy_atom foundTidy)).gap.code value)
  · exact .pure (((Lead.code .fixed key).gap.code (tidy_atom foundTidy)).gap.code value).close

theorem interpolation_tidy {field : ParameterField} (holds : naming.HoldsField field) :
    Behaves policy TidyHelpers (interpolation naming field) Tidy := by
  have value := tidy_parameterAccess holds.small
  unfold interpolation
  dsimp only
  refine .map (.withPath _ (stringify_tidy tidy components holds.covers)) fun found foundTidy => ?_
  refine (Lead.code .fixed ?_).close
  cases found with
  | always function => exact (tidy_atom foundTidy).gap.code value
  | sometimes function => exact ((Lead.code .fixed (tidy_atom foundTidy)).gap.code value).close

variable {parameters : RequestParameters}
  (holds : ∀ field ∈ parameters.fields, naming.HoldsField field)

include holds

theorem pieceExpression_tidy (piece : Piece) :
    Behaves policy TidyHelpers (pieceExpression naming parameters piece) Tidy := by
  rcases piece with text | name
  · exact .pure (tidy_stringLiteral text)
  · unfold pieceExpression
    dsimp only
    split
    case h_1 field found =>
      refine interpolation_tidy tidy components (holds field ?_)
      exact List.mem_append_left _ (List.mem_append_left _ (List.mem_of_find?_eq_some found))
    case h_2 => exact .pure (tidy_stringLiteral _)

theorem segmentExpression_tidy (segment : String) :
    Behaves policy TidyHelpers (segmentExpression naming parameters segment) Tidy := by
  unfold segmentExpression
  split
  · exact .pure (tidy_stringLiteral "")
  · exact .map (.traverseValues fun piece _ => pieceExpression_tidy tidy components holds piece)
      fun _ found => Gap.join (.fixed (by decide)) found

end Entries

/-! ### Sorting into buckets -/

theorem partition_small {σ : Type} (endpoint : Endpoint) :
    Returns (RequestParameters.partition endpoint : Run σ RequestParameters)
      fun parameters => ∀ field ∈ parameters.fields, Small field.field.toList := by
  refine .bind (.any _) fun placed _ => .bind (.any _) fun _ _ => .pure fun field member => ?_
  refine small_assign (fun base listed => ?_) field.field (mem_ofPlaced member).2
  obtain ⟨entry, -, rfl⟩ := List.mem_map.mp listed
  exact small_toValueName entry.2.name

theorem partition_holds {σ : Type} {endpoint : Endpoint}
    (covers : ∀ parameter ∈ endpoint.parameters, naming.Covers parameter.shape) :
    Returns (RequestParameters.partition endpoint : Run σ RequestParameters)
      fun parameters => ∀ field ∈ parameters.fields, naming.HoldsField field := by
  intro scope log parameters reached ended field member
  refine ⟨partition_small endpoint scope log parameters reached ended field member, ?_⟩
  exact covers _ (partition_listed endpoint scope log parameters reached ended field member)

end ElmClient.Elm
