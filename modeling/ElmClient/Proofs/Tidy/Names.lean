/-
Names are tidy. Type and value names hold identifier characters only, whatever document they
come from; value names do not begin with a capital letter, so they also end names of records
and fields. References have the capitalized segments of a module in front.
-/

import ElmClient.Elm.Naming
import ElmClient.Proofs.Declared.Annotation
import ElmClient.Proofs.Fresh
import ElmClient.Proofs.Name.Settled
import ElmClient.Proofs.Tidy.Layout

namespace ElmClient

namespace Name

open Text

/-! ### Value names -/

/-- Characters of an identifier, of which the first is no capital letter. -/
structure Small (characters : List Char) : Prop where
  holdable : Holdable characters
  begins : ∀ first ∈ characters.head?, first.isUpper = false

theorem Small.fixed {characters : List Char}
    (check : (characters.all isNameChar && !characters.head?.any Char.isUpper) = true := by
      decide) : Small characters := by
  obtain ⟨every, low⟩ := Bool.and_eq_true_iff.mp check
  refine ⟨holdable_of_all every, fun first member => ?_⟩
  rw [member, Option.any_some, Bool.not_eq_true'] at low
  exact low

private theorem IsValueName.small {text : String} (valueName : IsValueName text) :
    Small text.toList := by
  obtain ⟨⟨first, rest, whole, low, holdable⟩, -⟩ := valueName
  rw [whole]
  refine ⟨List.forall_mem_cons.mpr
    ⟨(isNameChar_iff first).mpr (Or.inr (Or.inl low)), holdable⟩, fun other same => ?_⟩
  rw [← Option.some.inj same, ← Bool.not_eq_true, isUpper_iff]
  rw [isLower_iff] at low
  omega

theorem small_toValueName (raw : String) : Small (toValueName raw).toList :=
  (isValueName_toValueName raw).small

theorem Small.append {name : List Char} (small : Small name) {tail : List Char}
    (tailSmall : Small tail) :
    Small (name ++ tail) := by
  refine ⟨small.holdable.append tailSmall.holdable, fun first member => ?_⟩
  cases name with
  | nil => exact tailSmall.begins first member
  | cons head rest => exact small.begins first member

theorem small_digits (number : Nat) : Small (toString number).toList := by
  refine ⟨holdable_digits number, fun first member => ?_⟩
  have digit : first.isDigit = true := by
    apply Nat.isDigit_of_mem_toDigits (b := 10) (n := number) (by decide) (by decide)
    simpa [toString, Nat.repr] using List.mem_of_mem_head? member
  rw [isDigit_iff] at digit
  rw [← Bool.not_eq_true, isUpper_iff]
  omega

private theorem small_candidate {base : String} (small : Small base.toList) (number : Nat) :
    Small (Fresh.candidate base Fresh.appendNumber number).toList := by
  cases number with
  | zero => exact small
  | succ number =>
      rw [Fresh.candidate, Fresh.appendNumber, String.toList_append]
      exact small.append (small_digits _)

theorem small_unused (taken : List String) {base : String} (small : Small base.toList) :
    Small (Fresh.unused Fresh.appendNumber taken base).toList := by
  obtain ⟨number, same⟩ :=
    Fresh.search_candidate taken.contains base Fresh.appendNumber taken.length 0
  rw [Fresh.unused, same]
  exact small_candidate small number

theorem small_assign {bases : List String} (small : ∀ base ∈ bases, Small base.toList) :
    ∀ name ∈ Fresh.assign Fresh.appendNumber bases, Small name.toList := by
  intro name member
  obtain ⟨base, inBases, number, rfl⟩ := Fresh.assignAfter_candidate [] bases name member
  exact small_candidate (small base inBases) number

end Name

namespace TypeName

open Name

theorem Proper.candidate {name : TypeName} (proper : name.Proper) (number : Nat) :
    (Fresh.candidate name TypeName.withSuffix number).Proper := by
  cases number with
  | zero => exact proper
  | succ number => exact proper.withSuffix (number + 2)

end TypeName

namespace Elm

open Lexer Name Text

/-! ### Reading names -/

namespace Lexer.Segment

theorem next_holdable {segment : Segment} (begun : segment = .capital ∨ segment = .small)
    {character : Char} (holdable : isNameChar character = true) :
    segment.next character = some segment := by
  rcases begun with rfl | rfl
  · exact next_of_takes (.capital holdable)
  · exact next_of_takes (.small holdable)

theorem run_holdable {segment : Segment} (begun : segment = .capital ∨ segment = .small)
    {word : List Char} (holdable : Holdable word) : segment.run word = some segment := by
  induction word with
  | nil => rfl
  | cons character rest ih =>
      obtain ⟨first, later⟩ := List.forall_mem_cons.mp holdable
      rw [run, next_holdable begun first]
      exact ih later

/-- A word can be read wherever a segment begins, but behind one in small letters it must not
be capitalized. -/
theorem isSome_run {segment : Segment} {word : List Char} (holdable : Holdable word)
    (begins : segment = .later → ∀ first ∈ word.head?, first.isUpper = false) :
    (segment.run word).isSome = true := by
  cases word with
  | nil => rfl
  | cons first rest =>
      obtain ⟨firstHoldable, restHoldable⟩ := List.forall_mem_cons.mp holdable
      have reached : segment.next first = some .capital ∨ segment.next first = some .small := by
        cases segment with
        | first =>
            cases upper : first.isUpper with
            | true => exact Or.inl (next_of_takes (.upper upper))
            | false => exact Or.inr (next_of_takes (.lower (Or.inl rfl) firstHoldable upper))
        | capital => exact Or.inl (next_holdable (Or.inl rfl) firstHoldable)
        | later =>
            have notUpper : first.isUpper = false := begins rfl first rfl
            exact Or.inr (next_of_takes (.lower (Or.inr rfl) firstHoldable notUpper))
        | small => exact Or.inr (next_holdable (Or.inr rfl) firstHoldable)
      rcases reached with taking | taking
      · rw [run, taking, Option.bind_some, run_holdable (Or.inl rfl) restHoldable]
        rfl
      · rw [run, taking, Option.bind_some, run_holdable (Or.inr rfl) restHoldable]
        rfl

theorem run_small {word : List Char} (inhabited : word ≠ []) (small : Small word) :
    first.run (word ++ ['.']) = some .later := by
  cases word with
  | nil => exact absurd rfl inhabited
  | cons initial rest =>
      obtain ⟨firstHoldable, restHoldable⟩ := List.forall_mem_cons.mp small.holdable
      have notUpper : initial.isUpper = false := small.begins initial rfl
      have taking := next_of_takes (.lower (Or.inl rfl) firstHoldable notUpper)
      rw [List.cons_append, run, taking, Option.bind_some, run_append,
        run_holdable (Or.inr rfl) restHoldable]
      rfl

theorem run_modulePart {part : List Char} (valid : Config.isModulePart part = true) :
    first.run part = some .capital := by
  cases part with
  | nil => contradiction
  | cons initial rest =>
      obtain ⟨upper, holdable⟩ := Bool.and_eq_true_iff.mp valid
      rw [run, next_of_takes (.upper upper), Option.bind_some,
        run_holdable (Or.inl rfl) (holdable_of_all holdable)]

theorem run_parts {parts : List (List Char)} (inhabited : parts ≠ [])
    (valid : ∀ part ∈ parts, Config.isModulePart part = true) :
    first.run (List.intercalate ['.'] parts) = some .capital := by
  induction parts with
  | nil => exact absurd rfl inhabited
  | cons part parts ih =>
      obtain ⟨partValid, later⟩ := List.forall_mem_cons.mp valid
      cases parts with
      | nil =>
          rw [List.intercalate_singleton]
          exact run_modulePart partValid
      | cons second parts =>
          rw [List.intercalate_cons_cons, List.append_assoc, run_append, run_modulePart partValid]
          exact ih (List.cons_ne_nil _ _) later

end Lexer.Segment

theorem run_modulePath {name : String} (valid : Config.isModulePath name = true) :
    Segment.first.run name.toList = some .capital := by
  rw [← intercalate_splitChars '.' name.toList]
  exact Segment.run_parts (splitChars_ne_nil _ _) (List.all_eq_true.mp valid)

theorem run_moduleName {namespaceName : String}
    (valid : Config.isModulePath namespaceName = true) (group : Group) :
    Segment.first.run (group.moduleName namespaceName).toList = some .capital := by
  have path := run_modulePath valid
  cases group
  case common =>
    have common : Config.isModulePath commonModule = true := by decide
    exact run_modulePath common
  all_goals
    rw [Group.moduleName, String.toList_append, Segment.run_append, path]
    decide

/-! ### Tidy names -/

theorem tidy_word {name : String} (holdable : Holdable name.toList) : Tidy name :=
  tidy_of_isRegular (Segment.isSome_run holdable nofun)

private theorem tidy_member {own name : String}
    (path : Segment.first.run own.toList = some .capital)
    (holdable : Holdable name.toList) : Tidy (own ++ "." ++ name) := by
  refine tidy_of_isRegular ?_
  rw [String.toList_append, String.toList_append, isRegular, Segment.run_append,
    Segment.run_append, path]
  exact Segment.isSome_run holdable nofun

theorem tidy_qualified {naming : Naming} (valid : Config.isModulePath naming.namespaceName = true)
    (group : Group) {name : String} (holdable : Holdable name.toList) :
    Tidy (naming.qualified group name) :=
  tidy_member (run_moduleName valid group) holdable

theorem tidy_common {characters : List Char}
    (check : characters.all isNameChar = true := by decide) :
    Tidy (common (String.ofList characters)) := by
  have path : Segment.first.run commonModule.toList = some .capital := by decide
  refine tidy_member path ?_
  rw [String.toList_ofList]
  exact holdable_of_all check

theorem tidy_field {lead name : String} (leads : Segment.first.run lead.toList = some .later)
    (small : Small name.toList) : Tidy (lead ++ name) := by
  refine tidy_of_isRegular ?_
  rw [String.toList_append, isRegular, Segment.run_append, leads]
  exact Segment.isSome_run small.holdable fun _ => small.begins

theorem tidy_typeName {name : TypeName} (proper : name.Proper) : Tidy name.text :=
  tidy_word (holdable_of_proper proper)

end Elm

end ElmClient
