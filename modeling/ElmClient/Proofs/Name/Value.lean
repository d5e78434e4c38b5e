/-
Names of values that belong to types. Proper type names differ in their value names,
too, unless one of them is lowered to a reserved word, which is escaped, and the other
is the escaped word itself.
-/

import ElmClient.Elm.Types
import ElmClient.Proofs.Name.Proper
import Mathlib.Data.List.Nodup

namespace ElmClient

namespace Name

open Text

/-! ### First letters -/

def Capital (characters : List Char) : Prop :=
  ∃ first rest, characters = first :: rest ∧ first.isUpper = true

private theorem Capital.append {characters : List Char} (capital : Capital characters)
    (tail : List Char) : Capital (characters ++ tail) := by
  obtain ⟨first, rest, rfl, upper⟩ := capital
  exact ⟨first, rest ++ tail, rfl, upper⟩

theorem decapitalize_inj {left right : List Char} (leftCapital : Capital left)
    (rightCapital : Capital right) (same : decapitalize left = decapitalize right) :
    left = right := by
  obtain ⟨first, rest, rfl, firstUpper⟩ := leftCapital
  obtain ⟨second, others, rfl, secondUpper⟩ := rightCapital
  obtain ⟨lowered, sameRest⟩ := List.cons.inj same
  have sameFirst : first = second := by
    rw [isUpper_iff] at firstUpper secondUpper
    have codes := congrArg Char.toNat lowered
    rw [toNat_toLower, toNat_toLower, if_pos firstUpper, if_pos secondUpper] at codes
    exact Char.toNat_inj.mp (by omega)
  rw [sameFirst, sameRest]

end Name

namespace TypeName

open Name Text

/-! ### Lowering -/

def Reserved (name : TypeName) : Prop :=
  reservedWords.contains (String.ofList (decapitalize name.text.toList)) = true

instance (name : TypeName) : Decidable name.Reserved :=
  inferInstanceAs (Decidable (_ = true))

theorem text_inj {left right : TypeName} (same : left.text = right.text) : left = right :=
  congrArg TypeName.mk same

private theorem Proper.capital {name : TypeName} (proper : name.Proper) :
    Capital name.text.toList := by
  obtain ⟨first, rest, text, upper, -⟩ := proper
  exact ⟨first, rest, text, upper⟩

private theorem eq_of_decapitalize_eq {left right : TypeName} (leftProper : left.Proper)
    (rightProper : right.Proper)
    (same : decapitalize left.text.toList = decapitalize right.text.toList) : left = right :=
  text_inj (String.toList_inj.mp (decapitalize_inj leftProper.capital rightProper.capital same))

theorem toValueName_toList (name : TypeName) :
    name.toValueName.toList =
      decapitalize name.text.toList ++ if name.Reserved then ['_'] else [] := by
  rw [toValueName, String.toList_ofList, escapeReserved]
  by_cases reserved : name.Reserved
  · rw [if_pos reserved]
    exact if_pos reserved
  · rw [if_neg reserved, List.append_nil]
    exact if_neg reserved

theorem holdable_toValueName {name : TypeName} (proper : name.Proper) :
    Holdable name.toValueName.toList := by
  obtain ⟨first, rest, text, upper, holdable⟩ := proper
  have lowered : first.toLower.isLower = true := by
    rw [isUpper_iff] at upper
    rw [isLower_iff, toNat_toLower, if_pos upper]
    omega
  rw [toValueName_toList, text]
  refine Holdable.append (List.forall_mem_cons.mpr ⟨?_, holdable⟩) ?_
  · exact (isNameChar_iff _).mpr (Or.inr (Or.inl lowered))
  · split
    · exact holdable_of_all (by decide)
    · exact fun character member => absurd member List.not_mem_nil

theorem toValueName_head {name : TypeName} (proper : name.Proper) :
    ∃ first rest, name.toValueName.toList = first :: rest ∧ first.isUpper = false := by
  obtain ⟨first, rest, text, upper, -⟩ := proper
  refine ⟨first.toLower, rest ++ if name.Reserved then ['_'] else [], ?_, ?_⟩
  · rw [toValueName_toList, text, decapitalize, List.cons_append]
  · rw [isUpper_iff] at upper
    rw [← Bool.not_eq_true, isUpper_iff, toNat_toLower, if_pos upper]
    omega

private theorem not_reserved_of_underscore {name other : TypeName}
    (text : decapitalize other.text.toList = decapitalize name.text.toList ++ ['_']) :
    ¬ other.Reserved := by
  intro reserved
  have noneEnds : ∀ word ∈ reservedWords, word.toList.getLast? ≠ some '_' := by decide
  refine noneEnds _ (List.contains_iff_mem.mp reserved) ?_
  rw [String.toList_ofList, text, List.getLast?_append]
  rfl

theorem decapitalize_append {characters : List Char} (inhabited : characters ≠ [])
    (tail : List Char) : decapitalize (characters ++ tail) = decapitalize characters ++ tail := by
  cases characters with
  | nil => exact absurd rfl inhabited
  | cons => rfl

theorem Proper.text_ne_nil {name : TypeName} (proper : name.Proper) : name.text.toList ≠ [] := by
  obtain ⟨first, rest, text, -⟩ := proper
  rw [text]
  exact List.cons_ne_nil first rest

theorem decapitalize_underscore {name other : TypeName} (proper : name.Proper)
    (text : other.text = name.text ++ "_") :
    decapitalize other.text.toList = decapitalize name.text.toList ++ ['_'] := by
  rw [text, String.toList_append, decapitalize_append proper.text_ne_nil]
  rfl

theorem toValueName_eq_of_underscore {name other : TypeName} (proper : name.Proper)
    (reserved : name.Reserved) (text : other.text = name.text ++ "_") :
    name.toValueName = other.toValueName := by
  have lowered := decapitalize_underscore proper text
  rw [← String.toList_inj, toValueName_toList, toValueName_toList, if_pos reserved,
    if_neg (not_reserved_of_underscore lowered), lowered, List.append_nil]

private theorem underscore_of_decapitalize {name other : TypeName} (proper : name.Proper)
    (otherProper : other.Proper)
    (lowered : decapitalize other.text.toList = decapitalize name.text.toList ++ ['_']) :
    other.text = name.text ++ "_" := by
  have extended : (TypeName.mk (name.text ++ "_")).Proper :=
    proper.extended "_" rfl (holdable_of_all (by decide))
  have same : decapitalize (TypeName.mk (name.text ++ "_")).text.toList =
      decapitalize name.text.toList ++ ['_'] := decapitalize_underscore proper rfl
  exact congrArg TypeName.text
    (eq_of_decapitalize_eq otherProper extended (lowered.trans same.symm))

theorem toValueName_eq_iff {left right : TypeName} (leftProper : left.Proper)
    (rightProper : right.Proper) :
    left.toValueName = right.toValueName ↔
      left = right ∨ (left.Reserved ∧ right.text = left.text ++ "_") ∨
        (right.Reserved ∧ left.text = right.text ++ "_") := by
  constructor
  · intro same
    have lists := congrArg String.toList same
    rw [toValueName_toList, toValueName_toList] at lists
    by_cases leftReserved : left.Reserved
    · by_cases rightReserved : right.Reserved
      · rw [if_pos leftReserved, if_pos rightReserved] at lists
        exact Or.inl (eq_of_decapitalize_eq leftProper rightProper (List.append_cancel_right lists))
      · rw [if_pos leftReserved, if_neg rightReserved, List.append_nil] at lists
        exact Or.inr (Or.inl
          ⟨leftReserved, underscore_of_decapitalize leftProper rightProper lists.symm⟩)
    · by_cases rightReserved : right.Reserved
      · rw [if_neg leftReserved, if_pos rightReserved, List.append_nil] at lists
        exact Or.inr (Or.inr
          ⟨rightReserved, underscore_of_decapitalize rightProper leftProper lists⟩)
      · rw [if_neg leftReserved, if_neg rightReserved, List.append_nil, List.append_nil] at lists
        exact Or.inl (eq_of_decapitalize_eq leftProper rightProper lists)
  · rintro (rfl | ⟨reserved, text⟩ | ⟨reserved, text⟩)
    · rfl
    · exact toValueName_eq_of_underscore leftProper reserved text
    · exact (toValueName_eq_of_underscore rightProper reserved text).symm

/-! ### Tails -/

/-- The text that is lowered to the value name: a reserved word has its underscore. -/
def escaped (name : TypeName) : String :=
  name.text ++ if name.Reserved then "_" else ""

theorem toValueName_eq_decapitalize {name : TypeName} (proper : name.Proper) :
    name.toValueName.toList = decapitalize name.escaped.toList := by
  rw [toValueName_toList, escaped, String.toList_append, decapitalize_append proper.text_ne_nil]
  split <;> rfl

private theorem Proper.capital_escaped {name : TypeName} (proper : name.Proper) :
    Capital name.escaped.toList := by
  rw [escaped, String.toList_append]
  exact proper.capital.append _

private theorem not_reserved_of_upper {name : TypeName} {character : Char}
    (member : character ∈ name.toValueName.toList) (upper : character.isUpper = true) :
    ¬ name.Reserved := by
  intro reserved
  have noneUpper : (reservedWords.all fun word =>
      (word.toList ++ ['_']).all fun letter => !letter.isUpper) = true := by
    decide
  rw [toValueName_toList, if_pos reserved] at member
  have word := List.all_eq_true.mp noneUpper _ (List.contains_iff_mem.mp reserved)
  rw [String.toList_ofList] at word
  have lower := List.all_eq_true.mp word character member
  rw [upper] at lower
  exact Bool.false_ne_true lower

/-- Different names have one value name exactly when one is the other escaped. -/
theorem toValueName_eq_iff_escaped {left right : TypeName} (leftProper : left.Proper)
    (rightProper : right.Proper) (different : left ≠ right) :
    left.toValueName = right.toValueName ↔
      left.text = right.escaped ∨ right.text = left.escaped := by
  have escapes : ∀ {name other : TypeName}, name ≠ other →
      (other.text = name.escaped ↔ name.Reserved ∧ other.text = name.text ++ "_") := by
    intro name other apart
    unfold escaped
    split
    case isTrue reserved => exact (and_iff_right reserved).symm
    case isFalse free =>
      rw [String.append_empty]
      exact iff_of_false (fun same => apart (text_inj same.symm)) fun both => free both.1
  rw [toValueName_eq_iff leftProper rightProper, escapes different.symm, escapes different,
    or_iff_right different, or_comm]

/-- A value name is another one with a capital tail exactly when the type names are so. -/
theorem toValueName_eq_append_iff {left right : TypeName} (leftProper : left.Proper)
    (rightProper : right.Proper) {tail : String} (capital : Capital tail.toList) :
    left.toValueName = right.toValueName ++ tail ↔ left.text = right.escaped ++ tail := by
  obtain ⟨first, rest, tailText, upper⟩ := capital
  have lowered : (right.toValueName ++ tail).toList =
      decapitalize (right.escaped ++ tail).toList := by
    rw [String.toList_append, String.toList_append, toValueName_eq_decapitalize rightProper,
      decapitalize_append]
    obtain ⟨_, _, inhabited, _⟩ := rightProper.capital_escaped
    rw [inhabited]
    exact List.cons_ne_nil _ _
  have extended : Capital (right.escaped ++ tail).toList := by
    rw [String.toList_append]
    exact rightProper.capital_escaped.append _
  have within : first ∈ (right.toValueName ++ tail).toList := by
    rw [String.toList_append, tailText]
    exact List.mem_append_right _ List.mem_cons_self
  constructor
  · intro same
    have free : ¬ left.Reserved := not_reserved_of_upper (same ▸ within) upper
    have lists := congrArg String.toList same
    rw [lowered, toValueName_toList, if_neg free, List.append_nil] at lists
    exact String.toList_inj.mp (decapitalize_inj leftProper.capital extended lists)
  · intro same
    have begins := toValueName_toList left
    rw [same, ← lowered] at begins
    -- the capital letter of the tail keeps the longer name from being reserved
    have free : ¬ left.Reserved := by
      refine not_reserved_of_upper ?_ upper
      rw [begins]
      exact List.mem_append_left _ within
    rw [if_neg free, List.append_nil] at begins
    exact String.toList_inj.mp begins

/-! ### Decoders and encoders -/

theorem decoderName_inj {left right : TypeName} (same : left.decoderName = right.decoderName) :
    left = right :=
  text_inj ((String.append_right_inj _).mp same)

theorem encoderName_inj {left right : TypeName} (same : left.encoderName = right.encoderName) :
    left = right :=
  text_inj ((String.append_right_inj _).mp same)

theorem decoderName_ne_encoderName (left right : TypeName) :
    left.decoderName ≠ right.encoderName := by
  intro same
  have lists := congrArg String.toList same
  rw [decoderName, encoderName, String.toList_append, String.toList_append] at lists
  exact absurd (List.cons.inj lists).1 (by decide)

end TypeName

/-! ### Companions of enums -/

namespace Elm

def companionNames (valueName : String) : List String :=
  [valueName ++ "ToString", valueName ++ "FromString", valueName ++ "Variants"]

theorem ne_of_ends {left right leftEnd rightEnd : String}
    (different : ∀ first second : List Char,
      leftEnd.toList.reverse ++ first ≠ rightEnd.toList.reverse ++ second) :
    left ++ leftEnd ≠ right ++ rightEnd := by
  intro same
  have reversed := congrArg (fun text => text.toList.reverse) same
  simp only [String.toList_append, List.reverse_append] at reversed
  exact different _ _ reversed

private theorem toString_ne_fromString (left right : String) :
    left ++ "ToString" ≠ right ++ "FromString" :=
  ne_of_ends (by simp)

private theorem toString_ne_variants (left right : String) :
    left ++ "ToString" ≠ right ++ "Variants" :=
  ne_of_ends (by simp)

private theorem fromString_ne_variants (left right : String) :
    left ++ "FromString" ≠ right ++ "Variants" :=
  ne_of_ends (by simp)

theorem companionNames_nodup (valueName : String) : (companionNames valueName).Nodup := by
  simp only [companionNames, List.nodup_cons, List.mem_cons, List.not_mem_nil, or_false,
    not_or, not_false_iff, List.nodup_nil, and_true]
  exact ⟨⟨toString_ne_fromString _ _, toString_ne_variants _ _⟩, fromString_ne_variants _ _⟩

theorem companionNames_disjoint {left right : String} (different : left ≠ right) :
    List.Disjoint (companionNames left) (companionNames right) := by
  intro name inLeft inRight
  simp only [companionNames, List.mem_cons, List.not_mem_nil, or_false] at inLeft inRight
  rcases inLeft with rfl | rfl | rfl
  · rcases inRight with same | same | same
    · exact different ((String.append_left_inj _).mp same)
    · exact toString_ne_fromString _ _ same
    · exact toString_ne_variants _ _ same
  · rcases inRight with same | same | same
    · exact toString_ne_fromString _ _ same.symm
    · exact different ((String.append_left_inj _).mp same)
    · exact fromString_ne_variants _ _ same
  · rcases inRight with same | same | same
    · exact toString_ne_variants _ _ same.symm
    · exact fromString_ne_variants _ _ same.symm
    · exact different ((String.append_left_inj _).mp same)

end Elm

end ElmClient
