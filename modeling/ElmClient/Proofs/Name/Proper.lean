/-
Type names are proper: they begin with a capital letter, and letters, digits and
underscores follow. Names made from raw keys are proper, and members and numbers keep
them so.
-/

import ElmClient.Name
import ElmClient.Proofs.Text.Case
import ElmClient.Proofs.Text.Split

namespace ElmClient

namespace Name

open Text

def Holdable (characters : List Char) : Prop :=
  ∀ character ∈ characters, isNameChar character = true

theorem Holdable.append {left right : List Char} (first : Holdable left)
    (second : Holdable right) : Holdable (left ++ right) := by
  intro character member
  rcases List.mem_append.mp member with before | behind
  · exact first character before
  · exact second character behind

theorem Holdable.not_mem {characters : List Char} (holdable : Holdable characters) {mark : Char}
    (apart : isNameChar mark = false) : mark ∉ characters :=
  fun member => absurd (holdable mark member) (Bool.eq_false_iff.mp apart)

theorem holdable_of_all {characters : List Char}
    (every : characters.all isNameChar = true) : Holdable characters :=
  List.all_eq_true.mp every

/-! ### Characters -/

theorem isNameChar_iff (character : Char) :
    isNameChar character = true ↔
      character.isUpper = true ∨ character.isLower = true ∨ character.isDigit = true
        ∨ character = '_' := by
  unfold isNameChar Char.isAlphanum
  simp only [isAlpha_eq, Bool.or_eq_true, beq_iff_eq, or_assoc]

theorem not_isBlank_of_isNameChar {character : Char} (holdable : isNameChar character = true) :
    isBlank character = false := by
  rw [isNameChar_iff, isUpper_iff, isLower_iff, isDigit_iff] at holdable
  rw [← Bool.not_eq_true]
  simp only [isBlank, Bool.or_eq_true, Bool.and_eq_true, decide_eq_true_eq, beq_iff_eq]
  rcases holdable with upper | lower | digit | rfl
  · omega
  · omega
  · omega
  · decide

theorem isNameChar_toUpper {character : Char} (holdable : isNameChar character = true) :
    isNameChar character.toUpper = true := by
  have raised := toNat_toUpper character
  rw [isNameChar_iff, isUpper_iff] at holdable ⊢
  rcases holdable with upper | lower | digit | rfl
  · rw [if_neg (by omega)] at raised
    exact Or.inl (by omega)
  · rw [isLower_iff] at lower
    rw [if_pos lower] at raised
    exact Or.inl (by omega)
  · rw [isDigit_iff] at digit
    rw [if_neg (by omega)] at raised
    exact Or.inr (Or.inr (Or.inl ((isDigit_iff _).mpr (by omega))))
  · exact Or.inr (Or.inr (Or.inr (by decide)))

private theorem isUpper_toUpper {character : Char} (holdable : isNameChar character = true)
    (noDigit : character.isDigit = false) (noUnderscore : character ≠ '_') :
    character.toUpper.isUpper = true := by
  have raised := toNat_toUpper character
  rw [isUpper_iff]
  rcases (isNameChar_iff character).mp holdable with upper | lower | digit | underscore
  · rw [isUpper_iff] at upper
    rw [if_neg (by omega)] at raised
    omega
  · rw [isLower_iff] at lower
    rw [if_pos lower] at raised
    omega
  · rw [digit] at noDigit
    contradiction
  · exact absurd underscore noUnderscore

theorem holdable_digits (number : Nat) : Holdable (toString number).toList := by
  intro character member
  have digit : character.isDigit = true := by
    apply Nat.isDigit_of_mem_toDigits (b := 10) (n := number) (by decide) (by decide)
    simpa [toString, Nat.repr] using member
  exact (isNameChar_iff character).mpr (Or.inr (Or.inr (Or.inl digit)))

/-! ### Segments -/

private theorem Holdable.capitalize {characters : List Char} (holdable : Holdable characters) :
    Holdable (capitalize characters) := by
  cases characters with
  | nil => exact holdable
  | cons first rest =>
      intro character member
      rcases List.mem_cons.mp member with rfl | later
      · exact isNameChar_toUpper (holdable first List.mem_cons_self)
      · exact holdable character (List.mem_cons_of_mem _ later)

private theorem Holdable.dropUnderscores {characters : List Char} (holdable : Holdable characters) :
    Holdable (dropUnderscores characters) := fun character member =>
  holdable character ((List.dropWhile_sublist _).subset member)

theorem ne_of_dropUnderscores {characters rest : List Char} {first : Char}
    (dropped : dropUnderscores characters = first :: rest) : first ≠ '_' := by
  have noUnderscore := List.head?_dropWhile_not (· == '_') characters
  rw [dropUnderscores] at dropped
  rw [dropped] at noUnderscore
  exact ne_of_beq_false noUnderscore

private theorem holdable_symbolWord (character : Char) :
    Holdable (symbolWord character).toList := by
  unfold symbolWord
  split <;> exact holdable_of_all (by decide)

private theorem holdable_symbolWords {raw : List Char} :
    ∀ word ∈ symbolWords raw, Holdable word := by
  intro word member
  unfold symbolWords at member
  split at member
  · rw [List.mem_singleton.mp member]
    exact holdable_of_all (by decide)
  · obtain ⟨character, _, rfl⟩ := List.mem_map.mp member
    exact holdable_symbolWord character

/-- Before gaps are closed, a segment holds spaces besides. -/
def Spaced (characters : List Char) : Prop :=
  ∀ character ∈ characters, character = ' ' ∨ isNameChar character = true

private theorem spaced_separate (characters : List Char) : Spaced (separate ' ' characters) := by
  intro character member
  obtain ⟨raw, _, rfl⟩ := List.mem_map.mp member
  split
  · exact Or.inr ‹_›
  · exact Or.inl rfl

theorem spaced_desymbolize (raw : List Char) : Spaced (desymbolize ' ' raw) := by
  unfold desymbolize
  split
  · intro character member
    rcases List.mem_append.mp member with dollar | later
    · have word : Holdable "dollar".toList := holdable_of_all (by decide)
      exact Or.inr (word character dollar)
    · rcases List.mem_cons.mp later with rfl | behind
      · exact Or.inl rfl
      · exact spaced_separate _ character behind
  · exact spaced_separate _

private theorem Spaced.append {left right : List Char} (first : Spaced left)
    (second : Spaced right) :
    Spaced (left ++ right) := by
  intro character member
  rcases List.mem_append.mp member with before | behind
  · exact first character before
  · exact second character behind

private theorem spaced_intercalate {words : List (List Char)}
    (spaced : ∀ word ∈ words, Spaced word) :
    Spaced (List.intercalate [' '] words) := by
  induction words with
  | nil => exact fun character member => absurd member List.not_mem_nil
  | cons word rest ih =>
      have wordSpaced := spaced word List.mem_cons_self
      have restSpaced := ih fun other member => spaced other (List.mem_cons_of_mem _ member)
      cases rest with
      | nil =>
          rw [List.intercalate_singleton]
          exact wordSpaced
      | cons next rest =>
          rw [List.intercalate_cons_cons]
          refine (wordSpaced.append ?_).append restSpaced
          intro character member
          exact Or.inl (List.mem_singleton.mp member)

private theorem spaced_splitChars {characters : List Char} (spaced : Spaced characters) :
    ∀ word ∈ splitChars ' ' characters, Spaced word := by
  induction characters with
  | nil =>
      intro word member
      rw [List.mem_singleton.mp member]
      exact spaced
  | cons character rest ih =>
      have restSpaced := ih fun other member => spaced other (List.mem_cons_of_mem _ member)
      have first := spaced character List.mem_cons_self
      intro word member
      unfold splitChars at member
      split at member
      · rcases List.mem_cons.mp member with rfl | later
        · exact fun other absent => absurd absent List.not_mem_nil
        · exact restSpaced word later
      · split at member
        · rename_i pieces
          exact absurd pieces (splitChars_ne_nil _ _)
        · rename_i piece others pieces
          rw [pieces] at restSpaced
          rcases List.mem_cons.mp member with rfl | later
          · intro other inWord
            rcases List.mem_cons.mp inWord with rfl | behind
            · exact first
            · exact restSpaced piece List.mem_cons_self other behind
          · exact restSpaced word (List.mem_cons_of_mem _ later)

private theorem Spaced.capitalize {characters : List Char} (spaced : Spaced characters) :
    Spaced (Name.capitalize characters) := by
  cases characters with
  | nil => exact spaced
  | cons first rest =>
      intro character member
      rcases List.mem_cons.mp member with rfl | later
      · rcases spaced first List.mem_cons_self with rfl | holdable
        · exact Or.inl (by decide)
        · exact Or.inr (isNameChar_toUpper holdable)
      · exact spaced character (List.mem_cons_of_mem _ later)

theorem spaced_titleCase {characters : List Char} (spaced : Spaced characters) :
    Spaced (titleCase characters) := by
  apply spaced_intercalate
  intro word member
  obtain ⟨piece, inPieces, rfl⟩ := List.mem_map.mp member
  exact (spaced_splitChars spaced piece inPieces).capitalize

private theorem holdable_closeGapsAfter {characters : List Char} (spaced : Spaced characters)
    (previous : Option Char) : Holdable (closeGapsAfter previous characters) := by
  induction characters generalizing previous with
  | nil => exact fun character member => absurd member List.not_mem_nil
  | cons character rest ih =>
      have closed := ih fun other member => spaced other (List.mem_cons_of_mem _ member)
      have underscore : isNameChar '_' = true := by decide
      unfold closeGapsAfter
      split
      · split
        · split
          · intro other member
            rcases List.mem_cons.mp member with rfl | later
            · exact underscore
            · exact closed none other later
          · exact closed none
        · exact closed none
      case isFalse visible =>
        intro other member
        rcases List.mem_cons.mp member with rfl | later
        · exact (spaced other List.mem_cons_self).resolve_left visible
        · exact closed (some character) other later

private theorem holdable_segment (raw : List Char) : Holdable (segment raw) := by
  unfold segment
  split
  · intro character member
    obtain ⟨word, inWords, inWord⟩ := List.mem_flatMap.mp member
    exact (holdable_symbolWords word inWords).capitalize character inWord
  · exact holdable_closeGapsAfter (spaced_titleCase (spaced_desymbolize raw)) none

private theorem holdable_memberChars (member : List Char) : Holdable (memberChars member) := by
  unfold memberChars
  split
  · exact holdable_of_all (by decide)
  · exact (holdable_segment member).dropUnderscores.capitalize

end Name

/-! ### Type names -/

namespace TypeName

open Name

/-- A capital letter, and what an identifier can hold. -/
def Proper (name : TypeName) : Prop :=
  ∃ first rest, name.text.toList = first :: rest ∧ first.isUpper = true ∧ Holdable rest

theorem Proper.extended {name other : TypeName} (proper : name.Proper) (tail : String)
    (text : other.text = name.text ++ tail) (holdable : Holdable tail.toList) :
    other.Proper := by
  obtain ⟨first, rest, characters, upper, restHoldable⟩ := proper
  refine ⟨first, rest ++ tail.toList, ?_, upper, restHoldable.append holdable⟩
  rw [text, String.toList_append, characters, List.cons_append]

theorem ofRaw_proper (raw : String) : (ofRaw raw).Proper := by
  have segment := (holdable_segment raw.toList).dropUnderscores
  unfold Proper ofRaw
  rw [String.toList_ofList, typeNameChars]
  cases dropped : dropUnderscores (Name.segment raw.toList) with
  | nil =>
      exact ⟨'E', "mpty".toList, by decide, by decide, holdable_of_all (by decide)⟩
  | cons first rest =>
      rw [dropped] at segment
      have restHoldable : Holdable rest := fun character member =>
        segment character (List.mem_cons_of_mem _ member)
      by_cases digit : first.isDigit = true
      · exact ⟨'N', first :: rest, by simp only [digit, if_true], by decide, segment⟩
      · refine ⟨first.toUpper, rest, by simp only [digit]; rfl, ?_, restHoldable⟩
        exact isUpper_toUpper (segment first List.mem_cons_self) (Bool.not_eq_true _ ▸ digit)
          (ne_of_dropUnderscores dropped)

theorem Proper.child {name : TypeName} (proper : name.Proper) (member : String) :
    (name.child member).Proper := by
  refine proper.extended ("_" ++ String.ofList (memberChars member.toList)) ?_ ?_
  · rw [TypeName.child, String.append_assoc]
  · rw [String.toList_append, String.toList_ofList (l := memberChars member.toList)]
    exact Holdable.append (holdable_of_all (by decide)) (holdable_memberChars _)

theorem Proper.withSuffix {name : TypeName} (proper : name.Proper) (number : Nat) :
    (name.withSuffix number).Proper := by
  have digits := holdable_digits number
  unfold TypeName.withSuffix
  split
  · split
    · refine proper.extended ("_" ++ toString number) (String.append_assoc ..) ?_
      rw [String.toList_append]
      exact Holdable.append (holdable_of_all (by decide)) digits
    · exact proper.extended _ rfl digits
  · exact proper.extended _ rfl digits

theorem Proper.replaceLead {name new : TypeName} (proper : name.Proper) (old : TypeName)
    (newProper : new.Proper) : (name.replaceLead old new).Proper := by
  unfold TypeName.replaceLead
  split
  case h_1 rest found =>
    obtain ⟨first, tail, text, upper, tailHoldable⟩ := proper
    have holdable : Holdable name.text.toList := by
      rw [text]
      exact List.forall_mem_cons.mpr ⟨(isNameChar_iff first).mpr (Or.inl upper), tailHoldable⟩
    refine newProper.extended (String.ofList rest) rfl fun character member => ?_
    rw [String.toList_ofList] at member
    refine holdable character ?_
    rw [Text.dropLead?_eq_some_iff.mp found]
    exact List.mem_append_right _ member
  case h_2 => exact proper

end TypeName

end ElmClient
