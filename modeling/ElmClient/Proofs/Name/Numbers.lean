/-
Numbers do not run together in a type name. The gaps of a key are closed by one walk over its
title-cased text. Closing them in passes, each of which misses a gap that begins at the digit
the gap before it ends with, comes to the same end once a pass changes nothing.
-/

import ElmClient.Proofs.Name.Settled
import Mathlib.Logic.Function.Iterate

namespace ElmClient.Name

open Text

/-! ### Digits of a text -/

/-- The digits of a text, each with whether it stands directly behind another one; `touching`
says whether a digit stands in front of the text. -/
def digits : Bool → List Char → List (Char × Bool)
  | _, [] => []
  | touching, character :: rest =>
      if character.isDigit then (character, touching) :: digits true rest else digits false rest

example : digits false "1.23".toList = [('1', false), ('2', false), ('3', true)] := by decide

def digit? (character : Char) : Option Char :=
  if character.isDigit then some character else none

private theorem digit?_eq_none_iff {character : Char} :
    digit? character = none ↔ character.isDigit = false := by
  cases digit : character.isDigit <;> simp [digit?, digit]

private theorem digits_digit {character : Char} (digit : character.isDigit = true) (touching : Bool)
    (rest : List Char) :
    digits touching (character :: rest) = (character, touching) :: digits true rest := by
  rw [digits, if_pos digit]

private theorem digits_other {character : Char} (other : character.isDigit = false)
    (touching : Bool)
    (rest : List Char) : digits touching (character :: rest) = digits false rest := by
  rw [digits, if_neg (Bool.eq_false_iff.mp other)]

private theorem digits_congr {left right : List Char} (same : left.map digit? = right.map digit?)
    (touching : Bool) : digits touching left = digits touching right := by
  induction left generalizing right touching with
  | nil => rw [List.map_eq_nil_iff.mp same.symm]
  | cons character rest ih =>
      cases right with
      | nil => contradiction
      | cons other behind =>
          obtain ⟨first, later⟩ := List.cons.inj same
          have rests := ih later
          unfold digit? at first
          by_cases digit : character.isDigit = true
          · by_cases also : other.isDigit = true
            · rw [if_pos digit, if_pos also] at first
              rw [digits_digit digit, digits_digit also, Option.some.inj first, rests]
            · rw [if_pos digit, if_neg also] at first
              contradiction
          · by_cases also : other.isDigit = true
            · rw [if_neg digit, if_pos also] at first
              contradiction
            · rw [digits_other (Bool.eq_false_iff.mpr digit),
                digits_other (Bool.eq_false_iff.mpr also), rests]

private theorem digits_apart {text : List Char}
    (apart : ∀ first ∈ text.head?, first.isDigit = false)
    (touching : Bool) : digits touching text = digits false text := by
  cases text with
  | nil => rfl
  | cons first rest => rw [digits_other (apart first rfl), digits_other (apart first rfl)]

private theorem digits_behind {front : List Char}
    (plain : ∀ character ∈ front, character.isDigit = false)
    (rest : List Char) : digits false (front ++ rest) = digits false rest := by
  induction front with
  | nil => rfl
  | cons character front ih =>
      obtain ⟨first, later⟩ := List.forall_mem_cons.mp plain
      rw [List.cons_append, digits_other first, ih later]

private theorem digits_none {text : List Char}
    (plain : ∀ character ∈ text, character.isDigit = false)
    (touching : Bool) : digits touching text = [] := by
  have alone := digits_behind plain []
  rw [List.append_nil] at alone
  refine (digits_apart (fun first begins => ?_) touching).trans alone
  exact plain first (List.mem_of_mem_head? begins)

private theorem digits_before {tail : List Char}
    (plain : ∀ character ∈ tail, character.isDigit = false)
    (text : List Char) (touching : Bool) :
    digits touching (text ++ tail) = digits touching text := by
  induction text generalizing touching with
  | nil => exact digits_none plain touching
  | cons character rest ih =>
      unfold digits
      rw [List.cons_append]
      simp only [ih]

section Dropping

variable {drop : Char → Bool} (spares : ∀ character, drop character = true →
  character.isDigit = false)

include spares

private theorem digits_dropWhile (text : List Char) :
    digits false (text.dropWhile drop) = digits false text := by
  have plain : ∀ character ∈ text.takeWhile drop, character.isDigit = false :=
    fun character member => spares character (List.mem_takeWhile_imp member)
  rw [← digits_behind plain, List.takeWhile_append_dropWhile]

private theorem digits_dropEnd (text : List Char) (touching : Bool) :
    digits touching (dropEnd drop text) = digits touching text := by
  have plain : ∀ character ∈ (text.reverse.takeWhile drop).reverse, character.isDigit = false :=
    fun character member => spares character (List.mem_takeWhile_imp (List.mem_reverse.mp member))
  rw [← digits_before plain, dropEnd, ← List.reverse_append, List.takeWhile_append_dropWhile,
    List.reverse_reverse]

end Dropping

private theorem not_isDigit_of_isBlank (character : Char) (blank : isBlank character = true) :
    character.isDigit = false := by
  rw [Bool.eq_false_iff, Ne, isDigit_iff]
  simp only [isBlank, Bool.or_eq_true, Bool.and_eq_true, decide_eq_true_eq, beq_iff_eq] at blank
  omega

private theorem digits_trimChars (text : List Char) :
    digits false (trimChars text) = digits false text := by
  rw [trimChars, digits_dropEnd not_isDigit_of_isBlank, digits_dropWhile not_isDigit_of_isBlank]

private theorem ne_touching_of_digits {text : List Char} {entry : Char × Bool}
    {back : List (Char × Bool)}
    (listed : digits false text = entry :: back) : entry.2 = false := by
  induction text with
  | nil => contradiction
  | cons character rest ih =>
      unfold digits at listed
      split at listed
      · rw [← (List.cons.inj listed).1]
      · exact ih listed

private theorem begins_of_digits {text : List Char} {second : Char} {back : List (Char × Bool)}
    (listed : digits true text = (second, true) :: back) : ∃ behind, text = second :: behind := by
  cases text with
  | nil => contradiction
  | cons character rest =>
      unfold digits at listed
      split at listed
      · exact ⟨rest, congrArg (· :: rest) (congrArg Prod.fst (List.cons.inj listed).1)⟩
      · have apart : true = false := ne_touching_of_digits listed
        contradiction

private theorem adjacent_of_digits {text : List Char} {touching begun : Bool} {first second : Char}
    {front back : List (Char × Bool)}
    (listed : digits touching text = front ++ (first, begun) :: (second, true) :: back) :
    ∃ before behind, text = before ++ first :: second :: behind ∧
      before.filter Char.isDigit = front.map Prod.fst := by
  induction text generalizing touching front with
  | nil => exact absurd listed.symm (List.append_ne_nil_of_right_ne_nil _ (List.cons_ne_nil _ _))
  | cons character rest ih =>
      by_cases digit : character.isDigit = true
      · rw [digits_digit digit] at listed
        cases front with
        | nil =>
            obtain ⟨head, tail⟩ := List.cons.inj listed
            obtain ⟨behind, rfl⟩ := begins_of_digits tail
            exact ⟨[], behind, congrArg (· :: second :: behind) (congrArg Prod.fst head), rfl⟩
        | cons entry front =>
            obtain ⟨head, tail⟩ := List.cons.inj listed
            obtain ⟨before, behind, rfl, kept⟩ := ih tail
            refine ⟨character :: before, behind, rfl, ?_⟩
            rw [List.filter_cons_of_pos digit, kept, ← head]
            rfl
      · rw [digits_other (Bool.eq_false_iff.mpr digit)] at listed
        obtain ⟨before, behind, rfl, kept⟩ := ih listed
        refine ⟨character :: before, behind, rfl, ?_⟩
        rw [List.filter_cons_of_neg digit, kept]

private theorem digits_of_adjacent {first second : Char} (firstDigit : first.isDigit = true)
    (secondDigit : second.isDigit = true) (before behind : List Char) (touching : Bool) :
    ∃ front begun back, digits touching (before ++ first :: second :: behind) =
        front ++ (first, begun) :: (second, true) :: back ∧
      front.map Prod.fst = before.filter Char.isDigit := by
  induction before generalizing touching with
  | nil =>
      refine ⟨[], touching, digits true behind, ?_, rfl⟩
      rw [List.nil_append, digits_digit firstDigit, digits_digit secondDigit]
      rfl
  | cons character before ih =>
      rw [List.cons_append]
      by_cases digit : character.isDigit = true
      · obtain ⟨front, begun, back, listed, kept⟩ := ih true
        refine ⟨(character, touching) :: front, begun, back, ?_, ?_⟩
        · rw [digits_digit digit, listed, List.cons_append]
        · rw [List.map_cons, kept, List.filter_cons_of_pos digit]
      · obtain ⟨front, begun, back, listed, kept⟩ := ih false
        refine ⟨front, begun, back, ?_, ?_⟩
        · rw [digits_other (Bool.eq_false_iff.mpr digit), listed]
        · rw [kept, List.filter_cons_of_neg digit]

/-! ### Digits of a type name -/

private theorem digit?_toUpper (character : Char) :
    digit? character.toUpper = digit? character := by
  by_cases small : 97 ≤ character.toNat ∧ character.toNat ≤ 122
  · have raised := toNat_toUpper character
    rw [if_pos small] at raised
    have upper : digit? character.toUpper = none := by
      rw [digit?_eq_none_iff, Bool.eq_false_iff, Ne, isDigit_iff]
      omega
    have lower : digit? character = none := by
      rw [digit?_eq_none_iff, Bool.eq_false_iff, Ne, isDigit_iff]
      omega
    rw [upper, lower]
  · have same : character.toUpper = character := by
      rw [← Char.toNat_inj, toNat_toUpper, if_neg small]
    rw [same]

private theorem map_digit?_capitalize (word : List Char) :
    (capitalize word).map digit? = word.map digit? := by
  cases word with
  | nil => rfl
  | cons first rest => rw [capitalize, List.map_cons, List.map_cons, digit?_toUpper]

private theorem map_intercalate {α β : Type} (change : α → β) (separator : List α)
    (pieces : List (List α)) :
    (List.intercalate separator pieces).map change =
      List.intercalate (separator.map change) (pieces.map (List.map change)) := by
  induction pieces with
  | nil => rfl
  | cons piece rest ih =>
      cases rest with
      | nil => rw [List.map_cons, List.map_nil, List.intercalate_singleton,
          List.intercalate_singleton]
      | cons next rest =>
          rw [List.intercalate_cons_cons, List.map_append, List.map_append, ih, List.map_cons,
            List.map_cons, List.map_cons, List.intercalate_cons_cons]

private theorem map_digit?_titleCase (spaced : List Char) :
    (titleCase spaced).map digit? = spaced.map digit? := by
  have pieces : ((splitChars ' ' spaced).map capitalize).map (List.map digit?) =
      (splitChars ' ' spaced).map (List.map digit?) := by
    rw [List.map_map]
    exact List.map_congr_left fun word _ => map_digit?_capitalize word
  rw [titleCase, map_intercalate, pieces, ← map_intercalate, intercalate_splitChars]

private theorem map_digit?_separate (raw : List Char) :
    (separate ' ' raw).map digit? = raw.map digit? := by
  rw [separate, List.map_map]
  refine List.map_congr_left fun character _ => ?_
  change digit? (if isNameChar character then character else ' ') = digit? character
  split
  · rfl
  case isFalse other =>
    have plain : digit? character = none := by
      rw [digit?_eq_none_iff, Bool.eq_false_iff]
      intro digit
      exact other (by rw [isNameChar, Char.isAlphanum, digit, Bool.or_true, Bool.true_or])
    rw [plain]
    decide

private theorem digits_desymbolize (raw : List Char) :
    digits false (desymbolize ' ' raw) = digits false raw := by
  rw [← digits_trimChars raw]
  unfold desymbolize
  split
  case h_1 rest trimmed =>
    have word : "dollar".toList.all (!·.isDigit) = true := by decide
    have plain : ∀ character ∈ "dollar".toList, character.isDigit = false :=
      fun character member =>
        (Bool.not_eq_true' _).mp (List.all_eq_true.mp word character member)
    rw [trimmed, digits_other (by decide) false rest, digits_behind plain,
      digits_other (by decide), digits_congr (map_digit?_separate rest)]
  case h_2 => exact digits_congr (map_digit?_separate _) false

/-! ### Closing gaps -/

theorem closeGapsAfter_space (previous : Option Char) (rest : List Char) :
    closeGapsAfter previous (' ' :: rest) =
      if previous.any Char.isDigit && (rest.dropWhile (· == ' ')).head?.any Char.isDigit then
        '_' :: closeGapsAfter none rest
      else closeGapsAfter none rest := by
  conv_lhs => unfold closeGapsAfter
  rw [if_pos rfl]
  cases previous with
  | none => cases rest.dropWhile (· == ' ') <;> rfl
  | some digit =>
      cases rest.dropWhile (· == ' ') with
      | nil => rw [List.head?_nil, Option.any_none, Bool.and_false, if_neg Bool.false_ne_true]
      | cons next behind => rfl

theorem closeGapsAfter_ink {character : Char} (ink : character ≠ ' ') (previous : Option Char)
    (rest : List Char) : closeGapsAfter previous (character :: rest) =
      character :: closeGapsAfter (some character) rest := by
  conv_lhs => unfold closeGapsAfter
  exact if_neg ink

private theorem head?_closeGapsAfter (text : List Char) :
    (closeGapsAfter none text).head? = (text.dropWhile (· == ' ')).head? := by
  induction text with
  | nil => rfl
  | cons character rest ih =>
      by_cases space : character = ' '
      · subst space
        rw [closeGapsAfter_space, if_neg (by simp), ih]
        rfl
      · rw [closeGapsAfter_ink space, List.dropWhile_cons_of_neg (by simpa using space)]
        rfl

/-- Closing gaps keeps the digits and what sets them apart. The digit in front of the text is
known as long as nothing stands between. -/
theorem digits_closeGapsAfter (text : List Char) {previous : Option Char} {touching : Bool}
    (known : touching = true → previous.any Char.isDigit = true) :
    digits touching (closeGapsAfter previous text) = digits touching text := by
  induction text generalizing previous touching with
  | nil => rfl
  | cons character rest ih =>
      by_cases space : character = ' '
      · subst space
        have behind : digits false (closeGapsAfter none rest) = digits false rest :=
          ih fun absent => absurd absent Bool.false_ne_true
        rw [digits_other (by decide), closeGapsAfter_space]
        split
        · rw [digits_other (by decide), behind]
        case isFalse noGap =>
          cases touching with
          | false => exact behind
          | true =>
              refine (digits_apart (fun first begins => ?_) true).trans behind
              rw [known rfl, Bool.true_and, ← head?_closeGapsAfter, begins] at noGap
              exact Bool.eq_false_iff.mpr noGap
      · rw [closeGapsAfter_ink space]
        by_cases digit : character.isDigit = true
        · have behind : digits true (closeGapsAfter (some character) rest) = digits true rest :=
            ih fun _ => digit
          rw [digits_digit digit, digits_digit digit, behind]
        · have behind : digits false (closeGapsAfter (some character) rest) = digits false rest :=
            ih fun absent => absurd absent Bool.false_ne_true
          have other := Bool.eq_false_iff.mpr digit
          rw [digits_other other, digits_other other, behind]

private theorem not_isDigit_of_underscore (character : Char)
    (underscore : (character == '_') = true) :
    character.isDigit = false := by
  rw [eq_of_beq underscore]
  decide

private theorem not_isDigit_of_symbolWords {raw word : List Char}
    (listed : word ∈ symbolWords raw) :
    ∀ character ∈ capitalize word, character.isDigit = false := by
  have low (character : Char) (member : character ∈ word) : digit? character = none := by
    have lower := (isLower_symbolWords word listed).2 character member
    rw [isLower_iff] at lower
    rw [digit?_eq_none_iff, Bool.eq_false_iff, Ne, isDigit_iff]
    omega
  intro character member
  have changed : digit? character ∈ (capitalize word).map digit? := List.mem_map_of_mem member
  rw [map_digit?_capitalize] at changed
  obtain ⟨letter, inWord, same⟩ := List.mem_map.mp changed
  rw [← digit?_eq_none_iff, ← same, low letter inWord]

private theorem digits_segment (raw : List Char) :
    digits false (segment raw) = digits false raw := by
  unfold segment
  split
  case isTrue symbolic =>
    -- A key of symbols has no digits, and neither have the words for them.
    have none : ∀ character ∈ raw, character.isDigit = false := by
      intro character member
      have other := List.any_eq_false.mp (Bool.not_eq_true' _ ▸ symbolic) character member
      rw [Char.isAlphanum, Bool.or_eq_true, not_or] at other
      exact Bool.eq_false_iff.mpr other.2
    rw [digits_none none]
    refine digits_none (fun character member => ?_) false
    obtain ⟨word, listed, inWord⟩ := List.mem_flatMap.mp member
    exact not_isDigit_of_symbolWords listed character inWord
  case isFalse =>
    have closed : digits false (closeGapsAfter none (titleCase (desymbolize ' ' raw))) =
        digits false (titleCase (desymbolize ' ' raw)) :=
      digits_closeGapsAfter _ fun absent => absurd absent Bool.false_ne_true
    rw [closeGaps, closed, digits_congr (map_digit?_titleCase _), digits_desymbolize]

/-- A type name has the digits of its key, and sets apart those that the key sets apart. -/
theorem digits_typeNameChars (raw : List Char) :
    digits false (typeNameChars raw) = digits false raw := by
  have shortened := digits_dropWhile not_isDigit_of_underscore (segment raw)
  rw [digits_segment] at shortened
  rw [← shortened]
  unfold typeNameChars dropUnderscores
  cases (segment raw).dropWhile (· == '_') with
  | nil => decide
  | cons first rest =>
      dsimp only
      split
      · exact digits_other (by decide) false _
      · exact digits_congr (map_digit?_capitalize _) false

/-! ### Passes -/

/-- The digit behind the spaces that follow the digit `first`, and what stands behind it. -/
def gapAfter? (first : Char) : List Char → Option (Char × List Char)
  | ' ' :: rest =>
      match rest.dropWhile (· == ' ') with
      | second :: behind =>
          if first.isDigit && second.isDigit then some (second, behind) else none
      | [] => none
  | _ => none

private theorem gapAfter?_eq_some {first second : Char} {rest behind : List Char}
    (gap : gapAfter? first rest = some (second, behind)) :
    first.isDigit = true ∧ second.isDigit = true ∧
      ∃ spaces, rest = ' ' :: List.replicate spaces ' ' ++ second :: behind := by
  unfold gapAfter? at gap
  split at gap
  case h_1 more =>
    split at gap
    case h_1 next after reached =>
      split at gap
      case isTrue both =>
        obtain ⟨rfl, rfl⟩ := Prod.mk.inj (Option.some.inj gap)
        obtain ⟨firstDigit, secondDigit⟩ := Bool.and_eq_true_iff.mp both
        refine ⟨firstDigit, secondDigit, (more.takeWhile (· == ' ')).length, ?_⟩
        have spaces : more.takeWhile (· == ' ') =
            List.replicate (more.takeWhile (· == ' ')).length ' ' :=
          List.eq_replicate_of_mem fun character member =>
            eq_of_beq (List.mem_takeWhile_imp (p := (· == ' ')) member)
        rw [← spaces, ← reached, List.cons_append, List.takeWhile_append_dropWhile]
      case isFalse => contradiction
    case h_2 => contradiction
  case h_2 => contradiction

private theorem length_gapAfter? {first second : Char} {rest behind : List Char}
    (gap : gapAfter? first rest = some (second, behind)) :
    behind.length < rest.length := by
  obtain ⟨-, -, spaces, rfl⟩ := gapAfter?_eq_some gap
  simp only [List.cons_append, List.length_cons, List.length_append]
  omega

private theorem gapAfter?_space (first : Char) (rest : List Char) :
    gapAfter? first (' ' :: rest) = none ↔
      (first.isDigit && (rest.dropWhile (· == ' ')).head?.any Char.isDigit) = false := by
  rw [gapAfter?]
  cases rest.dropWhile (· == ' ') with
  | nil => simp
  | cons second behind =>
      dsimp only [List.head?_cons, Option.any_some]
      cases first.isDigit && second.isDigit <;> simp

/-- One pass from the left that sets two digits apart by an underscore. The second digit of a
gap is not looked at again, so that a gap behind it is left to the next pass. -/
def closePass : List Char → List Char
  | [] => []
  | first :: rest =>
      match _gap : gapAfter? first rest with
      | some (second, behind) => first :: '_' :: second :: closePass behind
      | none => first :: closePass rest
termination_by text => text.length
decreasing_by
  · have shorter := length_gapAfter? _gap
    simp only [List.length_cons]
    omega
  · exact Nat.lt_succ_self _

private theorem closePass_gap {first second : Char} {rest behind : List Char}
    (gap : gapAfter? first rest = some (second, behind)) :
    closePass (first :: rest) = first :: '_' :: second :: closePass behind := by
  rw [closePass]
  split
  case h_1 found =>
    rw [gap] at found
    obtain ⟨rfl, rfl⟩ := Prod.mk.inj (Option.some.inj found)
    rfl
  case h_2 found =>
    rw [gap] at found
    contradiction

private theorem closePass_plain {first : Char} {rest : List Char}
    (noGap : gapAfter? first rest = none) :
    closePass (first :: rest) = first :: closePass rest := by
  rw [closePass]
  split
  case h_1 found =>
    rw [noGap] at found
    contradiction
  case h_2 => rfl

private theorem ink_of_isDigit {character : Char} (digit : character.isDigit = true) :
    character ≠ ' ' := by
  rintro rfl
  contradiction

private theorem head?_closePass (text : List Char) :
    ((closePass text).dropWhile (· == ' ')).head? = (text.dropWhile (· == ' ')).head? := by
  fun_induction closePass text with
  | case1 => rfl
  | case2 first rest second behind gap ih =>
      have ink := ink_of_isDigit (gapAfter?_eq_some gap).1
      rw [List.dropWhile_cons_of_neg (by simpa using ink),
        List.dropWhile_cons_of_neg (by simpa using ink)]
      rfl
  | case3 first rest noGap ih =>
      by_cases space : first = ' '
      · rw [List.dropWhile_cons_of_pos (by simpa using space),
          List.dropWhile_cons_of_pos (by simpa using space), ih]
      · rw [List.dropWhile_cons_of_neg (by simpa using space),
          List.dropWhile_cons_of_neg (by simpa using space)]
        rfl

theorem closeGapsAfter_spaces (spaces : Nat) (text : List Char) :
    closeGapsAfter none (List.replicate spaces ' ' ++ text) = closeGapsAfter none text := by
  induction spaces with
  | zero => rfl
  | succ spaces ih =>
      rw [List.replicate_succ, List.cons_append, closeGapsAfter_space, if_neg (by simp), ih]

theorem closeGapsAfter_gap {first second : Char} (firstDigit : first.isDigit = true)
    (secondDigit : second.isDigit = true) (spaces : Nat) (behind : List Char) :
    closeGapsAfter (some first) (' ' :: List.replicate spaces ' ' ++ second :: behind) =
      '_' :: second :: closeGapsAfter (some second) behind := by
  have ink := ink_of_isDigit secondDigit
  have reached : ((List.replicate spaces ' ' ++ second :: behind).dropWhile (· == ' ')).head? =
      some second := by
    rw [← head?_closeGapsAfter, closeGapsAfter_spaces, closeGapsAfter_ink ink]
    rfl
  rw [List.cons_append, closeGapsAfter_space, reached, Option.any_some, Option.any_some,
    firstDigit, secondDigit, if_pos (by rfl), closeGapsAfter_spaces, closeGapsAfter_ink ink]

/-- What one walk joins, it joins alike after a pass. -/
theorem closeGapsAfter_closePass (text : List Char) (previous : Option Char) :
    closeGapsAfter previous (closePass text) = closeGapsAfter previous text := by
  fun_induction closePass text generalizing previous with
  | case1 => rfl
  | case2 first rest second behind gap ih =>
      obtain ⟨firstDigit, secondDigit, spaces, rfl⟩ := gapAfter?_eq_some gap
      rw [closeGapsAfter_ink (ink_of_isDigit firstDigit),
        closeGapsAfter_ink (ink_of_isDigit firstDigit), closeGapsAfter_ink (by decide),
        closeGapsAfter_ink (ink_of_isDigit secondDigit), ih,
        closeGapsAfter_gap firstDigit secondDigit]
  | case3 first rest noGap ih =>
      by_cases space : first = ' '
      · subst space
        rw [closeGapsAfter_space, closeGapsAfter_space, head?_closePass, ih]
      · rw [closeGapsAfter_ink space, closeGapsAfter_ink space, ih]

theorem closeGaps_passes (passes : Nat) (text : List Char) :
    closeGaps (closePass^[passes] text) = closeGaps text := by
  induction passes generalizing text with
  | zero => rfl
  | succ passes ih =>
      rw [Function.iterate_succ_apply, ih]
      exact closeGapsAfter_closePass text none

/-- A pass that changes the text leaves fewer spaces. -/
theorem count_closePass (text : List Char) :
    closePass text = text ∨ (closePass text).count ' ' < text.count ' ' := by
  fun_induction closePass text with
  | case1 => exact Or.inl rfl
  | case2 first rest second behind gap ih =>
      obtain ⟨firstDigit, secondDigit, spaces, rfl⟩ := gapAfter?_eq_some gap
      have fewer : (closePass behind).count ' ' ≤ behind.count ' ' := by
        rcases ih with same | less
        · rw [same]
        · exact less.le
      refine Or.inr ?_
      rw [List.count_cons_of_ne (ink_of_isDigit firstDigit), List.count_cons_of_ne (by decide),
        List.count_cons_of_ne (ink_of_isDigit secondDigit),
        List.count_cons_of_ne (ink_of_isDigit firstDigit), List.cons_append, List.count_cons_self,
        List.count_append, List.count_cons_of_ne (ink_of_isDigit secondDigit)]
      omega
  | case3 first rest noGap ih =>
      rcases ih with same | less
      · exact Or.inl (congrArg (first :: ·) same)
      · refine Or.inr ?_
        rw [List.count_cons, List.count_cons]
        exact Nat.add_lt_add_right less _

private theorem exists_settled (text : List Char) :
    ∃ passes, closePass (closePass^[passes] text) = closePass^[passes] text := by
  induction bound : text.count ' ' using Nat.strong_induction_on generalizing text with
  | _ spaces ih =>
      rcases count_closePass text with same | less
      · exact ⟨0, same⟩
      · obtain ⟨passes, settled⟩ := ih _ (bound ▸ less) (closePass text) rfl
        exact ⟨passes + 1, settled⟩

theorem closeGapsAfter_settled {text : List Char} (settled : closePass text = text)
    {previous : Option Char} (noGap : ∀ digit ∈ previous, gapAfter? digit text = none) :
    closeGapsAfter previous text = text.filter (· != ' ') := by
  induction text generalizing previous with
  | nil => rfl
  | cons character rest ih =>
      have plain : gapAfter? character rest = none := by
        cases gap : gapAfter? character rest with
        | none => rfl
        | some found =>
            obtain ⟨-, -, spaces, rfl⟩ := gapAfter?_eq_some gap
            rw [closePass_gap gap] at settled
            exact absurd (List.cons.inj (List.cons.inj settled).2).1 (by decide)
      rw [closePass_plain plain] at settled
      have later := (List.cons.inj settled).2
      by_cases space : character = ' '
      · subst space
        have narrow : ¬(previous.any Char.isDigit &&
            (rest.dropWhile (· == ' ')).head?.any Char.isDigit) = true := by
          cases previous with
          | none => exact Bool.false_ne_true
          | some digit =>
              exact Bool.eq_false_iff.mp ((gapAfter?_space digit rest).mp (noGap digit rfl))
        rw [closeGapsAfter_space, if_neg narrow,
          ih later fun _ absent => absurd absent (Option.not_mem_none _)]
        rfl
      · rw [closeGapsAfter_ink space, ih later, List.filter_cons_of_pos (by simpa using space)]
        intro digit same
        rwa [← Option.some.inj same]

/-! ### Ends of the titled text -/

private theorem Spaced.eq_replicate {text : List Char} (spaced : Spaced text)
    (blank : ∀ character ∈ text, isBlank character = true) :
    text = List.replicate text.length ' ' := by
  refine List.eq_replicate_of_mem fun character member => ?_
  refine (spaced character member).resolve_right fun holdable => ?_
  have seen := not_isBlank_of_isNameChar holdable
  rw [blank character member] at seen
  contradiction

theorem closeGapsAfter_tail (text : List Char) (spaces : Nat) (previous : Option Char) :
    closeGapsAfter previous (text ++ List.replicate spaces ' ') = closeGapsAfter previous text := by
  have none : closeGapsAfter none (List.replicate spaces ' ') = [] := by
    have alone := closeGapsAfter_spaces spaces []
    rwa [List.append_nil] at alone
  induction text generalizing previous with
  | nil =>
      cases spaces with
      | zero => rfl
      | succ spaces =>
          rw [List.replicate_succ, closeGapsAfter_space, if_neg (by simp)] at none
          rw [List.nil_append, List.replicate_succ, closeGapsAfter_space, ← head?_closeGapsAfter,
            none, List.head?_nil, Option.any_none, Bool.and_false, if_neg Bool.false_ne_true]
          rfl
  | cons character rest ih =>
      rw [List.cons_append]
      by_cases space : character = ' '
      · subst space
        rw [closeGapsAfter_space, closeGapsAfter_space, ← head?_closeGapsAfter,
          ← head?_closeGapsAfter, ih]
      · rw [closeGapsAfter_ink space, closeGapsAfter_ink space, ih]

theorem closeGaps_trimChars {text : List Char} (spaced : Spaced text) :
    closeGaps (trimChars text) = closeGaps text := by
  have front : Spaced (text.takeWhile isBlank) := fun character member =>
    spaced character ((List.takeWhile_sublist _).subset member)
  have back : Spaced ((text.dropWhile isBlank).reverse.takeWhile isBlank) := fun character member =>
    spaced character ((List.dropWhile_sublist _).subset
      (List.mem_reverse.mp ((List.takeWhile_sublist _).subset member)))
  have shortened : trimChars text ++ ((text.dropWhile isBlank).reverse.takeWhile isBlank).reverse =
      text.dropWhile isBlank := by
    rw [trimChars, dropEnd, ← List.reverse_append, List.takeWhile_append_dropWhile,
      List.reverse_reverse]
  conv_rhs =>
    rw [← List.takeWhile_append_dropWhile (p := isBlank) (l := text), ← shortened,
      back.eq_replicate fun _ member => List.mem_takeWhile_imp member,
      front.eq_replicate fun _ member => List.mem_takeWhile_imp member, List.reverse_replicate]
  rw [closeGaps, closeGaps, closeGapsAfter_spaces, closeGapsAfter_tail]

private theorem spaced_closePass {text : List Char} (spaced : Spaced text) :
    Spaced (closePass text) := by
  fun_induction closePass text with
  | case1 => exact spaced
  | case2 first rest second behind gap ih =>
      obtain ⟨-, -, spaces, rfl⟩ := gapAfter?_eq_some gap
      obtain ⟨firstSpaced, later⟩ := List.forall_mem_cons.mp spaced
      obtain ⟨-, later⟩ := List.forall_mem_append.mp later
      obtain ⟨secondSpaced, behindSpaced⟩ := List.forall_mem_cons.mp later
      exact List.forall_mem_cons.mpr ⟨firstSpaced, List.forall_mem_cons.mpr
        ⟨Or.inr (by decide), List.forall_mem_cons.mpr ⟨secondSpaced, ih behindSpaced⟩⟩⟩
  | case3 first rest noGap ih =>
      obtain ⟨firstSpaced, later⟩ := List.forall_mem_cons.mp spaced
      exact List.forall_mem_cons.mpr ⟨firstSpaced, ih later⟩

private theorem spaced_passes (passes : Nat) {text : List Char} (spaced : Spaced text) :
    Spaced (closePass^[passes] text) := by
  induction passes generalizing text with
  | zero => exact spaced
  | succ passes ih => exact ih (spaced_closePass spaced)

private theorem Spaced.filter_ink {text : List Char} (spaced : Spaced text) :
    text.filter (· != ' ') = text.filter (!isBlank ·) := by
  refine List.filter_congr fun character member => ?_
  rcases spaced character member with rfl | holdable
  · decide
  · have ink : character ≠ ' ' := by
      rintro rfl
      contradiction
    rw [not_isBlank_of_isNameChar holdable, bne_iff_ne.mpr ink]
    rfl

/-! ### Type names -/

/-- The words of a key that is not symbolic, title-cased, before their gaps are closed. -/
def titled (raw : List Char) : List Char :=
  trimChars (titleCase (desymbolize ' ' raw))

/-- What keeps the numbers of a key apart in the type name made from it. -/
structure NumbersApart (raw : String) : Prop where
  /-- After a number of passes nothing changes any more. The segment is what is left then
  without the blanks. -/
  settles : ∃ passes, closePass (closePass^[passes] (titled raw.toList)) =
      closePass^[passes] (titled raw.toList) ∧
    segment raw.toList = (closePass^[passes] (titled raw.toList)).filter (!isBlank ·)
  /-- The name has the same digits, and the same of them touch. -/
  digits : digits false (TypeName.ofRaw raw).text.toList = digits false raw.toList
  /-- Two digits next to each other in the name are the same two in the key, with the same
  digits in front of them. -/
  adjacent : ∀ before first second behind,
    (TypeName.ofRaw raw).text.toList = before ++ first :: second :: behind →
    first.isDigit = true → second.isDigit = true →
    ∃ rawBefore rawBehind, raw.toList = rawBefore ++ first :: second :: rawBehind ∧
      rawBefore.filter Char.isDigit = before.filter Char.isDigit
  /-- A key of the same name has the same digits, and the same of them touch. -/
  same : ∀ other, TypeName.ofRaw other = TypeName.ofRaw raw →
    Name.digits false other.toList = Name.digits false raw.toList

theorem segment_settles {raw : List Char} (named : isSymbolic raw = false) :
    ∃ passes, closePass (closePass^[passes] (titled raw)) = closePass^[passes] (titled raw) ∧
      segment raw = (closePass^[passes] (titled raw)).filter (!isBlank ·) := by
  have titleSpaced : Spaced (titleCase (desymbolize ' ' raw)) :=
    spaced_titleCase (spaced_desymbolize raw)
  have spaced : Spaced (titled raw) := fun character member =>
    titleSpaced character ((List.dropWhile_sublist _).subset
      ((dropEnd_isPrefix _ _).subset member))
  obtain ⟨passes, settled⟩ := exists_settled (titled raw)
  refine ⟨passes, settled, ?_⟩
  have joined : segment raw = closeGaps (closePass^[passes] (titled raw)) := by
    rw [closeGaps_passes, titled, closeGaps_trimChars titleSpaced, segment, named]
    rfl
  rw [joined, ← (spaced_passes passes spaced).filter_ink]
  exact closeGapsAfter_settled settled fun _ absent => absurd absent (Option.not_mem_none _)

private theorem digits_ofRaw (raw : String) :
    digits false (TypeName.ofRaw raw).text.toList = digits false raw.toList := by
  rw [TypeName.ofRaw, String.toList_ofList, digits_typeNameChars]

/-- Numbers are never fused in a type name made from a key with a letter or a digit. -/
theorem numbersApart_ofRaw (raw : String) (named : isSymbolic raw.toList = false) :
    NumbersApart raw where
  settles := segment_settles named
  digits := digits_ofRaw raw
  adjacent := by
    intro before first second behind spelled firstDigit secondDigit
    obtain ⟨front, begun, back, listed, kept⟩ :=
      digits_of_adjacent firstDigit secondDigit before behind false
    rw [← spelled, digits_ofRaw] at listed
    obtain ⟨rawBefore, rawBehind, whole, rawKept⟩ := adjacent_of_digits listed
    exact ⟨rawBefore, rawBehind, whole, rawKept.trans kept⟩
  same := by
    intro other name
    rw [← digits_ofRaw, name, digits_ofRaw]

/-- Two gaps of which one pass closes the first only. -/
theorem numbersApart_ofRaw_gaps : isSymbolic "v1 2 3".toList = false ∧ NumbersApart "v1 2 3" :=
  ⟨by decide, numbersApart_ofRaw "v1 2 3" (by decide)⟩

end ElmClient.Name
