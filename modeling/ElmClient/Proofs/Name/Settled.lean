/-
Names are settled. A type name is made from a raw key, as a member, with a number, or with
one lead exchanged for another, and made from its own text it stays as it is. So does a value
name, except that an underscore that it was escaped with is taken off and put back.
-/

import ElmClient.Proofs.Name.Value
import ElmClient.Proofs.Text.Pair
import Mathlib.Data.List.TakeWhile

namespace ElmClient

namespace Text

/-! ### Ends of a text -/

theorem dropEnd_isPrefix (drop : Char → Bool) (characters : List Char) :
    dropEnd drop characters <+: characters := by
  rw [dropEnd, ← List.reverse_suffix, List.reverse_reverse]
  exact List.dropWhile_suffix drop

theorem dropEnd_eq_self {drop : Char → Bool} {characters : List Char}
    (kept : ∀ last ∈ characters.getLast?, drop last = false) :
    dropEnd drop characters = characters := by
  have held : characters.reverse.dropWhile drop = characters.reverse := by
    cases ends : characters.reverse with
    | nil => rfl
    | cons last before =>
        refine List.dropWhile_cons_of_neg ?_
        rw [kept last (by rw [List.getLast?_eq_head?_reverse, ends]; rfl)]
        exact Bool.false_ne_true
  rw [dropEnd, held, List.reverse_reverse]

private theorem getLast?_dropEnd (drop : Char → Bool) (characters : List Char) :
    ∀ last ∈ (dropEnd drop characters).getLast?, drop last = false := by
  intro last ends
  have kept := List.head?_dropWhile_not drop characters.reverse
  rw [dropEnd, List.getLast?_reverse] at ends
  rw [ends] at kept
  exact kept

private theorem mem_dropWhile {drop : Char → Bool} {characters : List Char} {character : Char}
    (member : character ∈ characters) (kept : drop character = false) :
    character ∈ characters.dropWhile drop := by
  rw [← List.takeWhile_append_dropWhile (p := drop) (l := characters)] at member
  refine (List.mem_append.mp member).resolve_left fun dropped => ?_
  rw [List.mem_takeWhile_imp dropped] at kept
  contradiction

private theorem mem_dropEnd {drop : Char → Bool} {characters : List Char} {character : Char}
    (member : character ∈ characters) (kept : drop character = false) :
    character ∈ dropEnd drop characters :=
  List.mem_reverse.mpr (mem_dropWhile (List.mem_reverse.mpr member) kept)

theorem trimChars_eq_self {characters : List Char}
    (noBlank : ∀ character ∈ characters, isBlank character = false) :
    trimChars characters = characters := by
  have front : characters.dropWhile isBlank = characters := by
    cases characters with
    | nil => rfl
    | cons first rest =>
        refine List.dropWhile_cons_of_neg ?_
        rw [noBlank first List.mem_cons_self]
        exact Bool.false_ne_true
  rw [trimChars, front]
  exact dropEnd_eq_self fun last ends => noBlank last (List.mem_of_getLast? ends)

end Text

namespace Name

open Text

/-! ### Keys that are identifiers -/

private theorem Holdable.sublist {characters other : List Char} (holdable : Holdable characters)
    (within : other.Sublist characters) : Holdable other :=
  fun character member => holdable character (within.subset member)

section Identifier

variable {characters : List Char} (holdable : Holdable characters)

include holdable

theorem desymbolize_holdable (separator : Char) :
    desymbolize separator characters = characters := by
  have separated : separate separator characters = characters := by
    refine (List.map_congr_left fun character member => ?_).trans (List.map_id _)
    exact if_pos (holdable character member)
  unfold desymbolize
  rw [trimChars_eq_self fun character member =>
    not_isBlank_of_isNameChar (holdable character member)]
  split
  · exact absurd (holdable '$' List.mem_cons_self) (by decide)
  · exact separated

theorem closeGapsAfter_holdable (previous : Option Char) :
    closeGapsAfter previous characters = characters := by
  induction characters generalizing previous with
  | nil => rfl
  | cons character rest ih =>
      obtain ⟨first, later⟩ := List.forall_mem_cons.mp holdable
      have ink : character ≠ ' ' := by
        rintro rfl
        exact absurd first (by decide)
      unfold closeGapsAfter
      rw [if_neg ink, ih later]

end Identifier

private theorem toUpper_eq_self {character : Char} (upper : character.isUpper = true) :
    character.toUpper = character := by
  rw [isUpper_iff] at upper
  rw [← Char.toNat_inj, toNat_toUpper, if_neg (by omega)]

private theorem toLower_eq_self {character : Char} (lower : character.isLower = true) :
    character.toLower = character := by
  rw [isLower_iff] at lower
  rw [← Char.toNat_inj, toNat_toLower, if_neg (by omega)]

private theorem not_isSymbolic {first : Char} (letter : first.isAlphanum = true)
    (rest : List Char) :
    isSymbolic (first :: rest) = false := by
  rw [isSymbolic, List.any_cons, letter]
  rfl

theorem dropUnderscores_eq_self {characters : List Char}
    (begins : ∀ first ∈ characters.head?, first ≠ '_') :
    dropUnderscores characters = characters := by
  cases characters with
  | nil => rfl
  | cons first rest =>
      refine List.dropWhile_cons_of_neg ?_
      rw [beq_iff_eq]
      exact begins first rfl

/-! ### Type names -/

theorem segment_eq_self {first : Char} {rest : List Char} (upper : first.isUpper = true)
    (holdable : Holdable (first :: rest)) : segment (first :: rest) = first :: rest := by
  have letter : first.isAlphanum = true := by
    rw [Char.isAlphanum, isAlpha_eq, upper]
    rfl
  have titled : titleCase (first :: rest) = first :: rest := by
    rw [titleCase, splitChars_whole (holdable.not_mem (by decide)), List.map_singleton,
      List.intercalate_singleton, capitalize, toUpper_eq_self upper]
  rw [segment, if_neg (by rw [not_isSymbolic letter]; exact Bool.false_ne_true),
    desymbolize_holdable holdable, titled, closeGaps, closeGapsAfter_holdable holdable]

end Name

namespace TypeName

open Name Text

/-- A proper name is the name made from its own text. -/
theorem Proper.ofRaw_text {name : TypeName} (proper : name.Proper) : ofRaw name.text = name := by
  obtain ⟨first, rest, text, upper, holdable⟩ := proper
  have whole : Holdable (first :: rest) :=
    List.forall_mem_cons.mpr ⟨(isNameChar_iff first).mpr (Or.inl upper), holdable⟩
  have begins : first ≠ '_' ∧ first.isDigit = false := by
    rw [isUpper_iff] at upper
    rw [← Bool.not_eq_true, isDigit_iff]
    refine ⟨?_, by omega⟩
    rintro rfl
    exact absurd upper (by decide)
  have kept : dropUnderscores (first :: rest) = first :: rest := by
    refine dropUnderscores_eq_self fun other same => ?_
    rw [← Option.some.inj same]
    exact begins.1
  refine text_inj (String.toList_inj.mp ?_)
  rw [ofRaw, String.toList_ofList, text, typeNameChars, segment_eq_self upper whole, kept]
  dsimp only
  rw [begins.2, if_neg Bool.false_ne_true, capitalize, toUpper_eq_self upper]

end TypeName

namespace Name

open Text

/-! ### Words of a key -/

/-- Words of letters and digits with single underscores between them. -/
structure Joined (word : List Char) : Prop where
  holdable : Holdable word
  begins : ∃ first rest, word = first :: rest ∧ first ≠ '_'
  single : hasPair '_' '_' word = false
  closed : word.getLast? ≠ some '_'

private theorem joined_letters {word : List Char} (inhabited : word ≠ [])
    (low : ∀ letter ∈ word, letter.isLower = true) : Joined word := by
  have noUnderscore : '_' ∉ word := fun member => absurd (low '_' member) (by decide)
  obtain ⟨first, rest, rfl⟩ := List.exists_cons_of_ne_nil inhabited
  refine ⟨fun letter member => (isNameChar_iff letter).mpr (Or.inr (Or.inl (low letter member))),
    ⟨first, rest, rfl, fun same => noUnderscore (same ▸ List.mem_cons_self)⟩,
    hasPair_of_not_mem noUnderscore, fun ends => noUnderscore (List.mem_of_getLast? ends)⟩

private theorem Joined.word {word rest : List Char} (first : Joined word) (later : Joined rest) :
    Joined (word ++ ['_'] ++ rest) := by
  obtain ⟨head, tail, rfl, headInk⟩ := first.begins
  obtain ⟨next, behind, rfl, nextInk⟩ := later.begins
  refine ⟨(first.holdable.append (holdable_of_all (by decide))).append later.holdable,
    ⟨head, _, rfl, headInk⟩, ?_, ?_⟩
  · rw [List.append_assoc, hasPair_append, first.single, beq_false_of_ne first.closed,
      List.singleton_append, hasPair, later.single, List.head?_cons,
      beq_false_of_ne (fun same => nextInk (Option.some.inj same))]
    rfl
  · rw [List.getLast?_append_of_ne_nil _ (List.cons_ne_nil _ _)]
    exact later.closed

theorem isLower_symbolWords {raw : List Char} :
    ∀ word ∈ symbolWords raw, word ≠ [] ∧ ∀ letter ∈ word, letter.isLower = true := by
  have spelled (character : Char) : (symbolWord character).toList ≠ [] ∧
      (symbolWord character).toList.all Char.isLower = true := by
    unfold symbolWord
    split <;> decide
  intro word member
  unfold symbolWords at member
  split at member
  · rw [List.mem_singleton.mp member]
    exact ⟨by decide, List.all_eq_true.mp (by decide)⟩
  · obtain ⟨character, _, rfl⟩ := List.mem_map.mp member
    obtain ⟨inhabited, low⟩ := spelled character
    exact ⟨inhabited, List.all_eq_true.mp low⟩

private theorem joined_intercalate {words : List (List Char)} (inhabited : words ≠ [])
    (joined : ∀ word ∈ words, Joined word) : Joined (List.intercalate ['_'] words) := by
  induction words with
  | nil => exact absurd rfl inhabited
  | cons word words ih =>
      obtain ⟨first, later⟩ := List.forall_mem_cons.mp joined
      cases words with
      | nil =>
          rw [List.intercalate_singleton]
          exact first
      | cons second words =>
          rw [List.intercalate_cons_cons]
          exact first.word (ih (List.cons_ne_nil _ _) later)

theorem symbolWords_ne_nil (raw : List Char) : symbolWords raw ≠ [] := by
  unfold symbolWords
  split
  · exact List.cons_ne_nil _ _
  · assumption

/-! ### Runs of underscores -/

private theorem head?_collapseUnderscores (characters : List Char) :
    (collapseUnderscores characters).head? = characters.head? := by
  fun_induction collapseUnderscores characters with
  | case1 => rfl
  | case2 rest ih => rw [ih]; rfl
  | case3 => rfl
  | case4 => rfl

private theorem hasPair_collapseUnderscores (characters : List Char) :
    hasPair '_' '_' (collapseUnderscores characters) = false := by
  fun_induction collapseUnderscores characters with
  | case1 => rfl
  | case2 rest ih => exact ih
  | case3 rest apart ih =>
      have ends : (rest.head? == some '_') = false := by
        refine beq_false_of_ne fun same => ?_
        obtain ⟨behind, rfl⟩ := List.head?_eq_some_iff.mp same
        exact apart behind rfl
      rw [hasPair, head?_collapseUnderscores, ends, ih]
      rfl
  | case4 character rest other ih =>
      rw [hasPair, ih, beq_false_of_ne other, Bool.false_and]
      rfl

theorem collapseUnderscores_eq_self {characters : List Char}
    (single : hasPair '_' '_' characters = false) :
    collapseUnderscores characters = characters := by
  fun_induction collapseUnderscores characters with
  | case1 => rfl
  | case2 rest ih => contradiction
  | case3 rest apart ih => rw [ih (Bool.or_eq_false_iff.mp single).2]
  | case4 character rest other ih => rw [ih (Bool.or_eq_false_iff.mp single).2]

theorem collapseUnderscores_sublist (characters : List Char) :
    (collapseUnderscores characters).Sublist characters := by
  fun_induction collapseUnderscores characters with
  | case1 => exact .refl _
  | case2 rest ih => exact ih.cons _
  | case3 rest _ ih => exact ih.cons_cons _
  | case4 character rest _ ih => exact ih.cons_cons _

private theorem mem_collapseUnderscores {characters : List Char} {character : Char}
    (member : character ∈ characters) (ink : character ≠ '_') :
    character ∈ collapseUnderscores characters := by
  fun_induction collapseUnderscores characters with
  | case1 => exact member
  | case2 rest ih => exact ih ((List.mem_cons.mp member).resolve_left ink)
  | case3 rest _ ih =>
      exact List.mem_cons_of_mem _ (ih ((List.mem_cons.mp member).resolve_left ink))
  | case4 other rest _ ih => exact List.mem_cons.mpr ((List.mem_cons.mp member).imp_right ih)

private theorem hasPair_of_infix {first second : Char} {characters part : List Char}
    (within : part <:+: characters) (none : hasPair first second characters = false) :
    hasPair first second part = false := by
  obtain ⟨before, behind, rfl⟩ := within
  rw [hasPair_append, hasPair_append] at none
  exact (Bool.or_eq_false_iff.mp (Bool.or_eq_false_iff.mp (Bool.or_eq_false_iff.mp
    (Bool.or_eq_false_iff.mp none).1).1).1).2

/-! ### Raw keys -/

def joinedWords (raw : List Char) : List Char :=
  if isSymbolic raw then List.intercalate ['_'] (symbolWords raw)
  else dropEnd (· == '_') (dropUnderscores (collapseUnderscores (desymbolize '_' raw)))

def lowered : List Char → List Char
  | [] => []
  | first :: rest => if first.isDigit then 'n' :: first :: rest else decapitalize (first :: rest)

theorem valueNameChars_eq (raw : List Char) :
    valueNameChars raw = escapeReserved (lowered (joinedWords raw)) := by
  unfold valueNameChars
  rw [← joinedWords]
  cases joinedWords raw <;> rfl

private theorem holdable_separate (characters : List Char) :
    Holdable (separate '_' characters) := by
  intro character member
  obtain ⟨raw, _, rfl⟩ := List.mem_map.mp member
  split
  · assumption
  · rfl

private theorem holdable_desymbolize (raw : List Char) : Holdable (desymbolize '_' raw) := by
  unfold desymbolize
  split
  · exact (holdable_of_all (by decide)).append
      (List.forall_mem_cons.mpr ⟨rfl, holdable_separate _⟩)
  · exact holdable_separate _

private theorem mem_desymbolize {raw : List Char} {character : Char} (member : character ∈ raw)
    (holdable : isNameChar character = true) : character ∈ desymbolize '_' raw := by
  have keeps {characters : List Char} (member : character ∈ characters) :
      character ∈ separate '_' characters :=
    List.mem_map.mpr ⟨character, member, if_pos holdable⟩
  have ink := not_isBlank_of_isNameChar holdable
  have trimmed : character ∈ trimChars raw := mem_dropEnd (mem_dropWhile member ink) ink
  unfold desymbolize
  split
  case h_1 rest same =>
    rw [same] at trimmed
    have noDollar : character ≠ '$' := by
      rintro rfl
      exact absurd holdable (by decide)
    have behind := (List.mem_cons.mp trimmed).resolve_left noDollar
    exact List.mem_append_right _ (List.mem_cons_of_mem _ (keeps behind))
  case h_2 => exact keeps trimmed

private theorem joined_joinedWords (raw : List Char) : Joined (joinedWords raw) := by
  unfold joinedWords
  split
  · refine joined_intercalate (symbolWords_ne_nil raw) fun word member => ?_
    obtain ⟨inhabited, low⟩ := isLower_symbolWords word member
    exact joined_letters inhabited low
  case isFalse visible =>
    have kept : ∃ character ∈ dropEnd (· == '_')
        (dropUnderscores (collapseUnderscores (desymbolize '_' raw))), character ≠ '_' := by
      rw [isSymbolic, Bool.not_eq_true, Bool.not_eq_false', List.any_eq_true] at visible
      obtain ⟨character, member, letter⟩ := visible
      have ink : character ≠ '_' := by
        rintro rfl
        exact absurd letter (by decide)
      have other : (character == '_') = false := beq_false_of_ne ink
      have holdable : isNameChar character = true := by rw [isNameChar, letter, Bool.true_or]
      exact ⟨character, mem_dropEnd (mem_dropWhile
        (mem_collapseUnderscores (mem_desymbolize member holdable) ink) other) other, ink⟩
    generalize within : collapseUnderscores (desymbolize '_' raw) = collapsed at kept ⊢
    have front := dropEnd_isPrefix (· == '_') (dropUnderscores collapsed)
    have infixed : dropEnd (· == '_') (dropUnderscores collapsed) <:+: collapsed :=
      front.isInfix.trans (List.dropWhile_suffix _).isInfix
    refine ⟨?_, ?_, hasPair_of_infix infixed (within ▸ hasPair_collapseUnderscores _), ?_⟩
    · rw [← within] at infixed ⊢
      exact (holdable_desymbolize raw).sublist
        (infixed.sublist.trans (collapseUnderscores_sublist _))
    · cases same : dropEnd (· == '_') (dropUnderscores collapsed) with
      | nil =>
          rw [same] at kept
          obtain ⟨_, member, _⟩ := kept
          cases member
      | cons first rest =>
          rw [same] at front
          obtain ⟨behind, whole⟩ := front
          have begins : dropUnderscores collapsed = first :: (rest ++ behind) := whole.symm
          exact ⟨first, rest, rfl, ne_of_dropUnderscores begins⟩
    · intro ends
      exact absurd (getLast?_dropEnd _ _ _ ends) (by decide)

/-! ### Value names -/

/-- Joined words that begin with a small letter. -/
structure Settled (word : List Char) : Prop extends Joined word where
  low : ∀ first ∈ word.head?, first.isLower = true

private theorem Joined.settled {word : List Char} (joined : Joined word) :
    Settled (lowered word) := by
  obtain ⟨first, rest, rfl, ink⟩ := joined.begins
  obtain ⟨firstHoldable, restHoldable⟩ := List.forall_mem_cons.mp joined.holdable
  rw [lowered]
  by_cases digit : first.isDigit = true
  · rw [if_pos digit]
    refine ⟨⟨List.forall_mem_cons.mpr ⟨by decide, joined.holdable⟩, ⟨_, _, rfl, by decide⟩, ?_, ?_⟩,
      fun other same => Option.some.inj same ▸ by decide⟩
    · rw [hasPair, joined.single]
      rfl
    · rw [List.getLast?_cons_cons]
      exact joined.closed
  · have low : first.toLower.isLower = true := by
      rw [isLower_iff, toNat_toLower]
      rcases (isNameChar_iff first).mp firstHoldable with upper | lower | number | same
      · rw [isUpper_iff] at upper
        rw [if_pos upper]
        omega
      · rw [isLower_iff] at lower
        rw [if_neg (by omega)]
        exact lower
      · exact absurd number digit
      · exact absurd same ink
    have noUnderscore : first.toLower ≠ '_' := fun same => absurd (same ▸ low) (by decide)
    rw [if_neg digit, decapitalize]
    refine ⟨⟨List.forall_mem_cons.mpr ⟨?_, restHoldable⟩, ⟨_, _, rfl, noUnderscore⟩, ?_, ?_⟩,
      fun other same => Option.some.inj same ▸ low⟩
    · exact (isNameChar_iff _).mpr (Or.inr (Or.inl low))
    · rw [hasPair, (Bool.or_eq_false_iff.mp joined.single).2, beq_false_of_ne noUnderscore]
      rfl
    · cases rest with
      | nil => exact fun ends => noUnderscore (Option.some.inj ends)
      | cons =>
          rw [List.getLast?_cons_cons]
          exact List.getLast?_cons_cons ▸ joined.closed

private theorem Settled.joinedWords {word tail : List Char} (settled : Settled word)
    (escape : tail = [] ∨ tail = ['_']) : joinedWords (word ++ tail) = word := by
  obtain ⟨first, rest, rfl, ink⟩ := settled.begins
  have letter : first.isAlphanum = true := by
    rw [Char.isAlphanum, isAlpha_eq, settled.low first rfl, Bool.or_true]
    rfl
  have holdable : Holdable (first :: rest ++ tail) := by
    refine settled.holdable.append ?_
    rcases escape with rfl | rfl
    · exact holdable_of_all (by decide)
    · exact holdable_of_all (by decide)
  have single : hasPair '_' '_' (first :: rest ++ tail) = false := by
    rw [hasPair_append, settled.single, beq_false_of_ne settled.closed]
    rcases escape with rfl | rfl <;> rfl
  have begins : ∀ head ∈ (first :: rest ++ tail).head?, head ≠ '_' :=
    fun head same => Option.some.inj same ▸ ink
  have ends : dropEnd (· == '_') (first :: rest ++ tail) = first :: rest := by
    have kept : dropEnd (· == '_') (first :: rest) = first :: rest :=
      dropEnd_eq_self fun last same => beq_false_of_ne fun underscore =>
        settled.closed (underscore ▸ same)
    rcases escape with rfl | rfl
    · rw [List.append_nil, kept]
    · rw [dropEnd, List.reverse_append, List.reverse_singleton, List.singleton_append,
        List.dropWhile_cons_of_pos (by decide)]
      exact kept
  rw [Name.joinedWords, List.cons_append, if_neg (by rw [not_isSymbolic letter]; simp),
    ← List.cons_append, desymbolize_holdable holdable, collapseUnderscores_eq_self single,
    dropUnderscores_eq_self begins, ends]

private theorem Settled.lowered {word : List Char} (settled : Settled word) :
    lowered word = word := by
  obtain ⟨first, rest, rfl, -⟩ := settled.begins
  have low := settled.low first rfl
  have noDigit : ¬ first.isDigit = true := by
    rw [isLower_iff] at low
    rw [isDigit_iff]
    omega
  rw [Name.lowered, if_neg noDigit, decapitalize, toLower_eq_self low]

theorem escapeReserved_append (word : List Char) :
    ∃ tail, escapeReserved word = word ++ tail ∧ (tail = [] ∨ tail = ['_']) := by
  unfold escapeReserved
  split
  · exact ⟨['_'], rfl, Or.inr rfl⟩
  · exact ⟨[], (List.append_nil word).symm, Or.inl rfl⟩

private theorem settled_lowered (raw : List Char) : Settled (Name.lowered (Name.joinedWords raw)) :=
  (joined_joinedWords raw).settled

theorem toValueName_again (raw : String) : toValueName (toValueName raw) = toValueName raw := by
  have settled := settled_lowered raw.toList
  obtain ⟨tail, escaped, escape⟩ := escapeReserved_append (lowered (joinedWords raw.toList))
  refine String.toList_inj.mp ?_
  simp only [toValueName, String.toList_ofList, valueNameChars_eq]
  rw [escaped, settled.joinedWords escape, settled.lowered, ← escaped]

/-! ### Identifiers of values -/

def IsValueName (text : String) : Prop :=
  (∃ first rest, text.toList = first :: rest ∧ first.isLower = true ∧ Holdable rest) ∧
    text ∉ reservedWords

private theorem isValueName_escapeReserved {first : Char} {rest : List Char}
    (low : first.isLower = true) (holdable : Holdable rest) :
    IsValueName (String.ofList (escapeReserved (first :: rest))) := by
  unfold escapeReserved
  split
  · refine ⟨⟨first, rest ++ ['_'], String.toList_ofList, low,
      holdable.append (holdable_of_all (by decide))⟩, fun reserved => ?_⟩
    have noneEnds : ∀ word ∈ reservedWords, word.toList.getLast? ≠ some '_' := by decide
    refine noneEnds _ reserved ?_
    rw [String.toList_ofList, List.getLast?_append]
    rfl
  case isFalse free =>
    exact ⟨⟨first, rest, String.toList_ofList, low, holdable⟩,
      fun reserved => free (List.contains_iff_mem.mpr reserved)⟩

theorem isValueName_toValueName (raw : String) : IsValueName (toValueName raw) := by
  have settled := settled_lowered raw.toList
  obtain ⟨first, rest, whole, -⟩ := settled.begins
  rw [toValueName, valueNameChars_eq, whole]
  rw [whole] at settled
  exact isValueName_escapeReserved (settled.low first rfl)
    (List.forall_mem_cons.mp settled.holdable).2

end Name

namespace TypeName

open Name Text

private theorem Proper.isValueName {name : TypeName} (proper : name.Proper) :
    IsValueName name.toValueName := by
  obtain ⟨first, rest, text, upper, holdable⟩ := proper
  have low : first.toLower.isLower = true := by
    rw [isUpper_iff] at upper
    rw [isLower_iff, toNat_toLower, if_pos upper]
    omega
  rw [toValueName, text, decapitalize]
  exact isValueName_escapeReserved low holdable

/-! ### Names that are made -/

/-- Names that are made from raw keys, as members, with numbers, and by exchanging leads. -/
inductive Made : TypeName → Prop
  | ofRaw (raw : String) : Made (ofRaw raw)
  | child {name : TypeName} (made : Made name) (member : String) : Made (name.child member)
  | withSuffix {name : TypeName} (made : Made name) (number : Nat) : Made (name.withSuffix number)
  | replaceLead {name old new : TypeName} (made : Made name) (oldMade : Made old)
      (newMade : Made new) : Made (name.replaceLead old new)

private theorem Made.proper {name : TypeName} (made : Made name) : name.Proper := by
  induction made with
  | ofRaw raw => exact ofRaw_proper raw
  | child _ member proper => exact proper.child member
  | withSuffix _ number proper => exact proper.withSuffix number
  | replaceLead _ _ _ proper _ newProper => exact proper.replaceLead _ newProper

/-- Names are identifiers of their kind, and names made from them are those names. -/
theorem names_settled :
    (∀ name : TypeName, Made name →
      name.Proper ∧ ofRaw name.text = name ∧ IsValueName name.toValueName) ∧
      ∀ raw : String, IsValueName (Name.toValueName raw) ∧
        Name.toValueName (Name.toValueName raw) = Name.toValueName raw :=
  ⟨fun _ made => ⟨made.proper, made.proper.ofRaw_text, made.proper.isValueName⟩,
    fun raw => ⟨isValueName_toValueName raw, toValueName_again raw⟩⟩

/-- A reserved word, a lead that is exchanged, and symbols. -/
theorem names_settled_where :
    let name := (((ofRaw "$4 0").child "where").withSuffix 2).replaceLead
      (ofRaw "$4 0") (ofRaw "of")
    name.text = "Of_Where2" ∧ name.Proper ∧ ofRaw name.text = name ∧
      IsValueName name.toValueName ∧ (ofRaw "of").toValueName = "of_" ∧
      Name.toValueName (Name.toValueName "Of") = "of_" ∧
      Name.toValueName (Name.toValueName "<=") = "lt_eq" := by
  have made : Made ((((ofRaw "$4 0").child "where").withSuffix 2).replaceLead
      (ofRaw "$4 0") (ofRaw "of")) :=
    (((Made.ofRaw _).child _).withSuffix _).replaceLead (.ofRaw _) (.ofRaw _)
  obtain ⟨proper, again, value⟩ := names_settled.1 _ made
  refine ⟨by decide, proper, again, value, by decide, ?_, ?_⟩
  · exact (names_settled.2 "Of").2.trans (by decide)
  · exact (names_settled.2 "<=").2.trans (by decide)

end TypeName

end ElmClient
