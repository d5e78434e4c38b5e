/-
Texts that mention a module. Taking the qualifier of the module off leaves a text as it is
if and only if the text does not mention the module. Of a name that is read with its points
it takes the module path off, and nothing else, if and only if what should be left does not
mention the module.
-/

import ElmClient.Proofs.Lexing.Unqualified
import ElmClient.Proofs.Text.Case
import ElmClient.Proofs.Text.Split
import Mathlib.Data.List.TakeWhile

namespace ElmClient.Elm.Lexer

open Text

/-- The module's name stands in the text with a name behind it, and begins no later than a
word does. `previous` is the character before the text. -/
def Mentions (own : List Char) (previous : Option Char) (text : List Char) : Prop :=
  ∃ before behind, text = before ++ own ++ '.' :: behind ∧ startsName behind = true ∧
    ∀ last ∈ before.getLast?.or previous, isWord last = false

section Mentions

variable {own : List Char} (path : IsPath own)

include path

private theorem not_mentions_nil {previous : Option Char} : ¬ Mentions own previous [] := by
  rintro ⟨before, behind, same, -⟩
  obtain ⟨first, rest, begins, -⟩ := path.begins
  rw [begins] at same
  cases before <;> cases same

private theorem mentions_cons_iff {previous : Option Char} {character : Char} {rest : List Char} :
    Mentions own previous (character :: rest) ↔
      occurs own previous (character :: rest) = true ∨ Mentions own (some character) rest := by
  constructor
  · rintro ⟨before, behind, same, starts, bounds⟩
    cases before with
    | nil =>
        obtain ⟨first, later, rfl, -⟩ := isWord_of_startsName starts
        exact Or.inl ((occurs_iff path).mpr ⟨bounds, first, later, same, starts⟩)
    | cons head before =>
        rw [List.cons_append, List.cons_append] at same
        obtain ⟨rfl, rfl⟩ := List.cons.inj same
        rw [getLast?_or_cons] at bounds
        exact Or.inr ⟨before, behind, rfl, starts, bounds⟩
  · rintro (found | ⟨before, behind, rfl, starts, bounds⟩)
    · obtain ⟨bounds, first, later, same, starts⟩ := (occurs_iff path).mp found
      exact ⟨[], first :: later, same, starts, bounds⟩
    · refine ⟨character :: before, behind, rfl, starts, ?_⟩
      rw [getLast?_or_cons]
      exact bounds

private theorem length_unqualify_le (previous : Option Char) (text : List Char) :
    (unqualifyFrom own 0 previous text).length ≤ text.length := by
  induction previous, text using unqualify_induction path with
  | nil previous => exact Nat.le_refl _
  | keep previous character rest keeps ih =>
      rw [unqualifyFrom_keep keeps]
      exact Nat.succ_le_succ ih
  | drop previous first rest found _ ih =>
      rw [unqualifyFrom_drop path found]
      simp only [List.length_append, List.length_cons]
      omega

theorem unqualify_eq_self_iff {previous : Option Char} {text : List Char} :
    unqualifyFrom own 0 previous text = text ↔ ¬ Mentions own previous text := by
  induction previous, text using unqualify_induction path with
  | nil previous => exact iff_of_true rfl (not_mentions_nil path)
  | keep previous character rest keeps ih =>
      rw [unqualifyFrom_keep keeps, mentions_cons_iff path, keeps]
      simpa using ih
  | drop previous first rest found _ _ =>
      refine iff_of_false (fun same => ?_) (not_not_intro ?_)
      · have shorter := length_unqualify_le path (some first) rest
        have sameLength := congrArg List.length same
        rw [unqualifyFrom_drop path found] at sameLength
        simp only [List.length_append, List.length_cons] at sameLength
        omega
      · obtain ⟨bounds, other, later, same, starts⟩ := (occurs_iff path).mp found
        exact ⟨[], other :: later, same, starts, bounds⟩

end Mentions

/-! ### Names -/

/-- The module path of a name that is read with its points; empty if it has none. -/
def pathOf (run : List Char) : List Char :=
  List.intercalate ['.'] (qualifierSegments (splitChars '.' run))

def bare (own run : List Char) : List Char :=
  if pathOf run = own then run.drop (own.length + 1) else run

private theorem intercalate_append {left right : List (List Char)} (leftInhabited : left ≠ [])
    (rightInhabited : right ≠ []) :
    List.intercalate ['.'] (left ++ right) =
      List.intercalate ['.'] left ++ '.' :: List.intercalate ['.'] right := by
  induction left with
  | nil => exact absurd rfl leftInhabited
  | cons first left ih =>
      cases left with
      | nil =>
          obtain ⟨second, others, rfl⟩ := List.exists_cons_of_ne_nil rightInhabited
          rw [List.singleton_append, List.intercalate_cons_cons, List.intercalate_singleton,
            List.append_assoc, List.singleton_append]
      | cons second left =>
          have shorter := ih (List.cons_ne_nil _ _)
          rw [List.cons_append] at shorter ⊢
          rw [List.cons_append, List.intercalate_cons_cons, shorter, List.intercalate_cons_cons,
            List.append_assoc, List.append_assoc, List.append_assoc]

theorem startsName_of_startsUpper {piece : List Char} (upper : startsUpper piece = true) :
    startsName piece = true := by
  cases piece with
  | nil => contradiction
  | cons first rest =>
      have letter : first.isUpper = true := upper
      rw [startsName, isAlpha_eq, letter, Bool.true_or, Bool.true_or]

/-- The pieces are those of a qualifier and a name behind it, which is capitalized only if no
name follows on it. -/
structure Qualified (pieces segments : List (List Char)) : Prop where
  upper : ∀ piece ∈ segments, startsUpper piece = true
  name : ∃ name others, pieces = segments ++ name :: others ∧ startsName name = true ∧
    (startsUpper name = true → ∀ next ∈ others.head?, startsName next = false)

theorem qualified_dropLast {capitalized behind : List (List Char)} (inhabited : capitalized ≠ [])
    (upper : ∀ piece ∈ capitalized, startsUpper piece = true)
    (ends : ∀ next ∈ behind.head?, startsName next = false) :
    Qualified (capitalized ++ behind) capitalized.dropLast := by
  have last := upper _ (List.getLast_mem inhabited)
  refine ⟨fun piece member => upper piece (List.dropLast_subset _ member), _, behind, ?_,
    startsName_of_startsUpper last, fun _ => ends⟩
  conv_lhs => rw [← List.dropLast_append_getLast inhabited]
  rw [List.append_assoc, List.singleton_append]

theorem qualified_qualifierSegments {pieces : List (List Char)}
    (inhabited : qualifierSegments pieces ≠ []) : Qualified pieces (qualifierSegments pieces) := by
  have upper : ∀ piece ∈ pieces.takeWhile startsUpper, startsUpper piece = true :=
    fun piece member => List.mem_takeWhile_imp member
  have whole := List.takeWhile_append_dropWhile (p := startsUpper) (l := pieces)
  have stops := List.head?_dropWhile_not startsUpper pieces
  revert inhabited upper whole stops
  unfold qualifierSegments
  generalize pieces.takeWhile startsUpper = capitalized
  generalize pieces.dropWhile startsUpper = behind
  rintro inhabited upper rfl stops
  dsimp only at inhabited ⊢
  rw [List.drop_left] at inhabited ⊢
  revert inhabited
  have lastInhabited (some : capitalized.dropLast ≠ []) : capitalized ≠ [] := by
    rintro rfl
    exact some rfl
  cases behind with
  | nil => exact fun some => qualified_dropLast (lastInhabited some) upper nofun
  | cons next others =>
      dsimp only
      split
      case isTrue starts =>
        refine fun _ => ⟨upper, next, others, rfl, starts, fun capital => ?_⟩
        rw [List.head?_cons] at stops
        rw [stops] at capital
        contradiction
      case isFalse ends =>
        refine fun some => qualified_dropLast (lastInhabited some) upper fun other first => ?_
        obtain rfl := Option.some.inj first
        exact Bool.eq_false_iff.mpr ends

theorem exists_intercalate_cons (first : Char) (piece : List Char) (others : List (List Char)) :
    ∃ path, List.intercalate ['.'] ((first :: piece) :: others) = first :: path := by
  cases others with
  | nil => exact ⟨piece, List.intercalate_singleton⟩
  | cons second others =>
      rw [List.intercalate_cons_cons]
      exact ⟨_, rfl⟩

theorem startsName_append {name : List Char} (starts : startsName name = true)
    (rest : List Char) : startsName (name ++ rest) = true := by
  obtain ⟨first, later, rfl, -⟩ := isWord_of_startsName starts
  exact starts

theorem startsName_intercalate {name : List Char} (starts : startsName name = true)
    (others : List (List Char)) :
    startsName (List.intercalate ['.'] (name :: others)) = true := by
  obtain ⟨first, rest, rfl, -⟩ := isWord_of_startsName starts
  obtain ⟨path, same⟩ := exists_intercalate_cons first rest others
  rw [same]
  exact starts

theorem startsName_head_split {text : List Char} (starts : startsName text = true) :
    ∀ first ∈ (splitChars '.' text).head?, startsName first = true := by
  obtain ⟨initial, rest, rfl, word⟩ := isWord_of_startsName starts
  have noPoint : initial ≠ '.' := by
    rintro rfl
    exact absurd word (by decide)
  rw [splitChars, if_neg noPoint]
  intro first member
  cases pieces : splitChars '.' rest with
  | nil => exact absurd pieces (splitChars_ne_nil _ _)
  | cons piece others =>
      rw [pieces] at member
      obtain rfl := Option.some.inj member
      exact starts

theorem pathOf_ne_nil {first : Char} (upper : first.isUpper = true) {piece behind : List Char}
    (noPoint : '.' ∉ first :: piece) (starts : startsName behind = true) :
    pathOf (first :: piece ++ '.' :: behind) ≠ [] := by
  obtain ⟨next, others, pieces⟩ := List.exists_cons_of_ne_nil (splitChars_ne_nil '.' behind)
  have nextStarts := startsName_head_split starts next (congrArg List.head? pieces)
  have segments : ∃ others, qualifierSegments (splitChars '.' (first :: piece ++ '.' :: behind)) =
      (first :: piece) :: others := by
    rw [splitChars_append noPoint, pieces, qualifierSegments,
      List.takeWhile_cons_of_pos (show startsUpper (first :: piece) = true from upper)]
    rw [List.length_cons, List.drop_succ_cons]
    cases whole : (next :: others).takeWhile startsUpper with
    | nil =>
        rw [List.length_nil, List.drop_zero]
        dsimp only
        rw [if_pos nextStarts]
        exact ⟨_, rfl⟩
    | cons second later =>
        split
        · split
          · exact ⟨_, rfl⟩
          · exact ⟨_, rfl⟩
        · exact ⟨_, rfl⟩
  obtain ⟨others, same⟩ := segments
  obtain ⟨path, begins⟩ := exists_intercalate_cons first piece others
  rw [pathOf, same, begins]
  exact List.cons_ne_nil _ _

private theorem pathOf_intercalate_ne_nil {segments : List (List Char)} (inhabited : segments ≠ [])
    (upper : ∀ segment ∈ segments, startsUpper segment = true)
    (noPoint : ∀ segment ∈ segments, '.' ∉ segment) {rest : List Char}
    (starts : startsName rest = true) :
    pathOf (List.intercalate ['.'] segments ++ '.' :: rest) ≠ [] := by
  obtain ⟨segment, further, rfl⟩ := List.exists_cons_of_ne_nil inhabited
  obtain ⟨segmentUpper, laterUpper⟩ := List.forall_mem_cons.mp upper
  have segmentNoPoint := noPoint segment List.mem_cons_self
  cases segment with
  | nil => contradiction
  | cons first piece =>
      cases further with
      | nil =>
          rw [List.intercalate_singleton]
          exact pathOf_ne_nil segmentUpper segmentNoPoint starts
      | cons second further =>
          have secondStarts := startsName_of_startsUpper (laterUpper second List.mem_cons_self)
          rw [List.intercalate_cons_cons, List.append_assoc, List.append_assoc,
            List.singleton_append]
          exact pathOf_ne_nil segmentUpper segmentNoPoint
            (startsName_append (startsName_intercalate secondStarts further) _)

theorem qualifierSegments_eq_nil {name : List Char} {others : List (List Char)}
    (starts : startsName name = true)
    (ends : startsUpper name = true → ∀ next ∈ others.head?, startsName next = false) :
    qualifierSegments (name :: others) = [] := by
  unfold qualifierSegments
  cases capital : startsUpper name with
  | false =>
      rw [List.takeWhile_cons_of_neg (Bool.eq_false_iff.mp capital)]
      exact if_pos starts
  | true =>
      rw [List.takeWhile_cons_of_pos capital]
      cases others with
      | nil => rfl
      | cons second others =>
          have noName := ends capital second rfl
          have notUpper : ¬ startsUpper second = true := fun secondUpper => by
            rw [startsName_of_startsUpper secondUpper] at noName
            contradiction
          rw [List.takeWhile_cons_of_neg notUpper]
          exact if_neg (Bool.eq_false_iff.mp noName)

/-- The name is a module path of these segments with a name behind it that has none. -/
structure Parted (run : List Char) (segments : List (List Char)) (rest : List Char) : Prop where
  inhabited : segments ≠ []
  upper : ∀ segment ∈ segments, startsUpper segment = true
  noPoint : ∀ segment ∈ segments, '.' ∉ segment
  path : pathOf run = List.intercalate ['.'] segments
  whole : run = pathOf run ++ '.' :: rest
  starts : startsName rest = true
  ends : pathOf rest = []

theorem exists_parted {run : List Char} (qualified : pathOf run ≠ []) :
    ∃ segments rest, Parted run segments rest := by
  have someSegments : qualifierSegments (splitChars '.' run) ≠ [] := by
    intro none
    rw [pathOf, none] at qualified
    exact qualified rfl
  have whole := intercalate_splitChars '.' run
  have noPoint : ∀ piece ∈ splitChars '.' run, '.' ∉ piece :=
    fun piece member => not_mem_of_mem_splitChars member
  obtain ⟨upper, name, others, parts, starts, ends⟩ := qualified_qualifierSegments someSegments
  have path : pathOf run = List.intercalate ['.'] (qualifierSegments (splitChars '.' run)) := rfl
  generalize qualifierSegments (splitChars '.' run) = segments at *
  rw [parts] at whole noPoint
  rw [intercalate_append someSegments (List.cons_ne_nil _ _), ← path] at whole
  refine ⟨segments, List.intercalate ['.'] (name :: others), {
    inhabited := someSegments
    upper := upper
    noPoint := fun piece member => noPoint piece (List.mem_append_left _ member)
    path := path
    whole := whole.symm
    starts := startsName_intercalate starts others
    ends := ?_ }⟩
  have laterNoPoint : ∀ piece ∈ name :: others, '.' ∉ piece :=
    fun piece member => noPoint piece (List.mem_append_right _ member)
  rw [pathOf, splitChars_intercalate laterNoPoint (List.cons_ne_nil _ _),
    qualifierSegments_eq_nil starts ends]
  rfl

/-- A qualified name is its qualifier, a point and a name that is not qualified so again. -/
theorem exists_of_pathOf {own run : List Char} (same : pathOf run = own) (inhabited : own ≠ []) :
    ∃ rest, run = own ++ '.' :: rest ∧ startsName rest = true ∧ qualifies own rest = false := by
  subst same
  obtain ⟨segments, rest, parted⟩ := exists_parted inhabited
  refine ⟨rest, parted.whole, parted.starts, Bool.eq_false_iff.mpr fun again => ?_⟩
  obtain ⟨behind, rfl, behindStarts⟩ := qualifies_iff.mp again
  have ends := parted.ends
  rw [parted.path] at ends
  exact pathOf_intercalate_ne_nil parted.inhabited parted.upper parted.noPoint behindStarts ends

theorem unqualify_eq_bare_iff {own : List Char} (path : IsPath own) {run : List Char} :
    unqualifyFrom own 0 none run = bare own run ↔ ¬ Mentions own none (bare own run) := by
  rw [bare]
  split
  case isFalse => exact unqualify_eq_self_iff path
  case isTrue same =>
    have inhabited : own ≠ [] := by
      obtain ⟨first, rest, begins, -⟩ := path.begins
      rw [begins]
      exact List.cons_ne_nil _ _
    obtain ⟨name, rfl, starts, notAgain⟩ := exists_of_pathOf same inhabited
    obtain ⟨first, rest, rfl, -⟩ := isWord_of_startsName starts
    have found : occurs own none (own ++ '.' :: first :: rest) = true :=
      (occurs_iff path).mpr ⟨nofun, first, rest, rfl, starts⟩
    have left : (own ++ '.' :: first :: rest).drop (own.length + 1) = first :: rest := by
      rw [List.drop_append, Nat.add_sub_cancel_left, List.drop_eq_nil_of_le (Nat.le_succ _)]
      rfl
    have keeps : occurs own none (first :: rest) = false := by
      rw [occurs, notAgain, Bool.and_false]
    rw [unqualifyFrom_drop path found, left, mentions_cons_iff path, keeps]
    simpa using unqualify_eq_self_iff path

end ElmClient.Elm.Lexer
