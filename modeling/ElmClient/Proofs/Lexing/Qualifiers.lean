/-
Qualifiers of code. In code that is left of tidy tokens a module path is found at every name
that has one, and nowhere else: behind the module path of a name no segment is capitalized
that has a name behind it.
-/

import ElmClient.Proofs.Lexing.Code
import ElmClient.Proofs.Lexing.Mention
import ElmClient.Proofs.Sorted

namespace ElmClient.Elm.Lexer

open Text

/-! ### Names without a module path -/

theorem isBoundary_words {before after : Char} (beforeWord : isWord before = true)
    (afterWord : isWord after = true) : isBoundary (some before) (some after) = false := by
  rw [isBoundary, Option.any_some, Option.any_some, beforeWord, afterWord]
  rfl

private theorem qualifiers_pass {previous : Option Char} {character : Char} {rest : List Char}
    (pass : (isBoundary previous (some character) && character.isUpper) = false) :
    qualifiersFrom 0 previous (character :: rest) = qualifiersFrom 0 (some character) rest := by
  rw [qualifiersFrom, if_neg (Bool.eq_false_iff.mp pass)]

private theorem qualifiers_pass_small {previous : Option Char} {character : Char} {rest : List Char}
    (small : character.isUpper = false) :
    qualifiersFrom 0 previous (character :: rest) = qualifiersFrom 0 (some character) rest :=
  qualifiers_pass (by rw [small, Bool.and_false])

private theorem qualifiers_skip {text : List Char} (previous : Option Char) (rest : List Char) :
    qualifiersFrom text.length previous (text ++ rest) =
      qualifiersFrom 0 (text.getLast?.or previous) rest := by
  induction text generalizing previous with
  | nil => rfl
  | cons character text ih =>
      rw [List.length_cons, List.cons_append, qualifiersFrom, ih, getLast?_or_cons]

private theorem qualifiers_small {segment : Segment} (behind : segment = .later ∨ segment = .small)
    {name : List Char} (reads : (segment.run name).isSome = true) {previous : Option Char}
    (within : segment = .small → ∃ before ∈ previous, isWord before = true) (rest : List Char) :
    qualifiersFrom 0 previous (name ++ rest) =
      qualifiersFrom 0 (name.getLast?.or previous) rest := by
  induction name generalizing segment previous with
  | nil => rfl
  | cons character name ih =>
      obtain ⟨reached, reads⟩ := Option.isSome_iff_exists.mp reads
      obtain ⟨further, takes, reads⟩ := Segment.takes_of_run reads
      have pass : (isBoundary previous (some character) && character.isUpper) = false := by
        cases takes with
        | path | upper | capital => rcases behind with behind | behind <;> cases behind
        | point => rw [show Char.isUpper '.' = false from rfl, Bool.and_false]
        | lower _ _ notUpper => rw [notUpper, Bool.and_false]
        | small word =>
            obtain ⟨before, rfl, beforeWord⟩ := within rfl
            rw [isBoundary_words beforeWord (isWord_of_isAsciiWord word), Bool.false_and]
      have inside : further = .small → ∃ before ∈ some character, isWord before = true := by
        rintro rfl
        exact ⟨character, rfl, isWord_of_isAsciiWord takes.word⟩
      rw [List.cons_append, qualifiers_pass pass,
        ih (takes.low behind) (by rw [reads]; rfl) inside, getLast?_or_cons]

private theorem qualifiers_noName {name : List Char}
    (reads : (Segment.first.run name).isSome = true)
    (noName : startsName name = false) (previous : Option Char) (rest : List Char) :
    qualifiersFrom 0 previous (name ++ rest) =
      qualifiersFrom 0 (name.getLast?.or previous) rest := by
  cases name with
  | nil => rfl
  | cons character name =>
      obtain ⟨reached, reads⟩ := Option.isSome_iff_exists.mp reads
      obtain ⟨further, takes, reads⟩ := Segment.takes_of_run reads
      have notAlpha : character.isAlpha = false := (Bool.or_eq_false_iff.mp noName).1
      have notUpper : character.isUpper = false := (Bool.or_eq_false_iff.mp notAlpha).1
      have low : further = .later ∨ further = .small := by
        cases takes with
        | point => exact Or.inl rfl
        | lower => exact Or.inr rfl
        | upper isUpper =>
            rw [notUpper] at isUpper
            contradiction
      have inside : further = .small → ∃ before ∈ some character, isWord before = true := by
        rintro rfl
        exact ⟨character, rfl, isWord_of_isAsciiWord takes.word⟩
      rw [List.cons_append, qualifiers_pass_small notUpper,
        qualifiers_small low (by rw [reads]; rfl) inside, getLast?_or_cons]

private theorem qualifiers_capital {name : List Char}
    (reads : (Segment.capital.run name).isSome = true)
    (ends : ∀ piece behind, name = piece ++ '.' :: behind → '.' ∉ piece → startsName behind = false)
    {previous : Char} (within : isWord previous = true) (rest : List Char) :
    qualifiersFrom 0 (some previous) (name ++ rest) =
      qualifiersFrom 0 (name.getLast?.or (some previous)) rest := by
  induction name generalizing previous with
  | nil => rfl
  | cons character name ih =>
      obtain ⟨reached, reads⟩ := Option.isSome_iff_exists.mp reads
      obtain ⟨further, takes, reads⟩ := Segment.takes_of_run reads
      have readsLater : (further.run name).isSome = true := by rw [reads]; rfl
      cases takes with
      | point low => contradiction
      | lower begins => rcases begins with begins | begins <;> cases begins
      | path =>
          rw [List.cons_append, qualifiers_pass_small (by decide),
            qualifiers_noName readsLater (ends [] name rfl List.not_mem_nil), getLast?_or_cons]
      | capital word =>
          have laterEnds : ∀ piece behind, name = piece ++ '.' :: behind → '.' ∉ piece →
              startsName behind = false := by
            rintro piece behind rfl noPoint
            exact ends (character :: piece) behind rfl
              (List.not_mem_cons_of_ne_of_not_mem (ne_point_of_isAsciiWord word).symm noPoint)
          have notBoundary : (isBoundary (some previous) (some character) && character.isUpper) =
              false := by
            rw [isBoundary_words within (isWord_of_isAsciiWord word), Bool.false_and]
          rw [List.cons_append, qualifiers_pass notBoundary,
            ih readsLater laterEnds (isWord_of_isAsciiWord word), getLast?_or_cons]

/-! ### Module paths -/

private theorem exists_of_pathOf_ne_nil {run : List Char} (qualified : pathOf run ≠ []) :
    ∃ first path rest, pathOf run = first :: path ∧ first.isUpper = true ∧
      run = first :: path ++ '.' :: rest ∧ pathOf rest = [] := by
  obtain ⟨segments, rest, parted⟩ := exists_parted qualified
  obtain ⟨segment, further, rfl⟩ := List.exists_cons_of_ne_nil parted.inhabited
  have upper := parted.upper segment List.mem_cons_self
  cases segment with
  | nil => contradiction
  | cons first piece =>
      obtain ⟨path, same⟩ := exists_intercalate_cons first piece further
      have begins := parted.path.trans same
      exact ⟨first, path, rest, begins, upper, begins ▸ parted.whole, parted.ends⟩

/-! ### Qualifiers of names -/

/-- The module path of a name, if it has one. -/
def qualifierOf (name : List Char) : List String :=
  if pathOf name = [] then [] else [String.ofList (pathOf name)]

private theorem exists_segment_behind {lead behind : List Char}
    (regular : isRegular (lead ++ '.' :: behind) = true) :
    ∃ segment : Segment, (segment.run behind).isSome = true ∧
      (segment = .first ∨ segment = .later) := by
  obtain ⟨reached, reads⟩ := Option.isSome_iff_exists.mp regular
  rw [Segment.run_append] at reads
  obtain ⟨atEnd, -, reads⟩ := Option.bind_eq_some_iff.mp reads
  obtain ⟨segment, takes, reads⟩ := Segment.takes_of_run reads
  exact ⟨segment, by rw [reads]; rfl, takes.begins (by decide)⟩

theorem takeWhile_name {name rest : List Char} (regular : isRegular name = true)
    (ends : ∀ character ∈ rest.head?, isNamePart character = false) :
    (name ++ rest).takeWhile (fun character => isAsciiWord character || character == '.') =
      name := by
  have parts : ∀ character ∈ name, (isAsciiWord character || character == '.') = true := by
    intro character member
    rcases ascii_of_isRegular regular character member with word | rfl
    · rw [word, Bool.true_or]
    · rfl
  rw [List.takeWhile_append_of_pos parts]
  cases rest with
  | nil => exact List.append_nil name
  | cons character rest =>
      have noPart := Bool.or_eq_false_iff.mp (ends character rfl)
      have noWord : isAsciiWord character = false := (Bool.or_eq_false_iff.mp noPart.1).1
      rw [List.takeWhile_cons_of_neg (by rw [noWord, noPart.2]; exact Bool.false_ne_true),
        List.append_nil]

section Name

variable {name rest : List Char} (regular : isRegular name = true)
  (ends : ∀ character ∈ rest.head?, isNamePart character = false)

include regular ends

theorem qualifierAt_name : qualifierAt (name ++ rest) = pathOf name := by
  rw [qualifierAt, takeWhile_name regular ends]
  rfl

private theorem qualifiers_plain (plain : pathOf name = []) (previous : Option Char) :
    qualifiersFrom 0 previous (name ++ rest) =
      qualifiersFrom 0 (name.getLast?.or previous) rest := by
  cases name with
  | nil => rfl
  | cons character name =>
      obtain ⟨reached, reads⟩ := Option.isSome_iff_exists.mp regular
      obtain ⟨further, takes, reads⟩ := Segment.takes_of_run reads
      have readsLater : (further.run name).isSome = true := by rw [reads]; rfl
      rw [getLast?_or_cons]
      cases takes with
      | point =>
          rw [List.cons_append, qualifiers_pass_small (by decide),
            qualifiers_small (Or.inl rfl) readsLater (by simp)]
      | lower _ word notUpper =>
          rw [List.cons_append, qualifiers_pass_small notUpper,
            qualifiers_small (Or.inr rfl) readsLater
              fun _ => ⟨character, rfl, isWord_of_isAsciiWord word⟩]
      | upper isUpper =>
          have asciiWord := isAsciiWord_of_isUpper isUpper
          have point := (ne_point_of_isAsciiWord asciiWord).symm
          have notFound : qualifiersFrom 0 previous (character :: name ++ rest) =
              qualifiersFrom 0 (some character) (name ++ rest) := by
            have none : qualifierAt (character :: (name ++ rest)) = [] :=
              (qualifierAt_name regular ends).trans plain
            rw [List.cons_append, qualifiersFrom, none]
            split <;> rfl
          have noName : ∀ piece behind, name = piece ++ '.' :: behind → '.' ∉ piece →
              startsName behind = false := by
            rintro piece behind rfl noPoint
            exact Bool.eq_false_iff.mpr fun starts => pathOf_ne_nil isUpper
              (List.not_mem_cons_of_ne_of_not_mem point noPoint) starts plain
          rw [notFound, qualifiers_capital readsLater noName (isWord_of_isAsciiWord asciiWord)]

/-- Of a name the module path is found. -/
theorem qualifiers_name {previous : Option Char}
    (apart : ∀ before ∈ previous, ∀ behind ∈ name.head?, isNamePart behind = true →
      isNamePart before = false) :
    qualifiersFrom 0 previous (name ++ rest) =
      qualifierOf name ++ qualifiersFrom 0 (name.getLast?.or previous) rest := by
  rw [qualifierOf]
  split
  case isTrue plain => exact qualifiers_plain regular ends plain previous
  case isFalse qualified =>
    obtain ⟨first, path, behind, same, upper, rfl, plain⟩ := exists_of_pathOf_ne_nil qualified
    have word := isWord_of_isAsciiWord (isAsciiWord_of_isUpper upper)
    have found : (isBoundary previous (some first) && first.isUpper) = true := by
      rw [upper, Bool.and_true]
      cases previous with
      | none => exact congrArg (false != ·) word
      | some before =>
          have noPart := apart before rfl first rfl (isNamePart_of_isWord word)
          rw [isBoundary, Option.any_some, Option.any_some, word,
            (Bool.or_eq_false_iff.mp noPart).1]
          rfl
    obtain ⟨segment, readsBehind, begins⟩ := exists_segment_behind regular
    have atPoint : qualifiersFrom path.length (some first) (path ++ '.' :: behind ++ rest) =
        qualifiersFrom 0 (some '.') (behind ++ rest) := by
      rw [List.append_assoc, qualifiers_skip, List.cons_append, qualifiers_pass_small (by decide)]
    have onward : qualifiersFrom 0 (some '.') (behind ++ rest) =
        qualifiersFrom 0 (behind.getLast?.or (some '.')) rest := by
      rcases begins with rfl | rfl
      · exact qualifiers_plain readsBehind ends plain _
      · exact qualifiers_small (Or.inl rfl) readsBehind (by simp) rest
    have last : (first :: path ++ '.' :: behind).getLast?.or previous =
        behind.getLast?.or (some '.') := by
      rw [List.getLast?_append, List.getLast?_cons]
      cases behind.getLast? <;> rfl
    have qualifier := qualifierAt_name regular ends
    rw [List.cons_append, List.cons_append] at qualifier ⊢
    rw [List.cons_append] at same last
    rw [qualifiersFrom, if_pos found, qualifier, same, last]
    dsimp only
    rw [List.length_cons, Nat.add_sub_cancel, atPoint, onward]
    rfl

end Name

/-! ### Qualifiers of code -/

def Token.qualifier (token : Token) : List String :=
  if token.kind = .name then qualifierOf token.text else []

private theorem noPart_behind_name {name behind : List Char} {mode : Mode}
    (ends : Token.Ends ⟨.name, name⟩ behind mode) (regular : isRegular name = true) :
    ∀ character ∈ behind.head?, isNamePart character = false := by
  intro character begins
  have reads := ends.reads
  rw [run_name ends.inhabited (isNamePart_of_isRegular regular)] at reads
  obtain rfl := Option.some.inj reads
  have stop := ends.stops character begins
  rw [Mode.next] at stop
  exact Bool.eq_false_iff.mpr fun part => by
    rw [if_pos part] at stop
    contradiction

private theorem noPart_code {list : List Token} (lexed : Lexed list)
    (plain : ∀ token ∈ list, token.Plain)
    (apart : ∀ character ∈ (textOf list).head?, isNamePart character = false) :
    ∀ character ∈ (list.flatMap Token.code).head?, isNamePart character = false := by
  intro character begins
  by_cases blank : character = ' '
  · rw [blank]
    decide
  · by_cases quote : character = '"'
    · rw [quote]
      decide
    · exact apart character (head?_code lexed plain blank quote begins)

private theorem qualifiers_code {list : List Token} (lexed : Lexed list)
    (plain : ∀ token ∈ list, token.Plain) {previous : Option Char}
    (apart : ∀ before ∈ previous, ∀ behind ∈ (textOf list).head?, isNamePart behind = true →
      isNamePart before = false) :
    qualifiersFrom 0 previous (list.flatMap Token.code) = list.flatMap Token.qualifier := by
  induction lexed generalizing previous with
  | nil => rfl
  | @cons token later mode ends lexedLater ih =>
      obtain ⟨first, others⟩ := List.forall_mem_cons.mp plain
      -- A character that is not part of names sets the rest apart.
      have step {last : Char} (noPart : isNamePart last = false) :
          qualifiersFrom 0 (some last) (later.flatMap Token.code) = later.flatMap Token.qualifier :=
        ih others fun before same _ _ _ => Option.some.inj same ▸ noPart
      rw [List.flatMap_cons, List.flatMap_cons]
      cases first with
      | tidy tidy =>
          cases tidy with
          | @name name regular =>
              have stops := noPart_behind_name ends regular
              have apartName : ∀ before ∈ previous, ∀ behind ∈ name.head?,
                  isNamePart behind = true → isNamePart before = false := by
                intro before member behind begins
                refine apart before member behind ?_
                rw [textOf_cons, List.head?_append_of_ne_nil _ ends.inhabited]
                exact begins
              have codeStops := noPart_code lexedLater others stops
              refine (qualifiers_name regular codeStops apartName).trans ?_
              rw [ih others fun _ _ behind begins part => absurd part
                (Bool.eq_false_iff.mp (stops behind begins))]
              rfl
          | @symbol character noPart =>
              have notUpper : character.isUpper = false := by
                refine Bool.eq_false_iff.mpr fun upper => Bool.eq_false_iff.mp noPart ?_
                exact isNamePart_of_isWord (isWord_of_isAsciiWord (isAsciiWord_of_isUpper upper))
              exact (qualifiers_pass_small notUpper).trans (step noPart)
          | literal =>
              refine (qualifiers_pass_small (by decide)).trans ?_
              exact (qualifiers_pass_small (by decide)).trans (step (by decide))
      | comment => exact (qualifiers_pass_small (by decide)).trans (step (by decide))

/-- Imported are the modules that names are qualified with, other than the module itself and
those that need no import. -/
theorem mem_imports_iff {source own imported : String}
    (plain : ∀ token ∈ tokens source.toList, token.Plain)
    (apart : LiteralsApart (tokens source.toList)) :
    imported ∈ imports source own ↔
      (∃ token ∈ tokens source.toList, imported ∈ token.qualifier) ∧ imported ≠ own ∧
        imported ∉ defaultImports := by
  obtain ⟨lexed, -⟩ := lexed_tokens source.toList
  rw [imports, Sorted.mem_texts_iff, List.mem_filter, codeChars_eq plain apart,
    qualifiers_code lexed plain fun _ absent => absurd absent (Option.not_mem_none _),
    List.mem_flatMap, Bool.and_eq_true_iff, bne_iff_ne, Bool.not_eq_true', List.contains_eq_mem,
    decide_eq_false_iff_not]

end ElmClient.Elm.Lexer
