/-
The code of a text as it is searched for qualifiers. Block comments, literals and line
comments are taken out one after the other, each from the whole text. What is left is the
code of the tokens, if no literal opens a comment bracket that is closed behind the literal:
then a bracket found while comments are taken out is that of a comment, or both brackets
stand in one literal, which stays a literal without what is between them.
-/

import ElmClient.Proofs.Lexing.Tidy
import ElmClient.Proofs.Text.Pair
import Mathlib.Data.List.Induction

namespace ElmClient.Elm.Lexer

open Text

/-! ### Tokens that are taken out -/

def commentOf (inside : List Char) : List Char :=
  '\x7b' :: '-' :: (inside ++ ['-', '\x7d'])

/-- A tidy token, or a block comment that is closed by its only closing bracket. -/
inductive Token.Plain : Token → Prop
  | tidy {token : Token} (tidy : token.Tidy) : Plain token
  | comment {inside : List Char} (noClosing : hasPair '-' '\x7d' inside = false)
      (closes : Mode.start.run (commentOf inside) = some (.closed .comment)) :
      Plain ⟨.comment, commentOf inside⟩

/-- What stands for the token when comments and the contents of literals are left out. -/
def Token.code (token : Token) : List Char :=
  match token.kind with
  | .comment => [' ']
  | .literal => ['"', '"']
  | _ => token.text

/-- A comment bracket is opened in the text and not closed in it. -/
def LeavesOpen (text : List Char) : Prop :=
  ∃ before after, text = before ++ '\x7b' :: '-' :: after ∧ hasPair '-' '\x7d' after = false

/-- A bracket that a literal leaves open is closed nowhere behind the literal. -/
def LiteralsApart (list : List Token) : Prop :=
  ∀ earlier literal later, list = earlier ++ literal :: later → literal.kind = .literal →
    LeavesOpen literal.text → hasPair '-' '\x7d' (textOf later) = false

private theorem LiteralsApart.tail {token : Token} {later : List Token}
    (apart : LiteralsApart (token :: later)) : LiteralsApart later :=
  fun earlier literal behind same =>
    apart (token :: earlier) literal behind (by rw [same, List.cons_append])

/-! ### Block comments -/

private theorem isPrefixOf_pair {first second character : Char} {rest : List Char} :
    [first, second].isPrefixOf (character :: rest) =
      (character == first && rest.head? == some second) := by
  cases rest with
  | nil => simp [List.isPrefixOf]
  | cons next rest =>
      rw [List.isPrefixOf, List.isPrefixOf, List.isPrefixOf, Bool.and_true,
        Bool.beq_comm (a := first), Bool.beq_comm (a := second)]
      rfl

theorem closesComment_eq (text : List Char) : closesComment text = hasPair '-' '\x7d' text := by
  induction text with
  | nil => rfl
  | cons character rest ih => rw [closesComment, hasPair, isPrefixOf_pair, ih]

/-- The text without its block comments; none is open at its beginning. -/
abbrev blanked (text : List Char) : List Char := blankBlocksFrom false 0 text

abbrev blankedInside (text : List Char) : List Char := blankBlocksFrom true 0 text

private theorem blanked_open {after : List Char} (closes : hasPair '-' '\x7d' after = true) :
    blanked ('\x7b' :: '-' :: after) = blankedInside after := by
  rw [blanked, blankBlocksFrom, if_neg Bool.false_ne_true, List.drop_one, List.tail_cons,
    closesComment_eq, closes]
  rfl

theorem blanked_keep {character : Char} {rest : List Char}
    (keeps : character = '\x7b' → ∀ after, rest = '-' :: after → hasPair '-' '\x7d' after = false) :
    blanked (character :: rest) = character :: blanked rest := by
  rw [blanked, blankBlocksFrom, if_neg Bool.false_ne_true, if_neg]
  rw [isPrefixOf_pair, List.drop_one, closesComment_eq, Bool.and_eq_true_iff, Bool.and_eq_true_iff]
  rintro ⟨⟨opens, dash⟩, closes⟩
  obtain ⟨after, rfl⟩ := List.head?_eq_some_iff.mp (eq_of_beq dash)
  rw [List.tail_cons, keeps (eq_of_beq opens) after rfl] at closes
  contradiction

private theorem blankedInside_close (rest : List Char) :
    blankedInside ('-' :: '\x7d' :: rest) = ' ' :: blanked rest := rfl

private theorem blankedInside_pass {character : Char} {rest : List Char}
    (goesOn : (character == '-' && rest.head? == some '\x7d') = false) :
    blankedInside (character :: rest) = blankedInside rest := by
  rw [blankedInside, blankBlocksFrom, if_pos rfl, isPrefixOf_pair, goesOn]
  rfl

private theorem blanked_pass {text rest : List Char} (none : hasPair '\x7b' '-' text = false)
    (border : text.getLast? = some '\x7b' → rest.head? ≠ some '-') :
    blanked (text ++ rest) = text ++ blanked rest := by
  induction text with
  | nil => rfl
  | cons character text ih =>
      obtain ⟨here, later⟩ := Bool.or_eq_false_iff.mp none
      have keeps : character = '\x7b' → ∀ after, text ++ rest = '-' :: after →
          hasPair '-' '\x7d' after = false := by
        rintro rfl after begins
        have dash : (text ++ rest).head? = some '-' := by rw [begins]; rfl
        cases text with
        | nil => exact absurd dash (border rfl)
        | cons next text =>
            rw [List.cons_append, List.head?_cons] at dash
            rw [List.head?_cons, dash] at here
            exact absurd here (by decide)
      have laterBorder : text.getLast? = some '\x7b' → rest.head? ≠ some '-' := by
        intro last
        refine border ?_
        rw [List.getLast?_cons, last]
        rfl
      rw [List.cons_append, blanked_keep keeps, ih later laterBorder, List.cons_append]

private theorem blankedInside_comment {inside : List Char}
    (noClosing : hasPair '-' '\x7d' inside = false)
    (rest : List Char) :
    blankedInside (inside ++ '-' :: '\x7d' :: rest) = ' ' :: blanked rest := by
  induction inside with
  | nil => exact blankedInside_close rest
  | cons character inside ih =>
      obtain ⟨here, later⟩ := Bool.or_eq_false_iff.mp noClosing
      have goesOn :
          (character == '-' && (inside ++ '-' :: '\x7d' :: rest).head? == some '\x7d') = false := by
        cases inside with
        | nil => exact Bool.and_false _
        | cons next inside => exact here
      rw [List.cons_append, blankedInside_pass goesOn, ih later]

theorem blanked_commentOf {inside : List Char} (noClosing : hasPair '-' '\x7d' inside = false)
    (rest : List Char) : blanked (commentOf inside ++ rest) = ' ' :: blanked rest := by
  have closes : hasPair '-' '\x7d' (inside ++ '-' :: '\x7d' :: rest) = true :=
    hasPair_of_split inside rest
  have whole : commentOf inside ++ rest =
      '\x7b' :: '-' :: (inside ++ '-' :: '\x7d' :: rest) := by
    simp [commentOf]
  rw [whole, blanked_open closes, blankedInside_comment noClosing]

/-- No bracket reaches over the end of the text. -/
def EndsApart (text : List Char) : Prop :=
  ∀ before last, text = before ++ [last] → last ≠ '\x7b' ∧ last ≠ '-'

private theorem EndsApart.tail {character : Char} {rest : List Char}
    (apart : EndsApart (character :: rest)) :
    EndsApart rest :=
  fun before last same => apart (character :: before) last (by rw [same, List.cons_append])

private theorem LeavesOpen.cons {rest : List Char} (character : Char) (leaves : LeavesOpen rest) :
    LeavesOpen (character :: rest) := by
  obtain ⟨before, after, rfl, noClosing⟩ := leaves
  exact ⟨character :: before, after, rfl, noClosing⟩

private theorem blanked_single {character : Char} (other : character ≠ '\x7b') (rest : List Char) :
    blanked (character :: rest) = character :: blanked rest :=
  blanked_keep fun same => absurd same other

private theorem blanked_next {character next : Char} (noPair : ¬ (character = '\x7b' ∧ next = '-'))
    (rest : List Char) :
    blanked (character :: next :: rest) = character :: blanked (next :: rest) :=
  blanked_keep fun same _ dash => absurd ⟨same, (List.cons.inj dash).1⟩ noPair

private theorem blankedInside_next {character next : Char}
    (noPair : ¬ (character = '-' ∧ next = '\x7d'))
    (rest : List Char) :
    blankedInside (character :: next :: rest) = blankedInside (next :: rest) := by
  refine blankedInside_pass ?_
  rw [List.head?_cons, Bool.and_eq_false_iff, beq_eq_false_iff_ne, beq_eq_false_iff_ne]
  by_cases dash : character = '-'
  · exact Or.inr fun brace => noPair ⟨dash, Option.some.inj brace⟩
  · exact Or.inl dash

/-- Comments are taken out of a text and of what follows on it separately, if a bracket that
the text leaves open is not closed behind it. -/
theorem blanked_append {text rest : List Char} (apart : EndsApart text)
    (quiet : LeavesOpen text → hasPair '-' '\x7d' rest = false) :
    blanked (text ++ rest) = blanked text ++ blanked rest ∧
      (hasPair '-' '\x7d' text = true →
        blankedInside (text ++ rest) = blankedInside text ++ blanked rest) := by
  induction text using List.twoStepInduction with
  | nil => exact ⟨rfl, nofun⟩
  | singleton character =>
      have other := (apart [] character rfl).1
      refine ⟨?_, fun closes => absurd closes ?_⟩
      · rw [List.singleton_append, blanked_single other, blanked_single other]
        rfl
      · simp [hasPair]
  | cons_cons character next text behind later =>
      have nextStep := later next apart.tail fun leaves => quiet (leaves.cons character)
      have afterNext := behind apart.tail.tail fun leaves =>
        quiet ((leaves.cons next).cons character)
      rw [List.cons_append, List.cons_append]
      rw [List.cons_append] at nextStep
      constructor
      · by_cases opens : character = '\x7b' ∧ next = '-'
        · obtain ⟨rfl, rfl⟩ := opens
          cases closes : hasPair '-' '\x7d' text with
          | true =>
              have whole : hasPair '-' '\x7d' (text ++ rest) = true := by
                rw [hasPair_append, closes, Bool.true_or, Bool.true_or]
              rw [blanked_open whole, blanked_open closes, afterNext.2 closes]
          | false =>
              have noBorder : (text.getLast? == some '-') = false := by
                refine Bool.eq_false_iff.mpr fun dashLast => ?_
                obtain ⟨before, same⟩ := List.getLast?_eq_some_iff.mp (eq_of_beq dashLast)
                exact (apart ('\x7b' :: '-' :: before) '-' (by rw [same]; rfl)).2 rfl
              have whole : hasPair '-' '\x7d' (text ++ rest) = false := by
                rw [hasPair_append, closes, quiet ⟨[], text, rfl, closes⟩, noBorder]
                rfl
              have keeps {tail : List Char} (none : hasPair '-' '\x7d' tail = false) :
                  blanked ('\x7b' :: '-' :: tail) = '\x7b' :: blanked ('-' :: tail) :=
                blanked_keep fun _ _ same => (List.cons.inj same).2 ▸ none
              rw [keeps whole, keeps closes, nextStep.1, List.cons_append]
        · rw [blanked_next opens, blanked_next opens, nextStep.1, List.cons_append]
      · intro closes
        by_cases ends : character = '-' ∧ next = '\x7d'
        · obtain ⟨rfl, rfl⟩ := ends
          rw [blankedInside_close, blankedInside_close, afterNext.1, List.cons_append]
        · have noPair : (character == '-' && (next :: text).head? == some '\x7d') = false := by
            simpa using fun dash => fun brace => ends ⟨dash, brace⟩
          rw [hasPair, noPair, Bool.false_or] at closes
          rw [blankedInside_next ends, blankedInside_next ends, nextStep.2 closes]

/-! ### Literals -/

def Mode.Inside (mode : Mode) : Prop :=
  mode = .text ∨ mode = .escape

private theorem Mode.Inside.next {mode : Mode} (inside : mode.Inside) {character : Char}
    {rest : List Char}
    (inhabited : rest ≠ []) (reads : mode.run (character :: rest) = some (.closed .literal)) :
    ∃ reached, mode.next character = some reached ∧ reached.Inside ∧
      reached.run rest = some (.closed .literal) := by
  obtain ⟨reached, taking, reads⟩ := Option.bind_eq_some_iff.mp reads
  refine ⟨reached, taking, ?_, reads⟩
  have notClosed : reached ≠ .closed .literal := by
    rintro rfl
    obtain ⟨head, tail, rfl⟩ := List.exists_cons_of_ne_nil inhabited
    cases reads
  rcases inside with rfl | rfl
  · simp only [Mode.next, Mode.inText] at taking
    split at taking
    · exact absurd (Option.some.inj taking).symm notClosed
    · split at taking
      · cases taking
      · split at taking
        · exact Or.inr (Option.some.inj taking).symm
        · exact Or.inl (Option.some.inj taking).symm
  · simp only [Mode.next] at taking
    split at taking
    · cases taking
    · exact Or.inl (Option.some.inj taking).symm

private theorem Mode.Inside.plain {mode : Mode} (inside : mode.Inside) {character : Char}
    (plain : character ≠ '"' ∧ character ≠ '\\' ∧ character ≠ '\n') :
    mode.next character = some .text := by
  obtain ⟨quote, backslash, feed⟩ := plain
  rcases inside with rfl | rfl
  · rw [Mode.next, if_neg quote, Mode.inText, if_neg feed, if_neg backslash]
  · rw [Mode.next, if_neg feed]

theorem run_blanked {text : List Char} {mode : Mode} (inside : mode.Inside)
    (reads : mode.run text = some (.closed .literal)) :
    mode.run (blanked text) = some (.closed .literal) ∧
      (hasPair '-' '\x7d' text = true → ∀ outer : Mode, outer.Inside →
        outer.run (blankedInside text) = some (.closed .literal)) := by
  have isText : Mode.text.Inside := Or.inl rfl
  induction text using List.twoStepInduction generalizing mode with
  | nil => exact ⟨reads, nofun⟩
  | singleton character =>
      have keeps : blanked [character] = [character] := blanked_keep fun _ _ dash => by cases dash
      exact ⟨by rw [keeps, reads], fun closes => absurd closes (by simp [hasPair])⟩
  | cons_cons character next text behind later =>
      obtain ⟨reached, taking, reachedInside, readsNext⟩ := inside.next (List.cons_ne_nil _ _) reads
      have nextStep := later next reachedInside readsNext
      have goesOn {outer : Mode} (same : outer.next character = some reached) :
          outer.run (character :: blanked (next :: text)) = some (.closed .literal) := by
        rw [Mode.run, same, Option.bind_some, nextStep.1]
      -- Neither bracket of a comment ends the literal, so it is read on behind both.
      have behindPair (first : mode.next character = some .text)
          (second : Mode.text.next next = some .text) :
          Mode.text.run text = some (.closed .literal) := by
        rw [Mode.run, first, Option.bind_some, Mode.run, second] at reads
        exact reads
      constructor
      · by_cases opens : character = '\x7b' ∧ next = '-'
        · obtain ⟨rfl, rfl⟩ := opens
          cases closes : hasPair '-' '\x7d' text with
          | true =>
              rw [blanked_open closes]
              exact (behind isText (behindPair (inside.plain (by decide)) (by decide))).2 closes
                mode inside
          | false =>
              rw [blanked_keep fun _ _ same => (List.cons.inj same).2 ▸ closes]
              exact goesOn taking
        · rw [blanked_next opens]
          exact goesOn taking
      · intro closes outer outerInside
        by_cases ends : character = '-' ∧ next = '\x7d'
        · obtain ⟨rfl, rfl⟩ := ends
          rw [blankedInside_close, Mode.run, outerInside.plain (by decide), Option.bind_some]
          exact (behind isText (behindPair (inside.plain (by decide)) (by decide))).1
        · have noPair : (character == '-' && (next :: text).head? == some '\x7d') = false := by
            simpa using fun dash => fun brace => ends ⟨dash, brace⟩
          rw [hasPair, noPair, Bool.false_or] at closes
          rw [blankedInside_next ends]
          exact nextStep.2 closes outer outerInside

private theorem Line.blanked {rest : List Char} (line : Line rest) : Line (blanked rest) :=
  (line_of_run _).1 (run_blanked (Or.inl rfl) (run_of_line line)).1

theorem literalLength?_line {line rest : List Char} (isLine : Line line) :
    literalLength? (line ++ rest) = some line.length := by
  induction isLine with
  | closing => rfl
  | @escape character later feed _ ih =>
      rw [List.cons_append, List.cons_append, literalLength?.eq_4]
      rw [if_neg feed, ih]
      rfl
  | @plain character later quote backslash _ _ ih =>
      rw [List.cons_append, literalLength?.eq_5, ih]
      · rfl
      · exact fun same => absurd same quote
      · exact fun same => absurd same backslash
      · exact fun _ _ same => absurd same backslash

theorem emptyLiterals_pass {text : List Char} (noQuote : '"' ∉ text) (rest : List Char) :
    emptyLiteralsFrom 0 (text ++ rest) = text ++ emptyLiteralsFrom 0 rest := by
  induction text with
  | nil => rfl
  | cons character text ih =>
      obtain ⟨other, later⟩ := not_or.mp (mt List.mem_cons.mpr noQuote)
      rw [List.cons_append, emptyLiteralsFrom, if_neg (Ne.symm other), ih later, List.cons_append]

theorem emptyLiterals_skip (text rest : List Char) :
    emptyLiteralsFrom text.length (text ++ rest) = emptyLiteralsFrom 0 rest := by
  induction text with
  | nil => rfl
  | cons character text ih => rw [List.cons_append, List.length_cons, emptyLiteralsFrom, ih]

theorem emptyLiterals_line {line : List Char} (isLine : Line line) (rest : List Char) :
    emptyLiteralsFrom 0 ('"' :: (line ++ rest)) = ['"', '"'] ++ emptyLiteralsFrom 0 rest := by
  rw [emptyLiteralsFrom, if_pos rfl, literalLength?_line isLine]
  dsimp only
  rw [emptyLiterals_skip]
  rfl

/-! ### Line comments -/

theorem blankLines_of_no_pair {text : List Char} (none : hasPair '-' '-' text = false) :
    blankLines text = text := by
  induction text with
  | nil => rfl
  | cons character rest ih =>
      obtain ⟨here, later⟩ := Bool.or_eq_false_iff.mp none
      rw [blankLines, blankLinesFrom, isPrefixOf_pair, here, if_neg Bool.false_ne_true]
      exact congrArg (character :: ·) (ih later)

/-! ### Code of tokens -/

def Token.blanked (token : Token) : List Char :=
  if token.kind = .comment then [' '] else Lexer.blanked token.text

private theorem unmarked_of_regular {name : List Char} (regular : isRegular name = true) :
    ∀ character ∈ name, Unmarked character := fun character member =>
  unmarked_of_isNamePart (isNamePart_of_isRegular regular character member)

section Name

variable {name : List Char} (regular : isRegular name = true)

include regular

private theorem not_mem_name_quote : '"' ∉ name := fun member =>
  (unmarked_of_regular regular _ member).quote rfl

private theorem not_mem_name_dash : '-' ∉ name := fun member =>
  (unmarked_of_regular regular _ member).dash rfl

private theorem not_mem_name_opens : '\x7b' ∉ name := fun member =>
  (unmarked_of_regular regular _ member).opens rfl

private theorem blanked_name_append (rest : List Char) :
    blanked (name ++ rest) = name ++ blanked rest := by
  refine blanked_pass (hasPair_of_not_mem (not_mem_name_opens regular)) fun last => ?_
  exact absurd (List.mem_of_getLast? last) (not_mem_name_opens regular)

private theorem blanked_name : blanked name = name := by
  have whole := blanked_name_append regular []
  rw [List.append_nil] at whole
  rw [whole]
  exact List.append_nil name

end Name

private theorem endsApart_literal {rest : List Char} (line : Line rest) :
    EndsApart ('"' :: rest) := by
  intro before last same
  have ends : ('"' :: rest).getLast? = some '"' := by
    rw [List.getLast?_cons, line.getLast?]
    rfl
  rw [same, List.getLast?_concat] at ends
  obtain rfl := Option.some.inj ends
  exact ⟨by decide, by decide⟩

private theorem blanked_quote (rest : List Char) : blanked ('"' :: rest) = '"' :: blanked rest :=
  blanked_single (by decide) rest

/-- Comment brackets are taken out of each token by itself. -/
theorem blanked_textOf {list : List Token} (lexed : Lexed list)
    (plain : ∀ token ∈ list, token.Plain) (apart : LiteralsApart list) :
    blanked (textOf list) = list.flatMap Token.blanked := by
  induction lexed with
  | nil => rfl
  | @cons token later mode ends _ ih =>
      obtain ⟨first, others⟩ := List.forall_mem_cons.mp plain
      have behind := ih others apart.tail
      rw [textOf_cons, List.flatMap_cons, ← behind]
      cases first with
      | tidy tidy =>
          cases tidy with
          | @name name regular =>
              rw [blanked_name_append regular, Token.blanked, if_neg (by simp),
                blanked_name regular]
          | @symbol character noPart quote apostrophe feed =>
              have border : [character].getLast? = some '\x7b' →
                  (textOf later).head? ≠ some '-' := by
                rintro opens dash
                obtain rfl : character = '\x7b' := Option.some.inj opens
                have reads : mode = .brace := (Option.some.inj ends.reads).symm
                rw [reads] at ends
                exact absurd (ends.stops '-' dash) (by decide)
              have alone : blanked [character] = [character] :=
                blanked_keep fun _ _ dash => by cases dash
              rw [blanked_pass (by simp [hasPair]) border, Token.blanked, if_neg (by simp), alone]
          | @literal rest line =>
              rw [Token.blanked, if_neg (by simp)]
              exact (blanked_append (endsApart_literal line) (apart [] _ later rfl rfl)).1
      | @comment inside noClosing =>
          exact blanked_commentOf noClosing (textOf later)

theorem emptyLiterals_flatMap {list : List Token} (plain : ∀ token ∈ list, token.Plain) :
    emptyLiterals (list.flatMap Token.blanked) = list.flatMap Token.code := by
  induction list with
  | nil => rfl
  | cons token later ih =>
      obtain ⟨first, others⟩ := List.forall_mem_cons.mp plain
      have behind := ih others
      rw [emptyLiterals] at behind ⊢
      rw [List.flatMap_cons, List.flatMap_cons, ← behind]
      cases first with
      | tidy tidy =>
          cases tidy with
          | name regular =>
              rw [Token.blanked, if_neg (by simp), blanked_name regular]
              exact emptyLiterals_pass (not_mem_name_quote regular) _
          | @symbol character noPart quote =>
              have alone : blanked [character] = [character] :=
                blanked_keep fun _ _ dash => by cases dash
              rw [Token.blanked, if_neg (by simp), alone]
              exact emptyLiterals_pass (fun member => quote (List.mem_singleton.mp member).symm) _
          | literal line =>
              rw [Token.blanked, if_neg (by simp), blanked_quote]
              exact emptyLiterals_line line.blanked _
      | comment => exact @emptyLiterals_pass [' '] (by decide) _

theorem head?_code {list : List Token} (lexed : Lexed list) (plain : ∀ token ∈ list, token.Plain)
    {first : Char} (blank : first ≠ ' ') (quote : first ≠ '"')
    (begins : (list.flatMap Token.code).head? = some first) : (textOf list).head? = some first := by
  cases lexed with
  | nil => cases begins
  | @cons token later mode ends _ =>
      rw [List.flatMap_cons] at begins
      rw [textOf_cons]
      cases plain token List.mem_cons_self with
      | tidy tidy =>
          cases tidy with
          | name =>
              rw [List.head?_append_of_ne_nil _ ends.inhabited]
              exact (List.head?_append_of_ne_nil _ ends.inhabited).symm.trans begins
          | symbol => exact begins
          | literal => exact absurd (Option.some.inj begins).symm quote
      | comment => exact absurd (Option.some.inj begins).symm blank

private theorem hasPair_code {list : List Token} (lexed : Lexed list)
    (plain : ∀ token ∈ list, token.Plain) : hasPair '-' '-' (list.flatMap Token.code) = false := by
  induction lexed with
  | nil => rfl
  | @cons token later mode ends lexedLater ih =>
      obtain ⟨first, others⟩ := List.forall_mem_cons.mp plain
      have noDash (text : List Char) (none : '-' ∉ text) :
          hasPair '-' '-' (text ++ later.flatMap Token.code) = false := by
        rw [hasPair_append, ih others, hasPair_of_not_mem none]
        have last : (text.getLast? == some '-') = false :=
          beq_false_of_ne fun dash => none (List.mem_of_getLast? dash)
        rw [last]
        rfl
      rw [List.flatMap_cons]
      cases first with
      | tidy tidy =>
          cases tidy with
          | name regular => exact noDash _ (not_mem_name_dash regular)
          | @symbol character =>
              by_cases dash : character = '-'
              · subst dash
                have reads : mode = .dash := (Option.some.inj ends.reads).symm
                rw [reads] at ends
                have apart : ((later.flatMap Token.code).head? == some '-') = false := by
                  refine beq_false_of_ne fun again => ?_
                  have second : (textOf later).head? = some '-' :=
                    head?_code lexedLater others (by decide) (by decide) again
                  exact absurd (ends.stops '-' second) (by decide)
                change hasPair '-' '-' ('-' :: later.flatMap Token.code) = false
                rw [hasPair, ih others, apart]
                rfl
              · exact noDash _ fun member => dash (List.mem_singleton.mp member).symm
          | literal => exact noDash ['"', '"'] (by decide)
      | comment => exact noDash [' '] (by decide)

/-- The code of a text is that of its tokens. -/
theorem codeChars_eq {characters : List Char} (plain : ∀ token ∈ tokens characters, token.Plain)
    (apart : LiteralsApart (tokens characters)) :
    codeChars characters = (tokens characters).flatMap Token.code := by
  obtain ⟨lexed, whole⟩ := lexed_tokens characters
  have blocks := blanked_textOf lexed plain apart
  rw [whole] at blocks
  have code : emptyLiterals (blankBlocks characters) = (tokens characters).flatMap Token.code := by
    rw [← emptyLiterals_flatMap plain, ← blocks]
    rfl
  rw [codeChars, code]
  exact blankLines_of_no_pair (hasPair_code lexed plain)

end ElmClient.Elm.Lexer
