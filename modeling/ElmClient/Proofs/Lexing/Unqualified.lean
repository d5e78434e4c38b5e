/-
Tokens of unqualified text. Whatever mode a scanner is in, it goes through a name in one
mode, so it does not see how much of a name is left out. Taking a qualifier off therefore
acts on each token by itself: kinds and order stay, and no token is joined or cut.
-/

import ElmClient.Elm.Qualifier
import ElmClient.Proofs.Lexing.Token
import ElmClient.Proofs.Text.Split

namespace ElmClient.Elm.Lexer

open Text

/-! ### Scanning names -/

theorem isNamePart_of_isWord {character : Char} (word : isWord character = true) :
    isNamePart character = true := by
  rw [isNamePart, word, Bool.true_or]

structure Unmarked (character : Char) : Prop where
  quote : character ≠ '"'
  apostrophe : character ≠ '\''
  backslash : character ≠ '\\'
  dash : character ≠ '-'
  opens : character ≠ '\x7b'
  closes : character ≠ '\x7d'
  feed : character ≠ '\n'

theorem unmarked_of_isNamePart {character : Char} (part : isNamePart character = true) :
    Unmarked character := by
  constructor <;> (rintro rfl; exact absurd part (by decide))

/-- The mode in which a name is read on; none if a token ends before it. -/
def Mode.throughName : Mode → Option Mode
  | .start | .name => some .name
  | .closed _ | .dash | .brace | .quotes => none
  | .line => some .line
  | .block outer | .blockBrace outer | .blockDash outer => some (.block outer)
  | .quote | .text | .escape => some .text
  | .triple _ | .tripleEscape => some (.triple 0)
  | .glyph | .glyphEscape => some .glyph

theorem Mode.next_name (mode : Mode) {character : Char} (part : isNamePart character = true) :
    mode.next character = mode.throughName := by
  have plain := unmarked_of_isNamePart part
  rcases mode with _ | _ | _ | _ | _ | _ | _ | _ | (_ | _) | _ <;>
    simp only [next, opening, inBlock, inText, throughName, part, plain.quote, plain.apostrophe,
      plain.backslash, plain.dash, plain.opens, plain.closes, plain.feed, if_false, if_true]

theorem Mode.next_part {mode inside : Mode} (passes : mode.throughName = some inside)
    {character : Char} (part : isNamePart character = true) :
    inside.next character = some inside := by
  have plain := unmarked_of_isNamePart part
  cases mode <;> cases passes <;>
    simp only [next, inBlock, inText, part, plain.quote, plain.apostrophe, plain.backslash,
      plain.dash, plain.opens, plain.feed, if_false, if_true]

private theorem Mode.not_part_of_stops {mode reached : Mode} {before behind : Char}
    (reads : mode.next before = some reached) (stops : reached.next behind = none)
    (part : isNamePart behind = true) : isNamePart before = false := by
  cases also : isNamePart before with
  | false => rfl
  | true =>
      rw [next_name mode also] at reads
      rw [next_part reads part] at stops
      contradiction

theorem Mode.run_append (mode : Mode) (left right : List Char) :
    mode.run (left ++ right) = (mode.run left).bind fun reached => reached.run right := by
  induction left generalizing mode with
  | nil => rfl
  | cons character left ih =>
      rw [List.cons_append, run, run]
      cases mode.next character with
      | none => rfl
      | some reached => exact ih reached

theorem Mode.run_parts {mode inside : Mode} (passes : mode.throughName = some inside)
    {parts rest : List Char} (all : ∀ character ∈ parts, isNamePart character = true) :
    inside.run (parts ++ rest) = inside.run rest := by
  induction parts with
  | nil => rfl
  | cons character parts ih =>
      obtain ⟨first, later⟩ := List.forall_mem_cons.mp all
      rw [List.cons_append, run, next_part passes first, Option.bind_some, ih later]

/-! ### Occurrences of a qualifier -/

theorem getLast?_or_cons (character : Char) (rest : List Char) (previous : Option Char) :
    (character :: rest).getLast?.or previous = rest.getLast?.or (some character) := by
  rw [List.getLast?_cons]
  cases rest.getLast? <;> rfl

structure IsPath (own : List Char) : Prop where
  begins : ∃ first rest, own = first :: rest ∧ isWord first = true
  parts : ∀ character ∈ own, isNamePart character = true

theorem IsPath.parts_member {own : List Char} (path : IsPath own) {first : Char}
    (word : isWord first = true) : ∀ part ∈ own ++ ['.', first], isNamePart part = true := by
  refine List.forall_mem_append.mpr ⟨path.parts, ?_⟩
  exact List.forall_mem_cons.mpr ⟨rfl, List.forall_mem_singleton.mpr (isNamePart_of_isWord word)⟩

/-- The qualifier is taken off at the beginning of the characters. -/
def occurs (own : List Char) (previous : Option Char) : List Char → Bool
  | [] => false
  | character :: rest =>
      isBoundary previous (some character) && qualifies own (character :: rest)

theorem isWord_of_startsName {characters : List Char} (starts : startsName characters = true) :
    ∃ first rest, characters = first :: rest ∧ isWord first = true := by
  cases characters with
  | nil => contradiction
  | cons first rest =>
      refine ⟨first, rest, rfl, ?_⟩
      rw [isWord, isAsciiWord, Char.isAlphanum]
      rcases Bool.or_eq_true_iff.mp starts with letter | underscore
      · rw [letter, Bool.true_or, Bool.true_or, Bool.true_or]
      · rw [underscore, Bool.or_true, Bool.true_or]

theorem qualifies_iff {own characters : List Char} :
    qualifies own characters = true ↔
      ∃ rest, characters = own ++ '.' :: rest ∧ startsName rest = true := by
  unfold qualifies
  cases dropped : dropLead? (own ++ ['.']) characters with
  | some rest =>
      have parts := dropLead?_eq_some_iff.mp dropped
      rw [List.append_assoc, List.singleton_append] at parts
      constructor
      · exact fun starts => ⟨rest, parts, starts⟩
      · rintro ⟨other, same, starts⟩
        rw [parts] at same
        obtain rfl := (List.cons.inj (List.append_cancel_left same)).2
        exact starts
  | none =>
      refine iff_of_false nofun ?_
      rintro ⟨rest, rfl, -⟩
      have whole : own ++ '.' :: rest = (own ++ ['.']) ++ rest := by
        rw [List.append_assoc, List.singleton_append]
      rw [whole, dropLead?_append] at dropped
      contradiction

section Unqualify

variable {own : List Char}

theorem unqualifyFrom_pass (passed : List Char) (previous : Option Char) (first : Char)
    (rest : List Char) :
    unqualifyFrom own (passed.length + 1) previous (passed ++ first :: rest) =
      first :: unqualifyFrom own 0 (some first) rest := by
  induction passed generalizing previous with
  | nil => rfl
  | cons character passed ih =>
      rw [List.cons_append, List.length_cons, unqualifyFrom, ih]

theorem unqualifyFrom_keep {previous : Option Char} {character : Char} {rest : List Char}
    (keeps : occurs own previous (character :: rest) = false) :
    unqualifyFrom own 0 previous (character :: rest) =
      character :: unqualifyFrom own 0 (some character) rest := by
  rw [unqualifyFrom, if_neg]
  exact Bool.not_eq_true _ ▸ keeps

variable (path : IsPath own)

include path

theorem occurs_iff {previous : Option Char} {characters : List Char} :
    occurs own previous characters = true ↔ (∀ before ∈ previous, isWord before = false) ∧
      ∃ first rest, characters = own ++ '.' :: first :: rest ∧
        startsName (first :: rest) = true := by
  obtain ⟨initial, others, rfl, word⟩ := path.begins
  have boundary : isBoundary previous (some initial) = true ↔
      ∀ before ∈ previous, isWord before = false := by
    cases previous <;> simp [isBoundary, word]
  constructor
  · intro found
    cases characters with
    | nil => contradiction
    | cons character rest =>
        obtain ⟨bounds, qualified⟩ := Bool.and_eq_true_iff.mp found
        obtain ⟨behind, parts, starts⟩ := qualifies_iff.mp qualified
        obtain ⟨first, later, rfl, -⟩ := isWord_of_startsName starts
        obtain rfl := (List.cons.inj parts).1
        exact ⟨boundary.mp bounds, first, later, parts, starts⟩
  · rintro ⟨bounds, first, rest, rfl, starts⟩
    exact Bool.and_eq_true_iff.mpr
      ⟨boundary.mpr bounds, qualifies_iff.mpr ⟨first :: rest, rfl, starts⟩⟩

theorem unqualifyFrom_drop {previous : Option Char} {first : Char} {rest : List Char}
    (found : occurs own previous (own ++ '.' :: first :: rest) = true) :
    unqualifyFrom own 0 previous (own ++ '.' :: first :: rest) =
      first :: unqualifyFrom own 0 (some first) rest := by
  obtain ⟨initial, others, same, -⟩ := path.begins
  have passed : own.length + 1 = (others ++ ['.']).length + 1 := by
    rw [same, List.length_append, List.length_cons, List.length_singleton]
  have begins : own ++ '.' :: first :: rest =
      initial :: ((others ++ ['.']) ++ first :: rest) := by
    rw [same, List.cons_append, List.append_assoc, List.singleton_append]
  rw [begins] at found ⊢
  rw [unqualifyFrom]
  refine (if_pos found).trans ?_
  rw [passed, unqualifyFrom_pass]

/-- What holds of the empty text, is kept where a character is, and holds of a text whose
qualifier is left out if it holds of the rest, holds of every text. -/
theorem unqualify_induction {motive : Option Char → List Char → Prop}
    (nil : ∀ previous, motive previous [])
    (keep : ∀ previous character rest, occurs own previous (character :: rest) = false →
      motive (some character) rest → motive previous (character :: rest))
    (drop : ∀ previous first rest, occurs own previous (own ++ '.' :: first :: rest) = true →
      isWord first = true → motive (some first) rest →
        motive previous (own ++ '.' :: first :: rest))
    (previous : Option Char) (characters : List Char) : motive previous characters := by
  induction size : characters.length using Nat.strongRecOn generalizing previous characters with
  | _ bound ih =>
      cases characters with
      | nil => exact nil previous
      | cons character rest =>
          cases found : occurs own previous (character :: rest) with
          | false =>
              refine keep previous character rest found (ih rest.length ?_ _ rest rfl)
              rw [← size, List.length_cons]
              exact Nat.lt_succ_self _
          | true =>
              obtain ⟨-, first, behind, parts, starts⟩ := (occurs_iff path).mp found
              obtain ⟨other, later, same, word⟩ := isWord_of_startsName starts
              obtain ⟨rfl, rfl⟩ := List.cons.inj same
              rw [parts] at found size ⊢
              refine drop previous first behind found word (ih behind.length ?_ _ behind rfl)
              rw [← size, List.length_append, List.length_cons, List.length_cons]
              omega

/-! ### Tokens -/

/-- A scanner is led to the same mode without the qualifier. -/
theorem run_unqualify (mode : Mode) (previous : Option Char) (characters : List Char) :
    mode.run (unqualifyFrom own 0 previous characters) = mode.run characters := by
  induction previous, characters using unqualify_induction path generalizing mode with
  | nil previous => rfl
  | keep previous character rest keeps ih =>
      rw [unqualifyFrom_keep keeps, Mode.run, Mode.run]
      exact Option.bind_congr fun reached _ => ih reached
  | drop previous first rest found word ih =>
      rw [unqualifyFrom_drop path found, Mode.run, Mode.next_name mode (isNamePart_of_isWord word)]
      obtain ⟨initial, others, same, initialWord⟩ := path.begins
      have parts : ∀ character ∈ others ++ ['.', first], isNamePart character = true :=
        fun character member => path.parts_member word character
          (same ▸ List.mem_cons_of_mem initial member)
      have begins : own ++ '.' :: first :: rest =
          initial :: ((others ++ ['.', first]) ++ rest) := by
        rw [same, List.cons_append, List.append_assoc]
        rfl
      rw [begins, Mode.run, Mode.next_name mode (isNamePart_of_isWord initialWord)]
      cases passes : mode.throughName with
      | none => rfl
      | some inside =>
          rw [Option.bind_some, Option.bind_some, Mode.run_parts passes parts, ih]

theorem unqualify_apart {previous : Option Char} {characters : List Char}
    (apart : ∀ before ∈ previous, ∀ behind ∈ characters.head?,
      isNamePart behind = true → isNamePart before = false) :
    unqualifyFrom own 0 previous characters = unqualifyFrom own 0 none characters := by
  cases characters with
  | nil => rfl
  | cons character rest =>
      cases found : occurs own none (character :: rest) with
      | false =>
          have keeps : occurs own previous (character :: rest) = false := by
            refine Bool.eq_false_iff.mpr fun other => Bool.eq_false_iff.mp found ?_
            exact (occurs_iff path).mpr ⟨nofun, ((occurs_iff path).mp other).2⟩
          rw [unqualifyFrom_keep found, unqualifyFrom_keep keeps]
      | true =>
          obtain ⟨-, occurrence⟩ := (occurs_iff path).mp found
          obtain ⟨first, behind, parts, -⟩ := id occurrence
          obtain ⟨initial, others, same, word⟩ := path.begins
          have begins : character = initial := by
            rw [same] at parts
            exact (List.cons.inj parts).1
          have also : occurs own previous (character :: rest) = true := by
            refine (occurs_iff path).mpr ⟨fun before member => ?_, occurrence⟩
            have notPart := apart before member character rfl
              (begins ▸ isNamePart_of_isWord word)
            exact (Bool.or_eq_false_iff.mp notPart).1
          rw [parts] at found also ⊢
          rw [unqualifyFrom_drop path found, unqualifyFrom_drop path also]

/-- Where no name goes on across the end of a text, an occurrence that begins in it is whole. -/
theorem occurs_append {previous : Option Char} {left right : List Char} (inhabited : left ≠ [])
    (apart : ∀ before ∈ left.getLast?.or previous, ∀ behind ∈ right.head?,
      isNamePart behind = true → isNamePart before = false) :
    occurs own previous (left ++ right) = occurs own previous left := by
  refine Bool.eq_iff_iff.mpr ((occurs_iff path).trans (Iff.trans ?_ (occurs_iff path).symm))
  refine and_congr_right fun _ => ⟨?_, ?_⟩
  · rintro ⟨first, behind, parts, starts⟩
    have whole : left ++ right = (own ++ ['.', first]) ++ behind := by
      rw [parts, List.append_assoc]
      rfl
    rcases List.append_eq_append_iff.mp whole with ⟨between, same, rightSame⟩ | ⟨tail, same, -⟩
    · cases between with
      | nil =>
          rw [List.append_nil] at same
          exact ⟨first, [], same.symm, starts⟩
      | cons inside between =>
          -- The path would be read across the border as one name.
          obtain ⟨_, _, ⟨⟩, word⟩ := isWord_of_startsName starts
          have all := path.parts_member word
          rw [same] at all
          have atEnd := List.getLast?_eq_some_getLast inhabited
          have notPart := apart _ (Option.or_eq_some_iff.mpr (Or.inl atEnd)) inside
            (by rw [rightSame]; rfl)
            (all inside (List.mem_append_right _ List.mem_cons_self))
          rw [all _ (List.mem_append_left _ (List.getLast_mem inhabited))] at notPart
          contradiction
    · refine ⟨first, tail, ?_, starts⟩
      rw [same, List.append_assoc]
      rfl
  · rintro ⟨first, behind, rfl, starts⟩
    exact ⟨first, behind ++ right, List.append_assoc _ _ _, starts⟩

/-- Texts that do not meet in a name are unqualified one by one. -/
theorem unqualify_append {previous : Option Char} {left right : List Char}
    (apart : ∀ before ∈ left.getLast?.or previous, ∀ behind ∈ right.head?,
      isNamePart behind = true → isNamePart before = false) :
    unqualifyFrom own 0 previous (left ++ right) =
      unqualifyFrom own 0 previous left ++ unqualifyFrom own 0 none right := by
  induction previous, left using unqualify_induction path with
  | nil previous => exact unqualify_apart path apart
  | keep previous character rest keeps ih =>
      have alsoKeeps := (occurs_append path (List.cons_ne_nil _ _) apart).trans keeps
      rw [getLast?_or_cons] at apart
      rw [List.cons_append] at alsoKeeps ⊢
      rw [unqualifyFrom_keep alsoKeeps, unqualifyFrom_keep keeps, ih apart, List.cons_append]
  | drop previous first rest found word ih =>
      have inhabited : own ++ '.' :: first :: rest ≠ [] :=
        List.append_ne_nil_of_right_ne_nil _ (List.cons_ne_nil _ _)
      have also := (occurs_append path inhabited apart).trans found
      have last : (own ++ '.' :: first :: rest).getLast?.or previous =
          rest.getLast?.or (some first) := by
        rw [List.getLast?_append, List.getLast?_cons, List.getLast?_cons]
        cases rest.getLast? <;> rfl
      rw [last] at apart
      have grouped : (own ++ '.' :: first :: rest) ++ right =
          own ++ '.' :: first :: (rest ++ right) := List.append_assoc _ _ _
      rw [grouped] at also ⊢
      rw [unqualifyFrom_drop path also, unqualifyFrom_drop path found, ih apart, List.cons_append]

private theorem head_unqualify (mode : Mode) {previous : Option Char} {characters : List Char}
    {first : Char} (begins : first ∈ (unqualifyFrom own 0 previous characters).head?) :
    ∃ other ∈ characters.head?, mode.next first = mode.next other := by
  cases previous, characters using unqualify_induction path with
  | nil previous => cases begins
  | keep previous character rest keeps _ =>
      rw [unqualifyFrom_keep keeps] at begins
      exact ⟨character, rfl, congrArg mode.next (Option.some.inj begins).symm⟩
  | drop previous initial rest found word _ =>
      rw [unqualifyFrom_drop path found] at begins
      obtain rfl := Option.some.inj begins
      obtain ⟨head, others, same, headWord⟩ := path.begins
      refine ⟨head, by rw [same]; rfl, ?_⟩
      rw [mode.next_name (isNamePart_of_isWord word),
        mode.next_name (isNamePart_of_isWord headWord)]

theorem unqualify_ne_nil {previous : Option Char} {characters : List Char}
    (inhabited : characters ≠ []) : unqualifyFrom own 0 previous characters ≠ [] := by
  cases previous, characters using unqualify_induction path with
  | nil previous => exact absurd rfl inhabited
  | keep previous character rest keeps _ =>
      rw [unqualifyFrom_keep keeps]
      exact List.cons_ne_nil _ _
  | drop previous initial rest found _ _ =>
      rw [unqualifyFrom_drop path found]
      exact List.cons_ne_nil _ _

def Token.unqualified (own : List Char) (token : Token) : Token :=
  { token with text := unqualifyFrom own 0 none token.text }

private theorem lexed_unqualified {list : List Token} (lexed : Lexed list) :
    Lexed (list.map (Token.unqualified own)) ∧
      textOf (list.map (Token.unqualified own)) = unqualifyFrom own 0 none (textOf list) := by
  induction lexed with
  | nil => exact ⟨.nil, rfl⟩
  | @cons token later mode ends _ ih =>
      obtain ⟨laterLexed, laterText⟩ := ih
      have apart : ∀ before ∈ token.text.getLast?.or none, ∀ behind ∈ (textOf later).head?,
          isNamePart behind = true → isNamePart before = false := by
        intro before last behind first part
        rw [Option.or_none] at last
        obtain ⟨taken, whole⟩ := List.getLast?_eq_some_iff.mp last
        have reads := ends.reads
        rw [whole, Mode.run_append] at reads
        obtain ⟨reached, -, atLast⟩ := Option.bind_eq_some_iff.mp reads
        obtain ⟨ended, taking, same⟩ := Option.bind_eq_some_iff.mp atLast
        obtain rfl := Option.some.inj same
        exact Mode.not_part_of_stops taking (ends.stops behind first) part
      rw [List.map_cons, textOf_cons, textOf_cons, unqualify_append path apart]
      refine ⟨.cons ⟨unqualify_ne_nil path ends.inhabited, ?_, ends.kind, ?_⟩ laterLexed,
        congrArg _ laterText⟩
      · exact (run_unqualify path _ none token.text).trans ends.reads
      · intro character begins
        rw [laterText] at begins
        obtain ⟨other, first, same⟩ := head_unqualify path mode begins
        exact same.trans (ends.stops other first)

/-- Taking the qualifier off a text takes it off every token. -/
theorem tokens_unqualify (characters : List Char) :
    tokens (unqualifyFrom own 0 none characters) =
      (tokens characters).map (Token.unqualified own) := by
  obtain ⟨lexed, whole⟩ := lexed_tokens characters
  refine tokens_eq_iff.mpr ?_
  rw [← whole, tokens_of_lexed lexed]
  exact lexed_unqualified path lexed

end Unqualify

end ElmClient.Elm.Lexer
