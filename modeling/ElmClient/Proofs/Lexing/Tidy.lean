/-
Tidy texts. Their tokens are names, symbols and literals on one line, and a name has no
capitalized segment behind one that is not. Two tidy texts that meet at a break, which no
token of theirs takes up, are one tidy text. So a text is tidy that is put together of tidy
ones with breaks around them, however far into one another they are set.
-/

import ElmClient.Proofs.Lexing.Unqualified
import ElmClient.Proofs.Text.Case

namespace ElmClient.Elm.Lexer

open Text

/-! ### Names -/

theorem isWord_of_isAsciiWord {character : Char} (word : isAsciiWord character = true) :
    isWord character = true := by
  rw [isWord, word, Bool.true_or]

theorem isAsciiWord_of_isUpper {character : Char} (upper : character.isUpper = true) :
    isAsciiWord character = true := by
  rw [isAsciiWord, Char.isAlphanum, isAlpha_eq, upper]
  rfl

theorem ne_point_of_isAsciiWord {character : Char} (word : isAsciiWord character = true) :
    character ≠ '.' := by
  rintro rfl
  exact absurd word (by decide)

/-- How far a name is read that begins with the capitalized segments. -/
inductive Segment where
  /-- A segment begins, and all before are capitalized. -/
  | first
  | capital
  /-- A segment begins, and one before is not capitalized. -/
  | later
  | small
deriving DecidableEq

namespace Segment

def next : Segment → Char → Option Segment
  | .first, character =>
      if character = '.' then some .later
      else if character.isUpper then some .capital
      else if isAsciiWord character then some .small
      else none
  | .capital, character =>
      if character = '.' then some .first
      else if isAsciiWord character then some .capital
      else none
  | .later, character =>
      if character = '.' then some .later
      else if character.isUpper then none
      else if isAsciiWord character then some .small
      else none
  | .small, character =>
      if character = '.' then some .later
      else if isAsciiWord character then some .small
      else none

def run : Segment → List Char → Option Segment
  | segment, [] => some segment
  | segment, character :: rest => (segment.next character).bind fun reached => reached.run rest

theorem run_append (segment : Segment) (left right : List Char) :
    segment.run (left ++ right) = (segment.run left).bind fun reached => reached.run right := by
  induction left generalizing segment with
  | nil => rfl
  | cons character left ih =>
      rw [List.cons_append, run, run]
      cases segment.next character with
      | none => rfl
      | some reached => exact ih reached

/-- The steps in which a name is read. A point ends a segment; behind one that is not capitalized
the name goes on in small letters. -/
inductive Takes : Segment → Char → Segment → Prop
  | path : Takes .capital '.' .first
  | point {segment : Segment} (low : segment ≠ .capital) : Takes segment '.' .later
  | upper {character : Char} (isUpper : character.isUpper = true) : Takes .first character .capital
  | lower {segment : Segment} {character : Char} (begins : segment = .first ∨ segment = .later)
      (word : isAsciiWord character = true) (notUpper : character.isUpper = false) :
      Takes segment character .small
  | capital {character : Char} (word : isAsciiWord character = true) :
      Takes .capital character .capital
  | small {character : Char} (word : isAsciiWord character = true) : Takes .small character .small

theorem takes_of_next {segment reached : Segment} {character : Char}
    (reads : segment.next character = some reached) : segment.Takes character reached := by
  by_cases point : character = '.'
  · subst point
    cases segment with
    | capital =>
        cases reads
        exact .path
    | first | later | small =>
        cases reads
        exact .point (by decide)
  · cases segment with
    | first =>
        rw [next, if_neg point] at reads
        split at reads
        case isTrue isUpper => exact Option.some.inj reads ▸ .upper isUpper
        case isFalse notUpper =>
          obtain ⟨word, ⟨⟩⟩ := Option.ite_none_right_eq_some.mp reads
          exact .lower (Or.inl rfl) word (Bool.eq_false_iff.mpr notUpper)
    | capital =>
        rw [next, if_neg point] at reads
        obtain ⟨word, ⟨⟩⟩ := Option.ite_none_right_eq_some.mp reads
        exact .capital word
    | later =>
        rw [next, if_neg point] at reads
        obtain ⟨notUpper, reads⟩ := Option.ite_none_left_eq_some.mp reads
        obtain ⟨word, ⟨⟩⟩ := Option.ite_none_right_eq_some.mp reads
        exact .lower (Or.inr rfl) word (Bool.eq_false_iff.mpr notUpper)
    | small =>
        rw [next, if_neg point] at reads
        obtain ⟨word, ⟨⟩⟩ := Option.ite_none_right_eq_some.mp reads
        exact .small word

theorem next_of_takes {segment reached : Segment} {character : Char}
    (takes : segment.Takes character reached) : segment.next character = some reached := by
  cases takes with
  | path => rfl
  | point low =>
      cases segment with
      | capital => contradiction
      | first | later | small => rfl
  | upper isUpper =>
      rw [next, if_neg (ne_point_of_isAsciiWord (isAsciiWord_of_isUpper isUpper)), if_pos isUpper]
  | lower begins word notUpper =>
      have point := ne_point_of_isAsciiWord word
      have small := Bool.eq_false_iff.mp notUpper
      rcases begins with rfl | rfl <;> rw [next, if_neg point, if_neg small, if_pos word]
  | capital word | small word =>
      rw [next, if_neg (ne_point_of_isAsciiWord word), if_pos word]

theorem takes_of_run {segment reached : Segment} {character : Char} {rest : List Char}
    (reads : segment.run (character :: rest) = some reached) :
    ∃ further, segment.Takes character further ∧ further.run rest = some reached := by
  obtain ⟨further, taking, reads⟩ := Option.bind_eq_some_iff.mp reads
  exact ⟨further, takes_of_next taking, reads⟩

section Takes

variable {segment reached : Segment} {character : Char}

private theorem Takes.ascii (takes : segment.Takes character reached) :
    isAsciiWord character = true ∨ character = '.' := by
  cases takes with
  | path | point => exact Or.inr rfl
  | upper isUpper => exact Or.inl (isAsciiWord_of_isUpper isUpper)
  | lower _ word | capital word | small word => exact Or.inl word

theorem Takes.word (takes : segment.Takes character .small) : isAsciiWord character = true := by
  cases takes with
  | lower _ word | small word => exact word

theorem Takes.low (takes : segment.Takes character reached)
    (low : segment = .later ∨ segment = .small) : reached = .later ∨ reached = .small := by
  cases takes with
  | point => exact Or.inl rfl
  | lower | small => exact Or.inr rfl
  | path | upper | capital => rcases low with low | low <;> cases low

theorem Takes.begins (takes : segment.Takes character reached)
    (noWord : isWord character = false) : reached = .first ∨ reached = .later := by
  rcases takes.ascii with word | rfl
  · rw [isWord_of_isAsciiWord word] at noWord
    contradiction
  · cases takes with
    | path => exact Or.inl rfl
    | point => exact Or.inr rfl
    | upper isUpper => contradiction
    | lower _ word | capital word | small word => contradiction

end Takes

private theorem low_of_run {segment reached : Segment} {name : List Char}
    (low : segment = .later ∨ segment = .small) (reads : segment.run name = some reached) :
    reached = .later ∨ reached = .small := by
  induction name generalizing segment with
  | nil => exact Option.some.inj reads ▸ low
  | cons character name ih =>
      obtain ⟨further, takes, reads⟩ := takes_of_run reads
      exact ih (takes.low low) reads

private theorem ascii_of_run {segment reached : Segment} {name : List Char}
    (reads : segment.run name = some reached) :
    ∀ character ∈ name, isAsciiWord character = true ∨ character = '.' := by
  induction name generalizing segment with
  | nil => exact fun _ member => absurd member List.not_mem_nil
  | cons head rest ih =>
      obtain ⟨further, takes, reads⟩ := takes_of_run reads
      exact List.forall_mem_cons.mpr ⟨takes.ascii, ih reads⟩

end Segment

theorem head_of_capital {path : List Char} (reads : Segment.first.run path = some .capital) :
    ∃ first rest, path = first :: rest ∧ first.isUpper = true := by
  cases path with
  | nil => contradiction
  | cons first rest =>
      obtain ⟨further, takes, reads⟩ := Segment.takes_of_run reads
      cases takes with
      | upper isUpper => exact ⟨first, rest, rfl, isUpper⟩
      | point => exact absurd (Segment.low_of_run (Or.inl rfl) reads) (by decide)
      | lower => exact absurd (Segment.low_of_run (Or.inr rfl) reads) (by decide)

/-- No segment of the name that follows on one in small letters is capitalized. -/
def isRegular (name : List Char) : Bool :=
  (Segment.first.run name).isSome

theorem ascii_of_isRegular {name : List Char} (regular : isRegular name = true) :
    ∀ character ∈ name, isAsciiWord character = true ∨ character = '.' := by
  obtain ⟨reached, reads⟩ := Option.isSome_iff_exists.mp regular
  exact Segment.ascii_of_run reads

theorem isNamePart_of_isRegular {name : List Char} (regular : isRegular name = true) :
    ∀ character ∈ name, isNamePart character = true := by
  intro character member
  rcases ascii_of_isRegular regular character member with word | rfl
  · exact isNamePart_of_isWord (isWord_of_isAsciiWord word)
  · rfl

/-! ### Literals -/

/-- What follows on the first quote of a literal on one line. -/
inductive Line : List Char → Prop
  | closing : Line ['"']
  | escape {character : Char} {rest : List Char} (same : character ≠ '\n') (later : Line rest) :
      Line ('\\' :: character :: rest)
  | plain {character : Char} {rest : List Char} (quote : character ≠ '"')
      (backslash : character ≠ '\\') (same : character ≠ '\n') (later : Line rest) :
      Line (character :: rest)

theorem line_of_run (rest : List Char) :
    (Mode.text.run rest = some (.closed .literal) → Line rest) ∧
      (Mode.escape.run rest = some (.closed .literal) →
        ∃ character later, rest = character :: later ∧ character ≠ '\n' ∧ Line later) := by
  induction rest with
  | nil => exact ⟨nofun, nofun⟩
  | cons character rest ih =>
      constructor
      · intro line
        obtain ⟨further, taking, reads⟩ := Option.bind_eq_some_iff.mp line
        simp only [Mode.next, Mode.inText] at taking
        split at taking
        case isTrue same =>
          cases taking
          cases rest with
          | nil => exact same ▸ .closing
          | cons => cases reads
        case isFalse quote =>
          split at taking
          case isTrue => cases taking
          case isFalse feed =>
            split at taking <;> cases taking
            case isTrue same =>
              obtain ⟨escaped, later, rfl, notFeed, lineLater⟩ := ih.2 reads
              exact same ▸ .escape notFeed lineLater
            case isFalse backslash => exact .plain quote backslash feed (ih.1 reads)
      · intro line
        obtain ⟨further, taking, reads⟩ := Option.bind_eq_some_iff.mp line
        simp only [Mode.next] at taking
        split at taking
        case isTrue => cases taking
        case isFalse feed =>
          cases taking
          exact ⟨character, rest, rfl, feed, ih.1 reads⟩

theorem run_of_line {rest : List Char} (line : Line rest) :
    Mode.text.run rest = some (.closed .literal) := by
  induction line with
  | closing => rfl
  | escape feed _ ih =>
      simp only [Mode.run, Mode.next, Mode.inText]
      simpa [feed] using ih
  | plain quote backslash feed _ ih =>
      simp only [Mode.run, Mode.next, Mode.inText]
      simpa [quote, backslash, feed] using ih

theorem Line.getLast? {rest : List Char} (line : Line rest) : rest.getLast? = some '"' := by
  induction line with
  | closing => rfl
  | escape _ _ ih => rw [List.getLast?_cons, List.getLast?_cons, ih]; rfl
  | plain _ _ _ _ ih => rw [List.getLast?_cons, ih]; rfl

theorem Line.no_feed {rest : List Char} (line : Line rest) : '\n' ∉ rest := by
  induction line with
  | closing => decide
  | escape feed _ ih => simp [feed.symm, ih]
  | plain _ _ feed _ ih => simp [feed.symm, ih]

/-! ### Tokens -/

def Token.isTidy : Token → Bool
  | ⟨.name, text⟩ => isRegular text
  | ⟨.symbol, [character]⟩ =>
      !isNamePart character && character != '"' && character != '\'' && character != '\r'
  | ⟨.literal, '"' :: rest⟩ => Mode.text.run rest == some (.closed .literal)
  | _ => false

/-- No token takes the character up, or goes on behind it. -/
def isBreak (character : Char) : Bool :=
  !isNamePart character && character != '"' && character != '\'' && character != '\r'
    && character != '-' && character != '\x7b'

structure Break (character : Char) : Prop where
  noPart : isNamePart character = false
  quote : character ≠ '"'
  apostrophe : character ≠ '\''
  feed : character ≠ '\r'
  dash : character ≠ '-'
  opens : character ≠ '\x7b'

theorem break_of_isBreak {character : Char} (isBreak : isBreak character = true) :
    Break character := by
  simp only [Lexer.isBreak, Bool.and_eq_true, Bool.not_eq_true', bne_iff_ne] at isBreak
  obtain ⟨⟨⟨⟨⟨noPart, quote⟩, apostrophe⟩, feed⟩, dash⟩, opens⟩ := isBreak
  exact ⟨noPart, quote, apostrophe, feed, dash, opens⟩

/-- A tidy token is one of four. -/
inductive Token.Tidy : Token → Prop
  | name {text : List Char} (regular : isRegular text = true) : Tidy ⟨.name, text⟩
  | symbol {character : Char} (noPart : isNamePart character = false)
      (quote : character ≠ '"') (apostrophe : character ≠ '\'') (feed : character ≠ '\r') :
      Tidy ⟨.symbol, [character]⟩
  | literal {rest : List Char} (line : Line rest) : Tidy ⟨.literal, '"' :: rest⟩

theorem Token.tidy_of_isTidy {token : Token} (isTidy : token.isTidy = true) : token.Tidy := by
  unfold Token.isTidy at isTidy
  split at isTidy
  · exact .name isTidy
  · simp only [Bool.and_eq_true, Bool.not_eq_true', bne_iff_ne] at isTidy
    obtain ⟨⟨⟨noPart, quote⟩, apostrophe⟩, feed⟩ := isTidy
    exact .symbol noPart quote apostrophe feed
  · exact .literal ((line_of_run _).1 (eq_of_beq isTidy))
  · contradiction

theorem Token.isTidy_of_tidy {token : Token} (tidy : token.Tidy) : token.isTidy = true := by
  cases tidy with
  | name regular => exact regular
  | symbol noPart quote apostrophe feed => simp [isTidy, noPart, quote, apostrophe, feed]
  | literal line => simp [isTidy, run_of_line line]

/-! ### Modes behind tidy tokens -/

theorem run_name {name : List Char} (inhabited : name ≠ [])
    (parts : ∀ character ∈ name, isNamePart character = true) :
    Mode.start.run name = some .name := by
  cases name with
  | nil => exact absurd rfl inhabited
  | cons first rest =>
      obtain ⟨firstPart, restParts⟩ := List.forall_mem_cons.mp parts
      have through : Mode.start.throughName = some .name := rfl
      rw [Mode.run, Mode.next_name _ firstPart, through, Option.bind_some,
        ← List.append_nil rest, Mode.run_parts through restParts]
      rfl

theorem run_line {rest : List Char} (line : Line rest) :
    Mode.start.run ('"' :: rest) = some .quotes ∨
      Mode.start.run ('"' :: rest) = some (.closed .literal) := by
  have inside := run_of_line line
  have sameMode {character : Char} (quote : character ≠ '"') (later : List Char) :
      Mode.start.run ('"' :: character :: later) = Mode.text.run (character :: later) := by
    change Mode.quote.run (character :: later) = _
    simp only [Mode.run, Mode.next, if_neg quote]
  cases line with
  | closing => exact Or.inl rfl
  | escape => exact Or.inr ((sameMode (by decide) _).trans inside)
  | plain quote => exact Or.inr ((sameMode quote _).trans inside)

theorem next_break {character : Char} (apart : Break character) :
    Mode.start.next character = some (.closed .symbol) := by
  simp only [Mode.next, Mode.opening, apart.quote, apart.apostrophe, apart.dash, apart.opens,
    apart.noPart, if_false]
  rfl

theorem Token.Tidy.stops {token : Token} (tidy : token.Tidy) (inhabited : token.text ≠ [])
    {mode : Mode} (reads : Mode.start.run token.text = some mode) {character : Char}
    (apart : Break character) : mode.next character = none := by
  cases tidy with
  | name regular =>
      rw [run_name inhabited (isNamePart_of_isRegular regular)] at reads
      cases reads
      simp [Mode.next, apart.noPart]
  | @symbol symbol noPart quote apostrophe =>
      obtain ⟨further, taking, reads⟩ := Option.bind_eq_some_iff.mp reads
      cases reads
      simp only [Mode.next, Mode.opening, quote, apostrophe, noPart, if_false] at taking
      split at taking
      · cases taking
        exact if_neg apart.dash
      · split at taking <;> cases taking
        · exact if_neg apart.dash
        · rfl
  | literal line =>
      rcases run_line line with atQuotes | closed
      · rw [atQuotes] at reads
        cases reads
        exact if_neg apart.quote
      · rw [closed] at reads
        cases reads
        rfl

private theorem Token.Tidy.whole {token : Token} (tidy : token.Tidy) {mode : Mode}
    (reads : Mode.start.run token.text = some mode) {last : Char}
    (ends : token.text.getLast? = some last) (apart : Break last) (character : Char) :
    mode.next character = none := by
  cases tidy with
  | name regular =>
      have part := isNamePart_of_isRegular regular last (List.mem_of_getLast? ends)
      rw [apart.noPart] at part
      contradiction
  | @symbol symbol =>
      have same : symbol = last := Option.some.inj ends
      rw [same, Mode.run, next_break apart] at reads
      cases reads
      rfl
  | @literal rest line =>
      rw [List.getLast?_cons, line.getLast?] at ends
      exact absurd (Option.some.inj ends).symm apart.quote

/-! ### Texts side by side -/

private theorem textOf_append (left right : List Token) :
    textOf (left ++ right) = textOf left ++ textOf right := List.flatMap_append

private theorem Lexed.append {left right : List Token} (leftLexed : Lexed left)
    (rightLexed : Lexed right)
    (apart : ∀ token ∈ left.getLast?, ∀ mode, Mode.start.run token.text = some mode →
      ∀ character ∈ (textOf right).head?, mode.next character = none) :
    Lexed (left ++ right) := by
  induction leftLexed with
  | nil => exact rightLexed
  | @cons token later mode ends others ih =>
      refine .cons ⟨ends.inhabited, ends.reads, ends.kind, fun character begins => ?_⟩ (ih ?_)
      · cases later with
        | nil => exact apart token rfl mode ends.reads character begins
        | cons second later =>
            refine ends.stops character ?_
            cases others with
            | cons secondEnds =>
                change character ∈ (textOf (second :: (later ++ right))).head? at begins
                rw [textOf_cons, List.head?_append_of_ne_nil _ secondEnds.inhabited] at begins
                rw [textOf_cons, List.head?_append_of_ne_nil _ secondEnds.inhabited]
                exact begins
      · intro last member
        refine apart last ?_
        rw [List.getLast?_cons, member]
        rfl

theorem tokens_append {left right : List Char}
    (apart : ∀ token ∈ (tokens left).getLast?, ∀ mode, Mode.start.run token.text = some mode →
      ∀ character ∈ right.head?, mode.next character = none) :
    tokens (left ++ right) = tokens left ++ tokens right := by
  obtain ⟨leftLexed, leftWhole⟩ := lexed_tokens left
  obtain ⟨rightLexed, rightWhole⟩ := lexed_tokens right
  refine tokens_eq_iff.mpr ⟨leftLexed.append rightLexed ?_, ?_⟩
  · rw [rightWhole]
    exact apart
  · rw [textOf_append, leftWhole, rightWhole]

theorem Lexed.inhabited {list : List Token} (lexed : Lexed list) :
    ∀ token ∈ list, token.text ≠ [] := by
  induction lexed with
  | nil => exact fun _ member => absurd member List.not_mem_nil
  | cons ends _ ih => exact List.forall_mem_cons.mpr ⟨ends.inhabited, ih⟩

theorem getLast?_textOf {list : List Token} (lexed : Lexed list) {token : Token}
    (last : token ∈ list.getLast?) : (textOf list).getLast? = token.text.getLast? := by
  obtain ⟨before, rfl⟩ := List.getLast?_eq_some_iff.mp last
  rw [textOf_append, List.getLast?_append_of_ne_nil]
  · rw [textOf_cons, show textOf [] = [] from rfl, List.append_nil]
  · rw [textOf_cons]
    exact List.append_ne_nil_of_left_ne_nil (lexed.inhabited token (List.mem_of_getLast? last)) _

/-! ### Tidy texts -/

/-- All tokens of the text are tidy. -/
def Tidy (text : String) : Prop :=
  ∀ token ∈ tokens text.toList, token.isTidy = true

instance (text : String) : Decidable (Tidy text) :=
  inferInstanceAs (Decidable (∀ token ∈ tokens text.toList, token.isTidy = true))

/-- A tidy text that ends in a break: tidy texts go on from it. -/
structure Lead (text : String) : Prop where
  tidy : Tidy text
  ends : ∃ last ∈ text.toList.getLast?, Break last

/-- A tidy text that begins with a break: it goes on from tidy texts. -/
structure Tail (text : String) : Prop where
  tidy : Tidy text
  begins : ∃ first ∈ text.toList.head?, Break first

private theorem Tidy.append {left right : String} (leftTidy : Tidy left) (rightTidy : Tidy right)
    (apart : ∀ token ∈ (tokens left.toList).getLast?, ∀ mode,
      Mode.start.run token.text = some mode →
        ∀ character ∈ right.toList.head?, mode.next character = none) :
    Tidy (left ++ right) := by
  intro token member
  rw [String.toList_append, tokens_append apart] at member
  rcases List.mem_append.mp member with before | behind
  · exact leftTidy token before
  · exact rightTidy token behind

private theorem Lead.stops {lead : String} (leads : Lead lead) :
    ∀ token ∈ (tokens lead.toList).getLast?, ∀ mode, Mode.start.run token.text = some mode →
      ∀ character, mode.next character = none := by
  intro token last mode reads character
  obtain ⟨final, ends, apart⟩ := leads.ends
  obtain ⟨lexed, whole⟩ := lexed_tokens lead.toList
  have ends : token.text.getLast? = some final := by
    rw [← getLast?_textOf lexed last, whole]
    exact ends
  have tokenTidy := Token.tidy_of_isTidy (leads.tidy token (List.mem_of_getLast? last))
  exact tokenTidy.whole reads ends apart character

private theorem Tidy.stops {text : String} (tidy : Tidy text) {character : Char}
    (apart : Break character) :
    ∀ token ∈ (tokens text.toList).getLast?, ∀ mode, Mode.start.run token.text = some mode →
      mode.next character = none := by
  intro token last mode reads
  obtain ⟨lexed, -⟩ := lexed_tokens text.toList
  have member := List.mem_of_getLast? last
  exact (Token.tidy_of_isTidy (tidy token member)).stops (lexed.inhabited token member) reads apart

theorem Lead.code {lead text : String} (leads : Lead lead) (tidy : Tidy text) :
    Tidy (lead ++ text) :=
  leads.tidy.append tidy fun token last mode reads character _ =>
    leads.stops token last mode reads character

theorem Tidy.tail {text tail : String} (tidy : Tidy text) (follows : Tail tail) :
    Tidy (text ++ tail) := by
  refine tidy.append follows.tidy fun token last mode reads character first => ?_
  obtain ⟨initial, begins, apart⟩ := follows.begins
  obtain rfl := Option.some.inj (first.symm.trans begins)
  exact tidy.stops apart token last mode reads

theorem Lead.tokens {lead : String} (leads : Lead lead) (text : String) :
    Lexer.tokens (lead ++ text).toList = Lexer.tokens lead.toList ++ Lexer.tokens text.toList := by
  rw [String.toList_append]
  exact tokens_append fun token last mode reads character _ =>
    leads.stops token last mode reads character

theorem Tail.tokens {text tail : String} (follows : Tail tail) (tidy : Tidy text) :
    Lexer.tokens (text ++ tail).toList = Lexer.tokens text.toList ++ Lexer.tokens tail.toList := by
  rw [String.toList_append]
  refine tokens_append fun token last mode reads character first => ?_
  obtain ⟨initial, begins, apart⟩ := follows.begins
  obtain rfl := Option.some.inj (first.symm.trans begins)
  exact tidy.stops apart token last mode reads

/-! ### Fixed texts -/

def isTidy (characters : List Char) : Bool :=
  (tokens characters).all Token.isTidy

def isLead (characters : List Char) : Bool :=
  isTidy characters && characters.getLast?.any isBreak

def isTail (characters : List Char) : Bool :=
  isTidy characters && characters.head?.any isBreak

private theorem exists_break {found : Option Char} (any : found.any isBreak = true) :
    ∃ character ∈ found, Break character := by
  cases found with
  | none => contradiction
  | some character => exact ⟨character, rfl, break_of_isBreak any⟩

section Fixed

variable {characters : List Char}

theorem Tidy.fixed (check : isTidy characters = true := by decide) :
    Tidy (String.ofList characters) := by
  unfold Tidy
  rw [String.toList_ofList]
  exact List.all_eq_true.mp check

theorem Lead.fixed (check : isLead characters = true := by decide) :
    Lead (String.ofList characters) := by
  obtain ⟨tidy, ends⟩ := Bool.and_eq_true_iff.mp check
  refine ⟨.fixed tidy, ?_⟩
  rw [String.toList_ofList]
  exact exists_break ends

theorem Tail.fixed (check : isTail characters = true := by decide) :
    Tail (String.ofList characters) := by
  obtain ⟨tidy, begins⟩ := Bool.and_eq_true_iff.mp check
  refine ⟨.fixed tidy, ?_⟩
  rw [String.toList_ofList]
  exact exists_break begins

theorem Lead.append {text lead : String} (tidy : Tidy (text ++ lead)) (leads : Lead lead) :
    Lead (text ++ lead) := by
  obtain ⟨last, final, apart⟩ := leads.ends
  refine ⟨tidy, last, ?_, apart⟩
  rw [String.toList_append, List.getLast?_append, final]
  rfl

theorem Lead.comp {first second : String} (leads : Lead first) (next : Lead second) :
    Lead (first ++ second) :=
  .append (leads.code next.tidy) next

theorem Tidy.gap {text : String} (tidy : Tidy text)
    (check : (isTail characters && isLead characters) = true := by decide) :
    Lead (text ++ String.ofList characters) :=
  have checks := Bool.and_eq_true_iff.mp check
  .append (tidy.tail (.fixed checks.1)) (.fixed checks.2)

theorem Tidy.close {text : String} (tidy : Tidy text)
    (check : isTail characters = true := by decide) :
    Tidy (text ++ String.ofList characters) :=
  tidy.tail (.fixed check)

end Fixed

end ElmClient.Elm.Lexer
