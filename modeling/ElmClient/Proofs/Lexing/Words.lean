/-
What of a text matters to names. A reader goes over the tokens of code and notes its brackets
and commas, the variables of a pattern, behind a backslash or in front of the arrow of a
branch, and what is read of the variable `config`. The words of texts that are set side by
side at a break are the words of the one and of the other.
-/

import ElmClient.Proofs.Tidy.Names

namespace ElmClient.Elm.Lexer

open Text

/-! ### Words -/

inductive Word where
  | opening
  | closing
  | comma
  /-- The pattern of a function. -/
  | lambda (names : List String)
  /-- The pattern of a branch: what stands on its line in front of the arrow. -/
  | branch (names : List String)
  /-- The variable `config`, or fields of it. -/
  | read (fields : List String)
deriving DecidableEq, Repr

namespace Word

@[simp]
def field? : Word → Option (List String)
  | read fields => some fields
  | _ => none

def isBranch : Word → Bool
  | branch _ => true
  | _ => false

def ofCharacter (character : Char) : List Word :=
  if character = '(' ∨ character = '[' ∨ character = '\x7b' then [opening]
  else if character = ')' ∨ character = ']' ∨ character = '\x7d' then [closing]
  else if character = ',' then [comma]
  else []

def ofName (name : List Char) : List Word :=
  match splitChars '.' name with
  | ['c', 'o', 'n', 'f', 'i', 'g'] :: fields => [read (fields.map String.ofList)]
  | _ => []

end Word

/-- A name in small letters without a path is a variable. -/
def variablesOf (name : List Char) : List String :=
  if name.head?.any Char.isLower && !name.contains '.' then [String.ofList name] else []

/-! ### Reading -/

/-- Where a reader stands. A dash may begin an arrow. -/
inductive Reader where
  /-- In code, behind the variables of the line. -/
  | code (line : List String) (dashed : Bool)
  /-- Behind a backslash and the variables. -/
  | pattern (names : List String) (dashed : Bool)
deriving DecidableEq, Repr

namespace Reader

def nextSymbol : Reader → Char → List Word × Reader
  | code line dashed, character =>
      if character = '>' ∧ dashed then ([.branch line], code [] false)
      else if character = '-' then ([], code line true)
      else if character = '\\' then ([], pattern [] false)
      else if character = '\n' then ([], code [] false)
      else (Word.ofCharacter character, code line false)
  | pattern names dashed, character =>
      if character = '>' ∧ dashed then ([.lambda names], code [] false)
      else ([], pattern names (character == '-'))

def next : Reader → Token → List Word × Reader
  | reader, ⟨.symbol, [character]⟩ => reader.nextSymbol character
  | code line _, ⟨.name, name⟩ => (Word.ofName name, code (line ++ variablesOf name) false)
  | pattern names _, ⟨.name, name⟩ => ([], pattern (names ++ variablesOf name) false)
  | code line _, _ => ([], code line false)
  | pattern names _, _ => ([], pattern names false)

def run : Reader → List Token → List Word × Reader
  | reader, [] => ([], reader)
  | reader, token :: later =>
      let first := reader.next token
      let rest := first.2.run later
      (first.1 ++ rest.1, rest.2)

theorem run_cons (reader : Reader) (token : Token) (later : List Token) :
    reader.run (token :: later) =
      ((reader.next token).1 ++ ((reader.next token).2.run later).1,
        ((reader.next token).2.run later).2) := rfl

theorem run_append (reader : Reader) (left right : List Token) :
    reader.run (left ++ right) =
      ((reader.run left).1 ++ ((reader.run left).2.run right).1,
        ((reader.run left).2.run right).2) := by
  induction left generalizing reader with
  | nil => rfl
  | cons token left ih => rw [List.cons_append, run_cons, ih, run_cons, List.append_assoc]

/-- Readers that differ at most in the variables of the line. -/
inductive Alike : Reader → Reader → Prop
  | code (line other : List String) (dashed : Bool) : Alike (code line dashed) (code other dashed)
  | same (reader : Reader) : Alike reader reader

/-- Only an arrow in code asks for the variables of the line. -/
theorem next_alike {reader other : Reader} (alike : Alike reader other) {token : Token}
    (plain : ∀ word ∈ (reader.next token).1, word.isBranch = false) :
    (other.next token).1 = (reader.next token).1 ∧
      Alike (reader.next token).2 (other.next token).2 := by
  cases alike with
  | same => exact ⟨rfl, .same _⟩
  | code line other dashed =>
      unfold next at plain ⊢
      split
      case h_1 character =>
        simp only [nextSymbol] at plain ⊢
        split
        case isTrue arrow =>
          simp only [if_pos arrow] at plain
          exact absurd (plain _ List.mem_cons_self) (by simp [Word.isBranch])
        case isFalse =>
          repeat' split
          all_goals first | exact ⟨rfl, .same _⟩ | exact ⟨rfl, .code _ _ _⟩
      all_goals first | exact ⟨rfl, .code _ _ _⟩ | exact ⟨rfl, .same _⟩ | contradiction

theorem run_alike {reader other : Reader} (alike : Alike reader other) {tokens : List Token}
    (plain : ∀ word ∈ (reader.run tokens).1, word.isBranch = false) :
    (other.run tokens).1 = (reader.run tokens).1 ∧
      Alike (reader.run tokens).2 (other.run tokens).2 := by
  induction tokens generalizing reader other with
  | nil => exact ⟨rfl, alike⟩
  | cons token later ih =>
      rw [run_cons] at plain
      obtain ⟨first, rest⟩ := List.forall_mem_append.mp plain
      obtain ⟨sameFirst, reached⟩ := next_alike alike first
      obtain ⟨sameRest, ends⟩ := ih reached rest
      rw [run_cons, run_cons, sameFirst, sameRest]
      exact ⟨rfl, ends⟩

end Reader

/-! ### Words of texts -/

def wordsOf (text : String) : List Word :=
  ((Reader.code [] false).run (tokens text.toList)).1

/-- The text is tidy, and code from its beginning to its end, whatever line it stands on. -/
structure Spells (text : String) (words : List Word) : Prop where
  tidy : Tidy text
  reads : ∀ line, ∃ later,
    (Reader.code line false).run (tokens text.toList) = (words, .code later false)

theorem Spells.wordsOf {text : String} {words : List Word} (spells : Spells text words) :
    wordsOf text = words := by
  obtain ⟨later, reads⟩ := spells.reads []
  rw [Lexer.wordsOf, reads]

theorem Spells.append {left right : String} {leftWords rightWords : List Word}
    (leftSpells : Spells left leftWords) (rightSpells : Spells right rightWords)
    (tidy : Tidy (left ++ right))
    (whole : tokens (left ++ right).toList = tokens left.toList ++ tokens right.toList) :
    Spells (left ++ right) (leftWords ++ rightWords) := by
  refine ⟨tidy, fun line => ?_⟩
  obtain ⟨middle, leftReads⟩ := leftSpells.reads line
  obtain ⟨later, rightReads⟩ := rightSpells.reads middle
  refine ⟨later, ?_⟩
  rw [whole, Reader.run_append, leftReads, rightReads]

theorem Lead.spells {lead text : String} {leadWords words : List Word} (leads : Lead lead)
    (leadSpells : Spells lead leadWords) (spells : Spells text words) :
    Spells (lead ++ text) (leadWords ++ words) :=
  leadSpells.append spells (leads.code spells.tidy) (leads.tokens text)

private theorem Tail.spells {text tail : String} {words tailWords : List Word} (tails : Tail tail)
    (spells : Spells text words) (tailSpells : Spells tail tailWords) :
    Spells (text ++ tail) (words ++ tailWords) :=
  spells.append tailSpells (spells.tidy.tail tails) (tails.tokens spells.tidy)

/-! ### Fixed texts -/

def spellsTo (characters : List Char) (words : List Word) : Bool :=
  isTidy characters && words.all (fun word => !word.isBranch)
    && match (Reader.code [] false).run (tokens characters) with
      | (found, .code _ false) => found == words
      | _ => false

section Fixed

variable {characters : List Char} {words : List Word}

theorem Spells.fixed (check : spellsTo characters words = true := by decide) :
    Spells (String.ofList characters) words := by
  obtain ⟨checks, ends⟩ := Bool.and_eq_true_iff.mp check
  obtain ⟨tidy, plain⟩ := Bool.and_eq_true_iff.mp checks
  refine ⟨.fixed tidy, fun line => ?_⟩
  rw [String.toList_ofList]
  split at ends
  case h_2 => contradiction
  case h_1 found later reads =>
    obtain rfl := eq_of_beq ends
    have noBranch : ∀ word ∈ ((Reader.code [] false).run (tokens characters)).1,
        word.isBranch = false := by
      rw [reads]
      exact fun word member => Bool.not_eq_true' _ ▸ List.all_eq_true.mp plain word member
    obtain ⟨same, alike⟩ := Reader.run_alike (.code [] line false) noBranch
    rw [reads] at same alike
    cases reached : (Reader.code line false).run (tokens characters) with
    | mk found reader =>
        rw [reached] at same alike
        obtain rfl : found = _ := same
        cases alike with
        | code _ other => exact ⟨other, rfl⟩
        | same => exact ⟨later, rfl⟩

variable {text : String}

theorem Spells.behind (leadWords : List Word) (spells : Spells text words)
    (check : (isLead characters && spellsTo characters leadWords) = true := by decide) :
    Spells (String.ofList characters ++ text) (leadWords ++ words) :=
  have checks := Bool.and_eq_true_iff.mp check
  (Lead.fixed checks.1).spells (.fixed checks.2) spells

theorem Spells.close (tailWords : List Word) (spells : Spells text words)
    (check : (isTail characters && spellsTo characters tailWords) = true := by decide) :
    Spells (text ++ String.ofList characters) (words ++ tailWords) :=
  have checks := Bool.and_eq_true_iff.mp check
  (Tail.fixed checks.1).spells spells (.fixed checks.2)

theorem Spells.beside {right : String} {rightWords : List Word} (gapWords : List Word)
    (spells : Spells text words) (rightSpells : Spells right rightWords)
    (check : (isTail characters && isLead characters && spellsTo characters gapWords) = true := by
      decide) :
    Spells (text ++ String.ofList characters ++ right) (words ++ gapWords ++ rightWords) := by
  obtain ⟨breaks, fixed⟩ := Bool.and_eq_true_iff.mp check
  obtain ⟨tails, leads⟩ := Bool.and_eq_true_iff.mp breaks
  have left : Spells (text ++ String.ofList characters) (words ++ gapWords) :=
    (Tail.fixed tails).spells spells (.fixed fixed)
  exact (Lead.append left.tidy (.fixed leads)).spells left rightSpells

end Fixed

/-! ### Names and literals -/

theorem tokens_name {name : String} (inhabited : name.toList ≠ [])
    (regular : isRegular name.toList = true) : tokens name.toList = [⟨.name, name.toList⟩] :=
  tokens_eq_iff.mpr ⟨.cons ⟨inhabited,
    run_name inhabited (isNamePart_of_isRegular regular), rfl, nofun⟩ .nil, List.append_nil _⟩

theorem spells_name {name : String} (regular : isRegular name.toList = true) :
    Spells name (Word.ofName name.toList) := by
  refine ⟨tidy_of_isRegular regular, fun line => ?_⟩
  by_cases inhabited : name.toList = []
  · rw [inhabited]
    exact ⟨line, rfl⟩
  · rw [tokens_name inhabited regular]
    exact ⟨line ++ variablesOf name.toList, Prod.ext (List.append_nil _) rfl⟩

theorem spells_stringLiteral (text : String) : Spells (stringLiteral text) [] := by
  refine ⟨tidy_stringLiteral text, fun line => ?_⟩
  rw [tokens_stringLiteral]
  exact ⟨line, rfl⟩

private theorem Word.ofName_of_ne {name : List Char}
    (apart : (splitChars '.' name).head? ≠ some ['c', 'o', 'n', 'f', 'i', 'g']) :
    ofName name = [] := by
  unfold ofName
  split
  case h_1 same =>
    rw [same] at apart
    exact absurd rfl apart
  case h_2 => rfl

theorem head?_splitChars {separator first : Char} (rest : List Char) (apart : first ≠ separator) :
    ∃ piece, (splitChars separator (first :: rest)).head? = some (first :: piece) := by
  rw [splitChars, if_neg apart]
  cases splitChars separator rest with
  | nil => exact ⟨[], rfl⟩
  | cons piece pieces => exact ⟨piece, rfl⟩

theorem Word.ofName_of_head {name : List Char} (apart : name.head? ≠ some 'c') :
    ofName name = [] := by
  refine ofName_of_ne fun same => ?_
  cases name with
  | nil => exact absurd same (by decide)
  | cons first rest =>
      by_cases point : first = '.'
      · rw [point, splitChars, if_pos rfl] at same
        exact absurd same (by simp)
      · obtain ⟨piece, begins⟩ := head?_splitChars rest point
        rw [begins] at same
        exact apart (congrArg some (List.cons.inj (Option.some.inj same)).1)

theorem Word.ofName_of_word {name : List Char} (whole : '.' ∉ name)
    (apart : name ≠ ['c', 'o', 'n', 'f', 'i', 'g']) : ofName name = [] := by
  refine ofName_of_ne ?_
  rw [splitChars_whole whole]
  exact fun same => apart (Option.some.inj same)

theorem isRegular_field {lead name : String} (leads : Segment.first.run lead.toList = some .later)
    (small : Name.Small name.toList) : isRegular (lead ++ name).toList = true := by
  rw [String.toList_append, isRegular, Segment.run_append, leads]
  exact Segment.isSome_run small.holdable fun _ => small.begins

private theorem ofName_configField {lead record field : List Char} (point : '.' ∉ record)
    (holdable : Name.Holdable field) (same : lead = "config.".toList ++ record ++ ['.']) :
    Word.ofName (lead ++ field) = [.read [String.ofList record, String.ofList field]] := by
  have pieces : splitChars '.' (lead ++ field) = ["config".toList, record, field] := by
    rw [same, List.append_assoc, List.append_assoc, List.singleton_append,
      show "config.".toList = "config".toList ++ ['.'] from rfl, List.append_assoc,
      List.singleton_append, splitChars_append (by decide), splitChars_append point,
      splitChars_whole (holdable.not_mem (by decide))]
  rw [Word.ofName, pieces]
  rfl

theorem spells_configField (record : List Char) {lead : List Char} {field : String}
    (same : lead = "config.".toList ++ record ++ ['.']) (small : Name.Small field.toList)
    (point : '.' ∉ record := by decide)
    (reads : Segment.first.run lead = some .later := by decide) :
    Spells (String.ofList lead ++ field) [.read [String.ofList record, field]] := by
  have read := ofName_configField point small.holdable same
  have leads : Segment.first.run (String.ofList lead).toList = some .later := by
    rw [String.toList_ofList]
    exact reads
  have spells := spells_name (isRegular_field leads small)
  rwa [String.toList_append, String.toList_ofList, read, String.ofList_toList] at spells

section Member

variable {own name : String} (path : Segment.first.run own.toList = some .capital)

include path

theorem isRegular_member (holdable : Name.Holdable name.toList) :
    isRegular (own ++ "." ++ name).toList = true := by
  rw [String.toList_append, String.toList_append, isRegular, Segment.run_append,
    Segment.run_append, path]
  exact Segment.isSome_run holdable (by simp)

theorem ofName_member : Word.ofName (own ++ "." ++ name).toList = [] := by
  refine Word.ofName_of_head ?_
  obtain ⟨first, rest, begins, upper⟩ := head_of_capital path
  rw [String.toList_append, String.toList_append, begins]
  rintro ⟨⟩
  exact absurd upper (by decide)

theorem spells_member (holdable : Name.Holdable name.toList) : Spells (own ++ "." ++ name) [] := by
  have spells := spells_name (isRegular_member path holdable)
  rwa [ofName_member path] at spells

end Member

/-! ### Patterns -/

structure IsVariable (name : String) : Prop where
  holdable : Name.Holdable name.toList
  begins : ∃ first ∈ name.toList.head?, first.isLower = true

theorem IsVariable.of_check {name : String}
    (check : (name.toList.all Name.isNameChar && name.toList.head?.any Char.isLower) = true) :
    IsVariable name := by
  obtain ⟨holdable, begins⟩ := Bool.and_eq_true_iff.mp check
  refine ⟨Name.holdable_of_all holdable, ?_⟩
  cases first : name.toList.head? with
  | none => rw [first] at begins; contradiction
  | some character => exact ⟨character, rfl, by rw [first] at begins; exact begins⟩

theorem IsVariable.inhabited {name : String} (isVariable : IsVariable name) : name.toList ≠ [] := by
  obtain ⟨first, present, -⟩ := isVariable.begins
  intro empty
  rw [empty] at present
  cases present

theorem IsVariable.regular {name : String} (isVariable : IsVariable name) :
    isRegular name.toList = true :=
  Segment.isSome_run isVariable.holdable nofun

theorem IsVariable.variablesOf {name : String} (isVariable : IsVariable name) :
    variablesOf name.toList = [name] := by
  obtain ⟨first, present, lower⟩ := isVariable.begins
  have point : name.toList.contains '.' = false := by
    rw [← Bool.not_eq_true, List.contains_iff_mem]
    exact isVariable.holdable.not_mem (by decide)
  rw [Lexer.variablesOf, point, show name.toList.head? = some first from present]
  simp [lower]

private theorem tidy_variables {names : List String}
    (isVariable : ∀ name ∈ names, IsVariable name) :
    Tidy (join " " names) :=
  Gap.join .fixed fun name listed => tidy_word (isVariable name listed).holdable

theorem run_variables {names : List String} (isVariable : ∀ name ∈ names, IsVariable name)
    (found : List String) :
    (Reader.pattern found false).run (tokens (join " " names).toList) =
      ([], .pattern (found ++ names) false) := by
  induction names generalizing found with
  | nil =>
      rw [List.append_nil]
      rfl
  | cons name names ih =>
      obtain ⟨first, others⟩ := List.forall_mem_cons.mp isVariable
      have taken : (Reader.pattern found false).run (tokens name.toList) =
          ([], .pattern (found ++ [name]) false) := by
        rw [tokens_name first.inhabited first.regular, Reader.run_cons, Reader.next,
          first.variablesOf]
        rfl
      cases names with
      | nil => rw [join, String.intercalate_singleton, taken]
      | cons second names =>
          have blank : Gap " " := .fixed
          have lead := blank.after (tidy_word first.holdable)
          rw [join, String.intercalate_cons_cons, lead.tokens,
            blank.tail.tokens (tidy_word first.holdable), Reader.run_append, Reader.run_append,
            taken]
          have rest := ih others (found ++ [name])
          rw [List.append_assoc] at rest
          exact rest

def opensPattern (characters : List Char) (words : List Word) : Bool :=
  isLead characters && words.all (fun word => !word.isBranch)
    && (Reader.code [] false).run (tokens characters) == (words, .pattern [] false)

/-- The text closes a pattern: an arrow behind a blank, and code. -/
def closesPattern (characters : List Char) (words : List Word) : Bool :=
  isTail characters && isLead characters && words.all (fun word => !word.isBranch)
    && match tokens characters with
      | ⟨.symbol, [' ']⟩ :: ⟨.symbol, ['-']⟩ :: ⟨.symbol, ['>']⟩ :: later =>
          match (Reader.code [] false).run later with
          | (found, .code _ false) => found == words
          | _ => false
      | _ => false

theorem run_closesPattern {characters : List Char} {words : List Word}
    (check : closesPattern characters words = true) (names : List String) :
    ∃ line, (Reader.pattern names false).run (tokens characters) =
      (.lambda names :: words, .code line false) := by
  obtain ⟨-, ends⟩ := Bool.and_eq_true_iff.mp check
  split at ends
  case h_2 => contradiction
  case h_1 later same =>
    split at ends
    case h_2 => contradiction
    case h_1 found line reads =>
      obtain rfl := eq_of_beq ends
      refine ⟨line, ?_⟩
      rw [same]
      change ([Word.lambda names] ++ ((Reader.code [] false).run later).1,
        ((Reader.code [] false).run later).2) = _
      rw [reads]
      rfl

theorem spells_pattern {lead tail : List Char} (leadWords tailWords : List Word)
    {names : List String} (isVariable : ∀ name ∈ names, IsVariable name)
    (opens : opensPattern lead leadWords = true := by decide)
    (closing : closesPattern tail tailWords = true := by decide) :
    Lead (String.ofList lead ++ join " " names ++ String.ofList tail) ∧
      Spells (String.ofList lead ++ join " " names ++ String.ofList tail)
        (leadWords ++ .lambda names :: tailWords) := by
  obtain ⟨begins, reads⟩ := Bool.and_eq_true_iff.mp opens
  obtain ⟨leads, plain⟩ := Bool.and_eq_true_iff.mp begins
  obtain ⟨breaks, -⟩ := Bool.and_eq_true_iff.mp closing
  obtain ⟨breaks, -⟩ := Bool.and_eq_true_iff.mp breaks
  obtain ⟨tails, ends⟩ := Bool.and_eq_true_iff.mp breaks
  have reads := eq_of_beq reads
  have leadText : Lead (String.ofList lead) := .fixed leads
  have tailText : Tail (String.ofList tail) := .fixed tails
  have inner : Tidy (String.ofList lead ++ join " " names) :=
    leadText.code (tidy_variables isVariable)
  refine ⟨Lead.append (inner.tail tailText) (.fixed ends), inner.tail tailText, fun line => ?_⟩
  obtain ⟨later, closed⟩ := run_closesPattern closing names
  have noBranch : ∀ word ∈ ((Reader.code [] false).run (tokens lead)).1, word.isBranch = false := by
    rw [reads]
    exact fun word member => (Bool.not_eq_true' _).mp (List.all_eq_true.mp plain word member)
  obtain ⟨same, alike⟩ := Reader.run_alike (.code [] line false) noBranch
  rw [reads] at same alike
  have opened : (Reader.code line false).run (tokens lead) = (leadWords, .pattern [] false) := by
    refine Prod.ext same ?_
    generalize ((Reader.code line false).run (tokens lead)).2 = reached at alike
    cases alike
    rfl
  refine ⟨later, ?_⟩
  have found := run_variables isVariable []
  rw [List.nil_append] at found
  rw [tailText.tokens inner, leadText.tokens, Reader.run_append, Reader.run_append,
    String.toList_ofList, String.toList_ofList, opened, found, closed, List.append_nil]

end ElmClient.Elm.Lexer
