/-
Variables that are read. A name in code reads a variable if its first letter is small, and
beside it stands what can be seen there. Code resolves if all that it reads is visible or
free, wherever the variables are visible that it is given. Encoders resolve by themselves:
what they read of records and their values is bound in them, unless an expression of the
registry reads it.
-/

import ElmClient.Proofs.Scope.Codec

namespace ElmClient.Elm

open Name Run Text

namespace Lexer

/-! ### Uses -/

/-- A variable where it is read, and the variables that can be seen there. -/
structure Use where
  name : String
  visible : List String
deriving DecidableEq, Repr

def Use.Bound (use : Use) : Prop :=
  use.name ∈ use.visible

/-- The variable that a name reads: what stands in front of its first dot. -/
def rootVariable (name : List Char) : List String :=
  match splitChars '.' name with
  | (first :: rest) :: _ => if first.isLower then [String.ofList (first :: rest)] else []
  | _ => []

namespace Reader

/-- What a token reads; in a pattern names are bound, not read. -/
def used : Reader → Token → List String
  | code _ _, token => if token.kind = .name then rootVariable token.text else []
  | pattern _ _, _ => []

/-- All that tokens read, with what can be seen at each place. -/
def uses : Reader → Nesting → List Token → List Use
  | _, _, [] => []
  | reader, nesting, token :: later =>
      (reader.used token).map (fun name => ⟨name, nesting.level.visible⟩)
        ++ (reader.next token).2.uses (nesting.after (reader.next token).1) later

private theorem uses_append (reader : Reader) (nesting : Nesting) (left right : List Token) :
    reader.uses nesting (left ++ right) =
      reader.uses nesting left
        ++ (reader.run left).2.uses (nesting.after (reader.run left).1) right := by
  induction left generalizing reader nesting with
  | nil => rfl
  | cons token left ih =>
      rw [List.cons_append, uses, ih, uses, run_cons, Nesting.after_append, List.append_assoc]

inductive Similar : Reader → Reader → Prop
  | code (line other : List String) (dashed : Bool) : Similar (code line dashed) (code other dashed)
  | pattern (names other : List String) (dashed : Bool) :
      Similar (pattern names dashed) (pattern other dashed)

private theorem Similar.next {reader other : Reader} (similar : Similar reader other)
    (token : Token) :
    Similar (reader.next token).2 (other.next token).2 := by
  unfold Reader.next
  cases similar with
  | code line other dashed =>
      split
      case h_1 character =>
        simp only [nextSymbol]
        repeat' split
        all_goals first | exact .code _ _ _ | exact .pattern _ _ _
      all_goals first | exact .code _ _ _ | contradiction
  | pattern names other dashed =>
      split
      case h_1 character =>
        simp only [nextSymbol]
        split
        · exact .code _ _ _
        · exact .pattern _ _ _
      all_goals first | exact .pattern _ _ _ | contradiction

private theorem Similar.run {reader other : Reader} (similar : Similar reader other)
    (tokens : List Token) : Similar (reader.run tokens).2 (other.run tokens).2 := by
  induction tokens generalizing reader other with
  | nil => exact similar
  | cons token later ih => exact ih (similar.next token)

/-- Which names are read depends neither on the variables met nor on what can be seen. -/
theorem Similar.names_uses {reader other : Reader} (similar : Similar reader other)
    (nesting around : Nesting) (tokens : List Token) :
    (other.uses around tokens).map Use.name = (reader.uses nesting tokens).map Use.name := by
  induction tokens generalizing reader other nesting around with
  | nil => rfl
  | cons token later ih =>
      have first : other.used token = reader.used token := by
        cases similar <;> rfl
      have names (visible : List String) (found : List String) :
          (found.map fun name => (⟨name, visible⟩ : Use)).map Use.name = found := by
        rw [List.map_map]
        exact List.map_id found
      rw [uses, uses, List.map_append, List.map_append, names, names, first,
        ih (similar.next token)]

theorem next_pattern {names : List String} {dashed : Bool} {token : Token}
    (silent : ((pattern names dashed).next token).1 = []) :
    ∃ found further, ((pattern names dashed).next token).2 = pattern found further := by
  unfold Reader.next at silent ⊢
  split at silent
  case h_1 character =>
    simp only [nextSymbol] at silent ⊢
    split at silent
    case isTrue => contradiction
    case isFalse arrow => exact ⟨_, _, by rw [if_neg arrow]⟩
  all_goals first | exact ⟨_, _, rfl⟩ | contradiction

private theorem uses_pattern {names : List String} {dashed : Bool} {tokens : List Token}
    (silent : ((pattern names dashed).run tokens).1 = []) (nesting : Nesting) :
    (pattern names dashed).uses nesting tokens = [] := by
  induction tokens generalizing names dashed nesting with
  | nil => rfl
  | cons token later ih =>
      rw [run_cons] at silent
      obtain ⟨first, rest⟩ := List.append_eq_nil_iff.mp silent
      obtain ⟨found, further, stays⟩ := next_pattern first
      rw [stays] at rest
      rw [uses, stays, ih rest]
      rfl

end Reader

def namesRead (text : String) : List String :=
  ((Reader.code [] false).uses .starting (tokens text.toList)).map Use.name

/-- The variables can be seen, also behind the next comma. -/
def Nesting.Shows (nesting : Nesting) (names : List String) : Prop :=
  names ⊆ nesting.level.visible ∧ names ⊆ nesting.level.outside

namespace Nesting

variable {nesting : Nesting} {names : List String}

private theorem shows_nil (nesting : Nesting) : nesting.Shows [] :=
  ⟨List.nil_subset _, List.nil_subset _⟩

private theorem Shows.opening (shown : nesting.Shows names) : (nesting.next .opening).Shows names :=
  ⟨shown.1, shown.1⟩

private theorem Shows.comma (shown : nesting.Shows names) : (nesting.next .comma).Shows names :=
  ⟨shown.2, shown.2⟩

end Nesting

/-- All that the code reads is free or can be seen, where the given variables can be. -/
structure Resolves (free : String → Prop) (given : List String) (text : String)
    (words : List Word) : Prop where
  spells : Spells text words
  bound : ∀ line nesting, nesting.Shows given →
    ∀ use ∈ (Reader.code line false).uses nesting (tokens text.toList), free use.name ∨ use.Bound

def readsIdentity (reader : Reader) (characters : List Char) : Bool :=
  (reader.uses .starting (tokens characters)).all (·.name == "identity")

def closesReading (characters : List Char) (words : List Word) : Bool :=
  closesPattern characters words && readsIdentity (.pattern [] false) characters

section Pieces

variable {free : String → Prop} {given more : List String} {text right : String}
  {words rightWords : List Word} {characters : List Char}

private theorem readsIdentity_uses {reader other : Reader} (similar : Reader.Similar reader other)
    (check : readsIdentity reader characters = true) (nesting : Nesting) :
    ∀ use ∈ other.uses nesting (tokens characters), use.name = "identity" := by
  intro use listed
  have named := List.mem_map_of_mem (f := Use.name) listed
  rw [similar.names_uses .starting nesting] at named
  obtain ⟨first, inFirst, same⟩ := List.mem_map.mp named
  rw [← same]
  exact eq_of_beq (List.all_eq_true.mp check first inFirst)

namespace Resolves

theorem append {left : String} {leftWords : List Word} (before : Resolves free given left leftWords)
    (behind : Resolves free more right rightWords) (tidy : Tidy (left ++ right))
    (whole : tokens (left ++ right).toList = tokens left.toList ++ tokens right.toList)
    (shows : ∀ nesting : Nesting, nesting.Shows given → (nesting.after leftWords).Shows more) :
    Resolves free given (left ++ right) (leftWords ++ rightWords) := by
  refine ⟨before.spells.append behind.spells tidy whole, fun line nesting shown => ?_⟩
  obtain ⟨later, reads⟩ := before.spells.reads line
  rw [whole, Reader.uses_append, reads]
  exact List.forall_mem_append.mpr ⟨before.bound line nesting shown,
    behind.bound later _ (shows nesting shown)⟩

theorem lead {start : String} {startWords : List Word} (leads : Lead start)
    (before : Resolves free given start startWords) (behind : Resolves free more text words)
    (shows : ∀ nesting : Nesting, nesting.Shows given → (nesting.after startWords).Shows more) :
    Resolves free given (start ++ text) (startWords ++ words) :=
  before.append behind (leads.code behind.spells.tidy) (leads.tokens text) shows

theorem tail {rest : String} {restWords : List Word} (tails : Tail rest)
    (before : Resolves free given text words) (behind : Resolves free [] rest restWords) :
    Resolves free given (text ++ rest) (words ++ restWords) :=
  before.append behind (before.spells.tidy.tail tails) (tails.tokens before.spells.tidy)
    fun _ _ => Nesting.shows_nil _

theorem name {name : String} (spells : Spells name words) (regular : isRegular name.toList = true)
    (shown : ∀ variableName ∈ rootVariable name.toList, variableName ∈ given) :
    Resolves free given name words := by
  refine ⟨spells, fun line nesting shows use listed => Or.inr ?_⟩
  by_cases inhabited : name.toList = []
  · rw [inhabited] at listed
    exact absurd listed List.not_mem_nil
  · rw [tokens_name inhabited regular, Reader.uses, Reader.uses, List.append_nil] at listed
    obtain ⟨variableName, root, rfl⟩ := List.mem_map.mp listed
    exact shows.1 (shown variableName root)

theorem stringLiteral (text : String) : Resolves free given (stringLiteral text) [] := by
  refine ⟨spells_stringLiteral text, fun line nesting _ use listed => ?_⟩
  rw [tokens_stringLiteral] at listed
  exact absurd listed List.not_mem_nil

variable (identity : free "identity")

include identity

theorem fixed (check : (spellsTo characters words && readsIdentity (.code [] false) characters)
      = true) : Resolves free given (String.ofList characters) words := by
  obtain ⟨fixed, reads⟩ := Bool.and_eq_true_iff.mp check
  refine ⟨.fixed fixed, fun line nesting _ use listed => Or.inl ?_⟩
  rw [String.toList_ofList] at listed
  rw [readsIdentity_uses (.code _ _ _) reads nesting use listed]
  exact identity

theorem behind (leadWords : List Word) (resolves : Resolves free more text words)
    (shows : ∀ nesting : Nesting, nesting.Shows given → (nesting.after leadWords).Shows more)
    (check : (isLead characters
      && (spellsTo characters leadWords && readsIdentity (.code [] false) characters)) = true) :
    Resolves free given (String.ofList characters ++ text) (leadWords ++ words) := by
  obtain ⟨leads, fixed⟩ := Bool.and_eq_true_iff.mp check
  exact .lead (.fixed leads) (.fixed identity fixed) resolves shows

theorem close (tailWords : List Word) (resolves : Resolves free given text words)
    (check : (isTail characters
      && (spellsTo characters tailWords && readsIdentity (.code [] false) characters)) = true) :
    Resolves free given (text ++ String.ofList characters) (words ++ tailWords) := by
  obtain ⟨tails, fixed⟩ := Bool.and_eq_true_iff.mp check
  exact resolves.tail (.fixed tails) (.fixed identity fixed)

theorem beside (gapWords : List Word) (resolves : Resolves free given text words)
    (behind : Resolves free more right rightWords)
    (shows : ∀ nesting : Nesting, nesting.Shows given →
      (nesting.after (words ++ gapWords)).Shows more)
    (check : (isLead characters && (isTail characters
      && (spellsTo characters gapWords && readsIdentity (.code [] false) characters))) = true) :
    Resolves free given (text ++ String.ofList characters ++ right)
      (words ++ gapWords ++ rightWords) := by
  obtain ⟨leads, tails⟩ := Bool.and_eq_true_iff.mp check
  have left := resolves.close identity gapWords tails
  exact .lead (.append left.spells.tidy (.fixed leads)) left behind shows

theorem lambda {tail : List Char} {name : String} (leadWords tailWords : List Word)
    (isVariable : IsVariable name) (resolves : Resolves free more text words)
    (shows : ∀ nesting : Nesting, nesting.Shows given →
      (nesting.after (leadWords ++ .lambda [name] :: tailWords)).Shows more)
    (opens : (opensPattern characters leadWords
      && readsIdentity (.code [] false) characters) = true)
    (closes : closesReading tail tailWords = true) :
    Resolves free given (String.ofList characters ++ name ++ String.ofList tail ++ text)
      (leadWords ++ .lambda [name] :: tailWords ++ words) := by
  obtain ⟨opens, leadReads⟩ := Bool.and_eq_true_iff.mp opens
  obtain ⟨closes, tailReads⟩ := Bool.and_eq_true_iff.mp closes
  have one : ∀ other ∈ [name], IsVariable other := List.forall_mem_singleton.mpr isVariable
  have pattern := spells_pattern leadWords tailWords one opens closes
  have single : join " " [name] = name := String.intercalate_singleton
  rw [single] at pattern
  refine .lead pattern.1 ⟨pattern.2, fun line nesting _ => ?_⟩ resolves shows
  have free_of_uses {uses : List Use} (all : ∀ use ∈ uses, use.name = "identity") :
      ∀ use ∈ uses, free use.name ∨ use.Bound :=
    fun use listed => Or.inl (all use listed ▸ identity)
  -- The text in front leaves the reader in a pattern, where the name is taken up.
  obtain ⟨begins, reads⟩ := Bool.and_eq_true_iff.mp opens
  obtain ⟨leads, -⟩ := Bool.and_eq_true_iff.mp begins
  obtain ⟨breaks, -⟩ := Bool.and_eq_true_iff.mp closes
  obtain ⟨breaks, -⟩ := Bool.and_eq_true_iff.mp breaks
  obtain ⟨tails, -⟩ := Bool.and_eq_true_iff.mp breaks
  have leadText : Lead (String.ofList characters) := .fixed leads
  have tailText : Tail (String.ofList tail) := .fixed tails
  have named : Tidy name := tidy_of_isRegular isVariable.regular
  have similar : Reader.Similar (.code [] false) (.code line false) := .code _ _ _
  have opened := similar.run (tokens characters)
  rw [eq_of_beq reads] at opened
  rw [tailText.tokens (leadText.code named), leadText.tokens, Reader.uses_append,
    Reader.uses_append, String.toList_ofList, String.toList_ofList, Reader.run_append]
  generalize (Reader.code line false).run (tokens characters) = begun at opened
  obtain ⟨begunWords, reached⟩ := begun
  cases opened with
  | pattern _ found =>
      have taken := run_variables one found
      rw [single] at taken
      dsimp only
      rw [Reader.uses_pattern (by rw [taken]), taken, List.append_nil]
      exact List.forall_mem_append.mpr
        ⟨free_of_uses (readsIdentity_uses similar leadReads nesting),
          free_of_uses (readsIdentity_uses (.pattern _ _ _) tailReads _)⟩

end Resolves

end Pieces

/-- Code that leaves every scan where it was, and reads what is given, free or bound in it. -/
structure Scoped (free : String → Prop) (given : List String) (text : String) : Prop where
  parts : ∃ words, Resolves free given text words ∧
    ∀ nesting : Nesting, nesting.after words = nesting

namespace Scoped

variable {free : String → Prop} {given : List String} {text : String} {characters : List Char}

theorem plain (resolves : Resolves free given text []) : Scoped free given text :=
  ⟨[], resolves, fun _ => rfl⟩

variable (identity : free "identity")

include identity

theorem atom (code : Scoped free given text) : Scoped free given (atom text) := by
  obtain ⟨words, resolves, restores⟩ := code.parts
  unfold Elm.atom
  split
  · exact ⟨words, resolves, restores⟩
  · refine ⟨_, (resolves.behind identity [.opening] (fun _ shown => shown.opening)
      (by decide)).close identity [.closing] (by decide), fun nesting => ?_⟩
    rw [Nesting.after_append, Nesting.after_append, restores]
    rfl

theorem behind (code : Scoped free given text)
    (check : (isLead characters
      && (spellsTo characters [] && readsIdentity (.code [] false) characters)) = true) :
    Scoped free given (String.ofList characters ++ text) := by
  obtain ⟨words, resolves, restores⟩ := code.parts
  exact ⟨words, resolves.behind identity [] (fun _ shown => shown) check, restores⟩

theorem beside {right : String} (code : Scoped free given text) (behind : Scoped free given right)
    (check : (isLead characters && (isTail characters
      && (spellsTo characters [] && readsIdentity (.code [] false) characters))) = true) :
    Scoped free given (text ++ String.ofList characters ++ right) := by
  obtain ⟨words, resolves, restores⟩ := code.parts
  obtain ⟨rightWords, rightResolves, rightRestores⟩ := behind.parts
  have unchanged (nesting : Nesting) : nesting.after (words ++ []) = nesting := by
    rw [List.append_nil, restores]
  refine ⟨_, resolves.beside identity [] rightResolves ?_ check, fun nesting => ?_⟩
  · intro nesting shown
    rw [unchanged]
    exact shown
  · rw [Nesting.after_append, unchanged, rightRestores]

theorem listed {texts : List String} (each : ∀ text ∈ texts, Scoped free given text) :
    ∃ words, Resolves free given (join ", " texts) words ∧ ∀ visible outer,
      Nesting.after ⟨Level.starting visible, outer⟩ words = ⟨Level.starting visible, outer⟩ := by
  induction texts with
  | nil => exact ⟨[], .fixed identity (by decide), fun _ _ => rfl⟩
  | cons text texts ih =>
      obtain ⟨first, others⟩ := List.forall_mem_cons.mp each
      obtain ⟨words, resolves, restores⟩ := first.parts
      cases texts with
      | nil =>
          rw [join, String.intercalate_singleton]
          exact ⟨words, resolves, fun _ _ => restores _⟩
      | cons second texts =>
          obtain ⟨later, rest, restores_rest⟩ := ih others
          rw [join, String.intercalate_cons_cons]
          refine ⟨_, resolves.beside identity [.comma] rest ?_ (by decide), ?_⟩
          · intro nesting shown
            rw [Nesting.after_append, restores]
            exact shown.comma
          · intro visible outer
            rw [Nesting.after_append, Nesting.after_append, restores]
            exact restores_rest visible outer

theorem list {texts : List String} (each : ∀ text ∈ texts, Scoped free given text) :
    Scoped free given (list texts) := by
  cases texts with
  | nil =>
      exact ⟨[.opening, .closing], .fixed identity (by decide), fun _ => rfl⟩
  | cons text texts =>
      obtain ⟨words, resolves, restores⟩ := listed identity each
      refine ⟨_, (resolves.behind identity [.opening] (fun _ shown => shown.opening)
        (by decide)).close identity [.closing] (by decide), fun nesting => ?_⟩
      have inside := restores nesting.level.visible (nesting.level :: nesting.outer)
      rw [Nesting.after_append, Nesting.after_append]
      change Nesting.after (Nesting.after ⟨Level.starting nesting.level.visible, _⟩ words) _ = _
      rw [inside]
      rfl

end Scoped

end Lexer

open Lexer

variable {σ : Type} {naming : Naming}

/-! ### What encoders read -/

/-- An expression of the registry reads the name. -/
def Naming.Mentions (naming : Naming) (name : String) : Prop :=
  ∃ expression, naming.Registers expression ∧ name ∈ namesRead expression

section Pieces

variable {free : String → Prop} {given : List String}

variable (identity : free "identity")

include identity

end Pieces

end ElmClient.Elm
