/-
A balanced text in argument position is one unit: a text without spaces, one literal or one
group of brackets. It is not put in parentheses twice, and a space in it does not look like one
between two arguments.
-/

import ElmClient.Proofs.Brackets.Scan

namespace ElmClient.Elm

open Text ElmClient.Elm.Bracket BracketScan

def IsBalanced (text : String) : Prop :=
  ∀ kind, Balanced (only kind) text

/-! ### Where a group ends -/

section Groups

variable {kind : Bracket} {within opened : List Bracket} {quoting reachedQuoting : Quoting}
  {character : Char}

theorem closesAtEnd_opening (kind : Bracket) (rest : List Char) :
    closesAtEnd kind.opening kind.closing 0 .outside (kind.opening :: rest) =
      closesAtEnd kind.opening kind.closing 1 .outside rest := by
  cases kind <;> rfl

theorem closesAtEnd_closing (kind : Bracket) (rest : List Char) :
    closesAtEnd kind.opening kind.closing 1 .outside (kind.closing :: rest) = rest.isEmpty := by
  cases kind <;> rfl

/-- Looking for the end of a group goes along with a scan that counts its kind of brackets,
one level further out. -/
theorem closesAtEnd_step
    (step : Step (only kind) ⟨within, quoting⟩ character ⟨opened, reachedQuoting⟩)
    (rest : List Char) :
    closesAtEnd kind.opening kind.closing (within.length + 1) quoting (character :: rest) =
      closesAtEnd kind.opening kind.closing (opened.length + 1) reachedQuoting rest := by
  cases step with
  | literal character quoted =>
      cases quoting with
      | outside => contradiction
      | inside => rfl
      | escaped => rfl
  | @opens _ bracket counted =>
      obtain rfl : bracket = kind := eq_of_beq counted
      cases bracket <;> rfl
  | @closes _ bracket counted =>
      obtain rfl : bracket = kind := eq_of_beq counted
      have noQuote : bracket.closing ≠ '"' := by cases bracket <;> decide
      have noOpening : bracket.closing ≠ bracket.opening := by cases bracket <;> decide
      have deeper : ¬(bracket :: opened).length + 1 ≤ 1 := by
        rw [List.length_cons]
        omega
      rw [closesAtEnd, if_neg noQuote, if_neg noOpening, if_pos rfl, if_neg deeper]
      rfl
  | other noOpening noClosing =>
      have notOpening : character ≠ kind.opening := by
        rintro rfl
        rw [opened?_eq_some_iff.mpr rfl, Option.filter_some, if_pos (only_self kind)] at noOpening
        contradiction
      have notClosing : character ≠ kind.closing := by
        rintro rfl
        rw [closed?_eq_some_iff.mpr rfl, Option.filter_some, if_pos (only_self kind)] at noClosing
        contradiction
      rw [closesAtEnd, if_neg notOpening, if_neg notClosing]
      by_cases quote : character = '"'
      · rw [if_pos quote, quote]
        rfl
      · rw [if_neg quote, Quoting.next_outside quote]

/-- A balanced text in parentheses is a group. -/
theorem isGroup_of_balanced {characters : List Char}
    (read : run (only kind) ⟨[], .outside⟩ characters = some ⟨[], .outside⟩) :
    isGroup kind.opening kind.closing (kind.opening :: characters ++ [kind.closing]) = true := by
  have along {within opened : List Bracket} {quoting reachedQuoting : Quoting}
      {characters : List Char} (rest : List Char)
      (read : run (only kind) ⟨within, quoting⟩ characters = some ⟨opened, reachedQuoting⟩) :
      closesAtEnd kind.opening kind.closing (within.length + 1) quoting (characters ++ rest) =
        closesAtEnd kind.opening kind.closing (opened.length + 1) reachedQuoting rest := by
    induction characters generalizing within quoting with
    | nil =>
        obtain ⟨rfl, rfl⟩ := BracketScan.mk.inj (Option.some.inj read)
        rfl
    | cons character characters ih =>
        obtain ⟨⟨between, betweenQuoting⟩, step, later⟩ := run_cons_iff.mp read
        exact (closesAtEnd_step step _).trans (ih later)
  have ends := along [kind.closing] read
  rw [List.length_nil, closesAtEnd_closing] at ends
  rw [isGroup, List.cons_append, closesAtEnd_opening, ends]
  simp

private theorem step_below {counts : Bracket → Bool}
    (step : Step counts ⟨within ++ [kind], quoting⟩ character ⟨opened, reachedQuoting⟩) :
    (within = [] ∧ quoting = .outside ∧ character = kind.closing ∧ opened = []) ∨
      ∃ between, opened = between ++ [kind] ∧
        Step counts ⟨within, quoting⟩ character ⟨between, reachedQuoting⟩ := by
  generalize whole : within ++ [kind] = stack at step
  cases step with
  | literal character quoted => exact Or.inr ⟨within, whole.symm, .literal character quoted⟩
  | opens counted => exact Or.inr ⟨_ :: within, congrArg _ whole.symm, .opens counted⟩
  | closes counted =>
      cases within with
      | nil =>
          obtain ⟨rfl, rfl⟩ := List.cons.inj whole
          exact Or.inl ⟨rfl, rfl, rfl, rfl⟩
      | cons innermost others =>
          obtain ⟨rfl, rfl⟩ := List.cons.inj whole
          exact Or.inr ⟨others, rfl, .closes counted⟩
  | other noOpening noClosing =>
      exact Or.inr ⟨within, whole.symm, .other noOpening noClosing⟩

/-- Where the bracket of a group is found to close at the end, the text in it is balanced. -/
theorem closes_of_closesAtEnd {rest : List Char}
    (read : run (only kind) ⟨within ++ [kind], quoting⟩ rest = some ⟨[], .outside⟩)
    (ends : closesAtEnd kind.opening kind.closing (within.length + 1) quoting rest = true) :
    ∃ inner, rest = inner ++ [kind.closing] ∧
      run (only kind) ⟨within, quoting⟩ inner = some ⟨[], .outside⟩ := by
  induction rest generalizing within quoting with
  | nil =>
      rw [closesAtEnd] at ends
      contradiction
  | cons character rest ih =>
      obtain ⟨⟨opened, reachedQuoting⟩, step, later⟩ := run_cons_iff.mp read
      rcases step_below step with ⟨rfl, rfl, rfl, rfl⟩ | ⟨between, rfl, stepped⟩
      · rw [List.length_nil, closesAtEnd_closing, List.isEmpty_iff] at ends
        subst ends
        exact ⟨[], rfl, rfl⟩
      · rw [closesAtEnd_step stepped] at ends
        obtain ⟨inner, rfl, inside⟩ := ih later ends
        exact ⟨character :: inner, rfl, run_cons_iff.mpr ⟨_, stepped, inside⟩⟩

private theorem inner_of_other {other : Bracket} (different : other ≠ kind) {inner : List Char}
    (read : run (only other) ⟨[], .outside⟩ (kind.opening :: inner ++ [kind.closing]) =
      some ⟨[], .outside⟩) :
    run (only other) ⟨[], .outside⟩ inner = some ⟨[], .outside⟩ := by
  have skipped : ¬only other kind = true := fun same => different (eq_of_beq same).symm
  rw [List.cons_append, run, next_eq_some_iff.mpr (Step.skip skipped).1, Option.bind_some,
    run_append] at read
  obtain ⟨⟨within, quoting⟩, inside, last⟩ := Option.bind_eq_some_iff.mp read
  rw [inside]
  rw [run, Option.bind_eq_some_iff] at last
  obtain ⟨ends, step, same⟩ := last
  obtain rfl : ends = ⟨[], .outside⟩ := Option.some.inj same
  cases quoting with
  | outside =>
      rw [next_eq_some_iff.mpr (Step.skip skipped).2] at step
      exact step
  | inside =>
      rw [next_inside (by cases kind <;> decide) (by cases kind <;> decide)] at step
      have apart : Quoting.inside = .outside := (BracketScan.mk.inj (Option.some.inj step)).2
      contradiction
  | escaped =>
      have apart : Quoting.inside = .outside := (BracketScan.mk.inj (Option.some.inj step)).2
      contradiction

end Groups

/-! ### Units -/

/-- A single literal: no quote in the content, and the last quote is not escaped. -/
def IsLiteral (characters : List Char) : Prop :=
  ∃ content, characters = '"' :: content ++ ['"'] ∧ '"' ∉ content ∧
    content.foldl Quoting.next .inside = .inside

/-- A single group: the bracket opened first is the one closed last. -/
def IsGroup (characters : List Char) : Prop :=
  ∃ (kind : Bracket) (inner : List Char), characters = kind.opening :: inner ++ [kind.closing] ∧
    IsBalanced (String.ofList inner)

def IsUnit (text : String) : Prop :=
  ' ' ∉ text.toList ∨ IsLiteral text.toList ∨ IsGroup text.toList

theorem run_content {counts : Bracket → Bool} {within : List Bracket} {content : List Char}
    (noQuote : '"' ∉ content) {quoting : Quoting} (quoted : quoting ≠ .outside) :
    content.foldl Quoting.next quoting ≠ .outside ∧
      run counts ⟨within, quoting⟩ content =
        some ⟨within, content.foldl Quoting.next quoting⟩ := by
  induction content generalizing quoting with
  | nil => exact ⟨quoted, rfl⟩
  | cons character rest ih =>
      obtain ⟨other, later⟩ := not_or.mp (List.mem_cons.not.mp noQuote)
      have still : quoting.next character ≠ .outside := by
        cases quoting with
        | outside => contradiction
        | inside =>
            unfold Quoting.next
            split <;> first | contradiction | decide
        | escaped =>
            intro same
            contradiction
      obtain ⟨ends, read⟩ := ih later still
      exact ⟨ends, run_cons_iff.mpr ⟨_, .literal character quoted, read⟩⟩

private theorem isLiteral_of_plain {characters : List Char}
    (plain : isPlainLiteral characters = true)
    {counts : Bracket → Bool}
    (read : run counts ⟨[], .outside⟩ characters = some ⟨[], .outside⟩) :
    IsLiteral characters := by
  unfold isPlainLiteral at plain
  split at plain
  case h_1 rest =>
    obtain ⟨ends, noQuote⟩ := Bool.and_eq_true_iff.mp plain
    have whole : rest.dropLast ++ ['"'] = rest :=
      List.dropLast_append_getLast? _ (eq_of_beq ends)
    have free : '"' ∉ rest.dropLast := by simpa using noQuote
    have along : rest.dropLast.foldl Quoting.next .inside ≠ .outside ∧
        run counts ⟨[], .inside⟩ rest.dropLast =
          some ⟨[], rest.dropLast.foldl Quoting.next .inside⟩ :=
      run_content free (by decide)
    have opens : run counts ⟨[], .outside⟩ ('"' :: rest) = run counts ⟨[], .inside⟩ rest := rfl
    rw [opens, ← whole, run_append, along.2, Option.bind_some] at read
    refine ⟨rest.dropLast, congrArg _ whole.symm, free, ?_⟩
    cases reached : rest.dropLast.foldl Quoting.next .inside with
    | outside => exact absurd reached along.1
    | inside => rfl
    | escaped =>
        rw [reached] at read
        have apart : Quoting.inside = .outside := (BracketScan.mk.inj (Option.some.inj read)).2
        contradiction
  case h_2 => contradiction

theorem isGroup_of_isGroup {kind : Bracket} {characters : List Char}
    (group : isGroup kind.opening kind.closing characters = true)
    (balanced : ∀ kind, run (only kind) ⟨[], .outside⟩ characters = some ⟨[], .outside⟩) :
    IsGroup characters := by
  obtain ⟨begins, ends⟩ := Bool.and_eq_true_iff.mp group
  obtain ⟨rest, rfl⟩ := List.head?_eq_some_iff.mp (eq_of_beq begins)
  have opens : Step (only kind) ⟨[], .outside⟩ kind.opening ⟨[kind], .outside⟩ :=
    .opens (only_self kind)
  have read : run (only kind) ⟨[] ++ [kind], .outside⟩ rest = some ⟨[], .outside⟩ := by
    have whole := balanced kind
    rwa [run, next_eq_some_iff.mpr opens, Option.bind_some] at whole
  rw [closesAtEnd_opening] at ends
  obtain ⟨inner, rfl, inside⟩ := closes_of_closesAtEnd read ends
  refine ⟨kind, inner, rfl, fun other => ?_⟩
  rw [Balanced, Moves, String.toList_ofList]
  by_cases same : other = kind
  · rw [same]
    exact inside
  · exact inner_of_other same (balanced other)

theorem toList_parentheses (text : String) : ("(" ++ text ++ ")").toList =
    Bracket.round.opening :: text.toList ++ [Bracket.round.closing] := by
  rw [String.toList_append, String.toList_append]
  rfl

theorem isUnit_atom {text : String} (balanced : IsBalanced text) : IsUnit (atom text) := by
  unfold atom
  split
  case isTrue atomic =>
    simp only [isAtomic, Bool.or_eq_true, Bool.not_eq_true', List.contains_eq_mem,
      decide_eq_false_iff_not] at atomic
    obtain (((noSpace | round) | curly) | square) | plain := atomic
    · exact Or.inl noSpace
    · exact Or.inr (Or.inr (@isGroup_of_isGroup .round _ round balanced))
    · exact Or.inr (Or.inr (@isGroup_of_isGroup .curly _ curly balanced))
    · exact Or.inr (Or.inr (@isGroup_of_isGroup .square _ square balanced))
    · exact Or.inr (Or.inl (isLiteral_of_plain plain (balanced .round)))
  case isFalse =>
    refine Or.inr (Or.inr ⟨.round, text.toList, toList_parentheses text, ?_⟩)
    rwa [String.ofList_toList]

theorem atom_atom {text : String} (balanced : IsBalanced text) :
    atom (atom text) = atom text := by
  by_cases atomic : isAtomic text.toList = true
  · have kept : atom text = text := if_pos atomic
    rw [kept, kept]
  · have wrapped : atom text = "(" ++ text ++ ")" := if_neg atomic
    have again : isAtomic ("(" ++ text ++ ")").toList = true := by
      have group : isGroup '(' ')' (Bracket.round.opening :: text.toList ++
          [Bracket.round.closing]) = true := isGroup_of_balanced (balanced .round)
      rw [isAtomic, toList_parentheses, group, Bool.or_true, Bool.true_or, Bool.true_or,
        Bool.true_or]
    rw [wrapped]
    exact if_pos again

/-! ### Argument position -/

private theorem exists_of_enclosed {front back inner : List Char} {first last : Char}
    (inhabited : front ≠ []) (ends : last ≠ ' ')
    (split : first :: inner ++ [last] = front ++ ' ' :: back) :
    ∃ before behind, front = first :: before ∧ inner = before ++ ' ' :: behind := by
  obtain ⟨head, before, rfl⟩ := List.exists_cons_of_ne_nil inhabited
  obtain ⟨rfl, later⟩ := List.cons.inj split
  rcases List.append_eq_append_iff.mp later with ⟨between, -, tail⟩ | ⟨between, whole, tail⟩
  · cases between with
    | nil => exact absurd (List.cons.inj tail).1 ends
    | cons other between => exact absurd (List.cons.inj tail).2.symm (by simp)
  · cases between with
    | nil => exact absurd (List.cons.inj tail).1.symm ends
    | cons space between =>
        obtain ⟨rfl, -⟩ := List.cons.inj tail
        exact ⟨before, between, rfl, whole⟩

private theorem not_isBalanced_of_unit {text : String} (unit : IsUnit text) {front back : List Char}
    (split : text.toList = front ++ ' ' :: back) (inhabited : front ≠ []) :
    ¬IsBalanced (String.ofList front) := by
  intro balanced
  have read (kind : Bracket) : run (only kind) ⟨[], .outside⟩ front = some ⟨[], .outside⟩ := by
    have text := balanced kind
    rwa [Balanced, Moves, String.toList_ofList] at text
  rcases unit with noSpace | ⟨content, whole, noQuote, -⟩ | ⟨kind, inner, whole, inside⟩
  · rw [split] at noSpace
    exact noSpace (List.mem_append_right _ List.mem_cons_self)
  · obtain ⟨before, behind, rfl, rfl⟩ :=
      exists_of_enclosed inhabited (by decide) (whole.symm.trans split)
    have free : '"' ∉ before := fun member => noQuote (List.mem_append_left _ member)
    have along : before.foldl Quoting.next .inside ≠ .outside ∧
        run (only .round) ⟨[], .inside⟩ before =
          some ⟨[], before.foldl Quoting.next .inside⟩ :=
      run_content free (by decide)
    have opens : run (only .round) ⟨[], .outside⟩ ('"' :: before) =
        run (only .round) ⟨[], .inside⟩ before := rfl
    have reached := (opens.trans along.2).symm.trans (read .round)
    exact along.1 (BracketScan.mk.inj (Option.some.inj reached)).2
  · obtain ⟨before, behind, rfl, rfl⟩ :=
      exists_of_enclosed inhabited (by cases kind <;> decide) (whole.symm.trans split)
    have innerRead := inside kind
    rw [Balanced, Moves, String.toList_ofList, run_append] at innerRead
    obtain ⟨⟨opened, quoting⟩, reached, -⟩ := Option.bind_eq_some_iff.mp innerRead
    have opens : Step (only kind) ⟨[], .outside⟩ kind.opening ⟨[kind], .outside⟩ :=
      .opens (only_self kind)
    have closed := read kind
    rw [run, next_eq_some_iff.mpr opens, Option.bind_some] at closed
    have apart := (run_above reached [kind]).symm.trans closed
    exact absurd (BracketScan.mk.inj (Option.some.inj apart)).1 (by simp)

/-- What keeps a text in one piece as an argument. -/
structure StaysWhole (text : String) : Prop where
  unit : IsUnit (atom text)
  again : atom (atom text) = atom text
  /-- A space with a balanced text in front of it does not stand in the argument. -/
  apart : ∀ front back left right, IsBalanced front → IsBalanced left →
    front ++ atom text ++ back = left ++ " " ++ right →
    left.toList <+: front.toList ∨ (front ++ atom text).toList <+: left.toList

private theorem IsBalanced.rest {front : String} {rest : List Char}
    (frontBalanced : IsBalanced front)
    (balanced : IsBalanced (String.ofList (front.toList ++ rest))) :
    IsBalanced (String.ofList rest) := by
  intro kind
  have first : run (only kind) ⟨[], .outside⟩ front.toList = some ⟨[], .outside⟩ :=
    frontBalanced kind
  have whole := balanced kind
  rw [Balanced, Moves, String.toList_ofList, run_append, List.filter_nil, first] at whole
  rw [Balanced, Moves, String.toList_ofList]
  exact whole

theorem staysWhole {text : String} (balanced : IsBalanced text) : StaysWhole text where
  unit := isUnit_atom balanced
  again := atom_atom balanced
  apart := by
    intro front back left right frontBalanced leftBalanced split
    have characters := congrArg String.toList split
    simp only [String.toList_append, List.append_assoc] at characters ⊢
    rcases List.append_eq_append_iff.mp characters with ⟨part, reached, later⟩ | ⟨part, reached, -⟩
    · rcases List.append_eq_append_iff.mp later with ⟨behind, further, -⟩ | ⟨behind, within, tail⟩
      · exact Or.inr ⟨behind, by rw [reached, further, List.append_assoc]⟩
      · cases behind with
        | nil =>
            rw [List.append_nil] at within
            exact Or.inr ⟨[], by rw [List.append_nil, reached, within]⟩
        | cons space behind =>
            obtain ⟨rfl, -⟩ := List.cons.inj tail
            by_cases none : part = []
            · exact Or.inl ⟨[], by rw [List.append_nil, reached, none, List.append_nil]⟩
            · rw [← String.ofList_toList (s := left), reached] at leftBalanced
              exact absurd (frontBalanced.rest leftBalanced)
                (not_isBalanced_of_unit (isUnit_atom balanced) within none)
    · exact Or.inl ⟨part, reached.symm⟩

end ElmClient.Elm
