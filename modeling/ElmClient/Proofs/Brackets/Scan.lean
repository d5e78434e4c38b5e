/-
The brackets of a text, read from the left with a stack of those that are open. String literals
are skipped as they are where the end of a group is looked for. A scan may count all kinds of
brackets, which then have to be nested properly, or some of them.
-/

import ElmClient.Proofs.Name.Proper
import ElmClient.Proofs.Tidy.Layout

namespace ElmClient.Elm

open Name Text

inductive Bracket where
  | round
  | curly
  | square
deriving DecidableEq, Repr

namespace Bracket

def opening : Bracket → Char
  | .round => '('
  | .curly => '\x7b'
  | .square => '['

def closing : Bracket → Char
  | .round => ')'
  | .curly => '\x7d'
  | .square => ']'

def opened? : Char → Option Bracket
  | '(' => some .round
  | '\x7b' => some .curly
  | '[' => some .square
  | _ => none

def closed? : Char → Option Bracket
  | ')' => some .round
  | '\x7d' => some .curly
  | ']' => some .square
  | _ => none

theorem opened?_eq_some_iff {character : Char} {bracket : Bracket} :
    opened? character = some bracket ↔ character = bracket.opening := by
  constructor
  · intro found
    unfold opened? at found
    split at found <;> first | contradiction | (obtain rfl := Option.some.inj found; rfl)
  · rintro rfl
    cases bracket <;> rfl

theorem closed?_eq_some_iff {character : Char} {bracket : Bracket} :
    closed? character = some bracket ↔ character = bracket.closing := by
  constructor
  · intro found
    unfold closed? at found
    split at found <;> first | contradiction | (obtain rfl := Option.some.inj found; rfl)
  · rintro rfl
    cases bracket <;> rfl

private theorem closed?_opening (bracket : Bracket) : closed? bracket.opening = none := by
  cases bracket <;> rfl

private theorem opened?_closing (bracket : Bracket) : opened? bracket.closing = none := by
  cases bracket <;> rfl

def only (kind bracket : Bracket) : Bool :=
  bracket == kind

theorem only_self (kind : Bracket) : only kind kind = true :=
  beq_self_eq_true kind

end Bracket

theorem Quoting.next_outside {character : Char} (noQuote : character ≠ '"') :
    Quoting.outside.next character = .outside := by
  unfold next
  split <;> first | contradiction | rfl

theorem Quoting.next_inside {character : Char} (noSlash : character ≠ '\\')
    (noQuote : character ≠ '"') : Quoting.inside.next character = .inside := by
  unfold next
  split <;> first | contradiction | rfl

open ElmClient.Elm.Bracket

/-! ### Scans -/

/-- The brackets that are open, the innermost first, and where the scan stands relative to
string literals. -/
structure BracketScan where
  within : List Bracket
  quoting : Quoting
deriving DecidableEq

namespace BracketScan

/-- Read a character; `none` where a bracket closes that is not the innermost one. -/
def next (counts : Bracket → Bool) (scan : BracketScan) (character : Char) :
    Option BracketScan :=
  match scan.quoting with
  | .outside =>
      match (opened? character).filter counts with
      | some bracket => some ⟨bracket :: scan.within, .outside⟩
      | none =>
          match (closed? character).filter counts with
          | none => some ⟨scan.within, Quoting.outside.next character⟩
          | some bracket =>
              match scan.within with
              | innermost :: others =>
                  if innermost = bracket then some ⟨others, .outside⟩ else none
              | [] => none
  | quoting => some ⟨scan.within, quoting.next character⟩

def run (counts : Bracket → Bool) : BracketScan → List Char → Option BracketScan
  | scan, [] => some scan
  | scan, character :: rest =>
      (next counts scan character).bind fun reached => run counts reached rest

inductive Step (counts : Bracket → Bool) : BracketScan → Char → BracketScan → Prop
  | literal {within : List Bracket} {quoting : Quoting} (character : Char)
      (quoted : quoting ≠ .outside) :
      Step counts ⟨within, quoting⟩ character ⟨within, quoting.next character⟩
  | opens {within : List Bracket} {bracket : Bracket} (counted : counts bracket = true) :
      Step counts ⟨within, .outside⟩ bracket.opening ⟨bracket :: within, .outside⟩
  | closes {within : List Bracket} {bracket : Bracket} (counted : counts bracket = true) :
      Step counts ⟨bracket :: within, .outside⟩ bracket.closing ⟨within, .outside⟩
  | other {within : List Bracket} {character : Char}
      (noOpening : (opened? character).filter counts = none)
      (noClosing : (closed? character).filter counts = none) :
      Step counts ⟨within, .outside⟩ character ⟨within, Quoting.outside.next character⟩

variable {counts : Bracket → Bool} {scan reached : BracketScan} {character : Char}

private theorem step_of_next (read : next counts scan character = some reached) :
    Step counts scan character reached := by
  obtain ⟨within, quoting⟩ := scan
  unfold next at read
  split at read
  case h_1 outside =>
    obtain rfl : quoting = .outside := outside
    split at read
    case h_1 bracket found =>
      obtain ⟨opened, counted⟩ := Option.filter_eq_some_iff.mp found
      obtain rfl := Option.some.inj read
      obtain rfl := opened?_eq_some_iff.mp opened
      exact .opens counted
    case h_2 noOpening =>
      split at read
      case h_1 noClosing =>
        obtain rfl := Option.some.inj read
        exact .other noOpening noClosing
      case h_2 bracket found =>
        obtain ⟨closed, counted⟩ := Option.filter_eq_some_iff.mp found
        obtain rfl := closed?_eq_some_iff.mp closed
        split at read
        case h_1 innermost others top =>
          obtain rfl : within = innermost :: others := top
          split at read
          case isTrue same =>
            obtain rfl := Option.some.inj read
            obtain rfl := same
            exact .closes counted
          case isFalse => contradiction
        case h_2 => contradiction
  case h_2 quoted =>
    obtain rfl := Option.some.inj read
    exact .literal character quoted

theorem next_of_step (step : Step counts scan character reached) :
    next counts scan character = some reached := by
  cases step with
  | @literal _ quoting character quoted =>
      cases quoting with
      | outside => contradiction
      | inside => rfl
      | escaped => rfl
  | @opens _ bracket counted =>
      have found : (opened? bracket.opening).filter counts = some bracket :=
        Option.filter_eq_some_iff.mpr ⟨opened?_eq_some_iff.mpr rfl, counted⟩
      simp only [next, found]
  | @closes others bracket counted =>
      have found : (closed? bracket.closing).filter counts = some bracket :=
        Option.filter_eq_some_iff.mpr ⟨closed?_eq_some_iff.mpr rfl, counted⟩
      have noOpening : (opened? bracket.closing).filter counts = none := by
        rw [opened?_closing]
        rfl
      simp only [next, found, noOpening, if_pos]
  | other noOpening noClosing => simp only [next, noOpening, noClosing]

theorem next_eq_some_iff : next counts scan character = some reached ↔
    Step counts scan character reached :=
  ⟨step_of_next, next_of_step⟩

theorem run_cons_iff {rest : List Char} {ends : BracketScan} :
    run counts scan (character :: rest) = some ends ↔
      ∃ reached, Step counts scan character reached ∧ run counts reached rest = some ends := by
  simp only [run, Option.bind_eq_some_iff, next_eq_some_iff]

theorem run_append (scan : BracketScan) (left right : List Char) :
    run counts scan (left ++ right) =
      (run counts scan left).bind fun reached => run counts reached right := by
  induction left generalizing scan with
  | nil => rfl
  | cons character left ih =>
      rw [List.cons_append, run, run, Option.bind_assoc]
      exact Option.bind_congr fun reached _ => ih reached

private theorem Step.above {within opened : List Bracket} {quoting reachedQuoting : Quoting}
    (step : Step counts ⟨within, quoting⟩ character ⟨opened, reachedQuoting⟩)
    (outer : List Bracket) :
    Step counts ⟨within ++ outer, quoting⟩ character ⟨opened ++ outer, reachedQuoting⟩ := by
  cases step with
  | literal character quoted => exact .literal character quoted
  | opens counted => exact .opens counted
  | closes counted => exact .closes counted
  | other noOpening noClosing => exact .other noOpening noClosing

theorem run_above {characters : List Char} {within opened : List Bracket}
    {quoting reachedQuoting : Quoting}
    (read : run counts ⟨within, quoting⟩ characters = some ⟨opened, reachedQuoting⟩)
    (outer : List Bracket) :
    run counts ⟨within ++ outer, quoting⟩ characters = some ⟨opened ++ outer, reachedQuoting⟩ := by
  induction characters generalizing within quoting with
  | nil =>
      obtain ⟨rfl, rfl⟩ := BracketScan.mk.inj (Option.some.inj read)
      rfl
  | cons character rest ih =>
      obtain ⟨⟨between, betweenQuoting⟩, step, later⟩ := run_cons_iff.mp read
      exact run_cons_iff.mpr ⟨_, step.above outer, ih later⟩

theorem Step.skip {within : List Bracket} {bracket : Bracket} (skipped : ¬counts bracket = true) :
    Step counts ⟨within, .outside⟩ bracket.opening ⟨within, .outside⟩ ∧
      Step counts ⟨within, .outside⟩ bracket.closing ⟨within, .outside⟩ := by
  have opening : Step counts ⟨within, .outside⟩ bracket.opening
      ⟨within, Quoting.outside.next bracket.opening⟩ :=
    .other (by simp [opened?_eq_some_iff.mpr rfl, skipped]) (by simp [closed?_opening])
  have closing : Step counts ⟨within, .outside⟩ bracket.closing
      ⟨within, Quoting.outside.next bracket.closing⟩ :=
    .other (by simp [opened?_closing]) (by simp [closed?_eq_some_iff.mpr rfl, skipped])
  cases bracket <;> exact ⟨opening, closing⟩

/-- A scan that counts fewer kinds of brackets goes along. -/
theorem Step.filter {within opened : List Bracket} {quoting reachedQuoting : Quoting}
    (step : Step (fun _ => true) ⟨within, quoting⟩ character ⟨opened, reachedQuoting⟩)
    (counts : Bracket → Bool) :
    Step counts ⟨within.filter counts, quoting⟩ character
      ⟨opened.filter counts, reachedQuoting⟩ := by
  cases step with
  | literal character quoted => exact .literal character quoted
  | @opens _ bracket _ =>
      by_cases counted : counts bracket = true
      · rw [List.filter_cons_of_pos counted]
        exact .opens counted
      · rw [List.filter_cons_of_neg counted]
        exact (Step.skip counted).1
  | @closes _ bracket _ =>
      by_cases counted : counts bracket = true
      · rw [List.filter_cons_of_pos counted]
        exact .closes counted
      · rw [List.filter_cons_of_neg counted]
        exact (Step.skip counted).2
  | other noOpening noClosing =>
      have fewer (found : Option Bracket) (absent : found.filter (fun _ => true) = none) :
          found.filter counts = none := by
        cases found with
        | none => rfl
        | some bracket => contradiction
      exact .other (fewer _ noOpening) (fewer _ noClosing)

theorem run_filter {characters : List Char} {within opened : List Bracket}
    {quoting reachedQuoting : Quoting}
    (read : run (fun _ => true) ⟨within, quoting⟩ characters = some ⟨opened, reachedQuoting⟩)
    (counts : Bracket → Bool) :
    run counts ⟨within.filter counts, quoting⟩ characters =
      some ⟨opened.filter counts, reachedQuoting⟩ := by
  induction characters generalizing within quoting with
  | nil =>
      obtain ⟨rfl, rfl⟩ := BracketScan.mk.inj (Option.some.inj read)
      rfl
  | cons character rest ih =>
      obtain ⟨⟨between, betweenQuoting⟩, step, later⟩ := run_cons_iff.mp read
      exact run_cons_iff.mpr ⟨_, step.filter counts, ih later⟩

/-! ### Plain characters and literals -/

theorem next_plain {within : List Bracket} (noOpening : opened? character = none)
    (noClosing : closed? character = none) (noQuote : character ≠ '"') :
    next counts ⟨within, .outside⟩ character = some ⟨within, .outside⟩ := by
  have step : Step counts ⟨within, .outside⟩ character
      ⟨within, Quoting.outside.next character⟩ :=
    .other (by rw [noOpening]; rfl) (by rw [noClosing]; rfl)
  rw [Quoting.next_outside noQuote] at step
  exact next_eq_some_iff.mpr step

theorem next_nameChar (within : List Bracket) (holdable : isNameChar character = true) :
    next counts ⟨within, .outside⟩ character = some ⟨within, .outside⟩ := by
  refine next_plain ?_ ?_ ?_
  · refine Option.eq_none_iff_forall_ne_some.mpr fun bracket found => ?_
    rw [opened?_eq_some_iff.mp found] at holdable
    cases bracket <;> contradiction
  · refine Option.eq_none_iff_forall_ne_some.mpr fun bracket found => ?_
    rw [closed?_eq_some_iff.mp found] at holdable
    cases bracket <;> contradiction
  · rintro rfl
    contradiction

theorem run_holdable {characters : List Char} (within : List Bracket)
    (holdable : Holdable characters) :
    run counts ⟨within, .outside⟩ characters = some ⟨within, .outside⟩ := by
  induction characters with
  | nil => rfl
  | cons character rest ih =>
      obtain ⟨first, later⟩ := List.forall_mem_cons.mp holdable
      rw [run, next_nameChar within first]
      exact ih later

theorem next_inside {within : List Bracket} (noSlash : character ≠ '\\')
    (noQuote : character ≠ '"') :
    next counts ⟨within, .inside⟩ character = some ⟨within, .inside⟩ := by
  have step : Step counts ⟨within, .inside⟩ character ⟨within, Quoting.inside.next character⟩ :=
    .literal character (by decide)
  rw [Quoting.next_inside noSlash noQuote] at step
  exact next_eq_some_iff.mpr step

theorem run_escapeChar (within : List Bracket) (character : Char) :
    run counts ⟨within, .inside⟩ (escapeChar character) = some ⟨within, .inside⟩ := by
  have digit (value : Nat) : next counts ⟨within, .inside⟩ (upperHexDigit (value % 16)) =
      some ⟨within, .inside⟩ :=
    have plain := upperHexDigit_plain value
    next_inside plain.2.1 plain.1
  unfold escapeChar
  split
  · rfl
  · rfl
  · rfl
  · rfl
  · rfl
  case h_6 noSlash noQuote _ _ _ =>
    split
    · have lead : run counts ⟨within, .inside⟩ ['\\', 'u', '\x7b'] = some ⟨within, .inside⟩ := rfl
      have digits : run counts ⟨within, .inside⟩ (upperHex4 character.toNat) =
          some ⟨within, .inside⟩ := by
        simp only [upperHex4, run, digit, Option.bind_some]
      rw [run_append, run_append, lead, Option.bind_some, digits]
      rfl
    · rw [run, next_inside noSlash noQuote]
      rfl

theorem run_literalChars (within : List Bracket) (characters : List Char) :
    run counts ⟨within, .outside⟩ (literalChars characters) = some ⟨within, .outside⟩ := by
  have content : run counts ⟨within, .inside⟩ (characters.flatMap escapeChar) =
      some ⟨within, .inside⟩ := by
    induction characters with
    | nil => rfl
    | cons character rest ih =>
        rw [List.flatMap_cons, run_append, run_escapeChar, Option.bind_some, ih]
  have opens : run counts ⟨within, .outside⟩ ['"'] = some ⟨within, .inside⟩ := rfl
  rw [literalChars, ← List.singleton_append, run_append, opens, Option.bind_some, run_append,
    content]
  rfl

/-! ### Blanks behind line feeds -/

theorem run_blanks {quoting : Quoting} (settled : quoting ≠ .escaped) (within : List Bracket)
    (blanks : Nat) : run counts ⟨within, quoting⟩ (List.replicate blanks ' ') =
      some ⟨within, quoting⟩ := by
  induction blanks with
  | zero => rfl
  | succ blanks ih =>
      rw [List.replicate_succ, run]
      cases quoting with
      | outside => exact ih
      | inside => exact ih
      | escaped => contradiction

theorem run_feedBlanks (scan : BracketScan) (blanks : Nat) :
    run counts scan ('\n' :: List.replicate blanks ' ') = run counts scan ['\n'] := by
  obtain ⟨within, quoting⟩ := scan
  cases quoting with
  | outside => exact run_blanks (by decide) within blanks
  | inside => exact run_blanks (by decide : Quoting.inside ≠ .escaped) within blanks
  | escaped => exact run_blanks (by decide : Quoting.inside ≠ .escaped) within blanks

theorem run_intercalate {separator other : List Char}
    (same : ∀ scan, run counts scan separator = run counts scan other) (pieces : List (List Char))
    (scan : BracketScan) : run counts scan (List.intercalate separator pieces) =
      run counts scan (List.intercalate other pieces) := by
  induction pieces generalizing scan with
  | nil => rfl
  | cons first rest ih =>
      cases rest with
      | nil => rw [List.intercalate_singleton, List.intercalate_singleton]
      | cons second rest =>
          rw [List.intercalate_cons_cons, List.intercalate_cons_cons, List.append_assoc,
            List.append_assoc, run_append, run_append]
          refine Option.bind_congr fun reached _ => ?_
          rw [run_append, run_append, same]
          exact Option.bind_congr fun behind _ => ih behind

theorem run_further (scan : BracketScan) (text : String) :
    run counts scan (replaceAll "\n" "\n    " text).toList = run counts scan text.toList := by
  have characters : (replaceAll "\n" "\n    " text).toList =
      List.intercalate ('\n' :: List.replicate 4 ' ') (splitChars '\n' text.toList) := by
    rw [replaceAll, String.toList_ofList]
    exact replaceChars_singleton '\n' _ _
  rw [characters, run_intercalate (fun scan => run_feedBlanks scan 4), intercalate_splitChars]

end BracketScan

/-! ### Balanced texts -/

/-- Read between literals, the text leads from one stack of open brackets to another. -/
def Moves (counts : Bracket → Bool) (before behind : List Bracket) (text : String) : Prop :=
  BracketScan.run counts ⟨before.filter counts, .outside⟩ text.toList =
    some ⟨behind.filter counts, .outside⟩

/-- All brackets of the counted kinds are closed in order, and all literals. -/
def Balanced (counts : Bracket → Bool) (text : String) : Prop :=
  Moves counts [] [] text

section Texts

variable {counts : Bracket → Bool} {first second third : List Bracket} {left right text : String}

theorem Moves.append (leftMoves : Moves counts first second left)
    (rightMoves : Moves counts second third right) : Moves counts first third (left ++ right) := by
  rw [Moves, String.toList_append, BracketScan.run_append, leftMoves]
  exact rightMoves

theorem Moves.fixed {characters : List Char}
    (check : BracketScan.run (fun _ => true) ⟨first, .outside⟩ characters =
      some ⟨second, .outside⟩) : Moves counts first second (String.ofList characters) := by
  rw [Moves, String.toList_ofList]
  exact BracketScan.run_filter check counts

theorem Balanced.moves (balanced : Balanced counts text) (within : List Bracket) :
    Moves counts within within text :=
  BracketScan.run_above balanced (within.filter counts)

theorem Moves.plain {characters : List Char} {within : List Bracket}
    (check : BracketScan.run (fun _ => true) ⟨[], .outside⟩ characters = some ⟨[], .outside⟩) :
    Moves counts within within (String.ofList characters) :=
  Balanced.moves (.fixed check) within

namespace Balanced

theorem append (leftBalanced : Balanced counts left) (rightBalanced : Balanced counts right) :
    Balanced counts (left ++ right) :=
  Moves.append leftBalanced rightBalanced

theorem literal (text : String) : Balanced counts (stringLiteral text) := by
  rw [Balanced, Moves, stringLiteral, String.toList_ofList]
  exact BracketScan.run_literalChars _ _

theorem holdable (holdable : Holdable text.toList) : Balanced counts text :=
  BracketScan.run_holdable [] holdable

theorem further (balanced : Balanced counts text) :
    Balanced counts (replaceAll "\n" "\n    " text) :=
  (BracketScan.run_further _ text).trans balanced

theorem group (bracket : Bracket) {lead tail : String}
    (opens : Moves counts [] [bracket] lead) (balanced : Balanced counts text)
    (closes : Moves counts [bracket] [] tail) : Balanced counts (lead ++ text ++ tail) :=
  (opens.append (balanced.moves [bracket])).append closes

theorem atom (balanced : Balanced counts text) : Balanced counts (atom text) := by
  unfold Elm.atom
  split
  · exact balanced
  · exact group .round (.fixed (by decide)) balanced (.fixed (by decide))

theorem join {separator : String} (between : Balanced counts separator) {pieces : List String}
    (each : ∀ piece ∈ pieces, Balanced counts piece) :
    Balanced counts (Text.join separator pieces) := by
  induction pieces with
  | nil => exact .fixed (by decide)
  | cons first rest ih =>
      obtain ⟨firstBalanced, restBalanced⟩ := List.forall_mem_cons.mp each
      cases rest with
      | nil =>
          rw [Text.join, String.intercalate_singleton]
          exact firstBalanced
      | cons second rest =>
          rw [Text.join, String.intercalate_cons_cons]
          exact (firstBalanced.append between).append (ih restBalanced)

theorem flatten {pieces : List String} (each : ∀ piece ∈ pieces, Balanced counts piece) :
    Balanced counts (String.join pieces) := by
  induction pieces with
  | nil => exact .fixed (by decide)
  | cons first rest ih =>
      obtain ⟨firstBalanced, restBalanced⟩ := List.forall_mem_cons.mp each
      rw [String.join_cons]
      exact firstBalanced.append (ih restBalanced)

end Balanced

end Texts

end ElmClient.Elm
