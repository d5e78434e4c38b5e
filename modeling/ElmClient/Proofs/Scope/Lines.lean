/-
Code on several lines. A line feed and the blanks behind it say nothing to a reader that has begun
no arrow, so code has the same words when its lines are indented.
-/

import ElmClient.Proofs.Lexing.Words

namespace ElmClient.Elm

open Lexer Text

/-! ### Blanks -/

/-- No arrow is begun. -/
def Lexer.Reader.Steady : Reader → Prop
  | code _ dashed => dashed = false
  | pattern _ dashed => dashed = false

theorem Lexer.Reader.run_pad {reader : Reader} (steady : reader.Steady) :
    reader.run (tokens "    ".toList) = ([], reader) := by
  cases reader with
  | code line dashed =>
      obtain rfl : dashed = false := steady
      rfl
  | pattern names dashed =>
      obtain rfl : dashed = false := steady
      rfl

/-- Behind a line feed every reader is steady, and blanks do not matter. -/
theorem Lexer.Reader.run_feed (reader : Reader) :
    ∃ reached : Reader, reached.Steady ∧
      reader.run (tokens "\n".toList) = ([], reached) ∧
      reader.run (tokens "\n    ".toList) = ([], reached) := by
  cases reader with
  | code line dashed =>
      refine ⟨.code [] false, rfl, ?_⟩
      cases dashed <;> exact ⟨rfl, rfl⟩
  | pattern names dashed =>
      refine ⟨.pattern names false, rfl, ?_⟩
      cases dashed <;> exact ⟨rfl, rfl⟩

theorem Lexer.Reader.run_indented {reader : Reader} (steady : reader.Steady) (line : String) :
    reader.run (tokens ("    " ++ line).toList) = reader.run (tokens line.toList) := by
  have pad : Lead "    " := .fixed
  rw [pad.tokens, run_append, run_pad steady]
  rfl

/-! ### Lines -/

theorem Gap.tokens {separator text : String} (gap : Gap separator) (tidy : Tidy text)
    (later : String) :
    Lexer.tokens (text ++ separator ++ later).toList =
      Lexer.tokens text.toList ++ Lexer.tokens separator.toList ++ Lexer.tokens later.toList := by
  rw [(gap.after tidy).tokens, gap.tail.tokens tidy]

theorem join_cons_cons (separator first second : String) (rest : List String) :
    join separator (first :: second :: rest) =
      first ++ separator ++ join separator (second :: rest) :=
  String.intercalate_cons_cons

theorem Lexer.Reader.run_joined {pieces : List String} (tidy : ∀ piece ∈ pieces, Tidy piece)
    (reader : Reader) :
    reader.run (tokens (join "\n    " pieces).toList) =
      reader.run (tokens (join "\n" pieces).toList) := by
  have feed : Gap "\n" := .fixed
  have padded : Gap "\n    " := .fixed
  induction pieces generalizing reader with
  | nil => rfl
  | cons first rest ih =>
      obtain ⟨firstTidy, restTidy⟩ := List.forall_mem_cons.mp tidy
      cases rest with
      | nil => rfl
      | cons second rest =>
          obtain ⟨reached, -, plain, blanks⟩ := run_feed (reader.run (tokens first.toList)).2
          rw [join_cons_cons, join_cons_cons, feed.tokens firstTidy, padded.tokens firstTidy]
          simp only [run_append, plain, blanks, ih restTidy reached]

def indented (line : String) : String :=
  if line.isEmpty then "" else "    " ++ line

private theorem tidy_indentedLine {line : String} (tidy : Tidy line) : Tidy (indented line) := by
  have pad : Lead "    " := .fixed
  unfold indented
  split
  · exact .fixed
  · exact pad.code tidy

theorem Lexer.Reader.run_indentedLine {reader : Reader} (steady : reader.Steady) (line : String) :
    reader.run (tokens (indented line).toList) = reader.run (tokens line.toList) := by
  unfold indented
  split
  case isTrue empty => rw [String.isEmpty_iff.mp empty]
  case isFalse => exact run_indented steady line

theorem Lexer.Reader.run_indentedLines {pieces : List String} (tidy : ∀ piece ∈ pieces, Tidy piece)
    {reader : Reader} (steady : reader.Steady) :
    reader.run (tokens (join "\n" (pieces.map indented)).toList) =
      reader.run (tokens (join "\n" pieces).toList) := by
  have feed : Gap "\n" := .fixed
  induction pieces generalizing reader with
  | nil => rfl
  | cons first rest ih =>
      obtain ⟨firstTidy, restTidy⟩ := List.forall_mem_cons.mp tidy
      cases rest with
      | nil => exact run_indentedLine steady first
      | cons second rest =>
          obtain ⟨reached, behind, plain, -⟩ := run_feed (reader.run (tokens first.toList)).2
          have later := ih restTidy behind
          rw [List.map_cons] at later
          rw [List.map_cons, List.map_cons, join_cons_cons, join_cons_cons,
            feed.tokens firstTidy, feed.tokens (tidy_indentedLine firstTidy)]
          simp only [run_append, run_indentedLine steady, plain, later]

/-! ### Texts of several lines -/

theorem join_splitFeeds (text : String) :
    join "\n" ((splitChars '\n' text.toList).map String.ofList) = text := by
  have undone : (splitChars '\n' text.toList).map (String.toList ∘ String.ofList) =
      splitChars '\n' text.toList :=
    List.map_id'' (fun _ => String.toList_ofList) _
  refine String.toList_inj.mp ?_
  rw [join, String.toList_intercalate, List.map_map, undone]
  exact intercalate_splitChars '\n' text.toList

private theorem tidy_splitFeeds {text : String} (tidy : Tidy text) :
    ∀ piece ∈ (splitChars '\n' text.toList).map String.ofList, Tidy piece := by
  intro piece listed
  obtain ⟨characters, member, rfl⟩ := List.mem_map.mp listed
  exact Tidy.fixed (tidy_pieces tidy characters member)

private theorem getLast_splitFeeds {characters : List Char} (inhabited : characters ≠ [])
    (last : (splitChars '\n' characters).getLast? = some []) :
    characters.getLast? = some '\n' := by
  induction characters with
  | nil => exact absurd rfl inhabited
  | cons character rest ih =>
      rw [splitChars] at last
      by_cases none : rest = []
      · subst none
        by_cases feed : character = '\n'
        · rw [feed]
          rfl
        · simp [feed, splitChars] at last
      · have later : (splitChars '\n' rest).getLast? = some [] := by
          obtain ⟨piece, pieces, split⟩ :=
            List.exists_cons_of_ne_nil (splitChars_ne_nil '\n' rest)
          rw [split] at last ⊢
          by_cases feed : character = '\n'
          · simpa [feed] using last
          · cases pieces with
            | nil => simp [feed] at last
            | cons second pieces => simpa [feed] using last
        rw [List.getLast?_cons, ih none later]
        rfl

theorem linesOf_pieces {pieces : List (List Char)} (tidy : ∀ piece ∈ pieces, isTidy piece = true)
    (last : pieces.getLast? ≠ some []) : linesOf pieces = pieces := by
  induction pieces with
  | nil => rfl
  | cons first rest ih =>
      obtain ⟨firstTidy, restTidy⟩ := List.forall_mem_cons.mp tidy
      cases rest with
      | nil =>
          have inhabited : first ≠ [] := fun empty => last (by rw [empty]; rfl)
          rw [linesOf, if_neg (by simpa using inhabited)]
      | cons second rest =>
          rw [linesOf, dropReturn_of_isTidy firstTidy, ih restTidy (by simpa using last)]
          exact List.cons_ne_nil second rest

variable {text : String} {words : List Word}

/-- A value in a record keeps its words when its lines are indented. -/
theorem Lexer.Spells.further (spells : Spells text words) :
    Spells (replaceAll "\n" "\n    " text) words := by
  refine ⟨tidy_replaceFeeds spells.tidy .fixed, fun line => ?_⟩
  obtain ⟨later, reads⟩ := spells.reads line
  refine ⟨later, ?_⟩
  rw [replaceFeeds_eq, Reader.run_joined (tidy_splitFeeds spells.tidy), join_splitFeeds, reads]

theorem Lexer.Spells.indent (spells : Spells text words) (inhabited : text.toList ≠ [])
    (ends : text.toList.getLast? ≠ some '\n') : Spells (indent text 1) words := by
  refine ⟨tidy_indent spells.tidy 1, fun line => ?_⟩
  obtain ⟨later, reads⟩ := spells.reads line
  have pieces : lines text = (splitChars '\n' text.toList).map String.ofList := by
    rw [lines, linesOf_pieces (tidy_pieces spells.tidy)]
    exact fun last => ends (getLast_splitFeeds inhabited last)
  have same : Elm.indent text 1 = join "\n" ((lines text).map indented) := rfl
  have steady : (Reader.code line false).Steady := rfl
  refine ⟨later, ?_⟩
  rw [same, pieces, Reader.run_indentedLines (tidy_splitFeeds spells.tidy) steady,
    join_splitFeeds, reads]

end ElmClient.Elm
