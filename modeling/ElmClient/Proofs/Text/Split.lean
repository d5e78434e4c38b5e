/-
Cutting texts, at a lead or at a separator. Every character is the separator or in a piece, no piece
holds the separator, and pieces that hold none are what their joined text is cut into.
-/

import ElmClient.Text.Edit
import Mathlib.Data.List.Basic

namespace ElmClient.Text

/-! ### Leads -/

theorem dropLead?_append (lead rest : List Char) :
    dropLead? lead (lead ++ rest) = some rest := by
  induction lead with
  | nil => rfl
  | cons head tail ih => rw [List.cons_append, dropLead?, if_pos rfl, ih]

theorem dropLead?_eq_some_iff {lead characters rest : List Char} :
    dropLead? lead characters = some rest ↔ characters = lead ++ rest := by
  constructor
  · intro dropped
    induction lead generalizing characters with
    | nil => exact Option.some.inj dropped
    | cons expected lead ih =>
        cases characters with
        | nil => contradiction
        | cons character characters =>
            rw [dropLead?] at dropped
            split at dropped
            case isTrue same => rw [same, List.cons_append, ih dropped]
            case isFalse => contradiction
  · rintro rfl
    exact dropLead?_append lead rest

/-! ### Separators -/

theorem mem_splitChars {separator character : Char} {characters : List Char}
    (member : character ∈ characters) :
    character = separator ∨ ∃ piece ∈ splitChars separator characters, character ∈ piece := by
  induction characters with
  | nil => exact absurd member List.not_mem_nil
  | cons head rest ih =>
      rw [splitChars]
      split
      case isTrue same =>
        rcases List.mem_cons.mp member with rfl | later
        · exact Or.inl same
        · refine (ih later).imp_right ?_
          rintro ⟨piece, listed, inPiece⟩
          exact ⟨piece, List.mem_cons_of_mem _ listed, inPiece⟩
      case isFalse =>
        cases pieces : splitChars separator rest with
        | nil => exact absurd pieces (splitChars_ne_nil _ _)
        | cons first others =>
            rw [pieces] at ih
            rcases List.mem_cons.mp member with rfl | later
            · exact Or.inr ⟨_, List.mem_cons_self, List.mem_cons_self⟩
            · refine (ih later).imp_right ?_
              rintro ⟨piece, listed, inPiece⟩
              rcases List.mem_cons.mp listed with rfl | further
              · exact ⟨_, List.mem_cons_self, List.mem_cons_of_mem _ inPiece⟩
              · exact ⟨piece, List.mem_cons_of_mem _ further, inPiece⟩

theorem not_mem_of_mem_splitChars {separator : Char} {characters piece : List Char}
    (listed : piece ∈ splitChars separator characters) : separator ∉ piece := by
  induction characters generalizing piece with
  | nil =>
      rw [List.mem_singleton.mp listed]
      exact List.not_mem_nil
  | cons character rest ih =>
      rw [splitChars] at listed
      split at listed
      · rcases List.mem_cons.mp listed with rfl | later
        · exact List.not_mem_nil
        · exact ih later
      case isFalse different =>
        cases pieces : splitChars separator rest with
        | nil => exact absurd pieces (splitChars_ne_nil _ _)
        | cons first others =>
            rw [pieces] at listed ih
            rcases List.mem_cons.mp listed with rfl | later
            · exact List.not_mem_cons_of_ne_of_not_mem (Ne.symm different) (ih List.mem_cons_self)
            · exact ih (List.mem_cons_of_mem _ later)

theorem splitChars_append {separator : Char} {piece : List Char} (whole : separator ∉ piece)
    (rest : List Char) :
    splitChars separator (piece ++ separator :: rest) = piece :: splitChars separator rest := by
  induction piece with
  | nil => exact if_pos rfl
  | cons character piece ih =>
      obtain ⟨different, shorter⟩ := List.ne_and_not_mem_of_not_mem_cons whole
      rw [List.cons_append, splitChars, if_neg different.symm, ih shorter]

theorem splitChars_whole {separator : Char} {piece : List Char} (whole : separator ∉ piece) :
    splitChars separator piece = [piece] := by
  induction piece with
  | nil => rfl
  | cons character piece ih =>
      obtain ⟨different, shorter⟩ := List.ne_and_not_mem_of_not_mem_cons whole
      rw [splitChars, if_neg different.symm, ih shorter]

theorem splitChars_append_of_not_mem {separator : Char} {left right piece : List Char}
    {pieces : List (List Char)} (whole : separator ∉ left)
    (split : splitChars separator right = piece :: pieces) :
    splitChars separator (left ++ right) = (left ++ piece) :: pieces := by
  induction left with
  | nil => exact split
  | cons character left ih =>
      obtain ⟨different, shorter⟩ := List.ne_and_not_mem_of_not_mem_cons whole
      rw [List.cons_append, splitChars, if_neg different.symm, ih shorter]
      rfl

theorem prefix_of_splitChars {separator : Char} {characters piece : List Char}
    {pieces : List (List Char)} (split : splitChars separator characters = piece :: pieces) :
    piece <+: characters := by
  have whole := intercalate_splitChars separator characters
  rw [split] at whole
  cases pieces with
  | nil =>
      rw [List.intercalate_singleton] at whole
      exact ⟨[], by rw [List.append_nil, whole]⟩
  | cons second pieces =>
      rw [List.intercalate_cons_cons, List.append_assoc] at whole
      exact ⟨_, whole⟩

theorem splitChars_intercalate {separator : Char} {pieces : List (List Char)}
    (whole : ∀ piece ∈ pieces, separator ∉ piece) (inhabited : pieces ≠ []) :
    splitChars separator (List.intercalate [separator] pieces) = pieces := by
  induction pieces with
  | nil => exact absurd rfl inhabited
  | cons first rest ih =>
      obtain ⟨firstWhole, restWhole⟩ := List.forall_mem_cons.mp whole
      cases rest with
      | nil =>
          rw [List.intercalate_singleton]
          exact splitChars_whole firstWhole
      | cons second others =>
          rw [List.intercalate_cons_cons, List.append_assoc, List.singleton_append,
            splitChars_append firstWhole, ih restWhole (List.cons_ne_nil _ _)]

theorem replaceChars_singleton (separator : Char) (replacement characters : List Char) :
    replaceChars [separator] replacement characters =
      List.intercalate replacement (splitChars separator characters) := by
  induction characters with
  | nil => rfl
  | cons character rest ih =>
      obtain ⟨piece, pieces, split⟩ :=
        List.exists_cons_of_ne_nil (splitChars_ne_nil separator rest)
      rw [split] at ih
      rw [replaceChars, replaceFrom, splitChars]
      by_cases same : character = separator
      · have found : [separator].isPrefixOf (character :: rest) = true := by simp [same]
        rw [if_pos found, if_pos same, split, List.intercalate_cons_cons, List.nil_append, ← ih]
        rfl
      · have notFound : ¬ [separator].isPrefixOf (character :: rest) = true := by
          simp [Ne.symm same]
        rw [if_neg notFound, if_neg same, split]
        dsimp only
        cases pieces with
        | nil =>
            rw [List.intercalate_singleton] at ih ⊢
            rw [← ih]
            rfl
        | cons second pieces =>
            rw [List.intercalate_cons_cons] at ih ⊢
            rw [List.cons_append, List.cons_append, ← ih]
            rfl

end ElmClient.Text
