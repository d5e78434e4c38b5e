/-
References are read back as they were written. Escaping and its undoing are two textual
replacements each, and the order of the two decides: tildes are escaped first and come back
last, so no escape of a key is taken for one that the writer added.
-/

import ElmClient.Proofs.Json.Pointer
import ElmClient.Reference

namespace ElmClient

namespace Text

theorem replaceFrom_single (separator : Char) (replacement rest : List Char) :
    replaceFrom [separator] replacement 0 (separator :: rest) =
      replacement ++ replaceFrom [separator] replacement 0 rest := by
  have here : [separator].isPrefixOf (separator :: rest) = true := by simp
  rw [replaceFrom, if_pos here]
  rfl

theorem replaceFrom_single_of_ne {separator character : Char} (different : character ≠ separator)
    (replacement rest : List Char) :
    replaceFrom [separator] replacement 0 (character :: rest) =
      character :: replaceFrom [separator] replacement 0 rest := by
  have notHere : ¬ [separator].isPrefixOf (character :: rest) = true := by simp [different.symm]
  rw [replaceFrom, if_neg notHere]

theorem toList_replaceAll (pattern replacement text : String) :
    (replaceAll pattern replacement text).toList =
      replaceChars pattern.toList replacement.toList text.toList :=
  String.toList_ofList

end Text

namespace Pointer

open Text

/-! ### Escaping as replacement -/

private theorem tildesEscaped_eq (key : List Char) :
    replaceChars ['~'] ['~', '0'] key = tildesEscaped key := by
  rw [replaceChars]
  fun_induction tildesEscaped key with
  | case1 => rfl
  | case2 rest ih => rw [replaceFrom_single, ih]; rfl
  | case3 character rest notTilde ih => rw [replaceFrom_single_of_ne notTilde, ih]

/-- Tildes are escaped first: the slashes that follow bring in tildes of their own. -/
theorem escapeChars_eq_replaced (key : List Char) :
    escapeChars key = replaceChars ['/'] ['~', '1'] (replaceChars ['~'] ['~', '0'] key) := by
  rw [tildesEscaped_eq, replaceChars]
  fun_induction escapeChars key with
  | case1 => rfl
  | case2 rest ih =>
      rw [tildesEscaped, replaceFrom_single_of_ne (by decide), replaceFrom_single_of_ne (by decide),
        ih]
  | case3 rest ih =>
      rw [tildesEscaped, replaceFrom_single, ih]
      · rfl
      · decide
  | case4 character rest notTilde notSlash ih =>
      rw [tildesEscaped, replaceFrom_single_of_ne notSlash, ih]
      exact notTilde

/-- A lead that the second character does not follow stays, whatever else follows it. -/
theorem replaceFrom_lead {lead second : Char} {rest : List Char} (apart : rest.head? ≠ some second)
    (replacement : List Char) :
    replaceFrom [lead, second] replacement 0 (lead :: rest) =
      lead :: replaceFrom [lead, second] replacement 0 rest := by
  have notHere : ¬ [lead, second].isPrefixOf (lead :: rest) = true := by
    cases rest with
    | nil => simp
    | cons follower behind =>
        simp only [List.head?_cons, ne_eq, Option.some.injEq] at apart
        simp [Ne.symm apart]
  rw [replaceFrom, if_neg notHere]

private theorem head?_slashesBack {step : List Char} (apart : step.head? ≠ some '0') :
    (replaceFrom ['~', '1'] ['/'] 0 step).head? ≠ some '0' := by
  cases step with
  | nil => exact apart
  | cons character rest =>
      rw [replaceFrom]
      split
      · simp
      · exact apart

/-- Tildes come back last: one that an escape stood for begins no further escape. -/
theorem unescapeChars_eq_replaced (step : List Char) :
    unescapeChars step = replaceChars ['~', '0'] ['~'] (replaceChars ['~', '1'] ['/'] step) := by
  rw [replaceChars, replaceChars]
  fun_induction unescapeChars step with
  | case1 => rfl
  | case2 rest ih =>
      rw [replaceFrom_other (by decide) (by decide), replaceFrom_pair, ih]
      rfl
  | case3 rest ih =>
      rw [replaceFrom_pair, List.singleton_append, replaceFrom_cons_of_ne (by decide), ih]
  | case4 character rest noZero noOne ih =>
      by_cases tilde : character = '~'
      · subst tilde
        have zero : rest.head? ≠ some '0' := by
          intro begins
          obtain ⟨behind, same⟩ := List.head?_eq_some_iff.mp begins
          exact noZero behind rfl same
        have one : rest.head? ≠ some '1' := by
          intro begins
          obtain ⟨behind, same⟩ := List.head?_eq_some_iff.mp begins
          exact noOne behind rfl same
        rw [replaceFrom_lead one, replaceFrom_lead (head?_slashesBack zero), ih]
      · rw [replaceFrom_cons_of_ne tilde, replaceFrom_cons_of_ne tilde, ih]

theorem escape_eq_replaced (key : String) :
    escape key = replaceAll "/" "~1" (replaceAll "~" "~0" key) := by
  have characters := escapeChars_eq_replaced key.toList
  rw [escape, characters, replaceAll, toList_replaceAll]
  rfl

theorem unescape_eq_replaced (step : String) :
    unescape step = replaceAll "~0" "~" (replaceAll "~1" "/" step) := by
  have characters := unescapeChars_eq_replaced step.toList
  rw [unescape, characters, replaceAll, toList_replaceAll]
  rfl

theorem unescape_eq_decodeToken (step : List Char) :
    String.ofList (unescapeChars step) = decodeToken step := by
  rw [unescapeChars_eq_replaced, decodeToken]

theorem unescape_escape (key : String) : unescape (escape key) = key := by
  rw [unescape, escape, String.toList_ofList, unescape_eq_decodeToken, decodeToken_escapeChars]

end Pointer

/-! ### References -/

namespace Section

theorem text_plain (component : Section) :
    '/' ∉ component.text.toList ∧ Pointer.decodeToken component.text.toList = component.text := by
  cases component <;> decide

theorem ofText?_text (component : Section) : ofText? component.text = some component := by
  cases component <;> rfl

end Section

namespace Reference

open Pointer

theorem steps?_render (reference : Reference) :
    steps? reference.render = some reference.segments := by
  obtain ⟨sectionWhole, sectionPlain⟩ := reference.component.text_plain
  have characters : reference.render.toList =
      ['#', '/'] ++ ("components".toList ++ '/' ::
        (reference.component.text.toList ++ '/' :: escapeChars reference.name.toList)) := by
    simp [render, escape]
  rw [steps?, characters, Text.dropLead?_append, Option.map_some,
    Text.splitChars_append (by decide), Text.splitChars_append sectionWhole,
    Text.splitChars_whole (slash_not_mem_escapeChars _)]
  simp only [List.map_cons, List.map_nil, unescape_eq_decodeToken, sectionPlain,
    decodeToken_escapeChars]
  rfl

theorem parse_render {reference : Reference} (named : reference.name ≠ "") :
    parse reference.render = .ok reference := by
  rw [parse, steps?_render, segments]
  dsimp only
  rw [if_pos ⟨rfl, named⟩, Section.ofText?_text]
  rfl

theorem name_ne_empty_of_parse {text : String} {reference : Reference}
    (parsed : parse text = .ok reference) : reference.name ≠ "" := by
  unfold parse at parsed
  split at parsed
  · contradiction
  · split at parsed
    case isTrue shape =>
      split at parsed
      · cases parsed
        exact shape.2
      · contradiction
    case isFalse => contradiction
  · contradiction

/-- A key is escaped by two replacements and comes back by two others. So a component of any
name is referred to in one way, and every reference that is read can be written in that way. -/
theorem read_as_written :
    (∀ key : String,
      escape key = Text.replaceAll "/" "~1" (Text.replaceAll "~" "~0" key) ∧
        unescape key = Text.replaceAll "~0" "~" (Text.replaceAll "~1" "/" key) ∧
        unescape (escape key) = key) ∧
      (∀ (component : Section) (name : String), name ≠ "" →
        parse ("#/components/" ++ component.text ++ "/" ++ escape name) = .ok ⟨component, name⟩) ∧
      ∀ (text : String) (reference : Reference), parse text = .ok reference →
        parse ("#/components/" ++ reference.component.text ++ "/" ++ escape reference.name) =
          .ok reference := by
  refine ⟨?_, ?_, ?_⟩
  · intro key
    exact ⟨escape_eq_replaced key, unescape_eq_replaced key, unescape_escape key⟩
  · intro component name named
    have read : parse (render ⟨component, name⟩) = .ok ⟨component, name⟩ := parse_render named
    exact read
  · intro text reference parsed
    exact parse_render (name_ne_empty_of_parse parsed)

/-- A name that looks escaped before it is, and a reference whose other steps are escaped. -/
theorem read_as_written_tildes :
    (∀ key : String,
      escape key = Text.replaceAll "/" "~1" (Text.replaceAll "~" "~0" key) ∧
        unescape key = Text.replaceAll "~0" "~" (Text.replaceAll "~1" "/" key) ∧
        unescape (escape key) = key) ∧
      "~01/~" ≠ "" ∧
        parse ("#/components/" ++ Section.responses.text ++ "/" ++ escape "~01/~") =
          .ok ⟨.responses, "~01/~"⟩ ∧
      parse "#/components/schemas/~a~01~1" = .ok ⟨.schemas, "~a~1/"⟩ ∧
        parse ("#/components/" ++ Section.schemas.text ++ "/" ++ escape "~a~1/") =
          .ok ⟨.schemas, "~a~1/"⟩ := by
  have named : "~01/~" ≠ "" := by decide
  have parsed : parse "#/components/schemas/~a~01~1" = .ok ⟨.schemas, "~a~1/"⟩ := by rfl
  exact ⟨read_as_written.1, named, read_as_written.2.1 .responses "~01/~" named, parsed,
    read_as_written.2.2 "#/components/schemas/~a~01~1" ⟨.schemas, "~a~1/"⟩ parsed⟩

end Reference

end ElmClient
