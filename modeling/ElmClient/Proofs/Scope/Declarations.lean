/-
The declarations of an operation as code. The builder sets the parts of the request into a record,
behind the variable of its input; the functions of the profiles bind no more than that variable.
-/

import ElmClient.Proofs.Requests.Reading
import ElmClient.Proofs.Scope.Lines
import ElmClient.Proofs.Scope.Responses
import ElmClient.Proofs.Scope.Signatures

namespace ElmClient.Elm

open Lexer Name Run Text

def Binds (text : String) (bound : List Binder) : Prop :=
  ∃ words, Spells text words ∧ Closed words bound

private theorem binds_nothing {text : String} (spells : Spells text []) : Binds text [] :=
  ⟨[], spells, .nil⟩

/-! ### Records of several lines -/

section Records

variable {entry : String × String} {words : List Word}

private theorem spells_recordLine (name : Spells entry.1 []) (value : Spells entry.2 words) :
    Spells (recordLine "=" entry) words := by
  have line : Spells (entry.1 ++ " " ++ "=" ++ " " ++ replaceAll "\n" "\n    " entry.2) _ :=
    ((name.close []).close []).beside [] value.further
  unfold recordLine
  simpa using line

private theorem spells_lines {lines : List String} {bounds : List (List Binder)}
    (each : List.Forall₂ Binds lines bounds) {first : String} {words : List Word}
    (spells : Spells first words) :
    ∃ later,
      Spells (first ++ "\n" ++ String.join (lines.map fun line => ", " ++ line ++ "\n"))
        (words ++ later) ∧
      ∀ {start : List Word} {bound : List Binder}, Closed start bound →
        Listed (start ++ later) (bound ++ bounds.flatten) := by
  induction each generalizing first words with
  | nil =>
      refine ⟨[], ?_, fun closed => ?_⟩
      · rw [List.map_nil, String.join_nil, String.append_empty]
        exact spells.close []
      · simpa using Listed.last closed
  | @cons line bound lines bounds head _ ih =>
      obtain ⟨more, lineSpells, lineClosed⟩ := head
      have further : Spells (first ++ "\n, " ++ line) (words ++ [.comma] ++ more) :=
        spells.beside [.comma] lineSpells
      obtain ⟨later, whole, listed⟩ := ih further
      refine ⟨.comma :: (more ++ later), ?_, fun closed => ?_⟩
      · have gap (rest : String) : "\n" ++ (", " ++ rest) = "\n, " ++ rest := by
          rw [← String.append_assoc]
          rfl
        rw [List.map_cons, String.join_cons]
        simpa [String.append_assoc, gap] using whole
      · exact .comma closed (listed lineClosed)

private theorem binds_tallRecord {entries : List (String × String)} {bounds : List (List Binder)}
    (each : List.Forall₂ (fun entry bound => Spells entry.1 [] ∧ Binds entry.2 bound)
      entries bounds) (inhabited : entries ≠ []) :
    Binds (tallRecord entries "=") bounds.flatten := by
  have lines : List.Forall₂ Binds (entries.map (recordLine "=")) bounds := by
    refine List.forall₂_map_left_iff.mpr (each.imp ?_)
    rintro entry bound ⟨name, words, spells, closed⟩
    exact ⟨words, spells_recordLine name spells, closed⟩
  unfold tallRecord
  cases entries with
  | nil => exact absurd rfl inhabited
  | cons entry rest =>
      rw [List.map_cons] at lines ⊢
      cases lines with
      | cons head others =>
          obtain ⟨words, spells, closed⟩ := head
          obtain ⟨later, whole, listed⟩ := spells_lines others spells
          have opened : Spells ("\x7b " ++ _) ([.opening] ++ _) := whole.behind [.opening]
          have record : Spells (_ ++ "\x7d") (_ ++ [.closing]) := opened.close [.closing]
          refine ⟨_, ?_, (listed closed).group⟩
          simpa [String.append_assoc] using record

private theorem ends_tallRecord {entries : List (String × String)} {separator : String} :
    (tallRecord entries separator).toList.getLast? = some '\x7d' := by
  unfold tallRecord
  split
  · rfl
  · rw [String.toList_append, List.getLast?_append]
    rfl

end Records

/-! ### Functions of the input -/

def inputVariables (isPlain : Bool) : List String :=
  if isPlain then [] else ["config"]

private theorem bindersOf_body {first name body : String} {pattern : List Char}
    (parameters : List String)
    (firstTidy : Tidy first) (free : NoEquals first) (inhabited : name.toList ≠ [])
    (regular : isRegular name.toList = true) {words : List Word} {bound : List Binder}
    (spells : Spells body words) (closed : Closed words bound)
    (check : definesWith pattern parameters = true := by decide) :
    bindersOf (first ++ "\n" ++ name ++ String.ofList pattern ++ body) =
      parameters.map (fun name => ⟨name, []⟩) ++ bound.map (Binder.within parameters) := by
  rw [bindersOf_definition firstTidy inhabited regular free parameters check, spells.wordsOf,
    Nesting.binders_cons, closed.binders]
  change _ ++ bound.map (Binder.within (parameters ++ [])) = _
  rw [List.append_nil]
  rfl

private theorem bindersOf_function {name input output body : String} (isPlain : Bool)
    (inhabited : name.toList ≠ []) (holdable : Holdable name.toList)
    (inputTidy : Tidy input) (inputFree : NoEquals input) (outputTidy : Tidy output)
    (outputFree : NoEquals output) {words : List Word} {bound : List Binder}
    (spells : Spells body words) (closed : Closed words bound) :
    bindersOf (Request.functionSource name input output body isPlain) =
      (inputVariables isPlain).map (fun name => ⟨name, []⟩)
        ++ bound.map (Binder.within (inputVariables isPlain)) := by
  have regular : isRegular name.toList = true := Segment.isSome_run holdable nofun
  have nameTidy := tidy_word holdable
  have nameFree : NoEquals name := .holdable holdable
  cases isPlain with
  | true =>
      exact bindersOf_body [] (nameTidy.gap.code outputTidy)
        (nameFree.beside outputFree (by decide)) inhabited
        regular spells closed
  | false =>
      exact bindersOf_body ["config"] (tidy_signature nameTidy inputTidy outputTidy)
        (noEquals_signature nameFree inputFree outputFree) inhabited regular spells closed

/-! ### Variables -/

/-- Variables in the parts of a request. -/
def IsPartVariable (name : String) : Prop :=
  name ∈ urlVariables ∨ IsBodyVariable name ∨ ∃ index : Nat, name = "v" ++ toString index

/-- The variable of the input, those in the parts of a request, and those of helpers. -/
def IsRequestVariable (name : String) : Prop :=
  name = "config" ∨ IsPartVariable name ∨ name ∈ ["value", "inner", "flag"]

private theorem IsPartVariable.ne_config {name : String} (isPart : IsPartVariable name) :
    name ≠ "config" := by
  rintro rfl
  rcases isPart with url | (payload | isNumbered) | ⟨index, indexed⟩
  · exact absurd url (by decide)
  · exact absurd payload (by decide)
  · exact ne_of_numbered isNumbered (by decide) (by decide) rfl
  · have digit := ends_digit "v" index
    rw [← indexed] at digit
    exact absurd digit (by decide)

private theorem shades_input {hidden : Prop} {bound : List Binder}
    (shades : Shades IsPartVariable hidden bound) (isPlain : Bool) :
    Shades IsRequestVariable hidden ((inputVariables isPlain).map (fun name => ⟨name, []⟩)
      ++ bound.map (Binder.within (inputVariables isPlain))) := by
  have part {name : String} (isPart : IsPartVariable name) : IsRequestVariable name :=
    Or.inr (Or.inl isPart)
  cases isPlain with
  | true =>
      have same : bound.map (Binder.within []) = bound :=
        List.map_id'' (fun binder => by rw [Binder.within, List.append_nil]) bound
      simp only [inputVariables, if_true, List.map_nil, List.nil_append, same]
      exact shades.imp fun _ => part
  | false =>
      refine (shades.function fun _ => IsPartVariable.ne_config).imp fun name named => ?_
      exact named.imp_right Or.inl

/-! ### Builders and functions -/

namespace Request

/-- What is known of the parts of a request that sends these fields. -/
structure Parts (request : Request) (hidden : Prop) : Prop where
  tidy : request.IsTidy
  inputs : NoEqualsEntries request.inputs
  success : NoEquals request.responses.success
  error : NoEquals request.responses.error
  binders : ∃ url headers body expect, Binds request.url url ∧ Binds request.headers headers ∧
    Binds request.body body ∧ Binds request.responses.expect expect ∧
    Shades IsPartVariable hidden (url ++ headers ++ body ++ expect)

namespace Parts

variable {request : Request} {hidden : Prop} (parts : request.Parts hidden)

include parts

private theorem binds_wireRecord :
    ∃ bound, Binds (indent request.wireRecord 1) bound ∧ Shades IsPartVariable hidden bound := by
  obtain ⟨url, headers, body, expect, inUrl, inHeaders, inBody, expected, shades⟩ := parts.binders
  have method := binds_nothing (spells_stringLiteral request.endpoint.method.verb)
  have nothing : Binds "Nothing" [] := binds_nothing .fixed
  have entries : List.Forall₂
      (fun (entry : String × String) bound => Spells entry.1 [] ∧ Binds entry.2 bound)
      [("method", stringLiteral request.endpoint.method.verb), ("url", request.url),
        ("headers", request.headers), ("body", request.body),
        ("expect", request.responses.expect), ("timeout", "Nothing"), ("tracker", "Nothing")]
      [[], url, headers, body, expect, [], []] :=
    .cons ⟨.fixed, method⟩ (.cons ⟨.fixed, inUrl⟩ (.cons ⟨.fixed, inHeaders⟩
      (.cons ⟨.fixed, inBody⟩ (.cons ⟨.fixed, expected⟩ (.cons ⟨.fixed, nothing⟩
        (.cons ⟨.fixed, nothing⟩ .nil))))))
  obtain ⟨words, spells, closed⟩ := binds_tallRecord entries (List.cons_ne_nil _ _)
  have whole : Spells request.wireRecord words := spells
  have ends : request.wireRecord.toList.getLast? = some '\x7d' := ends_tallRecord
  refine ⟨_, ⟨words, whole.indent ?_ ?_, closed⟩, ?_⟩
  · intro empty
    rw [empty] at ends
    contradiction
  · rw [ends]
    decide
  · simpa [List.append_assoc] using shades

theorem outcomes : NoEquals request.outcomes :=
  parts.error.atom.beside parts.success.atom (by decide)

theorem failure : NoEquals request.failure := by
  have name : NoEquals ("(" ++ common "Error") :=
    NoEquals.behind (noEquals_common (by decide)) (by decide)
  exact (name.beside parts.error.atom (by decide)).close (by decide)

theorem resultType (profile : EffectProfile) : NoEquals (request.resultType profile) := by
  have success := parts.success.atom
  unfold Request.resultType
  split
  · exact .fixed (by decide)
  · exact (parts.failure.behind (by decide)).beside success (by decide)
  · exact NoEquals.beside (noEquals_common (by decide)) parts.outcomes (by decide)
  · exact .fixed (by decide)
  · exact (parts.failure.behind (by decide)).beside success (by decide)
  · exact NoEquals.beside (noEquals_common (by decide)) parts.outcomes (by decide)

theorem functionInputs (profile : EffectProfile) :
    NoEqualsEntries (request.functionInputs profile) := by
  refine List.forall_mem_append.mpr ⟨parts.inputs, ?_⟩
  split
  · refine List.forall_mem_singleton.mpr ⟨.fixed (by decide), ?_⟩
    exact ((parts.failure.behind (by decide)).beside parts.success.atom (by decide)).close
      (by decide)
  · exact fun _ member => absurd member List.not_mem_nil

theorem shades_wire :
    Shades IsRequestVariable hidden (bindersOf request.wireDeclaration.source) := by
  obtain ⟨bound, ⟨words, spells, closed⟩, shades⟩ := parts.binds_wireRecord
  have inhabited : (wireName request.endpoint).toList ≠ [] := by
    rw [wireName, String.toList_append]
    exact List.append_ne_nil_of_right_ne_nil _ (by decide)
  have name : Holdable (wireName request.endpoint).toList :=
    holdable_valueName parts.tidy.proper (holdable_of_all (by decide))
  have output : Tidy (common "Wire" ++ " " ++ request.outcomes) :=
    (Tidy.gap tidy_common).code parts.tidy.outcomes
  have outputFree : NoEquals (common "Wire" ++ " " ++ request.outcomes) :=
    NoEquals.beside (noEquals_common (by decide)) parts.outcomes (by decide)
  have binders := bindersOf_function request.inputs.isEmpty inhabited name
    (tidy_extensibleRecord parts.tidy.inputs) (noEquals_extensibleRecord parts.inputs) output
    outputFree spells closed
  have source : request.wireDeclaration.source = functionSource (wireName request.endpoint)
      (extensibleRecord request.inputs) (common "Wire" ++ " " ++ request.outcomes)
      (indent request.wireRecord 1) request.inputs.isEmpty := rfl
  rw [source, binders]
  exact shades_input shades _

theorem shades_function (profile : EffectProfile) :
    Shades IsRequestVariable False (bindersOf (request.functionDeclaration profile).source) := by
  have proper := parts.tidy.proper
  obtain ⟨words, spells, closed, -⟩ := spells_functionBody proper profile
  have inhabited : (functionName request.endpoint profile).toList ≠ [] := by
    obtain ⟨first, rest, begins, -⟩ := TypeName.toValueName_head proper
    rw [functionName, String.toList_append, begins]
    exact List.cons_ne_nil _ _
  have inputs : TidyEntries (request.functionInputs profile) := by
    refine List.forall_mem_append.mpr ⟨parts.tidy.inputs, ?_⟩
    split
    · refine List.forall_mem_singleton.mpr ⟨.fixed, ?_⟩
      exact ((Lead.code .fixed parts.tidy.failure).gap.code
        (tidy_atom parts.tidy.responses.success)).close
    · exact fun _ member => absurd member List.not_mem_nil
  have input : Tidy (record (request.functionInputs profile) ":") := tidy_record .fixed inputs
  have binders := bindersOf_function (request.functionInputs profile).isEmpty inhabited
    (holdable_valueName proper (holdable_functionSuffix profile)) input
    (noEquals_record (parts.functionInputs profile)) (parts.tidy.resultType profile)
    (parts.resultType profile) spells closed
  have source : (request.functionDeclaration profile).source =
      functionSource (functionName request.endpoint profile)
        (record (request.functionInputs profile) ":") (request.resultType profile)
        (request.functionBody profile) (request.functionInputs profile).isEmpty := rfl
  rw [source, binders]
  exact shades_input .none _

end Parts

end Request

end ElmClient.Elm
