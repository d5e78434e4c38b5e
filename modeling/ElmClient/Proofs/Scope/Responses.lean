/-
What a request expects, as code. Decoders of records are functions of numbered variables that stand
beside one another; inside of them nothing is bound.
-/

import ElmClient.Elm.Responses
import ElmClient.Proofs.Scope.Code
import ElmClient.Proofs.Tidy.Responses

namespace ElmClient.Elm

open Lexer Name Run Text

/-! ### Shown binders -/

/-- Code that closes its brackets, with binders as described. -/
structure Shows (text : String) (described : Binder → Prop) : Prop where
  parts : ∃ words bound, Spells text words ∧ Closed words bound ∧
    ∀ binder ∈ bound, described binder

namespace Shows

variable {text right : String} {described : Binder → Prop} {characters : List Char}

theorem plain (spells : Spells text []) : Shows text described :=
  ⟨[], [], spells, .nil, nofun⟩

theorem ofSpells {words : List Word} {bound : List Binder} (spells : Spells text words)
    (closed : Closed words bound) (all : ∀ binder ∈ bound, described binder) :
    Shows text described :=
  ⟨words, bound, spells, closed, all⟩

theorem behind (shows? : Shows text described)
    (check : (isLead characters && spellsTo characters []) = true := by decide) :
    Shows (String.ofList characters ++ text) described := by
  obtain ⟨words, bound, spells, closed, all⟩ := shows?.parts
  exact ⟨words, bound, spells.behind [] check, closed, all⟩

theorem close (shows? : Shows text described)
    (check : (isTail characters && spellsTo characters []) = true := by decide) :
    Shows (text ++ String.ofList characters) described := by
  obtain ⟨words, bound, spells, closed, all⟩ := shows?.parts
  have whole := spells.close [] check
  rw [List.append_nil] at whole
  exact ⟨words, bound, whole, closed, all⟩

theorem beside (shows? : Shows text described) (others : Shows right described)
    (check : (isTail characters && isLead characters && spellsTo characters []) = true := by
      decide) :
    Shows (text ++ String.ofList characters ++ right) described := by
  obtain ⟨words, bound, spells, closed, all⟩ := shows?.parts
  obtain ⟨more, further, rightSpells, rightClosed, rightAll⟩ := others.parts
  have whole := spells.beside [] rightSpells check
  rw [List.append_nil] at whole
  exact ⟨_, _, whole, closed.append rightClosed, List.forall_mem_append.mpr ⟨all, rightAll⟩⟩

theorem group {lead tail : List Char} (shows? : Shows text described)
    (opens : (isLead lead && spellsTo lead [.opening]) = true := by decide)
    (closes : (isTail tail && spellsTo tail [.closing]) = true := by decide) :
    Shows (String.ofList lead ++ text ++ String.ofList tail) described := by
  obtain ⟨words, bound, spells, closed, all⟩ := shows?.parts
  exact ⟨_, bound, (spells.behind [.opening] opens).close [.closing] closes, closed.group, all⟩

theorem atom (shows? : Shows text described) : Shows (atom text) described := by
  unfold Elm.atom
  split
  · exact shows?
  · exact shows?.group (by decide) (by decide)

theorem join {separator : List Char} {pieces : List String}
    (each : ∀ piece ∈ pieces, Shows piece described)
    (check : (isTail separator && isLead separator && spellsTo separator []) = true := by decide) :
    Shows (Text.join (String.ofList separator) pieces) described := by
  induction pieces with
  | nil => exact plain (.fixed (by decide))
  | cons first rest ih =>
      obtain ⟨firstShows, restShow⟩ := List.forall_mem_cons.mp each
      cases rest with
      | nil =>
          rw [Text.join, String.intercalate_singleton]
          exact firstShows
      | cons second rest =>
          rw [Text.join, String.intercalate_cons_cons]
          exact firstShows.beside (ih restShow) check

theorem listed {pieces : List String} (each : ∀ piece ∈ pieces, Shows piece described) :
    ∃ words bound, Spells (Text.join ", " pieces) words ∧ Listed words bound ∧
      ∀ binder ∈ bound, described binder := by
  induction pieces with
  | nil => exact ⟨[], [], .fixed (by decide), .last .nil, nofun⟩
  | cons first rest ih =>
      obtain ⟨firstShows, restShow⟩ := List.forall_mem_cons.mp each
      obtain ⟨words, bound, spells, closed, all⟩ := firstShows.parts
      cases rest with
      | nil =>
          refine ⟨words, bound, ?_, .last closed, all⟩
          rwa [Text.join, String.intercalate_singleton]
      | cons second rest =>
          obtain ⟨more, further, others, list, othersAll⟩ := ih restShow
          refine ⟨words ++ [.comma] ++ more, bound ++ further, ?_, ?_,
            List.forall_mem_append.mpr ⟨all, othersAll⟩⟩
          · rw [Text.join, String.intercalate_cons_cons]
            exact spells.beside [.comma] others (by decide)
          · rw [List.append_assoc]
            exact .comma closed list

theorem list {pieces : List String} (each : ∀ piece ∈ pieces, Shows piece described) :
    Shows (Elm.list pieces) described := by
  unfold Elm.list
  split
  · exact ofSpells (.fixed (by decide) : Spells _ [.opening, .closing]) (.group .nil) nofun
  · obtain ⟨words, bound, spells, inside, all⟩ := listed each
    exact ofSpells ((spells.behind [.opening] (by decide)).close [.closing] (by decide))
      inside.group all

end Shows

/-! ### Decoders -/

/-- A variable for the field of a record, bound where no other one is. -/
def Indexed (binder : Binder) : Prop :=
  ¬ binder.Hides ∧ ∃ index : Nat, binder.name = "v" ++ toString index

private theorem isVariable_index (index : Nat) : IsVariable ("v" ++ toString index) where
  holdable := (small_index index).holdable
  begins := ⟨'v', by rw [String.toList_append]; rfl, by decide⟩

/-- A name may be that of the input, but it binds nothing. -/
theorem closed_ofName (name : List Char) : Closed (Word.ofName name) [] := by
  unfold Word.ofName
  split
  · exact .read _
  · exact .nil

private theorem shows_name {name : String} (small : Small name.toList) {described : Binder → Prop} :
    Shows name described :=
  .ofSpells (spells_name (Segment.isSome_run small.holdable nofun)) (closed_ofName _) nofun

theorem recordConstructor_shows {names : List String}
    (small : ∀ name ∈ names, Small name.toList) : Shows (recordConstructor names) Indexed := by
  have numbered : ∀ binder ∈ (List.range names.length).map fun index => "v" ++ toString index,
      ∃ index : Nat, binder = "v" ++ toString index := by
    intro binder listed
    obtain ⟨index, -, rfl⟩ := List.mem_map.mp listed
    exact ⟨index, rfl⟩
  unfold recordConstructor
  generalize (List.range names.length).map (fun index => "v" ++ toString index)
    = binders at numbered
  have bindable : ∀ binder ∈ binders, IsVariable binder := by
    intro binder listed
    obtain ⟨index, rfl⟩ := numbered binder listed
    exact isVariable_index index
  have assignments : ∀ text ∈ (names.zip binders).map fun pair => pair.1 ++ " = " ++ pair.2,
      Shows text fun _ => False := by
    intro text listed
    obtain ⟨pair, member, rfl⟩ := List.mem_map.mp listed
    obtain ⟨inNames, inBinders⟩ := List.of_mem_zip member
    obtain ⟨index, same⟩ := numbered pair.2 inBinders
    rw [same]
    exact (shows_name (small pair.1 inNames)).beside (shows_name (small_index index))
  obtain ⟨words, bound, spells, inside, none⟩ := Shows.listed assignments
  obtain rfl : bound = [] := List.eq_nil_iff_forall_not_mem.mpr none
  obtain ⟨leads, opens⟩ := @spells_pattern "(\\".toList " -> \x7b ".toList [.opening] [.opening]
    binders bindable (by decide) (by decide)
  have closed : Closed ([.opening] ++ [.lambda binders, .opening] ++ words ++ [.closing, .closing])
      (binders.map fun name => ⟨name, []⟩) := by
    simpa using inside.group.function binders
  refine .ofSpells ((leads.spells opens spells).close [.closing, .closing]) closed ?_
  exact List.forall_mem_map.mpr fun name listed => ⟨List.not_mem_nil, numbered name listed⟩

theorem decodingStep_shows (field : Field) {decoder : String} (shows? : Shows decoder Indexed) :
    Shows (decodingStep field decoder) Indexed := by
  have reader : Spells (if field.required then "Json.Decode.field"
      else common "decodeOptionalField") [] := by
    split
    · exact .fixed
    · exact spells_common
  have step : Spells (common "jsonDecodeAndMap") [] := spells_common
  obtain ⟨words, bound, spells, closed, all⟩ := shows?.atom.parts
  refine .ofSpells (((((step.behind []).beside [.opening] reader).beside []
    (spells_stringLiteral field.key)).beside [] spells).close [.closing]) ?_ all
  simpa using closed.group

theorem decodingPipeline_shows (fields : List Field) {decoders : List String}
    (each : ∀ decoder ∈ decoders, Shows decoder Indexed) :
    Shows (decodingPipeline false fields decoders) Indexed := by
  have steps : ∀ step ∈ (fields.zip decoders).map fun pair => decodingStep pair.1 pair.2,
      Shows step Indexed := by
    intro step listed
    obtain ⟨pair, member, rfl⟩ := List.mem_map.mp listed
    exact decodingStep_shows pair.1 (each pair.2 (List.of_mem_zip member).2)
  have start : Shows "Json.Decode.succeed" Indexed := .plain (.fixed (by decide))
  have record := recordConstructor_shows (small_recordNames fields)
  unfold decodingPipeline
  split
  · exact .ofSpells (.fixed (by decide) : Spells _ [.opening, .closing]) (.group .nil) nofun
  · exact (start.beside record (by decide)).beside (.join steps (by decide)) (by decide)

section Decoders

variable {σ : Type} {naming : Naming}

theorem decoderRef_shows (named : naming.NamesTidy) {name : TypeName} (proper : name.Proper)
    {described : Binder → Prop} : Shows (naming.decoderRef name) described :=
  .plain (spells_qualified named.valid .decoders (holdable_decoderName proper))

private theorem decode_shows (quiet : naming.Quiet) {value : Primitive} {entry : FormatEntry}
    (found : naming.formatEntry? value = some entry) : Shows entry.decode Indexed := by
  obtain ⟨words, spells, closed⟩ :=
    (quiet entry.decode ⟨value, entry, found, Or.inr (Or.inl rfl)⟩).spells
  exact .ofSpells spells closed nofun

private theorem decoderForms_shows (quiet : naming.Quiet) (named : naming.NamesTidy) :
    DecoderForms naming naming.Knows fun text => Shows text Indexed where
  primitive kind := .plain (by cases kind <;> exact .fixed)
  registered found := decode_shows quiet found
  reference refers := decoderRef_shows named (named.proper refers)
  delayed refers :=
    have name := spells_qualified named.valid .decoders
      (holdable_decoderName (named.proper refers))
    .ofSpells ((name.behind [.opening, .lambda []]).close [.closing]) (.function [] .nil) nofun
  bytes := .plain .fixed
  unit := .ofSpells (.fixed : Spells _ [.opening, .closing]) (.group .nil) nofun
  anyJson := .plain .fixed
  nullable inner :=
    have name : Shows (common "decodeNullable") Indexed := .plain spells_common
    name.beside inner.atom
  list inner := inner.atom.behind
  dict inner := inner.atom.behind
  pipeline fields _ each := decodingPipeline_shows fields each

theorem decoder_shows (quiet : naming.Quiet) (named : naming.NamesTidy) (shape : Shape)
    (covers : naming.Covers shape) :
    Returns (decoder naming shape : Run σ String) fun text => Shows text Indexed :=
  (decoderForms_shows quiet named).decoder shape covers

end Decoders

/-! ### Responses -/

namespace ResponsePlan

theorem errorTable_shows {handlers : List (String × String)}
    (each : ∀ handler ∈ handlers, Shows handler.2 Indexed) :
    Shows (errorTable handlers) Indexed := by
  have entries : ∀ text ∈ handlers.map tableEntry, Shows text Indexed := by
    intro text listed
    obtain ⟨handler, member, rfl⟩ := List.mem_map.mp listed
    obtain ⟨words, bound, spells, closed, all⟩ := (each handler member).atom.parts
    have key := spells_stringLiteral (Status.key handler.1)
    have inside : Listed (.comma :: words) bound := .comma .nil (.last closed)
    refine .ofSpells (((key.behind [.opening]).beside [.comma] spells).close [.closing]) ?_ all
    simpa using inside.group
  unfold errorTable
  split
  · exact .plain .fixed
  · exact (Shows.list entries).behind

section Plans

variable {σ : Type} {naming : Naming} (quiet : naming.Quiet) (named : naming.NamesTidy)

include quiet named

theorem errorHandler_shows {payload : Payload} (covers : naming.Covers payload.shape) :
    Returns (errorHandler naming payload : Run σ String) fun text => Shows text Indexed := by
  have name : Shows (common "jsonErrorDecoder") Indexed := .plain (spells_common (by decide))
  cases payload with
  | json shape =>
      exact (decoder_shows quiet named shape covers).map fun _ found =>
        name.beside found.atom (by decide)
  | text => exact .pure (.plain (spells_common (by decide)))
  | bytes => exact .pure (.plain (spells_common (by decide)))
  | empty => exact .pure (.plain (spells_common (by decide)))

theorem wrappedHandler_shows {endpoint : Endpoint} (proper : endpoint.name.Proper)
    {response : EndpointResponse} (covers : naming.Covers response.payload.shape) :
    Returns (wrappedHandler naming endpoint response : Run σ (String × String))
      fun handler => Shows handler.2 Indexed := by
  have constructor : Spells (naming.qualified .errors (errorVariant endpoint response).text) [] :=
    spells_qualified named.valid .errors (holdable_of_proper (proper.child response.status))
  have map : Spells (common "mapErrorDecoder") [] := spells_common
  refine .map (.withPath _ (errorHandler_shows quiet named covers)) fun handler found => ?_
  obtain ⟨words, bound, spells, closed, all⟩ := found.parts
  refine Shows.atom ?_
  split
  · refine .ofSpells ((map.beside [.opening, .lambda []] constructor).beside [.closing] spells)
      ?_ all
    simpa using (Closed.function [] .nil).append closed
  · exact (Shows.plain (map.beside [] constructor)).beside found.atom

theorem errorPlan_shows {endpoint : Endpoint} (proper : endpoint.name.Proper)
    {errors : List EndpointResponse}
    (covers : ∀ response ∈ errors, naming.Covers response.payload.shape) :
    Returns (errorPlan naming endpoint errors : Run σ ErrorPlan) fun plan =>
      ∀ handler ∈ plan.handlers, Shows handler.2 Indexed := by
  unfold errorPlan
  split
  · exact .pure nofun
  · have handlers : ∀ response ∈ errors,
        Returns (statusHandler naming response : Run σ (String × String))
          fun handler => Shows handler.2 Indexed := fun response listed =>
      .map (.withPath _ (errorHandler_shows quiet named (covers response listed)))
        fun _ found => found
    exact (Returns.traverseOf handlers).map fun _ related => all_of_forall₂ related
  · exact (Returns.traverseOf fun response listed =>
      wrappedHandler_shows quiet named proper (covers response listed)).map
        fun _ related => all_of_forall₂ related

theorem expectation_shows {table : String} (tableShows : Shows table Indexed) {payload : Payload}
    (covers : naming.Covers payload.shape) :
    Returns (expectation naming table payload : Run σ (String × String))
      fun result => Shows result.2 Indexed := by
  have start {name : String} (spells : Spells (common name) []) :
      Shows (common name ++ " " ++ table) Indexed := (Shows.plain spells).beside tableShows
  cases payload with
  | json shape =>
      exact (decoder_shows quiet named shape covers).map fun _ found =>
        (start spells_common).beside found.atom
  | text => exact .pure (start spells_common).close
  | bytes => exact .pure (start spells_common).close
  | empty =>
      have whatever : Shows (common "ExpectWhatever" ++ " " ++ table) Indexed := start spells_common
      obtain ⟨words, bound, spells, closed, all⟩ := whatever.parts
      refine .pure (.ofSpells (spells.close [.opening, .closing]) ?_ all)
      simpa using closed.append (.group .nil)

theorem ofEndpoint_shows {endpoint : Endpoint} (proper : endpoint.name.Proper)
    (covers : ∀ response ∈ endpoint.responses, naming.Covers response.payload.shape) :
    Returns (ofEndpoint naming endpoint : Run σ ResponsePlan) fun plan =>
      Shows plan.expect Indexed := by
  refine .bind (split_within endpoint) ?_
  rintro ⟨success, errors⟩ ⟨inResponses, within⟩
  refine .bind (errorPlan_shows quiet named proper fun response listed =>
    covers response (within response listed)) fun plan handlers => ?_
  exact .map (.withPath _ (expectation_shows quiet named (errorTable_shows handlers).atom
    (covers success inResponses))) fun _ found => found

end Plans

end ResponsePlan

end ElmClient.Elm
