/-
Signatures without an equals sign, so that the first one of a definition ends its parameters. The
types of the formats must have none, either.
-/

import ElmClient.Elm.Request
import ElmClient.Proofs.Formats.Agreement
import ElmClient.Proofs.Scope.Definitions
import ElmClient.Proofs.Scope.Code
import ElmClient.Proofs.Tidy.Requests

namespace ElmClient.Elm

open Lexer Name Run Text

/-! ### Texts -/

def NoEquals (text : String) : Prop :=
  '=' ∉ text.toList

namespace NoEquals

variable {left right text : String}

theorem fixed {characters : List Char} (check : '=' ∉ characters) :
    NoEquals (String.ofList characters) := by
  rw [NoEquals, String.toList_ofList]
  exact check

theorem append (leftFree : NoEquals left) (rightFree : NoEquals right) :
    NoEquals (left ++ right) := by
  rw [NoEquals, String.toList_append, List.mem_append]
  exact fun member => member.elim leftFree rightFree

theorem behind {characters : List Char} (free : NoEquals text)
    (check : '=' ∉ characters) : NoEquals (String.ofList characters ++ text) :=
  append (fixed check) free

theorem close {characters : List Char} (free : NoEquals text)
    (check : '=' ∉ characters) : NoEquals (text ++ String.ofList characters) :=
  append free (fixed check)

theorem beside {characters : List Char} (leftFree : NoEquals left) (rightFree : NoEquals right)
    (check : '=' ∉ characters) :
    NoEquals (left ++ String.ofList characters ++ right) :=
  append (append leftFree (fixed check)) rightFree

theorem regular (regular : isRegular text.toList = true) : NoEquals text :=
  equals_not_mem regular

theorem holdable (holdable : Holdable text.toList) : NoEquals text :=
  regular (Segment.isSome_run holdable nofun)

theorem join {separator : String} (free : NoEquals separator) {pieces : List String}
    (each : ∀ piece ∈ pieces, NoEquals piece) : NoEquals (Text.join separator pieces) := by
  induction pieces with
  | nil => exact fixed (by decide)
  | cons first rest ih =>
      obtain ⟨firstFree, restFree⟩ := List.forall_mem_cons.mp each
      cases rest with
      | nil =>
          rw [Text.join, String.intercalate_singleton]
          exact firstFree
      | cons second rest =>
          rw [Text.join, String.intercalate_cons_cons]
          exact (firstFree.append free).append (ih restFree)

theorem flatten {pieces : List String} (each : ∀ piece ∈ pieces, NoEquals piece) :
    NoEquals (String.join pieces) := by
  induction pieces with
  | nil => exact fixed (by decide)
  | cons first rest ih =>
      obtain ⟨firstFree, restFree⟩ := List.forall_mem_cons.mp each
      rw [String.join_cons]
      exact firstFree.append (ih restFree)

theorem atom (free : NoEquals text) : NoEquals (atom text) := by
  unfold Elm.atom
  split
  · exact free
  · exact (free.behind (by decide)).close (by decide)

theorem maybe (required : Bool) (free : NoEquals text) : NoEquals (maybeUnless required text) := by
  unfold maybeUnless
  split
  · exact free
  · exact free.atom.behind (by decide)

end NoEquals

private theorem mem_of_mem_splitChars {separator character : Char} {characters piece : List Char}
    (listed : piece ∈ splitChars separator characters) (member : character ∈ piece) :
    character ∈ characters := by
  induction characters generalizing piece with
  | nil =>
      rw [List.mem_singleton.mp listed] at member
      exact absurd member List.not_mem_nil
  | cons first rest ih =>
      rw [splitChars] at listed
      split at listed
      · rcases List.mem_cons.mp listed with rfl | later
        · exact absurd member List.not_mem_nil
        · exact List.mem_cons_of_mem _ (ih later member)
      · obtain ⟨head, pieces, split⟩ :=
          List.exists_cons_of_ne_nil (splitChars_ne_nil separator rest)
        rw [split] at listed ih
        rcases List.mem_cons.mp listed with rfl | later
        · rcases List.mem_cons.mp member with rfl | inHead
          · exact List.mem_cons_self
          · exact List.mem_cons_of_mem _ (ih List.mem_cons_self inHead)
        · exact List.mem_cons_of_mem _ (ih (List.mem_cons_of_mem _ later) member)

private theorem mem_of_mem_linesOf {pieces : List (List Char)} {line : List Char} {character : Char}
    (listed : line ∈ linesOf pieces) (member : character ∈ line) :
    ∃ piece ∈ pieces, character ∈ piece := by
  induction pieces with
  | nil => exact absurd listed List.not_mem_nil
  | cons first rest ih =>
      cases rest with
      | nil =>
          rw [linesOf] at listed
          split at listed
          · exact absurd listed List.not_mem_nil
          · exact ⟨first, List.mem_cons_self, List.mem_singleton.mp listed ▸ member⟩
      | cons second rest =>
          rw [linesOf] at listed
          · rcases List.mem_cons.mp listed with rfl | later
            · refine ⟨first, List.mem_cons_self, ?_⟩
              unfold dropReturn at member
              split at member
              case h_1 kept same =>
                have whole : first = kept.reverse ++ ['\r'] := by
                  rw [← List.reverse_reverse first, same, List.reverse_cons]
                rw [whole]
                exact List.mem_append_left _ member
              case h_2 => exact member
            · obtain ⟨piece, inRest, inPiece⟩ := ih later
              exact ⟨piece, List.mem_cons_of_mem _ inRest, inPiece⟩
          · exact List.cons_ne_nil second rest

namespace NoEquals

variable {text : String}

theorem further (free : NoEquals text) : NoEquals (replaceAll "\n" "\n    " text) := by
  rw [replaceFeeds_eq]
  refine join (fixed (by decide)) fun piece listed => ?_
  obtain ⟨characters, member, rfl⟩ := List.mem_map.mp listed
  rw [NoEquals, String.toList_ofList]
  exact fun inPiece => free (mem_of_mem_splitChars member inPiece)

theorem indent (free : NoEquals text) (levels : Nat) : NoEquals (indent text levels) := by
  refine join (fixed (by decide)) fun piece listed => ?_
  obtain ⟨line, member, rfl⟩ := List.mem_map.mp listed
  have lineFree : NoEquals line := by
    obtain ⟨characters, cut, rfl⟩ := List.mem_map.mp member
    rw [NoEquals, String.toList_ofList]
    intro inLine
    obtain ⟨piece, split, inPiece⟩ := mem_of_mem_linesOf cut inLine
    exact free (mem_of_mem_splitChars split inPiece)
  have pad : NoEquals (String.ofList (List.replicate (levels * 4) ' ')) := by
    rw [NoEquals, String.toList_ofList]
    exact fun member => absurd (List.eq_of_mem_replicate member) (by decide)
  split
  · exact fixed (by decide)
  · exact pad.append lineFree

end NoEquals

/-! ### Records and signatures -/

def NoEqualsEntries (entries : List (String × String)) : Prop :=
  ∀ entry ∈ entries, NoEquals entry.1 ∧ NoEquals entry.2

section Records

variable {entries : List (String × String)} (free : NoEqualsEntries entries)

include free

private theorem noEquals_inline : NoEquals (inlineEntries entries ":") := by
  refine .join (.fixed (by decide)) fun piece listed => ?_
  obtain ⟨entry, member, rfl⟩ := List.mem_map.mp listed
  obtain ⟨name, type⟩ := free entry member
  exact (((name.close (by decide)).close (by decide)).close (by decide)).append type

private theorem noEquals_recordLines : ∀ line ∈ entries.map (recordLine ":"), NoEquals line := by
  intro line listed
  obtain ⟨entry, member, rfl⟩ := List.mem_map.mp listed
  obtain ⟨name, type⟩ := free entry member
  exact (((name.close (by decide)).close (by decide)).close (by decide)).append type.further

omit free in
private theorem noEquals_further {lead : String} (leadFree : NoEquals lead) {lines : List String}
    (each : ∀ line ∈ lines, NoEquals line) :
    NoEquals (String.join (lines.map fun line => lead ++ line ++ "\n")) := by
  refine .flatten fun piece listed => ?_
  obtain ⟨line, member, rfl⟩ := List.mem_map.mp listed
  exact (leadFree.append (each line member)).append (.fixed (by decide))

private theorem noEquals_tallRecord : NoEquals (tallRecord entries ":") := by
  have lines := noEquals_recordLines free
  unfold tallRecord
  split
  · exact .fixed (by decide)
  case h_2 first rest same =>
    rw [same] at lines
    obtain ⟨firstFree, restFree⟩ := List.forall_mem_cons.mp lines
    exact (((firstFree.behind (by decide)).close (by decide)).append
      (noEquals_further (.fixed (by decide)) restFree)).close (by decide)

theorem noEquals_record : NoEquals (record entries ":") := by
  have inside := noEquals_inline free
  unfold record
  dsimp only
  split
  · exact .fixed (by decide)
  · split
    · exact (inside.behind (by decide)).close (by decide)
    · exact noEquals_tallRecord free

theorem noEquals_extensibleRecord : NoEquals (extensibleRecord entries) := by
  have inside := noEquals_inline free
  have lines := noEquals_recordLines free
  unfold extensibleRecord
  dsimp only
  split
  · exact (inside.behind (by decide)).close (by decide)
  · unfold tallExtension
    dsimp only
    refine NoEquals.close (.append (.append (.append (.fixed (by decide)) (.fixed (by decide)))
      (.fixed (by decide))) ?_) (by decide)
    split
    · exact .fixed (by decide)
    case h_2 first rest same =>
      rw [same] at lines
      obtain ⟨firstFree, restFree⟩ := List.forall_mem_cons.mp lines
      exact ((firstFree.behind (by decide)).close (by decide)).append
        (noEquals_further (.fixed (by decide)) restFree)

end Records

theorem noEquals_signature {name input output : String} (nameFree : NoEquals name)
    (inputFree : NoEquals input) (outputFree : NoEquals output) :
    NoEquals (signature name input output) := by
  unfold signature
  split
  · exact (nameFree.beside (inputFree.indent 1) (by decide)).beside outputFree (by decide)
  · exact (nameFree.beside inputFree (by decide)).beside outputFree (by decide)

/-! ### Types -/

/-- The types of the formats have no equals sign. -/
def Naming.PlainTypes (naming : Naming) : Prop :=
  ∀ value entry, naming.formatEntry? value = some entry → NoEquals entry.elmType

theorem noEquals_common {characters : List Char}
    (check : characters.all Name.isNameChar = true) :
    NoEquals (common (String.ofList characters)) := by
  refine .append (.append (.fixed (by decide)) (.fixed (by decide))) (.holdable ?_)
  rw [String.toList_ofList]
  exact holdable_of_all check

section Types

variable {naming : Naming} (named : naming.NamesTidy)

include named in
private theorem noEquals_qualified (group : Group) {name : String}
    (holdable : Holdable name.toList) :
    NoEquals (naming.qualified group name) :=
  .regular (isRegular_member (run_moduleName named.valid group) holdable)

private theorem typeForms_noEquals (named : naming.NamesTidy) (types : naming.PlainTypes) :
    TypeForms naming naming.Knows NoEquals where
  primitive kind := by cases kind <;> exact .fixed (by decide)
  registered found := types _ _ found
  reference refers := noEquals_qualified named .types (holdable_of_proper (named.proper refers))
  bytes := .fixed (by decide)
  unit := .fixed (by decide)
  anyJson := .fixed (by decide)
  nullable inner := NoEquals.beside (noEquals_common (by decide)) inner.atom (by decide)
  list inner := inner.atom.behind (by decide)
  dict inner := inner.atom.behind (by decide)
  maybe required _ inner := inner.maybe required
  record fields types each := noEquals_record fun entry listed =>
    have within := List.of_mem_zip listed
    ⟨.holdable (small_recordNames fields _ within.1).holdable, each _ within.2⟩

private theorem noEquals_type (named : naming.NamesTidy) (types : naming.PlainTypes) (shape : Shape)
    (covers : naming.Covers shape) : NoEquals (typeExpression naming shape) :=
  (typeForms_noEquals named types).expression shape covers

/-! ### Inputs -/

variable (types : naming.PlainTypes)

include named types

theorem noEquals_inputs {endpoint : Endpoint} (holds : naming.HoldsEndpoint endpoint)
    (base : BaseUrl) {authorization : Authorization} (keys : authorization.IsTidy)
    {parameters : RequestParameters}
    (fields : ∀ field ∈ parameters.fields, naming.HoldsField field) :
    NoEqualsEntries (inputEntries naming endpoint base authorization parameters) := by
  have none : NoEqualsEntries [] := fun _ member => absurd member List.not_mem_nil
  have one : ∀ {name text : String}, NoEquals name → NoEquals text →
      NoEqualsEntries [(name, text)] :=
    fun nameFree textFree => List.forall_mem_singleton.mpr ⟨nameFree, textFree⟩
  refine List.forall_mem_append.mpr ⟨List.forall_mem_append.mpr
    ⟨List.forall_mem_append.mpr ⟨?_, ?_⟩, ?_⟩, ?_⟩
  · split
    · exact one (.fixed (by decide)) (.fixed (by decide))
    · exact none
  · split
    · exact none
    · refine one (.fixed (by decide)) (noEquals_record fun entry listed => ?_)
      obtain ⟨field, member, rfl⟩ := List.mem_map.mp listed
      exact ⟨.holdable (keys.fields field member).holdable, .fixed (by decide)⟩
  · split
    · exact none
    · refine one (.fixed (by decide))
        (noEquals_record (List.forall_mem_map.mpr fun field member => ?_))
      have holdsField := fields field member
      exact ⟨.holdable holdsField.small.holdable,
        (noEquals_type named types _ holdsField.covers).maybe _⟩
  · split
    case h_1 type found =>
      obtain ⟨body, present, asked⟩ := Option.bind_eq_some_iff.mp found
      refine one (.fixed (by decide)) ?_
      unfold bodyType? at asked
      split at asked
      · contradiction
      · rw [← Option.some.inj asked]
        exact (noEquals_type named types _ (holds.body body present)).maybe _
    case h_2 => exact none

/-! ### Results -/

theorem noEquals_outcome {σ : Type} {endpoint : Endpoint} (proper : endpoint.name.Proper)
    (covers : ∀ response ∈ endpoint.responses, naming.Covers response.payload.shape) :
    Returns (ResponsePlan.ofEndpoint naming endpoint : Run σ ResponsePlan) fun plan =>
      NoEquals plan.success ∧ NoEquals plan.error := by
  refine .bind (ResponsePlan.split_within endpoint) ?_
  rintro ⟨success, errors⟩ ⟨inResponses, within⟩
  have error : Returns (ResponsePlan.errorPlan naming endpoint errors : Run σ _) fun plan =>
      NoEquals plan.error := by
    unfold ResponsePlan.errorPlan
    split
    · exact .pure (.fixed (by decide))
    case h_2 payload single =>
      have listed : payload ∈
          ResponsePlan.distinctPayloads (errors.map EndpointResponse.payload) := by
        rw [single]
        exact List.mem_cons_self
      obtain ⟨source, member, rfl⟩ :=
        List.mem_map.mp (ResponsePlan.mem_of_mem_distinctPayloads listed)
      exact .map (.any _) fun _ _ =>
        noEquals_type named types _ (covers source (within source member))
    · exact .map (.any _) fun _ _ =>
        noEquals_qualified named .errors (holdable_of_proper (proper.child "Error"))
  refine .bind error fun plan errorFree => ?_
  have result : Returns (ResponsePlan.expectation naming
      (atom (ResponsePlan.errorTable plan.handlers))
      success.payload : Run σ (String × String)) fun result => NoEquals result.1 := by
    have covered := covers success inResponses
    cases payload : success.payload with
    | json shape =>
        rw [payload] at covered
        exact .map (.any _) fun _ _ => noEquals_type named types shape covered
    | text => exact .pure (.fixed (by decide))
    | bytes => exact .pure (.fixed (by decide))
    | empty => exact .pure (.fixed (by decide))
  exact .map (.withPath _ result) fun _ found => ⟨found, errorFree⟩

end Types

end ElmClient.Elm
