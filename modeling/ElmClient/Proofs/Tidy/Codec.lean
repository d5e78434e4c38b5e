/-
Annotations, decoders and encoders are tidy if the configured formats are. Keys stand in
literals, and whatever else comes from a document is a name.
-/

import ElmClient.Proofs.Codec
import ElmClient.Proofs.Keyed
import ElmClient.Proofs.Tidy.Names

namespace ElmClient

open Elm Lexer

structure FormatEntry.IsTidy (entry : FormatEntry) : Prop where
  elmType : Tidy entry.elmType
  encode : Tidy entry.encode
  decode : Tidy entry.decode
  stringify : ∀ function ∈ entry.stringify, Tidy function

namespace Elm

open Name Run Text

def Naming.Knows (naming : Naming) : Shape → Prop
  | .union name _ => ∃ union, naming.declared.union? name = some union
  | _ => True

def Naming.Covers (naming : Naming) (shape : Shape) : Prop :=
  shape.Everywhere naming.Knows

/-- What a naming refers to is tidy: the module path, the formats and the final names, and
the members of unions have proper names. -/
structure Naming.IsTidy (naming : Naming) : Prop where
  valid : Config.isModulePath naming.namespaceName = true
  formats : ∀ value entry, naming.formatEntry? value = some entry → entry.IsTidy
  enums : ∀ entry ∈ naming.declared.enums, entry.2.Proper
  unions : ∀ entry ∈ naming.declared.unions, entry.2.name.Proper
  members : ∀ entry ∈ naming.declared.unions, ∀ variant ∈ entry.2.variants,
    variant.name.Proper ∧ naming.Covers variant.shape

variable {σ : Type} {naming : Naming}

/-! ### References -/

theorem holdable_decoderName {name : TypeName} (proper : name.Proper) :
    Holdable name.decoderName.toList := by
  rw [TypeName.decoderName, String.toList_append]
  exact (holdable_of_all (by decide)).append (holdable_of_proper proper)

theorem holdable_encoderName {name : TypeName} (proper : name.Proper) :
    Holdable name.encoderName.toList := by
  rw [TypeName.encoderName, String.toList_append]
  exact (holdable_of_all (by decide)).append (holdable_of_proper proper)

section References

variable (tidy : naming.IsTidy) {name : TypeName}

include tidy

theorem Naming.IsTidy.unionName {variants : List Variant}
    (knows : naming.Knows (.union name variants)) : (naming.unionName name).Proper := by
  obtain ⟨union, found⟩ := knows
  rw [Naming.unionName, found]
  exact tidy.unions _ (Keyed.mem_of_find? found)

theorem Naming.IsTidy.enumName {values : List String}
    (found : naming.enumName? values = some name) : name.Proper :=
  tidy.enums _ (Keyed.mem_of_find? found)

private theorem Naming.IsTidy.proper (refers : naming.Refers naming.Knows name) : name.Proper := by
  cases refers with
  | union knows => exact tidy.unionName knows
  | enum found => exact tidy.enumName found
  | component target => exact TypeName.ofRaw_proper target.name

theorem tidy_typeRef (proper : name.Proper) : Tidy (naming.typeRef name) :=
  tidy_qualified tidy.valid .types (holdable_of_proper proper)

private theorem tidy_decoderRef (proper : name.Proper) : Tidy (naming.decoderRef name) :=
  tidy_qualified tidy.valid .decoders (holdable_decoderName proper)

private theorem tidy_encoderRef (proper : name.Proper) : Tidy (naming.encoderRef name) :=
  tidy_qualified tidy.valid .encoders (holdable_encoderName proper)

end References

/-! ### Fields -/

theorem small_recordNames (fields : List Field) :
    ∀ name ∈ recordNames fields, Small name.toList := by
  refine small_assign fun base listed => ?_
  obtain ⟨field, -, rfl⟩ := List.mem_map.mp listed
  exact small_toValueName field.key

theorem tidy_maybeUnless (required : Bool) {inner : String} (innerTidy : Tidy inner) :
    Tidy (maybeUnless required inner) := by
  unfold maybeUnless
  split
  · exact innerTidy
  · exact Lead.code (.fixed (by decide)) (tidy_atom innerTidy)

private theorem tidyEntries_zip {names texts : List String}
    (small : ∀ name ∈ names, Small name.toList)
    (textsTidy : ∀ text ∈ texts, Tidy text) : TidyEntries (names.zip texts) := by
  intro entry listed
  obtain ⟨inNames, inTexts⟩ := List.of_mem_zip listed
  exact ⟨tidy_word (small entry.1 inNames).holdable, textsTidy entry.2 inTexts⟩

/-! ### Pipelines -/

private theorem tidy_decodingStep (field : Field) {decoder : String} (decoderTidy : Tidy decoder) :
    Tidy (decodingStep field decoder) := by
  have reader : Tidy (if field.required then "Json.Decode.field"
      else common "decodeOptionalField") := by
    split
    · exact .fixed
    · exact tidy_common
  have step : Lead ("|> " ++ common "jsonDecodeAndMap" ++ " (") :=
    (Lead.code .fixed tidy_common).gap
  exact (((step.code reader).gap.code (tidy_stringLiteral field.key)).gap.code
    (tidy_atom decoderTidy)).close

theorem small_index (index : Nat) : Small ("v" ++ toString index).toList := by
  rw [String.toList_append]
  exact Small.append (.fixed (by decide)) (small_digits index)

private theorem tidy_recordConstructor {names : List String}
    (small : ∀ name ∈ names, Small name.toList) :
    Tidy (recordConstructor names) := by
  have binders : ∀ binder ∈ (List.range names.length).map fun index => "v" ++ toString index,
      Tidy binder := by
    intro binder listed
    obtain ⟨index, -, rfl⟩ := List.mem_map.mp listed
    exact tidy_word (small_index index).holdable
  refine ((Lead.code .fixed (Gap.join .fixed binders)).gap.code
    (Gap.join .fixed fun assignment listed => ?_)).close
  obtain ⟨pair, member, rfl⟩ := List.mem_map.mp listed
  obtain ⟨inNames, inBinders⟩ := List.of_mem_zip member
  exact (tidy_word (small pair.1 inNames).holdable).gap.code (binders pair.2 inBinders)

theorem tidy_decodingPipeline (tall : Bool) (fields : List Field) {decoders : List String}
    (decodersTidy : ∀ decoder ∈ decoders, Tidy decoder) :
    Tidy (decodingPipeline tall fields decoders) := by
  unfold decodingPipeline
  split
  · exact .fixed
  · have gap : Gap (if tall then "\n    " else " ") := by
      split
      · exact .fixed
      · exact .fixed
    have steps : ∀ step ∈ (fields.zip decoders).map fun pair => decodingStep pair.1 pair.2,
        Tidy step := by
      intro step listed
      obtain ⟨pair, member, rfl⟩ := List.mem_map.mp listed
      exact tidy_decodingStep pair.1 (decodersTidy pair.2 (List.of_mem_zip member).2)
    have start : Lead ("Json.Decode.succeed" ++ if tall then "\n    " else " ") := gap.after .fixed
    exact (gap.after (start.code (tidy_recordConstructor (small_recordNames fields)))).code
      (gap.join steps)

/-! ### Entries of objects -/

theorem small_numberedVariable {base : String} (small : Small base.toList) (depth : Nat) :
    Small (numberedVariable base depth).toList := by
  unfold numberedVariable
  split
  · exact small
  · rw [String.toList_append]
    exact small.append (small_digits depth)

theorem small_recordVariable (depth : Nat) : Small (recordVariable depth).toList :=
  small_numberedVariable (.fixed (by decide)) depth

private theorem tidy_valueVariable (depth : Nat) : Tidy (valueVariable depth) :=
  tidy_word (small_numberedVariable (.fixed (by decide)) depth).holdable

theorem run_recordVariable (depth : Nat) :
    Segment.first.run (recordVariable depth ++ ".").toList = some .later := by
  have small := small_recordVariable depth
  rw [String.toList_append]
  refine Segment.run_small (fun empty => ?_) small
  unfold recordVariable numberedVariable at empty
  split at empty
  · exact absurd empty (by decide)
  · rw [String.toList_append] at empty
    exact absurd (List.append_eq_nil_iff.mp empty).1 (by decide)

private theorem tidy_encodingEntry (depth : Nat) (field : Field) {name encoder : String}
    (small : Small name.toList) (encoderTidy : Tidy encoder) :
    Tidy (encodingEntry depth field name encoder) := by
  have access : Tidy (recordVariable depth ++ "." ++ name) :=
    tidy_field (run_recordVariable depth) small
  have key := tidy_stringLiteral field.key
  have argument := tidy_valueVariable depth
  unfold encodingEntry
  dsimp only
  split
  · exact (((Lead.code .fixed key).gap.code (tidy_atom encoderTidy)).gap.code access).close
  · exact (((((Lead.code .fixed argument).gap.code key).gap.code
      (tidy_atom encoderTidy)).gap.code argument).gap.code access)

private theorem tidy_encodingEntries (depth : Nat) (fields : List Field) {encoders : List String}
    (encodersTidy : ∀ encoder ∈ encoders, Tidy encoder) :
    ∀ entry ∈ encodingEntries depth fields encoders, Tidy entry := by
  intro text listed
  obtain ⟨entry, member, rfl⟩ := List.mem_map.mp listed
  obtain ⟨inNames, inEncoders⟩ := List.of_mem_zip (List.of_mem_zip member).2
  exact tidy_encodingEntry depth entry.1 (small_recordNames fields _ inNames)
    (encodersTidy _ inEncoders)

/-! ### Annotations, decoders and encoders -/

private theorem typeForms_tidy (tidy : naming.IsTidy) : TypeForms naming naming.Knows Tidy where
  primitive kind := by cases kind <;> exact .fixed
  registered found := (tidy.formats _ _ found).elmType
  reference refers := tidy_typeRef tidy (tidy.proper refers)
  bytes := .fixed
  unit := .fixed
  anyJson := .fixed
  nullable inner := (Tidy.gap tidy_common).code (tidy_atom inner)
  list inner := Lead.code .fixed (tidy_atom inner)
  dict inner := Lead.code .fixed (tidy_atom inner)
  maybe := tidy_maybeUnless
  record fields _ types := tidy_record .fixed (tidyEntries_zip (small_recordNames fields) types)

theorem tidy_typeExpression (tidy : naming.IsTidy) (shape : Shape)
    (covers : naming.Covers shape) : Tidy (typeExpression naming shape) :=
  (typeForms_tidy tidy).expression shape covers

theorem tidy_recordEntries (tidy : naming.IsTidy) {fields : List Field}
    (covers : ∀ field ∈ fields, naming.Covers field.shape) :
    TidyEntries (recordEntries naming fields) :=
  tidyEntries_zip (small_recordNames fields) ((typeForms_tidy tidy).expressions fields covers)

theorem decoderForms_tidy (tidy : naming.IsTidy) : DecoderForms naming naming.Knows Tidy where
  primitive kind := by cases kind <;> exact .fixed
  registered found := (tidy.formats _ _ found).decode
  reference refers := tidy_decoderRef tidy (tidy.proper refers)
  delayed refers := (Lead.code .fixed (tidy_decoderRef tidy (tidy.proper refers))).close
  bytes := .fixed
  unit := .fixed
  anyJson := .fixed
  nullable inner := (Tidy.gap tidy_common).code (tidy_atom inner)
  list inner := Lead.code .fixed (tidy_atom inner)
  dict inner := Lead.code .fixed (tidy_atom inner)
  pipeline fields _ decoders := tidy_decodingPipeline false fields decoders

theorem decoder_tidy (tidy : naming.IsTidy) (shape : Shape) (covers : naming.Covers shape) :
    Returns (decoder naming shape : Run σ String) Tidy :=
  (decoderForms_tidy tidy).decoder shape covers

private theorem encoderForms_tidy (tidy : naming.IsTidy) :
    EncoderForms naming naming.Knows fun _ => Tidy where
  primitive _ kind := by cases kind <;> exact .fixed
  registered found := (tidy.formats _ _ found).encode
  reference refers := tidy_encoderRef tidy (tidy.proper refers)
  discard _ := .fixed
  anyJson _ := .fixed
  nullable inner := (Tidy.gap tidy_common).code (tidy_atom inner)
  list inner := Lead.code .fixed (tidy_atom inner)
  dict inner := Lead.code .fixed (tidy_atom inner)
  object depth fields _ encoders :=
    have argument := tidy_word (small_recordVariable depth).holdable
    ((Lead.code .fixed argument).gap.code
      (tidy_list (tidy_encodingEntries depth fields encoders))).close

theorem encoder_tidy (tidy : naming.IsTidy) (depth : Nat) (shape : Shape)
    (covers : naming.Covers shape) :
    Returns (encoder naming depth shape : Run σ String) Tidy :=
  (encoderForms_tidy tidy).encoder depth shape covers

theorem objectEntries_tidy (tidy : naming.IsTidy) {fields : List Field}
    (covers : ∀ field ∈ fields, naming.Covers field.shape) (depth : Nat) :
    Returns (objectEntries naming fields depth : Run σ (List String))
      fun entries => ∀ entry ∈ entries, Tidy entry :=
  ((encoderForms_tidy tidy).encoders (depth + 1) fields covers).map fun _ found =>
    tidy_encodingEntries depth fields found

end Elm

end ElmClient
