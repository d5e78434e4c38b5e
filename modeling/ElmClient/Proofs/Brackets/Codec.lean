/-
Annotations, decoders and encoders have balanced brackets if the expressions of the formats
have, whatever the keys of the document are: keys stand in literals, and names hold no brackets.
-/

import ElmClient.Proofs.Brackets.Atom
import ElmClient.Proofs.Tidy.Codec

namespace ElmClient

open Elm

structure FormatEntry.IsBalanced (counts : Bracket → Bool) (entry : FormatEntry) : Prop where
  elmType : Balanced counts entry.elmType
  encode : Balanced counts entry.encode
  decode : Balanced counts entry.decode

namespace Elm

open Name Run Text

structure Naming.IsBalanced (counts : Bracket → Bool) (naming : Naming) : Prop where
  formats : ∀ kind ∈ naming.formats.kinds, ∀ entry ∈ kind.2, entry.2.IsBalanced counts
  namespaceName : Balanced counts naming.namespaceName
  enums : ∀ entry ∈ naming.declared.enums, Balanced counts entry.2.text

def Naming.UnionBalanced (counts : Bracket → Bool) (naming : Naming) : Shape → Prop
  | .union name _ => Balanced counts (naming.unionName name).text
  | _ => True

variable {counts : Bracket → Bool} {σ : Type} {naming : Naming}

/-! ### References -/

private theorem balanced_common {characters : List Char}
    (check : characters.all isNameChar = true) :
    Balanced counts (common (String.ofList characters)) := by
  have name : Holdable (String.ofList characters).toList := by
    rw [String.toList_ofList]
    exact holdable_of_all check
  exact Balanced.append (.append (.fixed (by decide)) (.fixed (by decide))) (.holdable name)

section References

variable (balanced : naming.IsBalanced counts)

include balanced

private theorem Naming.IsBalanced.format {value : Primitive} {entry : FormatEntry}
    (found : naming.formatEntry? value = some entry) : entry.IsBalanced counts := by
  obtain ⟨format, -, inRegistry⟩ := Option.bind_eq_some_iff.mp found
  obtain ⟨formats, kind, listed⟩ := Option.bind_eq_some_iff.mp inRegistry
  exact balanced.formats _ (Keyed.mem_of_find? kind) _ (Keyed.mem_of_find? listed)

private theorem Naming.IsBalanced.name {name : TypeName}
    (refers : naming.Refers (naming.UnionBalanced counts) name) : Balanced counts name.text := by
  cases refers with
  | union admitted => exact admitted
  | enum found => exact balanced.enums _ (Keyed.mem_of_find? found)
  | component target => exact .holdable (holdable_of_proper (TypeName.ofRaw_proper target.name))

private theorem balanced_qualified (group : Group) {name : String}
    (nameBalanced : Balanced counts name) :
    Balanced counts (naming.qualified group name) := by
  have path : Balanced counts (group.moduleName naming.namespaceName) := by
    cases group with
    | common => exact .fixed (by decide)
    | types => exact balanced.namespaceName.append (.fixed (by decide))
    | encoders => exact balanced.namespaceName.append (.fixed (by decide))
    | decoders => exact balanced.namespaceName.append (.fixed (by decide))
    | requests => exact balanced.namespaceName.append (.fixed (by decide))
    | errors => exact balanced.namespaceName.append (.fixed (by decide))
    | servers => exact balanced.namespaceName.append (.fixed (by decide))
  exact (path.append (.fixed (by decide))).append nameBalanced

variable {name : TypeName} (nameBalanced : Balanced counts name.text)

include nameBalanced

private theorem balanced_typeRef : Balanced counts (naming.typeRef name) :=
  balanced_qualified balanced .types nameBalanced

private theorem balanced_decoderRef : Balanced counts (naming.decoderRef name) :=
  balanced_qualified balanced .decoders (.append (.fixed (by decide)) nameBalanced)

private theorem balanced_encoderRef : Balanced counts (naming.encoderRef name) :=
  balanced_qualified balanced .encoders (.append (.fixed (by decide)) nameBalanced)

end References

/-! ### Records and lists -/

private theorem balanced_list {items : List String} (each : ∀ item ∈ items, Balanced counts item) :
    Balanced counts (list items) := by
  unfold list
  split
  · exact .fixed (by decide)
  · exact .group .square (.fixed (by decide)) (.join (.fixed (by decide)) each)
      (.fixed (by decide))

section Records

variable {entries : List (String × String)}
  (each : ∀ entry ∈ entries, Balanced counts entry.1 ∧ Balanced counts entry.2)

include each

private theorem balanced_inlineEntries : Balanced counts (inlineEntries entries ":") := by
  refine .join (.fixed (by decide)) fun piece listed => ?_
  obtain ⟨entry, member, rfl⟩ := List.mem_map.mp listed
  obtain ⟨name, type⟩ := each entry member
  exact (((name.append (.fixed (by decide))).append (.fixed (by decide))).append
    (.fixed (by decide))).append type

private theorem balanced_recordLines :
    ∀ line ∈ entries.map (recordLine ":"), Balanced counts line := by
  intro line listed
  obtain ⟨entry, member, rfl⟩ := List.mem_map.mp listed
  obtain ⟨name, type⟩ := each entry member
  exact (((name.append (.fixed (by decide))).append (.fixed (by decide))).append
    (.fixed (by decide))).append type.further

private theorem balanced_record : Balanced counts (record entries ":") := by
  unfold record
  dsimp only
  split
  · exact .fixed (by decide)
  case isFalse inhabited =>
    split
    · exact .group .curly (.fixed (by decide)) (balanced_inlineEntries each) (.fixed (by decide))
    · have lines := balanced_recordLines each
      unfold tallRecord
      split
      case h_1 none =>
        rw [List.map_eq_nil_iff.mp none] at inhabited
        contradiction
      case h_2 first rest same =>
        rw [same] at lines
        obtain ⟨firstBalanced, restBalanced⟩ := List.forall_mem_cons.mp lines
        have further : Balanced counts
            (String.join (rest.map fun line => ", " ++ line ++ "\n")) := by
          refine .flatten fun piece listed => ?_
          obtain ⟨line, member, rfl⟩ := List.mem_map.mp listed
          exact .append (.append (.fixed (by decide)) (restBalanced line member))
            (.fixed (by decide))
        have body := (firstBalanced.append (.fixed (by decide) : Balanced counts "\n")).append
          further
        have grouped : Balanced counts ("\x7b " ++ (first ++ "\n" ++
            String.join (rest.map fun line => ", " ++ line ++ "\n")) ++ "\x7d") :=
          .group .curly (.fixed (by decide)) body (.fixed (by decide))
        simpa only [String.append_assoc] using grouped

end Records

/-! ### Annotations -/

private theorem balanced_recordNames (fields : List Field) :
    ∀ name ∈ recordNames fields, Balanced counts name :=
  fun name listed => .holdable (small_recordNames fields name listed).holdable

private theorem balanced_maybeUnless (required : Bool) {inner : String}
    (innerBalanced : Balanced counts inner) : Balanced counts (maybeUnless required inner) := by
  unfold maybeUnless
  split
  · exact innerBalanced
  · exact .append (.fixed (by decide)) innerBalanced.atom

private theorem typeForms_balanced (balanced : naming.IsBalanced counts) :
    TypeForms naming (naming.UnionBalanced counts) (Balanced counts) where
  primitive kind := by cases kind <;> exact .fixed (by decide)
  registered found := (balanced.format found).elmType
  reference refers := balanced_typeRef balanced (balanced.name refers)
  bytes := .fixed (by decide)
  unit := .fixed (by decide)
  anyJson := .fixed (by decide)
  nullable inner := ((balanced_common (by decide)).append (.fixed (by decide))).append inner.atom
  list inner := .append (.fixed (by decide)) inner.atom
  dict inner := .append (.fixed (by decide)) inner.atom
  maybe := balanced_maybeUnless
  record fields types each := balanced_record fun entry listed =>
    have within := List.of_mem_zip listed
    ⟨balanced_recordNames fields _ within.1, each _ within.2⟩

private theorem balanced_typeExpression (balanced : naming.IsBalanced counts) (shape : Shape)
    (names : shape.Everywhere (naming.UnionBalanced counts)) :
    Balanced counts (typeExpression naming shape) :=
  (typeForms_balanced balanced).expression shape names

/-! ### Decoders -/

private theorem balanced_decodingStep (field : Field) {decoder : String}
    (decoderBalanced : Balanced counts decoder) :
    Balanced counts (decodingStep field decoder) := by
  have reader : Balanced counts (if field.required then "Json.Decode.field"
      else common "decodeOptionalField") := by
    split
    · exact .fixed (by decide)
    · exact balanced_common (by decide)
  have lead : Balanced counts ("|> " ++ common "jsonDecodeAndMap") :=
    .append (.fixed (by decide)) (balanced_common (by decide))
  have opens : Moves counts [] [.round] ("|> " ++ common "jsonDecodeAndMap" ++ " (") :=
    Moves.append lead (.fixed (by decide))
  have inside : Balanced counts ((if field.required then "Json.Decode.field"
      else common "decodeOptionalField") ++ " " ++ stringLiteral field.key ++ " "
        ++ atom decoder) :=
    (((reader.append (.fixed (by decide))).append (.literal field.key)).append
      (.fixed (by decide))).append decoderBalanced.atom
  have closes : Moves counts [.round] [] ")" := .fixed (by decide)
  have grouped := Balanced.group .round opens inside closes
  unfold decodingStep
  simpa only [String.append_assoc] using grouped

private theorem balanced_recordConstructor {names : List String}
    (each : ∀ name ∈ names, Balanced counts name) : Balanced counts (recordConstructor names) := by
  have binders : ∀ binder ∈ (List.range names.length).map fun index => "v" ++ toString index,
      Balanced counts binder := by
    intro binder listed
    obtain ⟨index, -, rfl⟩ := List.mem_map.mp listed
    exact .holdable (small_index index).holdable
  have assignments : ∀ assignment ∈ (names.zip ((List.range names.length).map fun index =>
      "v" ++ toString index)).map fun pair => pair.1 ++ " = " ++ pair.2,
      Balanced counts assignment := by
    intro assignment listed
    obtain ⟨pair, member, rfl⟩ := List.mem_map.mp listed
    obtain ⟨inNames, inBinders⟩ := List.of_mem_zip member
    exact ((each _ inNames).append (.fixed (by decide))).append (binders _ inBinders)
  have lambda : Moves counts [] [.round] "(\\" := .fixed (by decide)
  have body : Moves counts [.round] [.curly, .round] " -> \x7b " := .fixed (by decide)
  have blank : Balanced counts " " := .fixed (by decide)
  have comma : Balanced counts ", " := .fixed (by decide)
  have parameters := blank.join binders
  have fields := comma.join assignments
  exact (((lambda.append (parameters.moves _)).append body).append (fields.moves _)).append
    (.fixed (by decide))

private theorem balanced_decodingPipeline (tall : Bool) (fields : List Field)
    {decoders : List String}
    (each : ∀ decoder ∈ decoders, Balanced counts decoder) :
    Balanced counts (decodingPipeline tall fields decoders) := by
  unfold decodingPipeline
  split
  · exact .fixed (by decide)
  · have gap : Balanced counts (if tall then "\n    " else " ") := by
      split
      · exact .fixed (by decide)
      · exact .fixed (by decide)
    have steps : ∀ step ∈ (fields.zip decoders).map fun pair => decodingStep pair.1 pair.2,
        Balanced counts step := by
      intro step listed
      obtain ⟨pair, member, rfl⟩ := List.mem_map.mp listed
      exact balanced_decodingStep pair.1 (each pair.2 (List.of_mem_zip member).2)
    have start : Balanced counts "Json.Decode.succeed" := .fixed (by decide)
    exact (((start.append gap).append
      (balanced_recordConstructor (balanced_recordNames fields))).append gap).append
        (.join gap steps)

private theorem decoderForms_balanced (balanced : naming.IsBalanced counts) :
    DecoderForms naming (naming.UnionBalanced counts) (Balanced counts) where
  primitive kind := by cases kind <;> exact .fixed (by decide)
  registered found := (balanced.format found).decode
  reference refers := balanced_decoderRef balanced (balanced.name refers)
  delayed refers := .group .round (.fixed (by decide))
    (balanced_decoderRef balanced (balanced.name refers)) (.fixed (by decide))
  bytes := .fixed (by decide)
  unit := .fixed (by decide)
  anyJson := .fixed (by decide)
  nullable inner := ((balanced_common (by decide)).append (.fixed (by decide))).append inner.atom
  list inner := .append (.fixed (by decide)) inner.atom
  dict inner := .append (.fixed (by decide)) inner.atom
  pipeline fields _ each := balanced_decodingPipeline false fields each

theorem decoder_balanced (balanced : naming.IsBalanced counts) (shape : Shape)
    (names : shape.Everywhere (naming.UnionBalanced counts)) :
    Returns (decoder naming shape : Run σ String) (Balanced counts) :=
  (decoderForms_balanced balanced).decoder shape names

/-! ### Encoders -/

private theorem balanced_recordVariable (depth : Nat) : Balanced counts (recordVariable depth) :=
  .holdable (small_recordVariable depth).holdable

private theorem balanced_valueVariable (depth : Nat) : Balanced counts (valueVariable depth) :=
  .holdable (small_numberedVariable .fixed depth).holdable

private theorem balanced_encodingEntry (depth : Nat) (field : Field) {name encoder : String}
    (nameBalanced : Balanced counts name) (encoderBalanced : Balanced counts encoder) :
    Balanced counts (encodingEntry depth field name encoder) := by
  have access : Balanced counts (recordVariable depth ++ "." ++ name) :=
    ((balanced_recordVariable depth).append (.fixed (by decide))).append nameBalanced
  have key : Balanced counts (stringLiteral field.key) := .literal field.key
  have value : Balanced counts (valueVariable depth) := balanced_valueVariable depth
  unfold encodingEntry
  dsimp only
  split
  · have opens : Moves counts [] [.round] "Just ( " := .fixed (by decide)
    exact (((((opens.append (key.moves _)).append (.plain (by decide))).append
      (encoderBalanced.atom.moves _)).append (.plain (by decide))).append
        (access.moves _)).append (.fixed (by decide))
  · have opens : Moves counts [] [.round] "Maybe.map (\\" := .fixed (by decide)
    have pair : Moves counts [.round] [.round, .round] " -> ( " := .fixed (by decide)
    have closes : Moves counts [.round, .round] [] " )) " := .fixed (by decide)
    exact (((((((opens.append (value.moves _)).append pair).append (key.moves _)).append
      (.plain (by decide))).append (encoderBalanced.atom.moves _)).append
        (.plain (by decide))).append (value.moves _)).append closes |>.append access

private theorem balanced_encodingEntries (depth : Nat) (fields : List Field)
    {encoders : List String}
    (each : ∀ encoder ∈ encoders, Balanced counts encoder) :
    ∀ entry ∈ encodingEntries depth fields encoders, Balanced counts entry := by
  intro text listed
  obtain ⟨entry, member, rfl⟩ := List.mem_map.mp listed
  obtain ⟨inNames, inEncoders⟩ := List.of_mem_zip (List.of_mem_zip member).2
  exact balanced_encodingEntry depth entry.1 (balanced_recordNames fields _ inNames)
    (each _ inEncoders)

private theorem balanced_objectEncoder (depth : Nat) (fields : List Field) {encoders : List String}
    (each : ∀ encoder ∈ encoders, Balanced counts encoder) :
    Balanced counts ("(\\" ++ recordVariable depth
      ++ " -> Json.Encode.object (List.filterMap identity "
      ++ list (encodingEntries depth fields encoders) ++ "))") := by
  have lambda : Moves counts [] [.round] "(\\" := .fixed (by decide)
  have body : Moves counts [.round] [.round, .round]
      " -> Json.Encode.object (List.filterMap identity " := .fixed (by decide)
  have entries := balanced_list (balanced_encodingEntries depth fields each)
  exact (((lambda.append ((balanced_recordVariable depth).moves _)).append body).append
    (entries.moves _)).append (.fixed (by decide))

private theorem encoderForms_balanced (balanced : naming.IsBalanced counts) :
    EncoderForms naming (naming.UnionBalanced counts) fun _ => Balanced counts where
  primitive _ kind := by cases kind <;> exact .fixed (by decide)
  registered found := (balanced.format found).encode
  reference refers := balanced_encoderRef balanced (balanced.name refers)
  discard _ := .fixed (by decide)
  anyJson _ := .fixed (by decide)
  nullable inner := ((balanced_common (by decide)).append (.fixed (by decide))).append inner.atom
  list inner := .append (.fixed (by decide)) inner.atom
  dict inner := .append (.fixed (by decide)) inner.atom
  object depth fields _ each := balanced_objectEncoder depth fields each

theorem encoder_balanced (balanced : naming.IsBalanced counts) (depth : Nat) (shape : Shape)
    (names : shape.Everywhere (naming.UnionBalanced counts)) :
    Returns (encoder naming depth shape : Run σ String) (Balanced counts) :=
  (encoderForms_balanced balanced).encoder depth shape names

/-! ### All expressions -/

/-- The expressions of a shape are balanced, its encoder at any depth. -/
structure ShapeBalanced (σ : Type) (counts : Bracket → Bool) (naming : Naming) (shape : Shape) :
    Prop where
  annotation : Balanced counts (typeExpression naming shape)
  decoder : Returns (decoder naming shape : Run σ String) (Balanced counts)
  encoder : ∀ depth, Returns (encoder naming depth shape : Run σ String) (Balanced counts)

/-- Expressions stay in brackets: they are balanced in the kinds of brackets in which those of
the formats are, and a balanced text stays in one piece as an argument. -/
theorem expressions_bracketed (σ : Type) (counts : Bracket → Bool) {naming : Naming}
    (balanced : naming.IsBalanced counts) {shape : Shape}
    (names : shape.Everywhere (naming.UnionBalanced counts)) :
    ShapeBalanced σ counts naming shape ∧ ∀ text, IsBalanced text → StaysWhole text :=
  ⟨⟨balanced_typeExpression balanced shape names, decoder_balanced balanced shape names,
    fun depth => encoder_balanced balanced depth shape names⟩, fun _ => staysWhole⟩

theorem builtIn_balanced (counts : Bracket → Bool) :
    ∀ kind ∈ FormatRegistry.builtIn.kinds, ∀ entry ∈ kind.2, entry.2.IsBalanced counts := by
  have moment : FormatRegistry.dateTime.IsBalanced counts :=
    ⟨.fixed (by decide), .fixed (by decide), .fixed (by decide)⟩
  have plain : FormatRegistry.plainString.IsBalanced counts :=
    ⟨.fixed (by decide), .fixed (by decide), .fixed (by decide)⟩
  refine List.forall_mem_singleton.mpr ?_
  exact List.forall_mem_cons.mpr ⟨moment, List.forall_mem_cons.mpr
    ⟨plain, List.forall_mem_singleton.mpr plain⟩⟩

/-- Brackets and quotes in keys of nested objects. -/
theorem expressions_bracketed_keys :
    let naming : Naming := ⟨"Api", ⟨[], []⟩, [], .builtIn⟩
    let moment : Shape := .primitive ⟨.string, some "date-time", none⟩
    let inner : Shape := .object [⟨"]\"(", false, none, moment⟩]
    let shape : Shape := .object [⟨"\\\"\x7b", true, none, .nullable (.list inner)⟩]
    naming.IsBalanced (fun _ => true) ∧ shape.Everywhere (naming.UnionBalanced fun _ => true) ∧
      ShapeBalanced Unit (fun _ => true) naming shape ∧
      ∀ text, IsBalanced text → StaysWhole text := by
  intro naming moment inner shape
  have balanced : naming.IsBalanced fun _ => true :=
    ⟨builtIn_balanced _, .fixed (by decide), fun _ member => absurd member List.not_mem_nil⟩
  have names : shape.Everywhere (naming.UnionBalanced fun _ => true) := by
    intro part member
    have noUnion : part = shape ∨ part = .nullable (.list inner) ∨ part = .list inner ∨
        part = inner ∨ part = moment := by
      simpa [shape, inner, moment, Shape.nested, Shape.nestedFields] using member
    rcases noUnion with rfl | rfl | rfl | rfl | rfl <;> trivial
  exact ⟨balanced, names, expressions_bracketed Unit (fun _ => true) balanced names⟩

end Elm

end ElmClient
