/-
Properties of texts that the forms of a codec keep. Annotations, decoders and encoders are each
written in a few forms: a fixed text, the expression of a format, the name of another codec, and
one form for every kind of shape with shapes inside. What all forms keep holds of the text for
every shape, so shapes are gone through here, once for each of the three.
-/

import ElmClient.Elm.Codec
import ElmClient.Proofs.Run
import ElmClient.Proofs.Shape.Everywhere

namespace ElmClient.Elm

open Run

/-- A name that a codec refers to: the final name of an admitted union, that of an enum, or the
name of a component. -/
inductive Naming.Refers (naming : Naming) (admits : Shape → Prop) : TypeName → Prop
  | union {name : TypeName} {variants : List Variant} (admitted : admits (.union name variants)) :
      Refers naming admits (naming.unionName name)
  | enum {values : List String} {name : TypeName} (found : naming.enumName? values = some name) :
      Refers naming admits name
  | component (target : Reference) : Refers naming admits target.typeName

variable {σ : Type} {naming : Naming} {admits : Shape → Prop}

/-! ### Annotations -/

/-- Every form of an annotation has the property if what stands inside has. -/
structure TypeForms (naming : Naming) (admits : Shape → Prop) (holds : String → Prop) :
    Prop where
  primitive : ∀ kind, holds (primitiveType kind)
  registered : ∀ {value entry}, naming.formatEntry? value = some entry → holds entry.elmType
  reference : ∀ {name}, naming.Refers admits name → holds (naming.typeRef name)
  bytes : holds "Bytes.Bytes"
  unit : holds "()"
  anyJson : holds "Json.Encode.Value"
  nullable : ∀ {inner}, holds inner → holds (common "Nullable" ++ " " ++ atom inner)
  list : ∀ {inner}, holds inner → holds ("List " ++ atom inner)
  dict : ∀ {inner}, holds inner → holds ("Dict.Dict String " ++ atom inner)
  maybe : ∀ required {inner}, holds inner → holds (maybeUnless required inner)
  record : ∀ fields types, (∀ type ∈ types, holds type) →
    holds (record ((recordNames fields).zip types) ":")

namespace TypeForms

variable {holds : String → Prop}

mutual

theorem expression (forms : TypeForms naming admits holds) :
    ∀ shape : Shape, shape.Everywhere admits → holds (typeExpression naming shape)
  | .nullable inner, everywhere => by
      unfold typeExpression
      exact forms.nullable (expression forms inner (Shape.everywhere_nullable_iff.mp everywhere).2)
  | .object fields, everywhere => by
      unfold typeExpression
      exact forms.record fields _
        (expressions forms fields (Shape.everywhere_object_iff.mp everywhere).2)
  | .primitive value, _ => by
      unfold typeExpression
      split
      case h_1 entry found => exact forms.registered found
      case h_2 => exact forms.primitive value.kind
  | .list inner, everywhere => by
      unfold typeExpression
      exact forms.list (expression forms inner (Shape.everywhere_list_iff.mp everywhere).2)
  | .dict inner, everywhere => by
      unfold typeExpression
      exact forms.dict (expression forms inner (Shape.everywhere_dict_iff.mp everywhere).2)
  | .union name variants, everywhere => by
      unfold typeExpression
      exact forms.reference (.union everywhere.here)
  | .enum values, _ => by
      unfold typeExpression
      split
      case h_1 name found => exact forms.reference (.enum found)
      case h_2 => exact forms.primitive .string
  | .ref target, _ => by
      unfold typeExpression
      exact forms.reference (.component target)
  | .bytes, _ => by
      unfold typeExpression
      exact forms.bytes
  | .unit, _ => by
      unfold typeExpression
      exact forms.unit
  | .anyJson, _ => by
      unfold typeExpression
      exact forms.anyJson

theorem expressions (forms : TypeForms naming admits holds) :
    ∀ fields : List Field, (∀ field ∈ fields, field.shape.Everywhere admits) →
      ∀ type ∈ fieldTypes naming fields, holds type
  | [], _ => fun _ member => absurd member List.not_mem_nil
  | ⟨_, required, _, shape⟩ :: rest, everywhere => by
      obtain ⟨first, others⟩ := List.forall_mem_cons.mp everywhere
      unfold fieldTypes
      exact List.forall_mem_cons.mpr
        ⟨forms.maybe required (expression forms shape first), expressions forms rest others⟩

end

end TypeForms

/-! ### Decoders -/

structure DecoderForms (naming : Naming) (admits : Shape → Prop) (holds : String → Prop) :
    Prop where
  primitive : ∀ kind, holds (primitiveDecoder kind)
  registered : ∀ {value entry}, naming.formatEntry? value = some entry → holds entry.decode
  reference : ∀ {name}, naming.Refers admits name → holds (naming.decoderRef name)
  delayed : ∀ {name}, naming.Refers admits name →
    holds ("Json.Decode.lazy (\\_ -> " ++ naming.decoderRef name ++ ")")
  bytes : holds "Json.Decode.fail \"binary data cannot be decoded from JSON\""
  unit : holds "Json.Decode.null ()"
  anyJson : holds "Json.Decode.value"
  nullable : ∀ {inner}, holds inner → holds (common "decodeNullable" ++ " " ++ atom inner)
  list : ∀ {inner}, holds inner → holds ("Json.Decode.list " ++ atom inner)
  dict : ∀ {inner}, holds inner → holds ("Json.Decode.dict " ++ atom inner)
  pipeline : ∀ fields decoders, (∀ decoder ∈ decoders, holds decoder) →
    holds (decodingPipeline false fields decoders)

namespace DecoderForms

variable {holds : String → Prop}

mutual

theorem decoder (forms : DecoderForms naming admits holds) :
    ∀ shape : Shape, shape.Everywhere admits →
      Returns (Elm.decoder naming shape : Run σ String) holds
  | .nullable inner, everywhere => by
      unfold Elm.decoder
      exact (decoder forms inner (Shape.everywhere_nullable_iff.mp everywhere).2).map
        fun _ found => forms.nullable found
  | .object fields, everywhere => by
      unfold Elm.decoder
      exact (decoders forms fields (Shape.everywhere_object_iff.mp everywhere).2).map
        fun _ found => forms.pipeline fields _ found
  | .primitive value, _ => by
      unfold Elm.decoder
      split
      case h_1 entry found => exact .pure (forms.registered found)
      case h_2 => exact .pure (forms.primitive value.kind)
  | .list inner, everywhere => by
      unfold Elm.decoder
      exact (decoder forms inner (Shape.everywhere_list_iff.mp everywhere).2).map
        fun _ found => forms.list found
  | .dict inner, everywhere => by
      unfold Elm.decoder
      exact (decoder forms inner (Shape.everywhere_dict_iff.mp everywhere).2).map
        fun _ found => forms.dict found
  | .union name variants, everywhere => by
      unfold Elm.decoder
      exact .pure (forms.reference (.union everywhere.here))
  | .enum values, _ => by
      unfold Elm.decoder
      split
      case h_1 name found => exact .pure (forms.reference (.enum found))
      case h_2 => exact .pure (forms.primitive .string)
  | .ref target, _ => by
      unfold Elm.decoder
      exact .pure (forms.delayed (.component target))
  | .bytes, _ => by
      unfold Elm.decoder
      exact .placeholderOr forms.bytes
  | .unit, _ => by
      unfold Elm.decoder
      exact .pure forms.unit
  | .anyJson, _ => by
      unfold Elm.decoder
      exact .pure forms.anyJson

theorem decoders (forms : DecoderForms naming admits holds) :
    ∀ fields : List Field, (∀ field ∈ fields, field.shape.Everywhere admits) →
      Returns (fieldDecoders naming fields : Run σ (List String))
        fun decoders => ∀ decoder ∈ decoders, holds decoder
  | [], _ => by
      unfold fieldDecoders
      exact .pure fun _ member => absurd member List.not_mem_nil
  | ⟨key, _, _, shape⟩ :: rest, everywhere => by
      obtain ⟨first, others⟩ := List.forall_mem_cons.mp everywhere
      unfold fieldDecoders
      refine .bind (.withPath key (decoder forms shape first)) fun _ found => ?_
      exact (decoders forms rest others).map fun _ later => List.forall_mem_cons.mpr ⟨found, later⟩

end

end DecoderForms

/-! ### Encoders -/

/-- Every form of an encoder has the property of its depth if what stands inside has that of
its own depth. -/
structure EncoderForms (naming : Naming) (admits : Shape → Prop) (holds : Nat → String → Prop) :
    Prop where
  primitive : ∀ depth kind, holds depth (primitiveEncoder kind)
  registered : ∀ {depth value entry}, naming.formatEntry? value = some entry →
    holds depth entry.encode
  reference : ∀ {depth name}, naming.Refers admits name → holds depth (naming.encoderRef name)
  discard : ∀ depth, holds depth discardEncoder
  anyJson : ∀ depth, holds depth "identity"
  nullable : ∀ {depth inner}, holds depth inner →
    holds depth (common "encodeNullable" ++ " " ++ atom inner)
  list : ∀ {depth inner}, holds depth inner → holds depth ("Json.Encode.list " ++ atom inner)
  dict : ∀ {depth inner}, holds depth inner →
    holds depth ("Json.Encode.dict identity " ++ atom inner)
  object : ∀ depth fields encoders, (∀ encoder ∈ encoders, holds (depth + 1) encoder) →
    holds depth ("(\\" ++ recordVariable depth
      ++ " -> Json.Encode.object (List.filterMap identity "
      ++ Elm.list (encodingEntries depth fields encoders) ++ "))")

namespace EncoderForms

variable {holds : Nat → String → Prop}

mutual

theorem encoder (forms : EncoderForms naming admits holds) (depth : Nat) :
    ∀ shape : Shape, shape.Everywhere admits →
      Returns (Elm.encoder naming depth shape : Run σ String) (holds depth)
  | .nullable inner, everywhere => by
      unfold Elm.encoder
      exact (encoder forms depth inner (Shape.everywhere_nullable_iff.mp everywhere).2).map
        fun _ found => forms.nullable found
  | .object fields, everywhere => by
      unfold Elm.encoder
      exact (encoders forms (depth + 1) fields (Shape.everywhere_object_iff.mp everywhere).2).map
        fun _ found => forms.object depth fields _ found
  | .primitive value, _ => by
      unfold Elm.encoder
      split
      case h_1 entry found => exact .pure (forms.registered found)
      case h_2 => exact .pure (forms.primitive depth value.kind)
  | .list inner, everywhere => by
      unfold Elm.encoder
      exact (encoder forms depth inner (Shape.everywhere_list_iff.mp everywhere).2).map
        fun _ found => forms.list found
  | .dict inner, everywhere => by
      unfold Elm.encoder
      exact (encoder forms depth inner (Shape.everywhere_dict_iff.mp everywhere).2).map
        fun _ found => forms.dict found
  | .union name variants, everywhere => by
      unfold Elm.encoder
      exact .pure (forms.reference (.union everywhere.here))
  | .enum values, _ => by
      unfold Elm.encoder
      split
      case h_1 name found => exact .pure (forms.reference (.enum found))
      case h_2 => exact .pure (forms.primitive depth .string)
  | .ref target, _ => by
      unfold Elm.encoder
      exact .pure (forms.reference (.component target))
  | .bytes, _ => by
      unfold Elm.encoder
      exact .placeholderOr (forms.discard depth)
  | .unit, _ => by
      unfold Elm.encoder
      exact .pure (forms.discard depth)
  | .anyJson, _ => by
      unfold Elm.encoder
      exact .pure (forms.anyJson depth)

theorem encoders (forms : EncoderForms naming admits holds) (depth : Nat) :
    ∀ fields : List Field, (∀ field ∈ fields, field.shape.Everywhere admits) →
      Returns (fieldEncoders naming depth fields : Run σ (List String))
        fun encoders => ∀ encoder ∈ encoders, holds depth encoder
  | [], _ => by
      unfold fieldEncoders
      exact .pure fun _ member => absurd member List.not_mem_nil
  | ⟨key, _, _, shape⟩ :: rest, everywhere => by
      obtain ⟨first, others⟩ := List.forall_mem_cons.mp everywhere
      unfold fieldEncoders
      refine .bind (.withPath key (encoder forms depth shape first)) fun _ found => ?_
      exact (encoders forms depth rest others).map fun _ later =>
        List.forall_mem_cons.mpr ⟨found, later⟩

end

end EncoderForms

end ElmClient.Elm
