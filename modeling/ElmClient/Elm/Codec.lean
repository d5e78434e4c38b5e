/-
Type annotations, decoders and encoders of shapes. Nested expressions stand on
one line, in parentheses where they are arguments. Variables carry the nesting
depth, so no inner lambda hides a variable of an outer one.
-/

import ElmClient.Elm.Layout
import ElmClient.Elm.Naming
import ElmClient.Run

namespace ElmClient.Elm

variable {σ : Type}

/-! ### Fields -/

/-- The field names of a record, numbered where keys are sanitized alike. -/
def recordNames (fields : List Field) : List String :=
  Fresh.assign Fresh.appendNumber (fields.map fun field => Name.toValueName field.key)

def maybeUnless (required : Bool) (inner : String) : String :=
  if required then inner else "Maybe " ++ atom inner

/-! ### Annotations -/

def primitiveType : PrimitiveKind → String
  | .string => "String"
  | .integer => "Int"
  | .number => "Float"
  | .boolean => "Bool"

mutual

def typeExpression (naming : Naming) : Shape → String
  | .nullable inner => common "Nullable" ++ " " ++ atom (typeExpression naming inner)
  | .object fields =>
      record ((recordNames fields).zip (fieldTypes naming fields)) ":"
  | .primitive value =>
      match naming.formatEntry? value with
      | some entry => entry.elmType
      | none => primitiveType value.kind
  | .list inner => "List " ++ atom (typeExpression naming inner)
  | .dict inner => "Dict.Dict String " ++ atom (typeExpression naming inner)
  | .union name _ => naming.typeRef (naming.unionName name)
  | .enum values =>
      match naming.enumName? values with
      | some name => naming.typeRef name
      | none => "String"
  | .ref target => naming.typeRef target.typeName
  | .bytes => "Bytes.Bytes"
  | .unit => "()"
  | .anyJson => "Json.Encode.Value"

def fieldTypes (naming : Naming) : List (FieldOf Shape) → List String
  | [] => []
  | ⟨_, required, _, shape⟩ :: rest =>
      maybeUnless required (typeExpression naming shape) :: fieldTypes naming rest

end

def recordEntries (naming : Naming) (fields : List Field) : List (String × String) :=
  (recordNames fields).zip (fieldTypes naming fields)

/-! ### Decoders -/

def primitiveDecoder : PrimitiveKind → String
  | .string => "Json.Decode.string"
  | .integer => "Json.Decode.int"
  | .number => "Json.Decode.float"
  | .boolean => "Json.Decode.bool"

def binaryInJson : String :=
  "binary data cannot be carried inside a JSON document"

def decodingStep (field : Field) (decoder : String) : String :=
  let reader := if field.required then "Json.Decode.field" else common "decodeOptionalField"
  "|> " ++ common "jsonDecodeAndMap" ++ " (" ++ reader ++ " " ++ stringLiteral field.key ++ " "
    ++ atom decoder ++ ")"

def recordConstructor (names : List String) : String :=
  let binders := (List.range names.length).map fun index => "v" ++ toString index
  let assignments := (names.zip binders).map fun pair => pair.1 ++ " = " ++ pair.2
  "(\\" ++ Text.join " " binders ++ " -> \x7b " ++ Text.join ", " assignments ++ " \x7d)"

/-- A decoding pipeline for the decoders of the fields, on one line or with a
field on each. -/
def decodingPipeline (tall : Bool) (fields : List Field) (decoders : List String) : String :=
  if fields.isEmpty then "Json.Decode.succeed \x7b\x7d"
  else
    let steps := (fields.zip decoders).map fun pair => decodingStep pair.1 pair.2
    let gap := if tall then "\n    " else " "
    "Json.Decode.succeed" ++ gap ++ recordConstructor (recordNames fields) ++ gap
      ++ Text.join gap steps

mutual

def decoder (naming : Naming) : Shape → Run σ String
  | .nullable inner => do
      return common "decodeNullable" ++ " " ++ atom (← decoder naming inner)
  | .object fields => do
      return decodingPipeline false fields (← fieldDecoders naming fields)
  | .primitive value =>
      match naming.formatEntry? value with
      | some entry => return entry.decode
      | none => return primitiveDecoder value.kind
  | .list inner => do
      return "Json.Decode.list " ++ atom (← decoder naming inner)
  | .dict inner => do
      return "Json.Decode.dict " ++ atom (← decoder naming inner)
  | .union name _ => return naming.decoderRef (naming.unionName name)
  | .enum values =>
      match naming.enumName? values with
      | some name => return naming.decoderRef name
      | none => return "Json.Decode.string"
  | .ref target =>
      return "Json.Decode.lazy (\\_ -> " ++ naming.decoderRef target.typeName ++ ")"
  | .bytes =>
      Run.placeholderOr binaryInJson
        "Json.Decode.fail \"binary data cannot be decoded from JSON\""
  | .unit => return "Json.Decode.null ()"
  | .anyJson => return "Json.Decode.value"

def fieldDecoders (naming : Naming) : List (FieldOf Shape) → Run σ (List String)
  | [] => return []
  | ⟨key, _, _, shape⟩ :: rest => do
      let first ← Run.withPath key (decoder naming shape)
      return first :: (← fieldDecoders naming rest)

end

/-! ### Encoders -/

def primitiveEncoder : PrimitiveKind → String
  | .string => "Json.Encode.string"
  | .integer => "Json.Encode.int"
  | .number => "Json.Encode.float"
  | .boolean => "Json.Encode.bool"

def numberedVariable (base : String) (depth : Nat) : String :=
  if depth = 0 then base else base ++ toString depth

def recordVariable (depth : Nat) : String :=
  numberedVariable "rec" depth

def valueVariable (depth : Nat) : String :=
  numberedVariable "val" depth

/-- The optional pair of key and encoded value for one field of the record at a
depth. -/
def encodingEntry (depth : Nat) (field : Field) (name encoder : String) : String :=
  let access := recordVariable depth ++ "." ++ name
  let key := stringLiteral field.key
  if field.required then
    "Just ( " ++ key ++ ", " ++ atom encoder ++ " " ++ access ++ " )"
  else
    "Maybe.map (\\" ++ valueVariable depth ++ " -> ( " ++ key ++ ", " ++ atom encoder ++ " "
      ++ valueVariable depth ++ " )) " ++ access

def encodingEntries (depth : Nat) (fields : List Field) (encoders : List String) :
    List String :=
  (fields.zip ((recordNames fields).zip encoders)).map fun entry =>
    encodingEntry depth entry.1 entry.2.1 entry.2.2

def discardEncoder : String :=
  "(\\_ -> Json.Encode.null)"

mutual

/-- The encoder of a shape as a function, its variables starting at a depth. -/
def encoder (naming : Naming) (depth : Nat) : Shape → Run σ String
  | .nullable inner => do
      return common "encodeNullable" ++ " " ++ atom (← encoder naming depth inner)
  | .object fields => do
      let entries := encodingEntries depth fields (← fieldEncoders naming (depth + 1) fields)
      return "(\\" ++ recordVariable depth ++ " -> Json.Encode.object (List.filterMap identity "
        ++ list entries ++ "))"
  | .primitive value =>
      match naming.formatEntry? value with
      | some entry => return entry.encode
      | none => return primitiveEncoder value.kind
  | .list inner => do
      return "Json.Encode.list " ++ atom (← encoder naming depth inner)
  | .dict inner => do
      return "Json.Encode.dict identity " ++ atom (← encoder naming depth inner)
  | .union name _ => return naming.encoderRef (naming.unionName name)
  | .enum values =>
      match naming.enumName? values with
      | some name => return naming.encoderRef name
      | none => return "Json.Encode.string"
  | .ref target => return naming.encoderRef target.typeName
  | .bytes => Run.placeholderOr binaryInJson discardEncoder
  | .unit => return discardEncoder
  | .anyJson => return "identity"

def fieldEncoders (naming : Naming) (depth : Nat) :
    List (FieldOf Shape) → Run σ (List String)
  | [] => return []
  | ⟨key, _, _, shape⟩ :: rest => do
      let first ← Run.withPath key (encoder naming depth shape)
      return first :: (← fieldEncoders naming depth rest)

end

/-- The entries of an object encoder that reads the record variable of a depth. -/
def objectEntries (naming : Naming) (fields : List Field) (depth : Nat) :
    Run σ (List String) := do
  return encodingEntries depth fields (← fieldEncoders naming (depth + 1) fields)

end ElmClient.Elm
