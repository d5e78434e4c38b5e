/-
Declarations for components and for the enums and unions found in the document:
types, decoders and encoders. A component whose whole schema is an enum or union
is declared as that; a component that leads back to itself becomes a custom type
of one constructor, because Elm refuses recursive aliases.
-/

import ElmClient.Elm.Codec
import ElmClient.Elm.Recursion

namespace ElmClient.Elm

variable {σ : Type}

/-! ### Components -/

def typeDeclaration (naming : Naming) (component : Component) (recursive : Bool) :
    Declaration :=
  let name := component.name.text
  let body :=
    match component.shape with
    | .object (field :: fields) => tallRecord (recordEntries naming (field :: fields)) ":"
    | other => typeExpression naming other
  if recursive then
    Declaration.customType name component.doc
      ("type " ++ name ++ "\n    = " ++ name ++ "\n" ++ indent (atom body) 2)
  else
    Declaration.value name component.doc ("type alias " ++ name ++ " =\n" ++ indent body 1)

def decoderHeader (name own : String) : String :=
  name ++ " : Json.Decode.Decoder " ++ own ++ "\n" ++ name ++ " =\n"

def decoderDeclaration (naming : Naming) (component : Component) (recursive : Bool) :
    Run σ Declaration := do
  let own := naming.typeRef component.name
  let name := component.name.decoderName
  let body ←
    match component.shape with
    | .object fields => do
        pure (decodingPipeline true fields (← fieldDecoders naming fields))
    | other => decoder naming other
  let body :=
    if recursive then
      "Json.Decode.map " ++ own ++ "\n    (" ++ Text.trimStart (indent body 1) ++ "\n    )"
    else body
  return Declaration.value name none (decoderHeader name own ++ indent body 1)

def encoderHeader (name own argument : String) : String :=
  name ++ " : " ++ own ++ " -> Json.Encode.Value\n" ++ name ++ " " ++ argument ++ " =\n"

/-- A variable that the constructor of a recursive component is taken off. -/
def encoderArgument (own variableName : String) (recursive : Bool) : String :=
  if recursive then "(" ++ own ++ " " ++ variableName ++ ")" else variableName

def objectEncoderBody (entries : List String) : String :=
  "Json.Encode.object\n    (List.filterMap identity" ++ leadLines "        [ " "        , " entries
    ++ "\n        ]\n    )"

def encoderDeclaration (naming : Naming) (component : Component) (recursive : Bool) :
    Run σ Declaration := do
  let own := naming.typeRef component.name
  let name := component.name.encoderName
  match component.shape with
  | .object (field :: fields) => do
      let entries ← objectEntries naming (field :: fields) 0
      return Declaration.value name none
        (encoderHeader name own (encoderArgument own "rec" recursive)
          ++ indent (objectEncoderBody entries) 1)
  | other => do
      let function ← encoder naming 1 other
      return Declaration.value name none
        (encoderHeader name own (encoderArgument own "value" recursive)
          ++ "    " ++ atom function ++ " value")

/-- Type, decoder and encoder of a component; none when its type is written as its
own name, as an enum or union that it owns is, which is declared elsewhere. -/
def componentDeclarations (naming : Naming) (component : Component) : Run σ (List Grouped) := do
  if typeExpression naming component.shape = naming.typeRef component.name then return []
  else
    let recursive := naming.isRecursive component.name component.shape
    let decoder ← decoderDeclaration naming component recursive
    let encoder ← encoderDeclaration naming component recursive
    return [(.types, typeDeclaration naming component recursive), (.decoders, decoder),
      (.encoders, encoder)]

/-! ### Enums -/

def enumConstructors (name : TypeName) (values : List String) : List (TypeName × String) :=
  (Fresh.assign TypeName.withSuffix (values.map name.child)).zip values

def enumToString (name : TypeName) : String :=
  name.toValueName ++ "ToString"

def enumFromString (name : TypeName) : String :=
  name.toValueName ++ "FromString"

def enumVariants (name : TypeName) : String :=
  name.toValueName ++ "Variants"

def caseBranch (pattern body : String) : String :=
  "\n        " ++ pattern ++ " ->\n            " ++ body

def caseHeader (name signature : String) : String :=
  name ++ " : " ++ signature ++ "\n" ++ name ++ " value =\n    case value of"

def customTypeSource (name : TypeName) (constructors : List String) : String :=
  "type " ++ name.text ++ leadLines "    = " "    | " constructors

def enumDeclarations (naming : Naming) (name : TypeName) (values : List String) : List Grouped :=
  let constructors := enumConstructors name values
  let own := naming.typeRef name
  let toText := enumToString name
  let ofText := enumFromString name
  let variants := enumVariants name
  let names := constructors.map fun constructor => constructor.1.text
  let toBranches := constructors.map fun constructor =>
    caseBranch constructor.1.text (stringLiteral constructor.2)
  let ofBranches := constructors.map fun constructor =>
    caseBranch (stringLiteral constructor.2) ("Just " ++ constructor.1.text)
  [(.types, Declaration.customType name.text none (customTypeSource name names)),
    (.types, Declaration.value toText none
      (caseHeader toText (own ++ " -> String") ++ Text.join "\n" toBranches)),
    (.types, Declaration.value ofText none
      (caseHeader ofText ("String -> Maybe " ++ own)
        ++ Text.join "\n" (ofBranches ++ [caseBranch "_" "Nothing"]))),
    (.types, Declaration.value variants none
      (variants ++ " : List " ++ own ++ "\n" ++ variants ++ " =\n    " ++ list names)),
    (.decoders, Declaration.value name.decoderName none
      (decoderHeader name.decoderName own ++ "    " ++ common "decodeEnum" ++ " "
        ++ stringLiteral name.text ++ " " ++ naming.qualified .types ofText)),
    (.encoders, Declaration.value name.encoderName none
      (encoderHeader name.encoderName own "value" ++ "    Json.Encode.string ("
        ++ naming.qualified .types toText ++ " value)"))]

/-! ### Unions -/

def variantConstructor (naming : Naming) (variant : Variant) : String :=
  if variant.shape.isUnit then variant.name.text
  else variant.name.text ++ " " ++ atom (typeExpression naming variant.shape)

/-- The alternative that decodes a variant and the branch that encodes it. -/
def variantCodec (naming : Naming) (variant : Variant) : Run σ (String × String) :=
  Run.withPath variant.name.text do
    let constructor := naming.typeRef variant.name
    if variant.shape.isUnit then
      return ("Json.Decode.null " ++ constructor,
        constructor ++ " ->\n            Json.Encode.null")
    else
      let decode ← decoder naming variant.shape
      let encode ← encoder naming 1 variant.shape
      return ("Json.Decode.map " ++ constructor ++ " " ++ atom decode,
        constructor ++ " inner ->\n            " ++ atom encode ++ " inner")

def unionDeclarations (naming : Naming) (union : Union) : Run σ (List Grouped) := do
  let name := union.name
  let own := naming.typeRef name
  let codecs ← Run.traverse (variantCodec naming) union.variants
  let constructors := union.variants.map (variantConstructor naming)
  let branches := codecs.map fun codec => "        " ++ codec.2
  return [(.types, Declaration.customType name.text none (customTypeSource name constructors)),
    (.decoders, Declaration.value name.decoderName none
      (decoderHeader name.decoderName own ++ "    Json.Decode.oneOf"
        ++ leadLines "        [ " "        , " (codecs.map Prod.fst) ++ "\n        ]")),
    (.encoders, Declaration.value name.encoderName none
      (encoderHeader name.encoderName own "value" ++ "    case value of\n"
        ++ Text.join "\n\n" branches))]

def declaredDeclarations (naming : Naming) : Declared → Run σ (List Grouped)
  | .enum name values => return enumDeclarations naming name values
  | .union union => Run.withPath union.name.text (unionDeclarations naming union)

def discoveredDeclarations (naming : Naming) : Run σ (List Grouped) := do
  return (← Run.traverse (declaredDeclarations naming) naming.declared.declarations).flatten

end ElmClient.Elm
