/-
Requests and whole clients under two format registries. Serializers follow references and
look unions up, so components and declared unions have to agree as well as what is sent
and received.
-/

import ElmClient.Proofs.Formats.Agreement
import ElmClient.Proofs.Helpers.Levels

namespace ElmClient

open Elm

namespace Elm

section Agreement

variable {naming : Naming} {formats : FormatRegistry}

/-- What declarations look up has the same entries: components and declared unions, where
good shapes find every union that they mention. -/
structure Naming.Agrees (naming : Naming) (formats : FormatRegistry) (good : Shape → Prop) :
    Prop extends naming.Grounded good where
  components : ∀ component ∈ naming.components, naming.AgreesOn formats component.2
  unions : naming.UnionsAgree formats

/-! ### Parameter serializers -/

namespace Stringifier

theorem ofPrimitive_agrees {value : Primitive}
    (agrees : naming.AgreesOn formats (.primitive value)) :
    ofPrimitive (naming.withFormats formats) value = ofPrimitive naming value := by
  unfold ofPrimitive
  rw [agrees.primitive]

theorem variantBranch_agrees {inner other : Shape → Run Helpers Stringifier} {variant : Variant}
    (same : inner variant.shape = other variant.shape) :
    variantBranch (naming.withFormats formats) inner variant =
      variantBranch naming other variant := by
  unfold variantBranch
  dsimp only
  split
  · rfl
  · rfl
  · rw [same]
    rfl

theorem ofUnion_agrees {inner other : Shape → Run Helpers Stringifier} {union : Union}
    (same : ∀ variant ∈ union.variants, inner variant.shape = other variant.shape) :
    ofUnion (naming.withFormats formats) inner union = ofUnion naming other union := by
  have branches : Run.traverse (variantBranch (naming.withFormats formats) inner) union.variants =
      Run.traverse (variantBranch naming other) union.variants :=
    Run.traverse_congr fun variant member => variantBranch_agrees (same variant member)
  unfold ofUnion helperSource
  rw [branches]
  rfl

variable {good : Shape → Prop} (agrees : naming.Agrees formats good)

include agrees

theorem within_agrees (levels : Nat) (follow : Bool) (shape : Shape) (holds : good shape)
    (inside : naming.AgreesOn formats shape) :
    within (naming.withFormats formats) levels follow shape =
      within naming levels follow shape := by
  induction levels generalizing follow shape with
  | zero => rfl
  | succ levels ih =>
      unfold within ofShape
      cases shape with
      | primitive value => exact ofPrimitive_agrees inside
      | list item =>
          dsimp only
          rw [ih follow item (agrees.list holds) inside.list]
      | nullable item =>
          dsimp only
          rw [ih follow item (agrees.nullable holds) inside.nullable]
      | ref target =>
          dsimp only
          cases follow with
          | false => rfl
          | true =>
              obtain ⟨component, found, known⟩ := agrees.ref holds
              rw [if_pos rfl, if_pos rfl, Naming.withFormats, found]
              exact ih false component known (agrees.components _ (Keyed.mem_of_find? found))
      | union name variants =>
          refine ofUnion_agrees fun variant member => ?_
          obtain ⟨union, declared, _⟩ := agrees.union holds
          have known := (agrees.toGrounded.variants holds variant member).1
          change variant ∈ (naming.union ⟨name, variants⟩).variants at member
          rw [Naming.union, declared] at member
          exact ih follow variant.shape known
            (agrees.unions _ (Keyed.mem_of_find? declared) variant member)
      | _ => rfl

end Stringifier

section Requests

variable {good : Shape → Prop} (agrees : naming.Agrees formats good)

include agrees

theorem stringify_agrees {shape : Shape} (holds : good shape)
    (inside : naming.AgreesOn formats shape) :
    stringify (naming.withFormats formats) shape = stringify naming shape :=
  Stringifier.within_agrees agrees _ true shape holds inside

/-! ### Parameters -/

section Field

variable {field : ParameterField} (holds : good field.parameter.shape)
  (inside : naming.AgreesOn formats field.parameter.shape)

include holds inside

theorem pairEntry_agrees :
    pairEntry (naming.withFormats formats) field = pairEntry naming field := by
  unfold pairEntry
  dsimp only
  rw [stringify_agrees agrees holds inside]

theorem interpolation_agrees :
    interpolation (naming.withFormats formats) field = interpolation naming field := by
  unfold interpolation
  dsimp only
  rw [stringify_agrees agrees holds inside]

end Field

variable {parameters : RequestParameters}
  (known : ∀ field ∈ parameters.fields, good field.parameter.shape)
  (each : ∀ field ∈ parameters.fields, naming.AgreesOn formats field.parameter.shape)

include known each

theorem pieceExpression_agrees (piece : Piece) :
    pieceExpression (naming.withFormats formats) parameters piece =
      pieceExpression naming parameters piece := by
  rcases piece with text | name
  · rfl
  · unfold pieceExpression
    dsimp only
    split
    case h_1 field found =>
      have listed : field ∈ parameters.fields :=
        List.mem_append_left _ (List.mem_append_left _ (List.mem_of_find?_eq_some found))
      exact interpolation_agrees agrees (known field listed) (each field listed)
    case h_2 => rfl

theorem segmentExpression_agrees (segment : String) :
    segmentExpression (naming.withFormats formats) parameters segment =
      segmentExpression naming parameters segment := by
  unfold segmentExpression
  split
  · rfl
  · rw [funext (pieceExpression_agrees agrees known each)]

theorem urlExpression_agrees (endpoint : Endpoint) (base : BaseUrl)
    (authorization : Authorization) :
    urlExpression (naming.withFormats formats) endpoint base authorization parameters =
      urlExpression naming endpoint base authorization parameters := by
  have entries : Run.traverse (pairEntry (naming.withFormats formats)) parameters.query =
      Run.traverse (pairEntry naming) parameters.query :=
    Run.traverse_congr fun field member =>
      have listed : field ∈ parameters.fields :=
        List.mem_append_left _ (List.mem_append_right _ member)
      pairEntry_agrees agrees (known field listed) (each field listed)
  unfold urlExpression
  rw [funext (segmentExpression_agrees agrees known each), entries]

theorem headersExpression_agrees (authorization : Authorization) :
    headersExpression (naming.withFormats formats) authorization parameters =
      headersExpression naming authorization parameters := by
  have entries : Run.traverse (pairEntry (naming.withFormats formats)) parameters.header =
      Run.traverse (pairEntry naming) parameters.header :=
    Run.traverse_congr fun field member =>
      have listed : field ∈ parameters.fields := List.mem_append_right _ member
      pairEntry_agrees agrees (known field listed) (each field listed)
  unfold headersExpression
  rw [entries]

omit agrees known in
theorem parameterEntries_agree :
    parameterEntries (naming.withFormats formats) parameters =
      parameterEntries naming parameters := by
  refine List.map_congr_left fun field member => ?_
  unfold parameterType
  rw [typeExpression_agrees _ (each field member)]

end Requests

/-! ### Bodies -/

theorem payload_agrees {payload : Payload}
    (inside : ∀ shape ∈ Packages.payloadShapes payload, naming.AgreesOn formats shape) :
    naming.AgreesOn formats payload.shape := by
  cases payload with
  | json shape => exact inside shape List.mem_cons_self
  | text =>
      intro value direct
      obtain rfl := List.mem_singleton.mp direct
      rfl
  | bytes => exact nofun
  | empty => exact nofun

theorem bodyWrapper_agrees (mediaType : String) {payload : Payload}
    (inside : naming.AgreesOn formats payload.shape) :
    bodyWrapper (naming.withFormats formats) mediaType payload =
      bodyWrapper naming mediaType payload := by
  cases payload with
  | json shape =>
      unfold bodyWrapper
      dsimp only
      rw [encoder_agrees 1 shape inside]
  | _ => rfl

section Body

variable {endpoint : Endpoint}
  (inside : ∀ body ∈ endpoint.body, naming.AgreesOn formats body.payload.shape)

include inside

theorem bodyExpression_agrees :
    bodyExpression (naming.withFormats formats) endpoint = bodyExpression naming endpoint := by
  unfold bodyExpression
  cases found : endpoint.body with
  | none => rfl
  | some body =>
      unfold presentBody
      dsimp only
      rw [bodyWrapper_agrees body.mediaType (inside body found)]

theorem inputEntries_agree (base : BaseUrl) (authorization : Authorization)
    {parameters : RequestParameters}
    (each : ∀ field ∈ parameters.fields, naming.AgreesOn formats field.parameter.shape) :
    inputEntries (naming.withFormats formats) endpoint base authorization parameters =
      inputEntries naming endpoint base authorization parameters := by
  have body : endpoint.body.bind (bodyType? (naming.withFormats formats)) =
      endpoint.body.bind (bodyType? naming) := by
    refine Option.bind_congr fun body found => ?_
    unfold bodyType?
    rw [typeExpression_agrees _ (inside body found)]
  unfold inputEntries
  rw [parameterEntries_agree each, body]

end Body

/-! ### Requests -/

theorem mem_ofPlaced {placed : List (Bucket × EndpointParameter)} {field : ParameterField}
    (member : field ∈ (RequestParameters.ofPlaced placed).fields) :
    (∃ entry ∈ placed, entry.2 = field.parameter) ∧
      field.field ∈ Fresh.assign Fresh.appendNumber
        (placed.map fun entry => Name.toValueName entry.2.name) := by
  have selected : ∀ {bucket : Bucket} {fields : List (Bucket × ParameterField)},
      field ∈ RequestParameters.select bucket fields → ∃ bucket, (bucket, field) ∈ fields := by
    intro bucket fields inBucket
    obtain ⟨⟨bucket, _⟩, kept, rfl⟩ := List.mem_map.mp inBucket
    exact ⟨bucket, (List.mem_filter.mp kept).1⟩
  have sorted : ∃ bucket, (bucket, field) ∈ (placed.zip (Fresh.assign Fresh.appendNumber
      (placed.map fun entry => Name.toValueName entry.2.name))).map fun entry =>
        (entry.1.1, ({ field := entry.2, parameter := entry.1.2 } : ParameterField)) := by
    rcases List.mem_append.mp member with member | inHeader
    · rcases List.mem_append.mp member with inPath | inQuery
      · exact selected inPath
      · exact selected inQuery
    · exact selected inHeader
  obtain ⟨bucket, listed⟩ := sorted
  obtain ⟨⟨entry, name⟩, zipped, same⟩ := List.mem_map.mp listed
  obtain ⟨-, rfl⟩ := Prod.mk.inj same
  obtain ⟨inPlaced, inNames⟩ := List.of_mem_zip zipped
  exact ⟨⟨entry, inPlaced, rfl⟩, inNames⟩

theorem partition_listed {σ : Type} (endpoint : Endpoint) :
    Run.Returns (RequestParameters.partition endpoint : Run σ RequestParameters)
      fun parameters => ∀ field ∈ parameters.fields, field.parameter ∈ endpoint.parameters := by
  have placed : Run.Returns
      (Run.traverse (RequestParameters.placed? endpoint.path) endpoint.parameters : Run σ _)
      (List.Forall₂ (fun _ entry => ∀ found ∈ entry, found.2 ∈ endpoint.parameters)
        endpoint.parameters) := by
    refine Run.Returns.traverseOf fun parameter listed => ?_
    refine Run.Returns.map (Run.Returns.any _) fun bucket _ found member => ?_
    obtain ⟨_, -, rfl⟩ := Option.map_eq_some_iff.mp member
    exact listed
  refine Run.Returns.bind placed fun entries related => ?_
  refine Run.Returns.bind (Run.Returns.any _) fun _ _ => Run.Returns.pure ?_
  intro field member
  obtain ⟨⟨entry, kept, same⟩, -⟩ := mem_ofPlaced member
  obtain ⟨_, listed, rfl⟩ := List.mem_filterMap.mp kept
  exact same ▸ Run.all_of_forall₂ related _ listed entry rfl

private theorem request_agrees {good : Shape → Prop} (agrees : naming.Agrees formats good)
    (document : Document) (base : BaseUrl) {endpoint : Endpoint}
    (known : ∀ shape ∈ Packages.endpointShapes endpoint, good shape)
    (inside : ∀ shape ∈ Packages.endpointShapes endpoint, naming.AgreesOn formats shape) :
    Request.ofEndpoint (naming.withFormats formats) document base endpoint =
      Request.ofEndpoint naming document base endpoint := by
  have responses : ∀ response ∈ endpoint.responses,
      naming.AgreesOn formats response.payload.shape := fun response member =>
    payload_agrees fun shape listed => inside shape
      (List.mem_append_right _ (List.mem_flatMap.mpr ⟨response, member, listed⟩))
  have bodies : ∀ body ∈ endpoint.body, naming.AgreesOn formats body.payload.shape :=
    fun body member => payload_agrees fun shape listed => inside shape
      (List.mem_append_left _ (List.mem_append_right _
        (List.mem_flatMap.mpr ⟨body, Option.mem_toList.mpr member, listed⟩)))
  have fields : ∀ parameters : RequestParameters,
      (∀ field ∈ parameters.fields, field.parameter ∈ endpoint.parameters) →
        ∀ field ∈ parameters.fields, field.parameter.shape ∈ Packages.endpointShapes endpoint :=
    fun parameters listed field member =>
      List.mem_append_left _ (List.mem_append_left _ (List.mem_map_of_mem (listed field member)))
  unfold Request.ofEndpoint
  rw [ResponsePlan.ofEndpoint_agrees responses, bodyExpression_agrees bodies]
  refine bind_congr fun plan => ?_
  refine Run.Returns.bind_congr ((partition_listed endpoint).withPath _) fun parameters listed => ?_
  have sent := fields parameters listed
  have held := fun field member => known _ (sent field member)
  have each := fun field member => inside _ (sent field member)
  refine bind_congr fun authorization => ?_
  rw [urlExpression_agrees agrees held each, headersExpression_agrees agrees held each,
    inputEntries_agree bodies base authorization each]

end Agreement

end Elm

namespace Client

variable {naming : Naming} {formats : FormatRegistry}

/-- What is declared depends on formats through the shapes that packages are collected
from, the components and the declared unions only. -/
theorem declare_agrees {good : Shape → Prop} (agrees : naming.Agrees formats good)
    (config : Config) (document : Document) {api : Api}
    (known : ∀ shape ∈ Packages.apiShapes api, good shape)
    (inside : ∀ shape ∈ Packages.apiShapes api, naming.AgreesOn formats shape) :
    declare (naming.withFormats formats) { config with formats := formats } document api =
      declare naming config document api := by
  have components : Run.traverse (ofComponent (naming.withFormats formats)) api.components =
      Run.traverse (ofComponent naming) api.components :=
    Run.traverse_congr fun component member => congrArg (Run.withPath component.raw)
      (componentDeclarations_agrees
        (inside _ (List.mem_append_left _ (List.mem_map_of_mem member))))
  have endpoints : ∀ base,
      Run.traverse (ofEndpoint (naming.withFormats formats) { config with formats := formats }
          document base) api.endpoints =
        Run.traverse (ofEndpoint naming config document base) api.endpoints := by
    refine fun base => Run.traverse_congr fun endpoint member => ?_
    unfold ofEndpoint
    have listed : ∀ shape ∈ Packages.endpointShapes endpoint, shape ∈ Packages.apiShapes api :=
      fun shape sent =>
        List.mem_append_right _ (List.mem_flatMap.mpr ⟨endpoint, member, sent⟩)
    rw [request_agrees agrees document base (fun shape sent => known shape (listed shape sent))
      fun shape sent => inside shape (listed shape sent)]
  unfold declare
  rw [components, discoveredDeclarations_agrees agrees.unions]
  simp only [endpoints]
  rfl

end Client

end ElmClient
