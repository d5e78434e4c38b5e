/-
Writing declarations is made of basic runs: codecs, parameter serializers with the
helpers they store, responses, authorization and whole requests. So a property that
runs pass on holds of all of it, if it also holds of storing a helper.
-/

import ElmClient.Client
import ElmClient.Proofs.Closed.Run

namespace ElmClient.Elm

open Run

/-- Basic runs that leave the store alone have the property, looking into the store and
adding the helper of a union to it have it, and it is kept in composing runs. -/
structure HelperClosed (Holds : ∀ {α : Type}, Run Helpers α → Prop) : Prop
    extends Closed Holds where
  getStore : Holds (Run.getStore : Run Helpers Helpers)
  remember : ∀ (union : Union) (source : String),
    Holds (Run.getStore >>= fun helpers =>
      Run.setStore (Keyed.insert (Stringifier.helperName union)
        (Declaration.value (Stringifier.helperName union) none source) helpers))

section General

variable {σ : Type} {Holds : ∀ {α : Type}, Run σ α → Prop} (closed : Closed Holds)

include closed

/-! ### Codecs -/

mutual

theorem decoder_closed (naming : Naming) :
    ∀ shape : Shape, Holds (decoder naming shape : Run σ String)
  | .nullable inner => by
      unfold decoder
      exact closed.map _ (decoder_closed naming inner)
  | .object fields => by
      unfold decoder
      exact closed.map _ (fieldDecoders_closed naming fields)
  | .primitive value => by
      unfold decoder
      split <;> exact closed.pure _
  | .list inner => by
      unfold decoder
      exact closed.map _ (decoder_closed naming inner)
  | .dict inner => by
      unfold decoder
      exact closed.map _ (decoder_closed naming inner)
  | .union name variants => by
      unfold decoder
      exact closed.pure _
  | .enum values => by
      unfold decoder
      split <;> exact closed.pure _
  | .ref target => by
      unfold decoder
      exact closed.pure _
  | .bytes => by
      unfold decoder
      exact closed.placeholderOr _ _
  | .unit => by
      unfold decoder
      exact closed.pure _
  | .anyJson => by
      unfold decoder
      exact closed.pure _

theorem fieldDecoders_closed (naming : Naming) :
    ∀ fields : List (FieldOf Shape), Holds (fieldDecoders naming fields : Run σ (List String))
  | [] => by
      unfold fieldDecoders
      exact closed.pure _
  | ⟨key, required, doc, shape⟩ :: rest => by
      unfold fieldDecoders
      apply closed.bind (closed.withPath key (decoder_closed naming shape))
      intro first
      exact closed.map _ (fieldDecoders_closed naming rest)

end

mutual

theorem encoder_closed (naming : Naming) (depth : Nat) :
    ∀ shape : Shape, Holds (encoder naming depth shape : Run σ String)
  | .nullable inner => by
      unfold encoder
      exact closed.map _ (encoder_closed naming depth inner)
  | .object fields => by
      unfold encoder
      exact closed.map _ (fieldEncoders_closed naming (depth + 1) fields)
  | .primitive value => by
      unfold encoder
      split <;> exact closed.pure _
  | .list inner => by
      unfold encoder
      exact closed.map _ (encoder_closed naming depth inner)
  | .dict inner => by
      unfold encoder
      exact closed.map _ (encoder_closed naming depth inner)
  | .union name variants => by
      unfold encoder
      exact closed.pure _
  | .enum values => by
      unfold encoder
      split <;> exact closed.pure _
  | .ref target => by
      unfold encoder
      exact closed.pure _
  | .bytes => by
      unfold encoder
      exact closed.placeholderOr _ _
  | .unit => by
      unfold encoder
      exact closed.pure _
  | .anyJson => by
      unfold encoder
      exact closed.pure _

theorem fieldEncoders_closed (naming : Naming) (depth : Nat) :
    ∀ fields : List (FieldOf Shape),
      Holds (fieldEncoders naming depth fields : Run σ (List String))
  | [] => by
      unfold fieldEncoders
      exact closed.pure _
  | ⟨key, required, doc, shape⟩ :: rest => by
      unfold fieldEncoders
      apply closed.bind (closed.withPath key (encoder_closed naming depth shape))
      intro first
      exact closed.map _ (fieldEncoders_closed naming depth rest)

end

theorem objectEntries_closed (naming : Naming) (fields : List Field) (depth : Nat) :
    Holds (objectEntries naming fields depth : Run σ (List String)) :=
  closed.map _ (fieldEncoders_closed closed naming (depth + 1) fields)

/-! ### Types -/

theorem decoderDeclaration_closed (naming : Naming) (component : Component)
    (recursive : Bool) :
    Holds (decoderDeclaration naming component recursive : Run σ Declaration) := by
  unfold decoderDeclaration
  dsimp only
  split
  · exact closed.bind (fieldDecoders_closed closed naming _) fun _ => closed.pure _
  · exact closed.map _ (decoder_closed closed naming _)

theorem encoderDeclaration_closed (naming : Naming) (component : Component)
    (recursive : Bool) :
    Holds (encoderDeclaration naming component recursive : Run σ Declaration) := by
  unfold encoderDeclaration
  dsimp only
  split
  · exact closed.map _ (objectEntries_closed closed naming _ 0)
  · exact closed.map _ (encoder_closed closed naming 1 _)

theorem componentDeclarations_closed (naming : Naming) (component : Component) :
    Holds (componentDeclarations naming component : Run σ (List Grouped)) := by
  unfold componentDeclarations
  split
  · exact closed.pure _
  · apply closed.bind (decoderDeclaration_closed closed naming component _)
    intro decoder
    exact closed.map _ (encoderDeclaration_closed closed naming component _)

theorem variantCodec_closed (naming : Naming) (variant : Variant) :
    Holds (variantCodec naming variant : Run σ (String × String)) := by
  apply closed.withPath
  dsimp only
  split
  · exact closed.pure _
  · apply closed.bind (decoder_closed closed naming _)
    intro decode
    exact closed.map _ (encoder_closed closed naming 1 _)

theorem unionDeclarations_closed (naming : Naming) (union : Union) :
    Holds (unionDeclarations naming union : Run σ (List Grouped)) :=
  closed.map _ (closed.traverse (variantCodec_closed closed naming) _)

theorem declaredDeclarations_closed (naming : Naming) (declared : Declared) :
    Holds (declaredDeclarations naming declared : Run σ (List Grouped)) := by
  cases declared with
  | enum name values => exact closed.pure _
  | union union => exact closed.withPath _ (unionDeclarations_closed closed naming union)

theorem discoveredDeclarations_closed (naming : Naming) :
    Holds (discoveredDeclarations naming : Run σ (List Grouped)) :=
  closed.map _ (closed.traverse (declaredDeclarations_closed closed naming) _)

/-! ### Parameters -/

namespace RequestParameters

theorem bucket?_closed (template : String) (parameter : EndpointParameter) :
    Holds (bucket? template parameter : Run σ (Option Bucket)) := by
  unfold bucket?
  dsimp only
  split
  · split
    · exact closed.fail _
    · split
      · exact closed.placeholderOr _ _
      · exact closed.pure _
  · exact closed.pure _
  · exact closed.pure _
  · exact closed.placeholderOr _ _

theorem checkVariables_closed (path : List ParameterField) :
    ∀ names, Holds (checkVariables path names : Run σ Unit)
  | [] => closed.pure ()
  | variableName :: rest => by
      unfold checkVariables
      split
      · exact checkVariables_closed path rest
      · exact closed.fail _

theorem partition_closed (endpoint : Endpoint) :
    Holds (partition endpoint : Run σ RequestParameters) := by
  unfold partition
  apply closed.bind
  · exact closed.traverse (fun parameter => closed.map _ (bucket?_closed closed _ parameter)) _
  · intro placed
    exact closed.map _ (checkVariables_closed closed _ _)

end RequestParameters

/-! ### Responses -/

namespace ResponsePlan

theorem errorHandler_closed (naming : Naming) (payload : Payload) :
    Holds (errorHandler naming payload : Run σ String) := by
  cases payload with
  | json shape => exact closed.map _ (decoder_closed closed naming shape)
  | text => exact closed.pure _
  | bytes => exact closed.pure _
  | empty => exact closed.pure _

theorem statusHandler_closed (naming : Naming) (response : EndpointResponse) :
    Holds (statusHandler naming response : Run σ (String × String)) :=
  closed.map _ (closed.withPath _ (errorHandler_closed closed naming _))

theorem wrappedHandler_closed (naming : Naming) (endpoint : Endpoint)
    (response : EndpointResponse) :
    Holds (wrappedHandler naming endpoint response : Run σ (String × String)) := by
  unfold wrappedHandler
  dsimp only
  apply closed.bind (closed.withPath _ (errorHandler_closed closed naming _))
  intro handler
  exact closed.pure _

theorem errorPlan_closed (naming : Naming) (endpoint : Endpoint)
    (errors : List EndpointResponse) :
    Holds (errorPlan naming endpoint errors : Run σ ErrorPlan) := by
  unfold errorPlan
  split
  · exact closed.pure _
  · exact closed.map _ (closed.traverse (statusHandler_closed closed naming) _)
  · exact closed.map _ (closed.traverse (wrappedHandler_closed closed naming endpoint) _)

theorem expectation_closed (naming : Naming) (table : String) (payload : Payload) :
    Holds (expectation naming table payload : Run σ (String × String)) := by
  cases payload with
  | json shape => exact closed.map _ (decoder_closed closed naming shape)
  | text => exact closed.pure _
  | bytes => exact closed.pure _
  | empty => exact closed.pure _

theorem split_closed (endpoint : Endpoint) :
    Holds (split endpoint : Run σ (EndpointResponse × List EndpointResponse)) := by
  unfold ResponsePlan.split
  split
  · exact closed.pure _
  · exact closed.fail _

theorem ofEndpoint_closed (naming : Naming) (endpoint : Endpoint) :
    Holds (ofEndpoint naming endpoint : Run σ ResponsePlan) := by
  unfold ofEndpoint
  apply closed.bind (split_closed closed endpoint)
  rintro ⟨success, errors⟩
  apply closed.bind (errorPlan_closed closed naming endpoint errors)
  intro plan
  exact closed.bind (closed.withPath _ (expectation_closed closed naming _ _)) fun _ =>
    closed.pure _

end ResponsePlan

/-! ### Authorization -/

namespace Authorization

theorem firstRequirement_closed (level : String) (requirements : List SecurityRequirement) :
    Holds (firstRequirement level requirements : Run σ (List String)) := by
  unfold firstRequirement
  dsimp only
  split
  · apply closed.bind (closed.placeholderOr _ _)
    intro placed
    split <;> exact closed.pure _
  · split <;> exact closed.pure _

theorem levelNames_closed (level : String) (requirements : Option (List SecurityRequirement)) :
    Holds (levelNames level requirements : Run σ (List String)) := by
  cases requirements with
  | none => exact closed.pure _
  | some requirements => exact firstRequirement_closed closed level requirements

theorem schemeNames_closed (document : Document) (endpoint : Endpoint) :
    Holds (schemeNames document endpoint : Run σ (List String)) := by
  unfold schemeNames
  split
  · exact closed.pure _
  · apply closed.bind (levelNames_closed closed _ _)
    intro own
    exact closed.map _ (levelNames_closed closed _ _)

theorem keyName_closed (name : String) (scheme : SecurityScheme) :
    Holds (keyName name scheme : Run σ String) := by
  unfold keyName
  split
  · exact closed.pure _
  · exact closed.fail _

theorem placement_closed (name : String) (scheme : SecurityScheme) :
    Holds (placement name scheme : Run σ Placement) := by
  unfold placement
  split
  · exact closed.map _ (keyName_closed closed name scheme)
  · exact closed.map _ (keyName_closed closed name scheme)
  · exact closed.pure _
  · exact closed.pure _

theorem addHeader_closed (progress : Progress) (name field header lead : String) :
    Holds (addHeader progress name field header lead : Run σ Progress) := by
  unfold addHeader
  dsimp only
  split
  · exact closed.fail _
  · exact closed.pure _

theorem addScheme_closed (document : Document) (progress : Progress) (name : String) :
    Holds (addScheme document progress name : Run σ Progress) := by
  unfold addScheme
  split
  · exact closed.fail _
  · dsimp only
    apply closed.bind (placement_closed closed name _)
    intro placed
    cases placed with
    | header header lead => exact addHeader_closed closed progress name _ header lead
    | query key => exact closed.pure _
    | unsupported => exact closed.placeholderOr _ _

theorem addSchemes_closed (document : Document) :
    ∀ names progress, Holds (addSchemes document progress names : Run σ Progress)
  | [], progress => closed.pure progress
  | name :: rest, progress =>
      closed.bind (addScheme_closed closed document progress name) fun added =>
        addSchemes_closed document rest added

theorem ofEndpoint_closed (document : Document) (endpoint : Endpoint) :
    Holds (ofEndpoint document endpoint : Run σ Authorization) := by
  apply closed.withPath
  apply closed.bind (schemeNames_closed closed document endpoint)
  intro names
  exact closed.map _ (addSchemes_closed closed document names _)

end Authorization

end General

section Bodies

variable {Holds : ∀ {α : Type}, Run Helpers α → Prop} (closed : Closed Holds)

include closed

/-! ### Request bodies -/

theorem bodyWrapper_closed (naming : Naming) (mediaType : String) (payload : Payload) :
    Holds (bodyWrapper naming mediaType payload) := by
  cases payload with
  | json shape =>
      unfold bodyWrapper
      apply closed.bind (encoder_closed closed naming 1 shape)
      intro encode
      dsimp only
      split <;> exact closed.pure _
  | text => exact closed.pure _
  | bytes => exact closed.pure _
  | empty => exact closed.pure _

theorem presentBody_closed (naming : Naming) (body : EndpointBody) :
    Holds (presentBody naming body) := by
  unfold presentBody
  apply closed.bind (bodyWrapper_closed closed naming _ _)
  intro wrapper
  dsimp only
  split <;> exact closed.pure _

theorem bodyExpression_closed (naming : Naming) (endpoint : Endpoint) :
    Holds (bodyExpression naming endpoint) := by
  unfold bodyExpression
  split
  · split
    · exact closed.pure _
    · exact presentBody_closed closed naming _
  · exact closed.pure _

end Bodies

section Storing

variable {Holds : ∀ {α : Type}, Run Helpers α → Prop} (closed : HelperClosed Holds)

include closed

/-! ### Parameter serializers -/

namespace Stringifier

theorem unsupported_closed (shape : Shape) : Holds (unsupported shape) :=
  closed.placeholderOr _ _

theorem ofPrimitive_closed (naming : Naming) (primitive : Primitive) :
    Holds (ofPrimitive naming primitive) := by
  unfold ofPrimitive
  split
  · split
    · exact closed.pure _
    · exact closed.placeholderOr _ _
  · exact closed.pure _

theorem variantBranch_closed (naming : Naming) {inner : Shape → Run Helpers Stringifier}
    (each : ∀ shape, Holds (inner shape)) (variant : Variant) :
    Holds (variantBranch naming inner variant) := by
  unfold variantBranch
  dsimp only
  split
  · exact closed.placeholderOr _ _
  · exact closed.pure _
  · apply closed.bind (each _)
    intro found
    cases found with
    | always function => exact closed.pure _
    | sometimes function => exact closed.placeholderOr _ _

theorem helperSource_closed (naming : Naming) {inner : Shape → Run Helpers Stringifier}
    (each : ∀ shape, Holds (inner shape)) (union : Union) :
    Holds (helperSource naming inner union) :=
  closed.map _ (closed.traverse (variantBranch_closed closed naming each) _)

theorem ofUnion_closed (naming : Naming) {inner : Shape → Run Helpers Stringifier}
    (each : ∀ shape, Holds (inner shape)) (union : Union) :
    Holds (ofUnion naming inner union) := by
  unfold ofUnion
  dsimp only
  apply closed.bind closed.getStore
  intro helpers
  split
  · apply closed.bind (helperSource_closed closed naming each union)
    intro source
    rw [← bind_assoc]
    exact closed.bind (closed.remember union source) fun _ => closed.pure _
  · exact closed.pure _

theorem ofShape_closed (naming : Naming) {inner : Bool → Shape → Run Helpers Stringifier}
    (each : ∀ follow shape, Holds (inner follow shape)) (follow : Bool) (shape : Shape) :
    Holds (ofShape naming inner follow shape) := by
  unfold ofShape
  split
  · exact ofPrimitive_closed closed naming _
  · exact closed.pure _
  · apply closed.bind (each follow _)
    intro found
    cases found with
    | always function => exact closed.pure _
    | sometimes function => exact unsupported_closed closed _
  · exact closed.map _ (each follow _)
  · split
    · split
      · exact each false _
      · exact closed.fail _
    · exact unsupported_closed closed _
  · exact ofUnion_closed closed naming (each follow) _
  · exact unsupported_closed closed _

theorem within_closed (naming : Naming) :
    ∀ levels follow shape, Holds (within naming levels follow shape) := by
  intro levels
  induction levels with
  | zero =>
      intro follow shape
      exact closed.fail _
  | succ levels ih =>
      intro follow shape
      exact ofShape_closed closed naming ih follow shape

end Stringifier

theorem stringify_closed (naming : Naming) (shape : Shape) : Holds (stringify naming shape) :=
  Stringifier.within_closed closed naming _ true shape

/-! ### Paths, queries and headers -/

theorem pairEntry_closed (naming : Naming) (field : ParameterField) :
    Holds (pairEntry naming field) := by
  unfold pairEntry
  dsimp only
  apply closed.bind (closed.withPath _ (stringify_closed closed naming _))
  intro function
  split <;> exact closed.pure _

theorem interpolation_closed (naming : Naming) (field : ParameterField) :
    Holds (interpolation naming field) := by
  unfold interpolation
  dsimp only
  apply closed.bind (closed.withPath _ (stringify_closed closed naming _))
  intro function
  exact closed.pure _

theorem pieceExpression_closed (naming : Naming) (parameters : RequestParameters)
    (piece : Piece) : Holds (pieceExpression naming parameters piece) := by
  rcases piece with text | name
  · exact closed.pure _
  · unfold pieceExpression
    dsimp only
    split
    · exact interpolation_closed closed naming _
    · exact closed.pure _

theorem segmentExpression_closed (naming : Naming) (parameters : RequestParameters)
    (segment : String) : Holds (segmentExpression naming parameters segment) := by
  unfold segmentExpression
  split
  · exact closed.pure _
  · exact closed.map _ (closed.traverse (pieceExpression_closed closed naming parameters) _)

/-! ### Requests -/

theorem urlExpression_closed (naming : Naming) (endpoint : Endpoint) (base : BaseUrl)
    (authorization : Authorization) (parameters : RequestParameters) :
    Holds (urlExpression naming endpoint base authorization parameters) := by
  unfold urlExpression
  apply closed.bind (closed.traverse (segmentExpression_closed closed naming parameters) _)
  intro segments
  exact closed.map _ (closed.traverse (pairEntry_closed closed naming) _)

theorem headersExpression_closed (naming : Naming) (authorization : Authorization)
    (parameters : RequestParameters) :
    Holds (headersExpression naming authorization parameters) := by
  unfold headersExpression
  apply closed.bind (closed.traverse (pairEntry_closed closed naming) _)
  intro entries
  split <;> exact closed.pure _

theorem Request.ofEndpoint_closed (naming : Naming) (document : Document) (base : BaseUrl)
    (endpoint : Endpoint) : Holds (Request.ofEndpoint naming document base endpoint) := by
  unfold Request.ofEndpoint
  have general := closed.toClosed
  apply closed.bind (closed.withPath _ (ResponsePlan.ofEndpoint_closed general naming endpoint))
  intro responses
  apply closed.bind (closed.withPath _ (RequestParameters.partition_closed general endpoint))
  intro parameters
  apply closed.bind (Authorization.ofEndpoint_closed general document endpoint)
  intro authorization
  apply closed.bind (urlExpression_closed closed naming endpoint base authorization parameters)
  intro url
  apply closed.bind (headersExpression_closed closed naming authorization parameters)
  intro headers
  exact closed.map _ (closed.withPath _ (bodyExpression_closed general naming endpoint))

/-! ### Clients -/

theorem ofComponent_closed (naming : Naming) (component : Component) :
    Holds (Client.ofComponent naming component) :=
  closed.withPath _ (componentDeclarations_closed closed.toClosed naming component)

theorem ofEndpoint_closed (naming : Naming) (config : Config) (document : Document)
    (base : BaseUrl) (endpoint : Endpoint) :
    Holds (Client.ofEndpoint naming config document base endpoint) := by
  apply closed.withPath
  apply closed.withPath
  exact closed.map _ (Request.ofEndpoint_closed closed naming document base endpoint)

theorem declare_closed (naming : Naming) (config : Config) (document : Document) (api : Api) :
    Holds (Client.declare naming config document api) := by
  unfold Client.declare
  apply closed.bind (closed.traverse (ofComponent_closed closed naming) _)
  intro components
  apply closed.bind (discoveredDeclarations_closed closed.toClosed naming)
  intro discovered
  dsimp only
  apply closed.bind (closed.traverse (ofEndpoint_closed closed naming config document _) _)
  intro endpoints
  exact closed.map _ (closed.map _ closed.getStore)

end Storing

end ElmClient.Elm
