/-
Requests are tidy: authorization, servers, the parts of a request, and the builder and
functions that are declared for an operation.
-/

import ElmClient.Elm.Request
import ElmClient.Proofs.Closed.Elm
import ElmClient.Proofs.Tidy.Parameters
import ElmClient.Proofs.Tidy.Responses

namespace ElmClient.Elm

open Lexer Name Run Text

/-! ### Authorization -/

namespace Authorization

structure IsTidy (authorization : Authorization) : Prop where
  fields : ∀ field ∈ authorization.fields, Small field.toList
  headers : ∀ header ∈ authorization.headers, Tidy header
  query : ∀ entry ∈ authorization.query, Tidy entry

private theorem IsTidy.inputType {authorization : Authorization} (tidy : authorization.IsTidy) :
    Tidy authorization.inputType := by
  refine tidy_record (.fixed (by decide)) fun entry member => ?_
  obtain ⟨field, listed, rfl⟩ := List.mem_map.mp member
  exact ⟨tidy_word (tidy.fields field listed).holdable, .fixed (by decide)⟩

private theorem tidy_pair (key lead : String) {field : String} (small : Small field.toList) :
    Tidy (pair key lead field) := by
  have token : Tidy ("config.authorization." ++ field) := tidy_field (by decide) small
  refine ((Lead.code .fixed (tidy_stringLiteral key)).gap.code ?_).close
  split
  · exact token
  · exact (tidy_stringLiteral lead).gap.code token

variable {σ : Type}

private theorem IsTidy.addHeader {progress : Progress} (tidy : progress.authorization.IsTidy)
    {field : String} (small : Small field.toList) (name header lead : String) :
    Returns (addHeader progress name field header lead : Run σ Progress)
      fun later => later.authorization.IsTidy := by
  unfold Authorization.addHeader
  dsimp only
  split
  · exact .fail
  · refine .pure ⟨?_, ?_, tidy.query⟩
    · exact List.forall_mem_append.mpr ⟨tidy.fields, List.forall_mem_singleton.mpr small⟩
    · exact List.forall_mem_append.mpr
        ⟨tidy.headers, List.forall_mem_singleton.mpr (tidy_pair header lead small)⟩

private theorem IsTidy.addQuery {progress : Progress} (tidy : progress.authorization.IsTidy)
    {field : String} (small : Small field.toList) (key : String) :
    (addQuery progress field key).authorization.IsTidy where
  fields := List.forall_mem_append.mpr ⟨tidy.fields, List.forall_mem_singleton.mpr small⟩
  headers := tidy.headers
  query := List.forall_mem_append.mpr
    ⟨tidy.query, List.forall_mem_singleton.mpr (tidy_pair key "" small)⟩

private theorem IsTidy.addScheme (document : Document) {progress : Progress}
    (tidy : progress.authorization.IsTidy) (name : String) :
    Returns (addScheme document progress name : Run σ Progress)
      fun later => later.authorization.IsTidy := by
  have small := small_unused progress.authorization.fields (small_toValueName name)
  unfold Authorization.addScheme
  split
  · exact .fail
  · refine .bind (.any _) fun placement _ => ?_
    cases placement with
    | header header lead => exact tidy.addHeader small name header lead
    | query key => exact .pure (tidy.addQuery small key)
    | unsupported => exact .placeholderOr tidy

private theorem IsTidy.addSchemes (document : Document) (names : List String) {progress : Progress}
    (tidy : progress.authorization.IsTidy) :
    Returns (addSchemes document progress names : Run σ Progress)
      fun later => later.authorization.IsTidy := by
  induction names generalizing progress with
  | nil => exact .pure tidy
  | cons name rest ih => exact .bind (tidy.addScheme document name) fun _ later => ih later

theorem ofEndpoint_tidy (document : Document) (endpoint : Endpoint) :
    Returns (ofEndpoint document endpoint : Run σ Authorization) Authorization.IsTidy := by
  have start : Progress.starting.authorization.IsTidy := ⟨nofun, nofun, nofun⟩
  refine .withPath _ (.bind (.any _) fun names _ => ?_)
  exact .map (start.addSchemes document names) fun _ found => found

end Authorization

/-! ### Servers -/

namespace ServerPlan

private theorem tidy_constant {name : String} (small : Small name.toList) (doc : Option String)
    (url : String) : Tidy (constant name doc url).source := by
  have word := tidy_word small.holdable
  have typed : Tidy (name ++ " : String\n" ++ name) := (word.gap (by decide)).code word
  exact (typed.gap (by decide)).code (tidy_stringLiteral url)

private theorem small_wantedName (index : Nat) (server : Server) :
    Small (wantedName index server).toList := by
  have numbered : Small ("server" ++ toString index).toList := by
    rw [String.toList_append]
    exact Small.append (.fixed (by decide)) (small_digits index)
  unfold wantedName
  split
  · dsimp only
    split
    · exact numbered
    · exact small_toValueName _
  · exact numbered

theorem small_wantedNames (index : Nat) (servers : List Server) :
    ∀ name ∈ wantedNames index servers, Small name.toList := by
  induction servers generalizing index with
  | nil => exact fun _ member => absurd member List.not_mem_nil
  | cons server rest ih =>
      exact List.forall_mem_cons.mpr ⟨small_wantedName index server, ih (index + 1)⟩

structure IsTidy (plan : ServerPlan) : Prop where
  base : Tidy plan.base.expression
  declarations : ∀ declaration ∈ plan.declarations, Tidy declaration.source

theorem ofMode_tidy {naming : Naming} (tidy : naming.IsTidy) (document : Document)
    (mode : ServerMode) : (ofMode naming document mode).IsTidy := by
  cases mode with
  | fromDocument =>
      have small := small_assign (small_wantedNames 0 document.servers)
      refine ⟨?_, List.forall_mem_map.mpr fun entry member => ?_⟩
      · change Tidy (ofServers naming document.servers).base.expression
        unfold ofServers
        dsimp only
        split
        case h_1 first rest same =>
          rw [same] at small
          exact tidy_qualified tidy.valid .servers (small first List.mem_cons_self).holdable
        case h_2 => exact tidy_stringLiteral ""
      · exact tidy_constant (small entry.1 (List.of_mem_zip member).1) _ _
  | single url =>
      have small : Small "server".toList := .fixed (by decide)
      exact ⟨tidy_qualified tidy.valid .servers small.holdable,
        List.forall_mem_singleton.mpr (tidy_constant small none url)⟩
  | multiple servers =>
      have small : ∀ name ∈ Fresh.assign Fresh.appendNumber
          (servers.map fun server => toValueName server.1), Small name.toList :=
        small_assign (List.forall_mem_map.mpr fun server _ => small_toValueName server.1)
      refine ⟨?_, List.forall_mem_map.mpr fun entry member => ?_⟩
      · change Tidy "config.server"
        exact .fixed (by decide)
      · exact tidy_constant (small entry.1 (List.of_mem_zip member).1) _ _

end ServerPlan

/-! ### Inputs -/

structure Naming.HoldsEndpoint (naming : Naming) (endpoint : Endpoint) : Prop where
  proper : endpoint.name.Proper
  parameters : ∀ parameter ∈ endpoint.parameters, naming.Covers parameter.shape
  body : ∀ body ∈ endpoint.body, naming.Covers body.payload.shape
  responses : ∀ response ∈ endpoint.responses, naming.Covers response.payload.shape

theorem tidy_extensibleRecord {entries : List (String × String)} (tidy : TidyEntries entries) :
    Tidy (extensibleRecord entries) := by
  unfold extensibleRecord
  dsimp only
  split
  · exact (Lead.code .fixed (tidy_inlineEntries .fixed tidy)).close
  · exact tidy_tallExtension .fixed tidy .fixed

theorem tidy_signature {name input output : String} (nameTidy : Tidy name)
    (inputTidy : Tidy input) (outputTidy : Tidy output) : Tidy (signature name input output) := by
  unfold signature
  split
  · exact (nameTidy.gap.code (tidy_indent inputTidy 1)).gap.code outputTidy
  · exact (nameTidy.gap.code inputTidy).gap.code outputTidy

section Parts

variable {naming : Naming} {policy : Policy} (tidy : naming.IsTidy)

include tidy

private theorem tidy_bodyType {body : EndpointBody} (covers : naming.Covers body.payload.shape) :
    ∀ type ∈ bodyType? naming body, Tidy type := by
  intro type found
  unfold bodyType? at found
  split at found
  · contradiction
  · rw [← Option.some.inj found]
    exact tidy_maybeUnless body.required (tidy_typeExpression tidy _ covers)

theorem tidy_inputEntries {endpoint : Endpoint} (holds : naming.HoldsEndpoint endpoint)
    (base : BaseUrl) {authorization : Authorization} (authorizationTidy : authorization.IsTidy)
    {parameters : RequestParameters}
    (fields : ∀ field ∈ parameters.fields, naming.HoldsField field) :
    TidyEntries (inputEntries naming endpoint base authorization parameters) := by
  have none : TidyEntries [] := fun _ member => absurd member List.not_mem_nil
  have one : ∀ {name text : String}, Tidy name → Tidy text → TidyEntries [(name, text)] :=
    fun nameTidy textTidy => List.forall_mem_singleton.mpr ⟨nameTidy, textTidy⟩
  refine List.forall_mem_append.mpr ⟨List.forall_mem_append.mpr
    ⟨List.forall_mem_append.mpr ⟨?_, ?_⟩, ?_⟩, ?_⟩
  · split
    · exact one .fixed .fixed
    · exact none
  · split
    · exact none
    · exact one .fixed authorizationTidy.inputType
  · split
    · exact none
    · refine one .fixed (tidy_record .fixed (List.forall_mem_map.mpr fun field member => ?_))
      have holdsField := fields field member
      exact ⟨tidy_word holdsField.small.holdable,
        tidy_maybeUnless _ (tidy_typeExpression tidy _ holdsField.covers)⟩
  · split
    case h_1 type found =>
      obtain ⟨body, present, asked⟩ := Option.bind_eq_some_iff.mp found
      exact one .fixed (tidy_bodyType tidy (holds.body body present) type asked)
    case h_2 => exact none

/-! ### Parts of a request -/

theorem bodyWrapper_tidy (mediaType : String) {payload : Payload}
    (covers : naming.Covers payload.shape) :
    Returns (bodyWrapper naming mediaType payload) Tidy := by
  have media := tidy_stringLiteral mediaType
  cases payload with
  | json shape =>
      unfold bodyWrapper
      refine .bind (encoder_tidy tidy 1 shape covers) fun encode encodeTidy => ?_
      dsimp only
      split
      · exact .pure ((Tidy.gap tidy_common).code (tidy_atom encodeTidy)).close
      · exact .pure (((Tidy.gap tidy_common).code media).gap.code (tidy_atom encodeTidy)).close
  | text => exact .pure ((Tidy.gap tidy_common).code media).close
  | bytes => exact .pure ((Tidy.gap tidy_common).code media).close
  | empty => exact .pure tidy_common

theorem bodyExpression_tidy {endpoint : Endpoint} (holds : naming.HoldsEndpoint endpoint) :
    Returns (bodyExpression naming endpoint) Tidy := by
  unfold bodyExpression
  split
  case h_1 body present =>
    split
    · exact .pure tidy_common
    · refine .bind (bodyWrapper_tidy tidy body.mediaType (holds.body body present))
        fun wrapper wrapperTidy => ?_
      have function : Tidy ("(\\payload -> " ++ wrapper ++ ")") :=
        (Lead.code .fixed wrapperTidy).close
      dsimp only
      split
      · exact .pure function.close
      · exact .pure ((Lead.code .fixed tidy_common).gap.code function).close
  case h_2 => exact .pure tidy_common

omit tidy in
private theorem tidy_queryExpression {entries : List String}
    (tidy : ∀ entry ∈ entries, Tidy entry) :
    Tidy (queryExpression entries) := by
  unfold queryExpression
  split
  · exact .fixed
  · exact (Lead.code (Lead.comp .fixed .fixed) (tidy_list tidy)).close

variable (components : naming.CoversComponents) {parameters : RequestParameters}
  (fields : ∀ field ∈ parameters.fields, naming.HoldsField field)
  {authorization : Authorization} (authorizationTidy : authorization.IsTidy)

include components fields authorizationTidy

theorem urlExpression_tidy (endpoint : Endpoint) {base : BaseUrl}
    (baseTidy : Tidy base.expression) :
    Behaves policy TidyHelpers
      (urlExpression naming endpoint base authorization parameters) Tidy := by
  have inFields : ∀ field ∈ parameters.query, field ∈ parameters.fields := fun _ member =>
    List.mem_append_left _ (List.mem_append_right _ member)
  refine .bind (.traverseValues fun segment _ =>
    segmentExpression_tidy tidy components fields segment) fun segments segmentsTidy => ?_
  refine .map (.traverseValues fun field member =>
    pairEntry_tidy tidy components (fields field (inFields field member)))
      fun entries entriesTidy => ?_
  have query := tidy_queryExpression
    (List.forall_mem_append.mpr ⟨entriesTidy, authorizationTidy.query⟩)
  exact ((Lead.code .fixed (tidy_atom baseTidy)).gap.code (tidy_list segmentsTidy)).gap.code query

theorem headersExpression_tidy :
    Behaves policy TidyHelpers (headersExpression naming authorization parameters) Tidy := by
  have inFields : ∀ field ∈ parameters.header, field ∈ parameters.fields := fun _ member =>
    List.mem_append_right _ member
  refine .bind (.traverseValues fun field member =>
    pairEntry_tidy tidy components (fields field (inFields field member)))
      fun entries entriesTidy => ?_
  have headers := List.forall_mem_append.mpr ⟨entriesTidy, authorizationTidy.headers⟩
  split
  · exact .pure (.fixed (by decide))
  · exact .pure (Lead.code (.fixed (by decide)) (tidy_list headers))

end Parts

/-! ### Whole requests -/

namespace Request

structure IsTidy (request : Request) : Prop where
  proper : request.endpoint.name.Proper
  responses : request.responses.IsTidy
  inputs : TidyEntries request.inputs
  url : Tidy request.url
  headers : Tidy request.headers
  body : Tidy request.body

theorem ofEndpoint_tidy {naming : Naming} {policy : Policy} (tidy : naming.IsTidy)
    (components : naming.CoversComponents) (document : Document) {base : BaseUrl}
    (baseTidy : Tidy base.expression) {endpoint : Endpoint}
    (holds : naming.HoldsEndpoint endpoint) :
    Behaves policy TidyHelpers (ofEndpoint naming document base endpoint) Request.IsTidy := by
  have closed : Closed (fun {_} (action : Run Helpers _) => Maintains TidyHelpers action) :=
    Maintains.closed
  refine .bind (.ofReturns (closed.withPath _
      (ResponsePlan.ofEndpoint_closed closed naming endpoint))
    (.withPath _ (ResponsePlan.ofEndpoint_tidy tidy holds.proper holds.responses)))
      fun responses responsesTidy => ?_
  refine .bind (.ofReturns (closed.withPath _ (RequestParameters.partition_closed closed endpoint))
    (.withPath _ (partition_holds holds.parameters))) fun parameters fields => ?_
  refine .bind (.ofReturns (Authorization.ofEndpoint_closed closed document endpoint)
    (Authorization.ofEndpoint_tidy document endpoint)) fun authorization authorizationTidy => ?_
  refine .bind (urlExpression_tidy tidy components fields authorizationTidy endpoint baseTidy)
    fun url urlTidy => ?_
  refine .bind (headersExpression_tidy tidy components fields authorizationTidy)
    fun headers headersTidy => ?_
  refine .map (.withPath _ (.ofReturns (bodyExpression_closed closed naming endpoint)
    (bodyExpression_tidy tidy holds))) fun body bodyTidy => ?_
  exact ⟨holds.proper, responsesTidy, tidy_inputEntries tidy holds base authorizationTidy fields,
    urlTidy, headersTidy, bodyTidy⟩

section Declarations

variable {request : Request} (tidy : request.IsTidy)

include tidy

theorem IsTidy.outcomes : Tidy request.outcomes :=
  ((tidy_atom tidy.responses.error).gap (by decide)).code (tidy_atom tidy.responses.success)

theorem IsTidy.failure : Tidy request.failure :=
  ((Lead.code .fixed tidy_common).gap.code (tidy_atom tidy.responses.error)).close

private theorem IsTidy.wireRecord : Tidy request.wireRecord := by
  refine tidy_tallRecord .fixed ?_
  simp only [TidyEntries, List.forall_mem_cons]
  exact ⟨⟨.fixed, tidy_stringLiteral _⟩, ⟨.fixed, tidy.url⟩, ⟨.fixed, tidy.headers⟩,
    ⟨.fixed, tidy.body⟩, ⟨.fixed, tidy.responses.expect⟩, ⟨.fixed, .fixed⟩, ⟨.fixed, .fixed⟩,
    nofun⟩

omit tidy in
private theorem tidy_functionSource {name input output body : String} (nameTidy : Tidy name)
    (inputTidy : Tidy input) (outputTidy : Tidy output) (bodyTidy : Tidy body) (isPlain : Bool) :
    Tidy (functionSource name input output body isPlain) := by
  unfold functionSource
  split
  · exact ((nameTidy.gap.code outputTidy).gap.code nameTidy).gap.code bodyTidy
  · exact ((tidy_signature nameTidy inputTidy outputTidy).gap.code nameTidy).gap.code bodyTidy

private theorem IsTidy.wireName : Tidy (wireName request.endpoint) :=
  tidy_word (holdable_valueName tidy.proper (holdable_of_all (by decide)))

private theorem IsTidy.wireDeclaration : Tidy request.wireDeclaration.source :=
  tidy_functionSource tidy.wireName (tidy_extensibleRecord tidy.inputs)
    ((Tidy.gap (tidy_common (by decide)) (by decide)).code tidy.outcomes)
      (tidy_indent tidy.wireRecord 1) _

theorem IsTidy.resultType (profile : EffectProfile) : Tidy (request.resultType profile) := by
  have success := tidy_atom tidy.responses.success
  unfold Request.resultType
  split
  · exact .fixed
  · exact (Lead.code .fixed tidy.failure).gap.code success
  · exact (Tidy.gap tidy_common).code tidy.outcomes
  · exact .fixed
  · exact (Lead.code .fixed tidy.failure).gap.code success
  · exact (Tidy.gap tidy_common).code tidy.outcomes

private theorem IsTidy.wireCall : Tidy request.wireCall := by
  unfold Request.wireCall
  dsimp only
  split
  · exact tidy.wireName
  · exact (Lead.code (.fixed (by decide)) tidy.wireName).close (by decide)

omit tidy in
private theorem tidy_runner (profile : EffectProfile) : Tidy (common profile.runner) := by
  rcases profile with ⟨_ | _, _ | _ | _⟩
  all_goals exact tidy_common (by decide)

omit tidy in
theorem holdable_functionSuffix (profile : EffectProfile) :
    Holdable profile.functionSuffix.toList := by
  rcases profile with ⟨_ | _, _ | _ | _⟩
  all_goals exact holdable_of_all (by decide)

private theorem IsTidy.functionDeclaration (profile : EffectProfile) :
    Tidy (request.functionDeclaration profile).source := by
  have name : Tidy (functionName request.endpoint profile) :=
    tidy_word (holdable_valueName tidy.proper (holdable_functionSuffix profile))
  have message : TidyEntries
      (if profile.convention == .cmd then [request.messageEntry] else []) := by
    split
    · refine List.forall_mem_singleton.mpr ⟨.fixed, ?_⟩
      exact ((Lead.code .fixed tidy.failure).gap.code (tidy_atom tidy.responses.success)).close
    · exact fun _ member => absurd member List.not_mem_nil
  have runner : Tidy (common profile.runner
      ++ if profile.convention == .cmd then " config.toMsg" else "") := by
    split
    · exact (tidy_runner profile).close
    · rw [String.append_empty]
      exact tidy_runner profile
  refine tidy_functionSource name (tidy_record .fixed ?_) (tidy.resultType profile)
    ((Lead.code .fixed runner).gap.code tidy.wireCall) _
  exact List.forall_mem_append.mpr ⟨tidy.inputs, message⟩

theorem IsTidy.declarations (profiles : List EffectProfile) :
    TidySources (request.declarations profiles) := by
  refine List.forall_mem_append.mpr ⟨?_, TidySources.cons tidy.wireDeclaration ?_⟩
  · split
    case h_1 declaration present =>
      exact TidySources.cons (tidy.responses.declaration declaration present) .nil
    case h_2 => exact TidySources.nil
  · exact List.forall_mem_map.mpr fun profile _ => tidy.functionDeclaration profile

end Declarations

end Request

end ElmClient.Elm
