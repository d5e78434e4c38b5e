/-
What requests read of their input. The URL, the headers and the body read fields of the record
that the builder declares, each field of the query, the headers and the authorization once, and
nothing if there is no record. The functions of the profiles declare all of it again and hand it
to the builder.
-/

import ElmClient.Proofs.Requests.Partition
import ElmClient.Proofs.Sample
import ElmClient.Proofs.Scope.Requests
import ElmClient.Proofs.Tidy.Client

namespace ElmClient.Elm

open Lexer Name Run Text

/-- What code reads of `config`, one after the other; the variable itself is read without a
field. -/
def readsOf (text : String) : List (List String) :=
  (wordsOf text).filterMap Word.field?

/-- The registered expressions of the text are set aside. If they read nothing themselves, the
text reads what is left. -/
structure Bare (naming : Naming) (text bare : String) : Prop where
  aside : naming.Aside text bare
  reads : naming.Quiet → naming.Blind → readsOf text = readsOf bare

private theorem Writes.bare {naming : Naming} {text : String} {reads : List (List String)}
    {described : List Binder → Prop} (writes : Writes naming text reads described) :
    ∃ bare, Bare naming text bare ∧ readsOf bare = reads := by
  obtain ⟨words, bound, code, -, rfl, -⟩ := writes.parts
  obtain ⟨bare, aside, spells⟩ := code.bare
  refine ⟨bare, ⟨aside, fun quiet blind => ?_⟩, by rw [readsOf, spells.wordsOf]⟩
  obtain ⟨full, fullSpells, completes⟩ := code.whole quiet
  rw [readsOf, readsOf, fullSpells.wordsOf, spells.wordsOf, completes.reads blind]

/-- A path through a record: one of its fields, or a field of the record that one of them is. -/
inductive Offers (inputs : List (String × String)) : List String → Prop
  | field {name type : String} (listed : (name, type) ∈ inputs) : Offers inputs [name]
  | within {name field : String} {entries : List (String × String)}
      (listed : (name, record entries ":") ∈ inputs) (inside : field ∈ entries.map Prod.fst) :
      Offers inputs [name, field]

/-! ### Input records -/

section Inputs

variable (naming : Naming) (endpoint : Endpoint) (base : BaseUrl) (authorization : Authorization)
  (parameters : RequestParameters)

theorem names_inputEntries :
    (inputEntries naming endpoint base authorization parameters).map Prod.fst =
      base.reads.flatten ++ (if authorization.isEmpty then [] else ["authorization"])
        ++ (if parameters.isEmpty then [] else ["params"]) ++ (bodyReads endpoint).flatten := by
  have server : (if base.isInput then [("server", "String")] else []).map Prod.fst =
      base.reads.flatten := by
    unfold BaseUrl.reads
    split <;> rfl
  rw [inputEntries, List.map_append, List.map_append, List.map_append, server]
  refine congrArg₂ (· ++ ·) (congrArg₂ (· ++ ·) (congrArg₂ (· ++ ·) rfl ?_) ?_) ?_
  · split <;> rfl
  · split <;> rfl
  · unfold bodyReads
    cases endpoint.body with
    | none => rfl
    | some body =>
        rw [Option.bind_some, bodyType?]
        by_cases none : body.payload.isEmpty
        · simp only [none, if_true, List.flatten_nil, List.map_nil]
        · simp only [none]
          rfl

private theorem nodup_inputEntries :
    ((inputEntries naming endpoint base authorization parameters).map Prod.fst).Nodup ∧
      "toMsg" ∉ (inputEntries naming endpoint base authorization parameters).map Prod.fst := by
  rw [names_inputEntries]
  unfold BaseUrl.reads bodyReads
  repeat' split
  all_goals decide

variable {naming endpoint base authorization parameters}

private theorem offers_base {path : List String} (read : path ∈ base.reads) :
    Offers (inputEntries naming endpoint base authorization parameters) path := by
  unfold BaseUrl.reads at read
  split at read
  case isTrue isInput =>
    obtain rfl := List.mem_singleton.mp read
    have listed : ("server", "String") ∈
        inputEntries naming endpoint base authorization parameters := by
      rw [inputEntries, if_pos isInput]
      exact List.mem_append_left _ (List.mem_append_left _ (List.mem_append_left _
        List.mem_cons_self))
    exact .field listed
  case isFalse => contradiction

private theorem offers_authorization {field : String} (listed : field ∈ authorization.fields) :
    Offers (inputEntries naming endpoint base authorization parameters)
      ["authorization", field] := by
  have present : ¬ authorization.isEmpty = true := fun none =>
    List.not_mem_nil (List.isEmpty_iff.mp none ▸ listed)
  have declared : ("authorization", record (authorization.fields.map (·, "String")) ":") ∈
      inputEntries naming endpoint base authorization parameters := by
    rw [inputEntries, if_neg present]
    exact List.mem_append_left _ (List.mem_append_left _ (List.mem_append_right _
      List.mem_cons_self))
  exact .within declared (List.mem_map.mpr ⟨_, List.mem_map_of_mem listed, rfl⟩)

private theorem offers_parameter {field : ParameterField} (listed : field ∈ parameters.fields) :
    Offers (inputEntries naming endpoint base authorization parameters) field.read := by
  have present : ¬ parameters.isEmpty = true := fun none =>
    List.not_mem_nil (List.isEmpty_iff.mp none ▸ listed)
  have declared : ("params", record (parameterEntries naming parameters) ":") ∈
      inputEntries naming endpoint base authorization parameters := by
    rw [inputEntries, if_neg present]
    exact List.mem_append_left _ (List.mem_append_right _ List.mem_cons_self)
  exact .within declared (List.mem_map.mpr ⟨_, List.mem_map_of_mem listed, rfl⟩)

private theorem offers_body {path : List String} (read : path ∈ bodyReads endpoint) :
    Offers (inputEntries naming endpoint base authorization parameters) path := by
  unfold bodyReads at read
  split at read
  case h_1 body present =>
    split at read
    case isTrue => contradiction
    case isFalse content =>
      obtain rfl := List.mem_singleton.mp read
      have declared :
          ("body", maybeUnless body.required (typeExpression naming body.payload.shape)) ∈
            inputEntries naming endpoint base authorization parameters := by
        rw [inputEntries, present, Option.bind_some, bodyType?, if_neg content]
        exact List.mem_append_right _ List.mem_cons_self
      exact .field declared
  case h_2 => contradiction

/-! ### Reads of a request -/

/-- What the base, the path, the query, the headers and the body read. -/
def requestReads (endpoint : Endpoint) (base : BaseUrl) (parameters : RequestParameters)
    (headers query : List String) : List (List String) :=
  base.reads ++ (parameters.pathFields endpoint.path).map ParameterField.read
    ++ (EntrySource.all parameters.query query).map EntrySource.read
    ++ (EntrySource.all parameters.header headers).map EntrySource.read ++ bodyReads endpoint

private theorem mem_path_of_pathFields {field : ParameterField} {path : String}
    (listed : field ∈ parameters.pathFields path) : field ∈ parameters.path := by
  obtain ⟨segment, -, inSegment⟩ := List.mem_flatMap.mp listed
  obtain ⟨piece, -, inPiece⟩ := List.mem_flatMap.mp inSegment
  cases piece with
  | literal => contradiction
  | «variable» name => exact List.mem_of_find?_eq_some (Option.mem_toList.mp inPiece)

/-- The paths of the fields that every request sends, each of them once. -/
def sentReads (parameters : RequestParameters) (keys : List String) : List (List String) :=
  (parameters.query ++ parameters.header).map ParameterField.read
    ++ keys.map fun key => ["authorization", key]

/-- The paths that may be read repeatedly, or not at all. -/
def otherReads (endpoint : Endpoint) (base : BaseUrl) (parameters : RequestParameters) :
    List (List String) :=
  base.reads ++ (parameters.pathFields endpoint.path).map ParameterField.read ++ bodyReads endpoint

private theorem requestReads_perm (headers query : List String) :
    (requestReads endpoint base parameters headers query).Perm
      (otherReads endpoint base parameters ++ sentReads parameters (query ++ headers)) := by
  unfold requestReads otherReads sentReads
  rw [EntrySource.reads_all, EntrySource.reads_all, List.map_append, List.map_append]
  generalize base.reads ++ (parameters.pathFields endpoint.path).map ParameterField.read = front
  generalize parameters.query.map ParameterField.read = first
  generalize parameters.header.map ParameterField.read = second
  generalize query.map (fun key => ["authorization", key]) = third
  generalize headers.map (fun key => ["authorization", key]) = fourth
  refine List.perm_iff_count.mpr fun path => ?_
  simp only [List.count_append]
  omega

private theorem sentReads_nodup {keys : List String}
    (fields : (parameters.fields.map ParameterField.field).Nodup)
    (once : keys.Nodup) : (sentReads parameters keys).Nodup := by
  have sent : ((parameters.query ++ parameters.header).map ParameterField.field).Nodup := by
    rw [RequestParameters.fields, List.append_assoc, List.map_append] at fields
    exact (List.nodup_append.mp fields).2.1
  have reads : (parameters.query ++ parameters.header).map ParameterField.read =
      ((parameters.query ++ parameters.header).map ParameterField.field).map
        fun name => ["params", name] := by
    rw [List.map_map]
    rfl
  refine List.nodup_append.mpr ⟨?_, once.map fun _ _ same => by simpa using same, ?_⟩
  · rw [reads]
    exact sent.map fun _ _ same => by simpa using same
  · intro read inSent other inKeys same
    obtain ⟨field, -, rfl⟩ := List.mem_map.mp inSent
    obtain ⟨key, -, rfl⟩ := List.mem_map.mp inKeys
    exact absurd (List.cons.inj same).1 (by decide)

private theorem mem_otherReads {path : List String}
    (read : path ∈ otherReads endpoint base parameters) :
    path = ["server"] ∨ path = ["body"] ∨ ∃ field ∈ parameters.path, path = field.read := by
  rcases List.mem_append.mp read with front | body
  · rcases List.mem_append.mp front with server | inPath
    · unfold BaseUrl.reads at server
      split at server
      · exact Or.inl (List.mem_singleton.mp server)
      · contradiction
    · obtain ⟨field, listed, rfl⟩ := List.mem_map.mp inPath
      exact Or.inr (Or.inr ⟨field, mem_path_of_pathFields listed, rfl⟩)
  · unfold bodyReads at body
    split at body
    · split at body
      · contradiction
      · exact Or.inr (Or.inl (List.mem_singleton.mp body))
    · contradiction

private theorem sentReads_disjoint {keys : List String}
    (fields : (parameters.fields.map ParameterField.field).Nodup) :
    ∀ path ∈ sentReads parameters keys, path ∉ otherReads endpoint base parameters := by
  rw [RequestParameters.fields, List.append_assoc, List.map_append] at fields
  have apart := (List.nodup_append.mp fields).2.2
  intro path sent other
  rcases List.mem_append.mp sent with inFields | inKeys
  · obtain ⟨field, listed, rfl⟩ := List.mem_map.mp inFields
    rcases mem_otherReads other with server | body | ⟨first, inPath, same⟩
    · simp [ParameterField.read] at server
    · simp [ParameterField.read] at body
    · refine apart _ (List.mem_map_of_mem inPath) _ (List.mem_map_of_mem listed) ?_
      simpa [ParameterField.read] using same.symm
  · obtain ⟨key, -, rfl⟩ := List.mem_map.mp inKeys
    rcases mem_otherReads other with server | body | ⟨first, -, same⟩
    · simp at server
    · simp at body
    · simp [ParameterField.read] at same

variable {headers query : List String} (sends : authorization.Sends headers query)

include sends

private theorem offers_requestReads :
    ∀ path ∈ requestReads endpoint base parameters headers query,
      Offers (inputEntries naming endpoint base authorization parameters) path := by
  have keys : ∀ key ∈ query ++ headers, key ∈ authorization.fields :=
    fun key listed => sends.fields.subset listed
  unfold requestReads
  rw [EntrySource.reads_all, EntrySource.reads_all]
  simp only [List.forall_mem_append, List.forall_mem_map]
  refine ⟨⟨⟨⟨fun path => offers_base, fun field listed => ?_⟩, fun field listed => ?_,
    fun key listed => ?_⟩, fun field listed => ?_, fun key listed => ?_⟩, fun path => offers_body⟩
  · exact offers_parameter
      (List.mem_append_left _ (List.mem_append_left _ (mem_path_of_pathFields listed)))
  · exact offers_parameter (List.mem_append_left _ (List.mem_append_right _ listed))
  · exact offers_authorization (keys key (List.mem_append_left _ listed))
  · exact offers_parameter (List.mem_append_right _ listed)
  · exact offers_authorization (keys key (List.mem_append_right _ listed))

private theorem count_requestReads (fields : (parameters.fields.map ParameterField.field).Nodup) :
    ∀ path ∈ sentReads parameters (query ++ headers),
      (requestReads endpoint base parameters headers query).count path = 1 := by
  intro path sent
  have keys : (query ++ headers).Nodup := sends.fields.nodup_iff.mpr sends.once
  rw [(requestReads_perm headers query).count_eq, List.count_append,
    List.count_eq_zero_of_not_mem (sentReads_disjoint fields path sent),
    List.count_eq_one_of_mem (sentReads_nodup fields keys) sent]

end Inputs

/-! ### Functions of the profiles -/

namespace Request

def functionInputs (request : Request) (profile : EffectProfile) : List (String × String) :=
  request.inputs ++ if profile.convention == .cmd then [request.messageEntry] else []

def functionBody (request : Request) (profile : EffectProfile) : String :=
  "    " ++ (common profile.runner ++ if profile.convention == .cmd then " config.toMsg" else "")
    ++ " " ++ request.wireCall

/-- The function declares the input of the builder, and hands it on if there is any. -/
structure PassesInput (request : Request) (profile : EffectProfile) : Prop where
  source : (request.functionDeclaration profile).source =
    functionSource (functionName request.endpoint profile)
      (record (request.functionInputs profile) ":")
      (request.resultType profile) (request.functionBody profile)
      (request.functionInputs profile).isEmpty
  more : request.inputs <+: request.functionInputs profile
  once : ((request.functionInputs profile).map Prod.fst).Nodup
  /-- The message, and the whole input for the builder. -/
  reads : readsOf (request.functionBody profile) =
    (if profile.convention == .cmd then [["toMsg"]] else [])
      ++ if request.inputs.isEmpty then [] else [[]]
  offers : ∀ path ∈ readsOf (request.functionBody profile),
    path = [] ∧ request.inputs ≠ [] ∨ Offers (request.functionInputs profile) path

private theorem spells_runner (profile : EffectProfile) : Spells (common profile.runner) [] := by
  rcases profile with ⟨_ | _, _ | _ | _⟩
  all_goals exact spells_common

variable {request : Request} (proper : request.endpoint.name.Proper)

include proper

private theorem spells_wireName : Spells (wireName request.endpoint) [] := by
  have name : Holdable (wireName request.endpoint).toList :=
    holdable_valueName proper (holdable_of_all (by decide))
  have apart : (wireName request.endpoint).toList ≠ "config".toList := by
    intro same
    have ends := congrArg List.getLast? same
    rw [wireName, String.toList_append, List.getLast?_append_of_ne_nil _ (by decide)] at ends
    exact absurd ends (by decide)
  have spells := spells_name (Segment.isSome_run name nofun)
  rwa [Word.ofName_of_word (name.not_mem (by decide)) apart] at spells

theorem spells_functionBody (profile : EffectProfile) :
    ∃ words, Spells (request.functionBody profile) words ∧ Closed words [] ∧
      words.filterMap Word.field? =
        (if profile.convention == .cmd then [["toMsg"]] else [])
          ++ if request.inputs.isEmpty then [] else [[]] := by
  have name := spells_wireName proper
  have runner := spells_runner profile
  have call : ∃ words, Spells request.wireCall words ∧ Closed words [] ∧
      words.filterMap Word.field? = if request.inputs.isEmpty then [] else [[]] := by
    unfold wireCall
    dsimp only
    split
    · exact ⟨_, name, .nil, rfl⟩
    · exact ⟨_, (name.behind [.opening]).close [.read [], .closing], .group (.read []), rfl⟩
  have front : ∃ words, Spells (common profile.runner
      ++ if profile.convention == .cmd then " config.toMsg" else "") words ∧ Closed words [] ∧
        words.filterMap Word.field? = if profile.convention == .cmd then [["toMsg"]] else [] := by
    split
    · exact ⟨_, runner.close [.read ["toMsg"]], .read _, rfl⟩
    · rw [String.append_empty]
      exact ⟨_, runner, .nil, rfl⟩
  obtain ⟨callWords, callSpells, callClosed, callReads⟩ := call
  obtain ⟨frontWords, frontSpells, frontClosed, frontReads⟩ := front
  have whole : Spells (request.functionBody profile) ([] ++ frontWords ++ [] ++ callWords) :=
    (frontSpells.behind []).beside [] callSpells
  rw [List.nil_append, List.append_nil] at whole
  refine ⟨_, whole, frontClosed.append callClosed, ?_⟩
  rw [List.filterMap_append, frontReads, callReads]

private theorem reads_functionBody (profile : EffectProfile) :
    readsOf (request.functionBody profile) =
      (if profile.convention == .cmd then [["toMsg"]] else [])
        ++ if request.inputs.isEmpty then [] else [[]] := by
  obtain ⟨words, spells, -, reads⟩ := spells_functionBody proper profile
  rw [readsOf, spells.wordsOf, reads]

theorem passesInput (once : (request.inputs.map Prod.fst).Nodup)
    (free : "toMsg" ∉ request.inputs.map Prod.fst) (profile : EffectProfile) :
    request.PassesInput profile where
  source := rfl
  more := List.prefix_append _ _
  once := by
    unfold functionInputs
    split
    · rw [List.map_append]
      refine List.nodup_append.mpr ⟨once, List.nodup_singleton _, ?_⟩
      rintro name listed _ message rfl
      have isMessage : name = "toMsg" := List.mem_singleton.mp message
      exact free (isMessage ▸ listed)
    · rwa [List.append_nil]
  reads := reads_functionBody proper profile
  offers := by
    rw [reads_functionBody proper, functionInputs]
    refine List.forall_mem_append.mpr ⟨fun path read => Or.inr ?_, fun path read => Or.inl ?_⟩
    · split at read
      case isTrue isCommand =>
        obtain rfl := List.mem_singleton.mp read
        rw [if_pos isCommand]
        exact .field (List.mem_append_right _ List.mem_cons_self)
      case isFalse => contradiction
    · split at read
      case isTrue => contradiction
      case isFalse present =>
        exact ⟨List.mem_singleton.mp read, fun none => present (List.isEmpty_iff.mpr none)⟩

omit proper

/-! ### Whole requests -/

structure Takes (document : Document) (endpoint : Endpoint) (scope : Scope)
    (parameters : RequestParameters) (authorization : Authorization) : Prop where
  parameters : ∃ earlier later : Log Helpers,
    (RequestParameters.partition endpoint).outcome (scope.below "parameters") earlier =
      (.ok parameters, later)
  authorization : ∃ earlier later : Log Helpers,
    (Authorization.ofEndpoint document endpoint).outcome scope earlier = (.ok authorization, later)

/-- What is read fits what is declared. -/
structure ReadsInput (request : Request) (parameters : RequestParameters)
    (authorization : Authorization) (reads : List (List String)) : Prop where
  builder : request.wireDeclaration.source =
    functionSource (wireName request.endpoint) (extensibleRecord request.inputs)
      (common "Wire" ++ " " ++ request.outcomes) (indent request.wireRecord 1)
      request.inputs.isEmpty
  once : (request.inputs.map Prod.fst).Nodup
  offers : ∀ path ∈ reads, Offers request.inputs path
  parameters : ∀ field ∈ parameters.query ++ parameters.header,
    reads.count ["params", field.field] = 1
  authorization : ∀ field ∈ authorization.fields, reads.count ["authorization", field] = 1
  /-- Without an input nothing is read, not even the variable itself. -/
  empty : request.inputs = [] → reads = []
  passes : ∀ profile, request.PassesInput profile

theorem partition_once {σ : Type} (endpoint : Endpoint) :
    Returns (RequestParameters.partition endpoint : Run σ RequestParameters)
      fun parameters => (parameters.fields.map ParameterField.field).Nodup :=
  .bind (.any _) fun _ _ => .bind (.any _) fun _ _ => .pure (RequestParameters.fields_nodup _)

private theorem readsInput_of_parts {naming : Naming} {endpoint : Endpoint} {base : BaseUrl}
    {parameters : RequestParameters} {authorization : Authorization} {headers query : List String}
    (proper : endpoint.name.Proper) (sends : authorization.Sends headers query)
    (fields : (parameters.fields.map ParameterField.field).Nodup) (request : Request)
    (same : request.endpoint = endpoint)
    (inputs : request.inputs = inputEntries naming endpoint base authorization parameters) :
    request.ReadsInput parameters authorization
      (requestReads endpoint base parameters headers query) := by
  have sent : ∀ path ∈ sentReads parameters (query ++ headers),
      (requestReads endpoint base parameters headers query).count path = 1 :=
    count_requestReads sends fields
  have offers : ∀ path ∈ requestReads endpoint base parameters headers query,
      Offers (inputEntries naming endpoint base authorization parameters) path :=
    offers_requestReads sends
  obtain ⟨once, free⟩ := nodup_inputEntries naming endpoint base authorization parameters
  rw [← inputs] at offers once free
  refine ⟨rfl, once, offers, fun field listed => ?_, fun field listed => ?_, fun none => ?_,
    passesInput (same ▸ proper) once free⟩
  · exact sent _ (List.mem_append_left _ (List.mem_map_of_mem listed))
  · exact sent _ (List.mem_append_right _ (List.mem_map_of_mem (sends.fields.mem_iff.mpr listed)))
  · rw [none] at offers
    exact List.eq_nil_iff_forall_not_mem.mpr fun path read => by
      have offered := offers path read
      cases offered with
      | field listed => exact List.not_mem_nil listed
      | within listed => exact List.not_mem_nil listed

private theorem readsInput_of_ended {naming : Naming} (named : naming.NamesTidy)
    (components : naming.CoversComponents) {document : Document} {base : BaseUrl}
    (isCode : base.IsCode naming) {endpoint : Endpoint} (holds : naming.HoldsEndpoint endpoint)
    {scope : Scope} {before after : Log Helpers} {request : Request}
    (ended : (ofEndpoint naming document base endpoint).outcome scope before =
      (.ok request, after)) :
    ∃ parameters authorization url headers body,
      Takes document endpoint scope parameters authorization ∧
      Bare naming request.url url ∧ Bare naming request.headers headers ∧
      Bare naming request.body body ∧
      request.ReadsInput parameters authorization
        (readsOf url ++ readsOf headers ++ readsOf body) := by
  obtain ⟨responses, planned, -, ended⟩ := parts_of_outcome_bind ended
  obtain ⟨parameters, sorted, partitioned, ended⟩ := parts_of_outcome_bind ended
  obtain ⟨authorization, settled, authorized, ended⟩ := parts_of_outcome_bind ended
  obtain ⟨url, linked, urlEnded, ended⟩ := parts_of_outcome_bind ended
  obtain ⟨headers, headed, headersEnded, ended⟩ := parts_of_outcome_bind ended
  obtain ⟨body, finished, bodyEnded, ended⟩ := parts_of_outcome_bind ended
  cases ended
  have takes : Takes document endpoint scope parameters authorization :=
    ⟨⟨planned, sorted, partitioned⟩, ⟨sorted, settled, authorized⟩⟩
  have fields := partition_holds holds.parameters _ _ _ _ partitioned
  have once := partition_once endpoint _ _ _ _ partitioned
  obtain ⟨headerKeys, queryKeys, sends⟩ :=
    Authorization.ofEndpoint_sends document endpoint _ _ _ _ authorized
  have stores := stores_any naming
  have urlWrites := (urlExpression_writes stores named components fields sends endpoint isCode
    scope settled rfl trivial).2 url (congrArg Prod.fst urlEnded)
  have headersWrite := (headersExpression_writes stores named components fields sends
    scope linked rfl trivial).2 headers (congrArg Prod.fst headersEnded)
  have bodyWrites := bodyExpression_writes named holds _ _ _ _ bodyEnded
  obtain ⟨bareUrl, urlBare, urlReads⟩ := urlWrites.bare
  obtain ⟨bareHeaders, headersBare, headersRead⟩ := headersWrite.bare
  obtain ⟨bareBody, bodyBare, bodyReads⟩ := bodyWrites.bare
  refine ⟨parameters, authorization, bareUrl, bareHeaders, bareBody, takes, urlBare, headersBare,
    bodyBare, ?_⟩
  rw [urlReads, headersRead, bodyReads]
  exact readsInput_of_parts holds.proper sends once _ rfl rfl

/-- The URL, the headers and the body of every operation read what its input record declares, each
field of the query, the headers and the authorization once. -/
theorem ofEndpoint_reads {config : Config} {document : Document} {api : Api} {log : Log Registry}
    (valid : config.validate = .ok ())
    (resolved : document.resolve.outcome (Client.scope config) (Log.starting Registry.empty) =
      (.ok api, log)) {endpoint : Endpoint} (listed : endpoint ∈ api.endpoints) {scope : Scope}
    {before after : Log Helpers} {request : Request} :
    let naming := Naming.ofApi config api (Client.declaredTypes api log.store)
    let base := (ServerPlan.ofMode naming document config.server).base
    (ofEndpoint naming document base endpoint).outcome scope before = (.ok request, after) →
      ∃ parameters authorization url headers body,
        Takes document endpoint scope parameters authorization ∧
        Bare naming request.url url ∧ Bare naming request.headers headers ∧
      Bare naming request.body body ∧
        request.ReadsInput parameters authorization
          (readsOf url ++ readsOf headers ++ readsOf body) := by
  intro naming base ended
  obtain ⟨registrySound, apiSound⟩ := document.resolve_sound resolved
  have named := namesTidy_ofApi registrySound apiSound (Config.isModulePath_of_validate valid)
  have fits := Client.ofApi_fits config registrySound apiSound
    (document.resolve_apart _ _ _ _ resolved).proper
  exact readsInput_of_ended named fits.targets (ofMode_isCode named document config.server)
    (fits.endpoints endpoint listed) ended

/-- A moment in the path, in the query and in a header, with a key and a body. -/
theorem ofEndpoint_reads_visit :
    let config := Config.default
    let moment : Schema :=
      { Schema.bare with kind := some (.one "string"), format := some "date-time" }
    let parameter (name : String) (location : ParameterLocation) : RefOr Parameter :=
      .inline { Parameter.inQuery name (.inline moment) with location := location }
    let operation : Operation :=
      { operationId := some "visit", summary := none, description := none, tags := []
        parameters := [parameter "at" .path, parameter "at" .query, parameter "at" .header]
        requestBody := some (.inline
          { description := none, required := true
            content := [("application/json",
              { schema := some (Schema.recordOf "name" "string") })] })
        responses := [("204", .inline { description := "done", content := [] })]
        security := some [[("key", [])]], deprecated := false }
    let key : SecurityScheme :=
      { kind := "apiKey", name := some "key", location := some "query", scheme := none
        bearerFormat := none, description := none }
    let item : PathItem := { PathItem.reading [] with get := none, post := some operation }
    let plain := Document.ofParts [("/visits/\x7bat\x7d", item)] []
    let document : Document :=
      { plain with components := { plain.components with securitySchemes := [("key", key)] } }
    ∃ api log, document.resolve.outcome (Client.scope config) (Log.starting Registry.empty) =
        (.ok api, log) ∧
      ∃ endpoint ∈ api.endpoints, ∃ request after,
        let naming := Naming.ofApi config api (Client.declaredTypes api log.store)
        let base := (ServerPlan.ofMode naming document config.server).base
        (ofEndpoint naming document base endpoint).outcome (Client.scope config)
            (Log.starting []) = (.ok request, after) ∧
          ∃ parameters authorization url headers body,
            Takes document endpoint (Client.scope config) parameters authorization ∧
            Bare naming request.url url ∧ Bare naming request.headers headers ∧
            Bare naming request.body body ∧
            request.ReadsInput parameters authorization
              (readsOf url ++ readsOf headers ++ readsOf body) := by
  intro config moment parameter operation key item plain document
  have generates : (match document.resolve.outcome (Client.scope config)
        (Log.starting Registry.empty) with
      | (.ok api, log) =>
          let naming := Naming.ofApi config api (Client.declaredTypes api log.store)
          let base := (ServerPlan.ofMode naming document config.server).base
          api.endpoints.any fun endpoint =>
            ((ofEndpoint naming document base endpoint).outcome (Client.scope config)
              (Log.starting [])).1.isOk
      | (.error _, _) => false) = true := by
    decide +kernel
  split at generates
  case h_2 => contradiction
  case h_1 api log resolved =>
    obtain ⟨endpoint, listed, succeeds⟩ := List.any_eq_true.mp generates
    obtain ⟨request, after, ended⟩ := succeeds_of_isOk succeeds
    exact ⟨api, log, resolved, endpoint, listed, request, after, ended,
      ofEndpoint_reads (by decide) resolved listed ended⟩

end Request

end ElmClient.Elm
