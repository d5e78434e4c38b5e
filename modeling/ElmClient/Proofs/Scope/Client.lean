/-
Variables and names among the requests of a client. A variable hides another one exactly where a
parameter is sent whose values are null in more than one way, and is called like a declaration only
where that is the plain function of an operation.
-/

import ElmClient.Proofs.Distinct.Operations
import ElmClient.Proofs.Scope.Declarations

namespace ElmClient

open Elm Lexer Run Text

/-! ### Registries -/

/-- The expressions of the format bind no variables, and its type defines none. -/
structure FormatEntry.BindsNothing (entry : FormatEntry) : Prop where
  elmType : Tidy entry.elmType ∧ NoEquals entry.elmType
  encode : Lexer.BindsNothing entry.encode
  decode : Lexer.BindsNothing entry.decode
  stringify : ∀ function ∈ entry.stringify, Lexer.BindsNothing function

def Config.BindsNothing (config : Config) : Prop :=
  ∀ kind ∈ config.formats.kinds, ∀ entry ∈ kind.2, entry.2.BindsNothing

namespace Config.BindsNothing

theorem default : Config.default.BindsNothing := by
  have plain : FormatRegistry.plainString.BindsNothing :=
    ⟨⟨.fixed, .fixed (by decide)⟩, by decide, by decide,
      fun _ same => Option.some.inj same ▸ by decide⟩
  have moment : FormatRegistry.dateTime.BindsNothing :=
    ⟨⟨.fixed, .fixed (by decide)⟩, by decide, by decide,
      fun _ same => Option.some.inj same ▸ by decide⟩
  refine List.forall_mem_singleton.mpr ?_
  exact List.forall_mem_cons.mpr ⟨moment, List.forall_mem_cons.mpr
    ⟨plain, List.forall_mem_singleton.mpr plain⟩⟩

variable {config : Config} (binds : config.BindsNothing)

include binds

theorem formatsTidy : config.FormatsTidy := by
  intro kind inKinds entry listed
  have bound := binds kind inKinds entry listed
  exact ⟨bound.elmType.1, bound.encode.tidy, bound.decode.tidy,
    fun function member => (bound.stringify function member).tidy⟩

variable (api : Api) (declared : DeclaredTypes)

theorem ofApi {value : Primitive} {entry : FormatEntry}
    (found : Naming.formatEntry? (Naming.ofApi config api declared) value = some entry) :
    entry.BindsNothing := by
  obtain ⟨format, -, looked⟩ := Option.bind_eq_some_iff.mp found
  obtain ⟨formats, kindFound, entryFound⟩ := Option.bind_eq_some_iff.mp looked
  exact binds _ (Keyed.mem_of_find? kindFound) _ (Keyed.mem_of_find? entryFound)

theorem quiet : (Naming.ofApi config api declared).Quiet := by
  rintro expression ⟨value, entry, found, rfl | rfl | present⟩
  · exact (binds.ofApi api declared found).encode
  · exact (binds.ofApi api declared found).decode
  · exact (binds.ofApi api declared found).stringify expression present

theorem plainTypes : (Naming.ofApi config api declared).PlainTypes :=
  fun _ _ found => (binds.ofApi api declared found).elmType.2

end Config.BindsNothing

namespace Elm

/-! ### Parameters that are sent -/

def bucketsOf (endpoint : Endpoint) : RequestParameters :=
  .ofPlaced (RequestParameters.destinations endpoint.path endpoint.parameters)

theorem partition_buckets {σ : Type} (endpoint : Endpoint) :
    Returns (RequestParameters.partition endpoint : Run σ RequestParameters)
      fun parameters => parameters = bucketsOf endpoint := by
  intro scope before parameters after ended
  obtain ⟨found, middle, treated, rest⟩ := parts_of_outcome_bind ended
  obtain ⟨_, last, -, same⟩ := parts_of_outcome_bind rest
  obtain ⟨rfl, -⟩ := RequestParameters.traverse_placed?_ok treated
  cases same
  rfl

def sentFields (endpoint : Endpoint) : List ParameterField :=
  (bucketsOf endpoint).pathFields endpoint.path ++ (bucketsOf endpoint).query
    ++ (bucketsOf endpoint).header

/-- A request sends a value that can be null in more than one way. -/
def Naming.SendsNullTwice (naming : Naming) (endpoint : Endpoint) : Prop :=
  ∃ field ∈ sentFields endpoint, naming.NullsTwice field

/-! ### Operations -/

section Operations

variable {naming : Naming} {policy : Policy} (quiet : naming.Quiet) (types : naming.PlainTypes)
  (tidy : naming.IsTidy) (named : naming.NamesTidy) (components : naming.CoversComponents)
  (document : Document) {base : BaseUrl} (isCode : base.IsCode naming) {endpoint : Endpoint}
  (holds : naming.HoldsEndpoint endpoint)

include quiet types tidy named components isCode holds

theorem ofEndpoint_parts :
    Behaves policy (HelpersShow naming) (Request.ofEndpoint naming document base endpoint)
      fun request => request.Parts (naming.SendsNullTwice endpoint) := by
  have closed : Run.Closed fun {_} (action : Run Helpers _) =>
      Maintains (HelpersShow naming) action :=
    Maintains.closed
  have stores := stores_helpersShow naming
  have proper := holds.proper
  refine .bind (.ofReturns (closed.withPath _
      (ResponsePlan.ofEndpoint_closed closed naming endpoint))
    (.withPath _ ((ResponsePlan.ofEndpoint_tidy tidy proper holds.responses).and
      ((ResponsePlan.ofEndpoint_shows quiet named proper holds.responses).and
        (noEquals_outcome named types proper holds.responses))))) ?_
  rintro responses ⟨responsesTidy, expected, success, error⟩
  refine .bind (.ofReturns (closed.withPath _ (RequestParameters.partition_closed closed endpoint))
    (.withPath _ ((partition_holds holds.parameters).and (partition_buckets endpoint)))) ?_
  rintro _ ⟨fields, rfl⟩
  refine .bind (.ofReturns (Authorization.ofEndpoint_closed closed document endpoint)
    ((Authorization.ofEndpoint_tidy document endpoint).and
      (Authorization.ofEndpoint_sends document endpoint))) ?_
  rintro authorization ⟨keys, headerKeys, queryKeys, sends⟩
  refine .bind (urlExpression_writes stores named components fields sends endpoint isCode)
    fun url urlWrites => ?_
  refine .bind (headersExpression_writes stores named components fields sends)
    fun headers headersWrite => ?_
  refine .map (.withPath _ (.ofReturns (bodyExpression_closed closed naming endpoint)
    (bodyExpression_writes named holds))) fun body bodyWrites => ?_
  obtain ⟨urlWords, inUrl, urlSpells, urlClosed, urlShades⟩ := urlWrites.spells quiet
  obtain ⟨headerWords, inHeaders, headersSpell, headersClosed, headersShade⟩ :=
    headersWrite.spells quiet
  obtain ⟨bodyWords, inBody, bodySpells, bodyClosed, bodyShades⟩ := bodyWrites.spells quiet
  obtain ⟨expectWords, inExpect, expectSpells, expectClosed, indexed⟩ := expected.parts
  have inUrlVariables {name : String} (listed : name ∈ urlVariables) : IsPartVariable name :=
    Or.inl listed
  have expectShades : Shades IsPartVariable False inExpect :=
    ⟨fun binder listed => Or.inr (Or.inr (indexed binder listed).2),
      iff_of_false (fun ⟨binder, listed, hides⟩ => (indexed binder listed).1 hides) id⟩
  have shades := (((urlShades.imp fun _ => inUrlVariables).append
    (headersShade.imp fun _ => inUrlVariables)).append
      (bodyShades.imp fun _ isBody => Or.inr (Or.inl isBody))).append expectShades
  refine ⟨⟨proper, responsesTidy, tidy_inputEntries tidy holds base keys fields, urlSpells.tidy,
      headersSpell.tidy, bodySpells.tidy⟩, noEquals_inputs named types holds base keys fields,
    success, error, inUrl, inHeaders, inBody, inExpect, ⟨_, urlSpells, urlClosed⟩,
    ⟨_, headersSpell, headersClosed⟩, ⟨_, bodySpells, bodyClosed⟩,
    ⟨_, expectSpells, expectClosed⟩, shades.congr ?_⟩
  simp only [Naming.SendsNullTwice, sentFields, List.mem_append, or_and_right, exists_or, or_false]

end Operations

/-! ### Binders of several declarations -/

def requestBinders (declarations : List Grouped) : List Binder :=
  (declarations.filter fun entry => entry.1 == .requests).flatMap fun entry =>
    bindersOf entry.2.source

private theorem requestBinders_append (left right : List Grouped) :
    requestBinders (left ++ right) = requestBinders left ++ requestBinders right := by
  rw [requestBinders, List.filter_append, List.flatMap_append]
  rfl

private theorem requestBinders_flatten (lists : List (List Grouped)) :
    requestBinders lists.flatten = (lists.map requestBinders).flatten := by
  induction lists with
  | nil => rfl
  | cons first rest ih => rw [List.flatten_cons, requestBinders_append, ih]; rfl

private theorem requestBinders_cons_errors (declaration : Declaration)
    (declarations : List Grouped) :
    requestBinders ((.errors, declaration) :: declarations) = requestBinders declarations :=
  rfl

private theorem requestBinders_of_names {declarations : List Grouped}
    (none : groupNames .requests declarations = []) : requestBinders declarations = [] := by
  rw [requestBinders, List.map_eq_nil_iff.mp none]
  rfl

private theorem requestBinders_requests (declarations : List Declaration) :
    requestBinders (declarations.map fun declaration => (.requests, declaration)) =
      declarations.flatMap fun declaration => bindersOf declaration.source := by
  rw [requestBinders, List.filter_eq_self.mpr, List.flatMap_map]
  intro entry listed
  obtain ⟨declaration, -, rfl⟩ := List.mem_map.mp listed
  rfl

private theorem shades_declarations {named : String → Prop} {declarations : List Declaration}
    (each : ∀ declaration ∈ declarations, Shades named False (bindersOf declaration.source)) :
    Shades named False (declarations.flatMap fun declaration => bindersOf declaration.source) := by
  have related : List.Forall₂ (fun (_ : Declaration) bound => Shades named False bound) declarations
      (declarations.map fun declaration => bindersOf declaration.source) :=
    List.forall₂_map_right_iff.mpr (List.forall₂_same.mpr each)
  rw [List.flatMap_def]
  exact (Shades.flatten related).congr (by simp)

private theorem Request.Parts.shades_declarations {request : Request} {hidden : Prop}
    (parts : request.Parts hidden) (profiles : List EffectProfile) :
    Shades IsRequestVariable hidden (requestBinders (request.declarations profiles)) := by
  have others : Shades IsRequestVariable False
      ((profiles.map request.functionDeclaration).flatMap fun declaration =>
        bindersOf declaration.source) :=
    Elm.shades_declarations (List.forall_mem_map.mpr fun profile _ => parts.shades_function profile)
  have whole : Shades IsRequestVariable hidden
      ((request.wireDeclaration :: profiles.map request.functionDeclaration).flatMap
        fun declaration => bindersOf declaration.source) :=
    (parts.shades_wire.append others).congr (or_false hidden).to_iff
  rw [← requestBinders_requests, ← functions_eq_map] at whole
  unfold Request.declarations
  split
  · rw [List.singleton_append, requestBinders_cons_errors]
    exact whole
  · exact whole

/-! ### Names of declarations -/

def plainVariables : List String :=
  ["config", "payload", "rec", "val", "value", "inner", "flag"] ++ urlVariables

theorem IsRequestVariable.plain_or_numbered {name : String} (isVariable : IsRequestVariable name) :
    name ∈ plainVariables ∨ ∃ base number, name = base ++ toString (number : Nat) := by
  have numbered (base : String) (listed : base ∈ plainVariables) (depth : Nat) :
      numberedVariable base depth ∈ plainVariables ∨
        ∃ base' number, numberedVariable base depth = base' ++ toString (number : Nat) := by
    unfold numberedVariable
    split
    · exact Or.inl listed
    · exact Or.inr ⟨base, depth, rfl⟩
  have listed {names : List String} (inNames : name ∈ names) (all : names ⊆ plainVariables) :
      name ∈ plainVariables := all inNames
  rcases isVariable with input | (url | (payload | ⟨depth, record | value⟩) |
    ⟨index, indexed⟩) | own
  · exact Or.inl (input ▸ by decide)
  · exact Or.inl (listed url (by decide))
  · exact Or.inl (payload ▸ by decide)
  · exact record ▸ numbered "rec" (by decide) depth
  · exact value ▸ numbered "val" (by decide) depth
  · exact Or.inr ⟨"v", index, indexed⟩
  · exact Or.inl (listed own (by decide))

def declarationSuffixes : List String :=
  ["Wire_", "ToParam_", "Task", "Record", "Effect", "EffectTask", "EffectRecord"]

private theorem IsRequestVariable.not_suffix {name suffix : String}
    (isVariable : IsRequestVariable name)
    (listed : suffix ∈ declarationSuffixes) : ¬ suffix.toList <:+ name.toList := by
  have apart : ∀ name ∈ plainVariables, ∀ suffix ∈ declarationSuffixes,
      ¬ suffix.toList <:+ name.toList := by
    decide
  have letters : ∀ suffix ∈ declarationSuffixes,
      suffix.toList ≠ [] ∧ (suffix.toList.getLast?).any Char.isDigit = false := by
    decide
  rcases isVariable.plain_or_numbered with plain | ⟨base, number, rfl⟩
  · exact apart name plain suffix listed
  · rintro ⟨front, same⟩
    obtain ⟨inhabited, letter⟩ := letters suffix listed
    have digit := ends_digit base number
    rw [← same, List.getLast?_append_of_ne_nil _ inhabited, letter] at digit
    contradiction

private theorem IsRequestVariable.ne_append {name suffix : String}
    (isVariable : IsRequestVariable name)
    (listed : suffix ∈ declarationSuffixes) (front : String) : name ≠ front ++ suffix := by
  rintro rfl
  exact isVariable.not_suffix listed ⟨front.toList, String.toList_append.symm⟩

/-- Of an operation's declarations only the plain function can be called like a variable. -/
theorem variable_mem_requestNames {name : String} (isVariable : IsRequestVariable name)
    {profiles : List EffectProfile} {operation : TypeName} :
    name ∈ requestNames profiles operation ↔
      EffectProfile.standard ∈ profiles ∧ name = operation.toValueName := by
  constructor
  · intro member
    obtain ⟨suffix, inSuffixes, rfl⟩ := List.mem_map.mp member
    rcases List.mem_cons.mp inSuffixes with rfl | listed
    · exact absurd rfl (isVariable.ne_append (by decide) _)
    · obtain ⟨profile, inProfiles, rfl⟩ := List.mem_map.mp listed
      by_cases standard : profile = .standard
      · subst standard
        exact ⟨inProfiles, String.append_empty⟩
      · have suffixed : profile.functionSuffix ∈ declarationSuffixes := by
          revert standard
          rcases profile with ⟨_ | _, _ | _ | _⟩ <;> decide
        exact absurd rfl (isVariable.ne_append suffixed _)
  · rintro ⟨standard, rfl⟩
    refine List.mem_map.mpr ⟨"", List.mem_cons_of_mem _ (List.mem_map_of_mem standard), ?_⟩
    exact String.append_empty

private theorem variable_ne_helperName {name : String} (isVariable : IsRequestVariable name)
    (union : Union) : name ≠ Stringifier.helperName union :=
  isVariable.ne_append (by decide) _

end Elm

/-! ### Clients -/

namespace Client

section Declarations

variable {naming : Naming} {policy : Policy} (quiet : naming.Quiet) (types : naming.PlainTypes)
  (tidy : naming.IsTidy) (named : naming.NamesTidy)

include quiet in
theorem helperDeclarations_shade :
    Behaves policy (HelpersShow naming) helperDeclarations fun declarations =>
      Shades IsRequestVariable False (requestBinders declarations) := by
  refine .map .getStore fun helpers shown => ?_
  have each : ∀ declaration ∈ (Sorted.sortBy (fun left right => decide (left < right)) Prod.fst
      helpers).map Prod.snd, Shades IsRequestVariable False (bindersOf declaration.source) := by
    refine List.forall_mem_map.mpr fun helper listed => ?_
    have binders := shown helper (List.mem_mergeSort.mp listed) quiet
    exact ⟨fun binder member => Or.inr (Or.inr (binders binder member).2),
      iff_of_false (fun ⟨binder, member, hides⟩ => (binders binder member).1 hides) id⟩
  have whole := shades_declarations each
  rwa [← requestBinders_requests, List.map_map] at whole

include quiet types tidy named

theorem declare_shades (config : Config) (document : Document) {api : Api}
    (fits : Fits naming api)
    (isCode : (ServerPlan.ofMode naming document config.server).base.IsCode naming) :
    Behaves policy (HelpersShow naming) (declare naming config document api) fun declarations =>
      Shades IsRequestVariable (∃ endpoint ∈ api.endpoints, naming.SendsNullTwice endpoint)
        (requestBinders declarations) := by
  have closed : Run.Closed fun {_} (action : Run Helpers _) =>
      Maintains (HelpersShow naming) action :=
    Maintains.closed
  refine .bind (.traverseValues fun component _ => .ofReturns
    (closed.withPath _ (componentDeclarations_closed closed naming component))
    (ofComponent_noRequests naming component)) fun components componentNames => ?_
  refine .bind (.ofReturns (discoveredDeclarations_closed closed naming)
    (discoveredDeclarations_noRequests naming)) fun discovered discoveredNames => ?_
  have each : ∀ endpoint ∈ api.endpoints,
      Behaves policy (HelpersShow naming)
        (ofEndpoint naming config document (ServerPlan.ofMode naming document config.server).base
          endpoint) fun declarations =>
        Shades IsRequestVariable (naming.SendsNullTwice endpoint) (requestBinders declarations) :=
    fun endpoint listed => .withPath _ (.withPath _ (.map
      (ofEndpoint_parts quiet types tidy named fits.targets document isCode
        (fits.endpoints endpoint listed)) fun request parts =>
          parts.shades_declarations config.profiles))
  refine .bind (.traverseOf each) fun endpoints shades => ?_
  refine .map (helperDeclarations_shade quiet) fun helpers helpersShade => ?_
  have noComponents : requestBinders components.flatten = [] := by
    rw [requestBinders_flatten, List.flatten_eq_nil_iff]
    exact List.forall_mem_map.mpr fun declarations listed =>
      requestBinders_of_names (componentNames declarations listed)
  have noOthers : ∀ (group : Group) (declarations : List Declaration), group ≠ .requests →
      requestBinders (declarations.map fun declaration => (group, declaration)) = [] := by
    intro group declarations other
    refine requestBinders_of_names (groupNames_of_others (List.forall_mem_map.mpr fun _ _ => other))
  have requests : Shades IsRequestVariable
      (∃ endpoint ∈ api.endpoints, naming.SendsNullTwice endpoint)
        (requestBinders endpoints.flatten) := by
    rw [requestBinders_flatten]
    exact Shades.flatten (List.forall₂_map_right_iff.mpr shades)
  rw [requestBinders_append, requestBinders_append, requestBinders_append, requestBinders_append,
    requestBinders_append, noComponents, requestBinders_of_names discoveredNames,
    noOthers .servers _ nofun, noOthers .common _ nofun, List.append_nil, List.nil_append,
    List.nil_append]
  exact (requests.append helpersShade).congr (or_false _).to_iff

end Declarations

/-! ### Requests without hidden names -/

/-- In the requests no variable is called like one around it or like a declaration. -/
structure Unshadowed (client : Client) : Prop where
  inner : ∀ declaration ∈ client.group .requests,
    ∀ binder ∈ bindersOf declaration.source, ¬ binder.Hides
  outer : ∀ declaration ∈ client.group .requests,
    ∀ binder ∈ bindersOf declaration.source,
      ∀ other ∈ client.group .requests, binder.name ≠ other.name

theorem group_binders (client : Client) :
    requestBinders client.declarations =
      (client.group .requests).flatMap fun declaration => bindersOf declaration.source := by
  rw [group, List.flatMap_map]
  rfl

private theorem unshadowed_iff_binders (client : Client) :
    client.Unshadowed ↔
      (¬ ∃ binder ∈ requestBinders client.declarations, binder.Hides) ∧
        ∀ binder ∈ requestBinders client.declarations,
          binder.name ∉ groupNames .requests client.declarations := by
  rw [group_binders, ← group_names]
  constructor
  · rintro ⟨inner, outer⟩
    constructor
    · rintro ⟨binder, listed, hides⟩
      obtain ⟨declaration, inGroup, inSource⟩ := List.mem_flatMap.mp listed
      exact inner declaration inGroup binder inSource hides
    · intro binder listed isNamed
      obtain ⟨declaration, inGroup, inSource⟩ := List.mem_flatMap.mp listed
      obtain ⟨other, alsoInGroup, same⟩ := List.mem_map.mp isNamed
      exact outer declaration inGroup binder inSource other alsoInGroup same.symm
  · rintro ⟨inner, outer⟩
    constructor
    · intro declaration inGroup binder inSource hides
      exact inner ⟨binder, List.mem_flatMap.mpr ⟨declaration, inGroup, inSource⟩, hides⟩
    · intro declaration inGroup binder inSource other alsoInGroup same
      exact outer binder (List.mem_flatMap.mpr ⟨declaration, inGroup, inSource⟩)
        (List.mem_map.mpr ⟨other, alsoInGroup, same.symm⟩)

theorem ofDocument_shades {config : Config} {document : Document} {client : Client} {api : Api}
    {log : Log Registry} (valid : config.validate = .ok ()) (binds : config.BindsNothing)
    (resolved : document.resolve.outcome (scope config) (Log.starting Registry.empty) =
      (.ok api, log))
    (generated : ofDocument config document = .ok client) :
    Shades IsRequestVariable
      (∃ endpoint ∈ api.endpoints,
        (Naming.ofApi config api (declaredTypes api log.store)).SendsNullTwice endpoint)
      (requestBinders client.declarations) := by
  obtain ⟨finished, ended⟩ := ofDocument_declared resolved generated
  obtain ⟨registrySound, apiSound⟩ := document.resolve_sound resolved
  have isPath := Config.isModulePath_of_validate valid
  have tidy := ofApi_tidy registrySound apiSound isPath binds.formatsTidy
  have named := namesTidy_ofApi registrySound apiSound isPath
  have fits := ofApi_fits config registrySound apiSound
    (document.resolve_apart _ _ api log resolved).proper
  have behaves : Behaves (scope config).policy (HelpersShow _) _ _ :=
    declare_shades (binds.quiet api _) (binds.plainTypes api _) tidy named config document fits
      (ofMode_isCode named document config.server)
  refine (behaves (scope config) { warnings := log.warnings, store := [] } rfl ?_).2 _
    (congrArg Prod.fst ended)
  exact fun _ listed => absurd listed List.not_mem_nil

/-- No variable hides another one unless an operation sends a parameter that is null in more
than one way, and none is called like a declaration but for the plain function of an operation. -/
theorem unshadowed_iff {config : Config} {document : Document} {client : Client} {api : Api}
    {log : Log Registry} (valid : config.validate = .ok ()) (binds : config.BindsNothing)
    (resolved : document.resolve.outcome (scope config) (Log.starting Registry.empty) =
      (.ok api, log))
    (generated : ofDocument config document = .ok client) :
    (∀ binder ∈ requestBinders client.declarations, IsRequestVariable binder.name) ∧
      (client.Unshadowed ↔
        (∀ endpoint ∈ api.endpoints,
          ¬ (Naming.ofApi config api (declaredTypes api log.store)).SendsNullTwice endpoint) ∧
        (EffectProfile.standard ∈ config.profiles →
          ∀ endpoint ∈ api.endpoints, ∀ binder ∈ requestBinders client.declarations,
            endpoint.name.toValueName ≠ binder.name)) := by
  have shades := ofDocument_shades valid binds resolved generated
  obtain ⟨finished, ended⟩ := ofDocument_declared resolved generated
  have noHelpers : HelpersOnce [] := ⟨List.nodup_nil, nofun, nofun⟩
  obtain ⟨helpers, helperNames, names⟩ :=
    declare_requests _ config document api _ _ client.declarations finished noHelpers ended
  refine ⟨shades.named, ?_⟩
  rw [unshadowed_iff_binders, shades.hides, names]
  refine and_congr (by simp) ⟨?_, ?_⟩
  · intro apart standard endpoint listed binder inBinders same
    have inNames := (variable_mem_requestNames (shades.named binder inBinders)).mpr
      ⟨standard, same.symm⟩
    refine apart binder inBinders (List.mem_append_left _ (List.mem_flatMap.mpr ?_))
    exact ⟨endpoint.name, List.mem_map_of_mem listed, inNames⟩
  · intro apart binder inBinders member
    have isVariable := shades.named binder inBinders
    rcases List.mem_append.mp member with inRequests | inHelpers
    · obtain ⟨name, inApi, inNames⟩ := List.mem_flatMap.mp inRequests
      obtain ⟨endpoint, listed, rfl⟩ := List.mem_map.mp inApi
      obtain ⟨standard, same⟩ := (variable_mem_requestNames isVariable).mp inNames
      exact apart standard endpoint listed binder inBinders same.symm
    · obtain ⟨union, same⟩ := helperNames.ofUnions _ inHelpers
      exact variable_ne_helperName isVariable union same

def takingTag (name : String) (schema : RefOr Schema) : Document :=
  let plain := PathItem.reading [("204", .inline { description := "ok", content := [] })]
  let item :=
    { plain with
      get := plain.get.map fun operation =>
        { operation with
          operationId := some name, parameters := [.inline (Parameter.inQuery "tag" schema)] } }
  let tag := { Schema.bare with kind := some (.one "string"), nullable := some true }
  Document.ofParts [("/pets", item)] [("Tag", .inline tag)]

/-- A parameter that may be null, in an operation whose function is called apart. -/
theorem unshadowed_iff_tag :
    let document := takingTag "list" (.reference "#/components/schemas/Tag")
    Config.default.validate = .ok () ∧ Config.default.BindsNothing ∧ ∃ api log client,
      document.resolve.outcome (scope Config.default) (Log.starting Registry.empty) =
          (.ok api, log) ∧
        ofDocument Config.default document = .ok client ∧
        (∀ binder ∈ requestBinders client.declarations, IsRequestVariable binder.name) ∧
          (client.Unshadowed ↔
            (∀ endpoint ∈ api.endpoints,
              ¬ (Naming.ofApi Config.default api
                (declaredTypes api log.store)).SendsNullTwice endpoint) ∧
            (EffectProfile.standard ∈ Config.default.profiles →
              ∀ endpoint ∈ api.endpoints, ∀ binder ∈ requestBinders client.declarations,
                endpoint.name.toValueName ≠ binder.name)) := by
  intro document
  have valid : Config.default.validate = .ok () := by decide +kernel
  have succeeds : (match ofDocument Config.default document with
      | .ok _ => true
      | .error _ => false) = true := by
    decide +kernel
  split at succeeds
  case h_1 client generated =>
    obtain ⟨api, log, -, -, resolved, -, -⟩ := ofDocument_ok generated
    exact ⟨valid, .default, api, log, client, resolved, generated,
      unshadowed_iff valid .default resolved generated⟩
  case h_2 => contradiction

/-- The function of a null and that of a component that may be null have one variable. -/
theorem nullable_in_nullable :
    let null : RefOr Schema := .inline { Schema.bare with kind := some (.one "null") }
    let members := [.reference "#/components/schemas/Tag", null]
    let document := takingTag "list" (.inline { Schema.bare with anyOf := some members })
    ∃ client, ofDocument Config.default document = .ok client ∧ ¬ client.Unshadowed := by
  intro null members document
  have valid : Config.default.validate = .ok () := by decide +kernel
  have sendsTwice : (match document.resolve.outcome (scope Config.default)
        (Log.starting Registry.empty) with
      | (.ok api, log) =>
          let naming := Naming.ofApi Config.default api (declaredTypes api log.store)
          decide (∃ endpoint ∈ api.endpoints, ∃ field ∈ sentFields endpoint,
            2 ≤ naming.nullLevels true field.parameter.shape)
      | (.error _, _) => false) = true := by
    decide +kernel
  have succeeds : (ofDocument Config.default document).isOk = true := by
    decide +kernel
  split at sendsTwice
  case h_2 => contradiction
  case h_1 api log resolved =>
    have twice := of_decide_eq_true sendsTwice
    cases generated : ofDocument Config.default document with
    | error diagnostic =>
        rw [generated] at succeeds
        contradiction
    | ok client =>
        have shades := ofDocument_shades valid .default resolved generated
        refine ⟨client, rfl, fun unshadowed => ?_⟩
        obtain ⟨binder, listed, hides⟩ := shades.hides.mpr twice
        exact ((unshadowed_iff_binders client).mp unshadowed).1 ⟨binder, listed, hides⟩

end Client

end ElmClient
