/-
Everything that is declared for a document is tidy, if the configured formats are.
-/

import ElmClient.Proofs.Declared.Client
import ElmClient.Proofs.Distinct.Operations
import ElmClient.Proofs.Formats.Packages
import ElmClient.Proofs.Tidy.Requests
import ElmClient.Proofs.Tidy.Support

namespace ElmClient

open Elm Lexer Run

/-! ### Formats -/

def Config.FormatsTidy (config : Config) : Prop :=
  ∀ kind ∈ config.formats.kinds, ∀ entry ∈ kind.2, entry.2.IsTidy

theorem Config.default_formatsTidy : Config.default.FormatsTidy := by
  have plain : FormatRegistry.plainString.IsTidy :=
    ⟨.fixed, .fixed, .fixed, fun _ same => Option.some.inj same ▸ .fixed⟩
  have moment : FormatRegistry.dateTime.IsTidy :=
    ⟨.fixed, .fixed, .fixed, fun _ same => Option.some.inj same ▸ .fixed⟩
  refine List.forall_mem_singleton.mpr ?_
  exact List.forall_mem_cons.mpr ⟨moment, List.forall_mem_cons.mpr
    ⟨plain, List.forall_mem_singleton.mpr plain⟩⟩

private theorem Config.FormatsTidy.ofApi {config : Config} (tidy : config.FormatsTidy) (api : Api)
    (declared : DeclaredTypes) {value : Primitive} {entry : FormatEntry}
    (found : Naming.formatEntry? (Naming.ofApi config api declared) value = some entry) :
    entry.IsTidy := by
  obtain ⟨format, -, looked⟩ := Option.bind_eq_some_iff.mp found
  obtain ⟨formats, kindFound, entryFound⟩ := Option.bind_eq_some_iff.mp looked
  exact tidy _ (Keyed.mem_of_find? kindFound) _ (Keyed.mem_of_find? entryFound)

/-! ### Namings of documents -/

section Naming

variable {config : Config} {document : Document} {api : Api} {registry : Registry}
  (registrySound : registry.Sound document.components.schemas)
  (apiSound : api.Sound document registry)

include registrySound apiSound

private theorem covers_of_listed {shape : Shape}
    (listed : shape ∈ Packages.apiShapes api ++
      registry.unions.flatMap fun entry => entry.union.variants.map VariantOf.shape) :
    (Naming.ofApi config api (Client.declaredTypes api registry)).Covers shape := by
  intro inner nested
  have anchored := apiSound.anchored config registrySound shape listed inner nested
  cases inner with
  | union name variants =>
      obtain ⟨-, -, union, found, -⟩ := anchored
      exact ⟨union, found⟩
  | _ => trivial

theorem ofApi_tidy (valid : Config.isModulePath config.namespaceName = true)
    (formats : config.FormatsTidy) :
    (Naming.ofApi config api (Client.declaredTypes api registry)).IsTidy where
  valid := valid
  formats _ _ found := formats.ofApi api _ found
  enums entry listed := finalNames_proper registrySound _ entry.2
    (declaredNames_perm.mem_iff.mp (List.mem_append_left _ (List.mem_map_of_mem listed)))
  unions entry listed := finalNames_proper registrySound _ entry.2.name
    (declaredNames_perm.mem_iff.mp
      (List.mem_append_right _ (List.mem_map.mpr ⟨entry, listed, rfl⟩)))
  members entry listed variant member := by
    have proper := finalNames_proper registrySound _ entry.2.name (declaredNames_perm.mem_iff.mp
      (List.mem_append_right _ (List.mem_map.mpr ⟨entry, listed, rfl⟩)))
    obtain ⟨stored, inStore, final, renamed⟩ := Registry.stored_of_drain listed
    rw [renamed] at member proper
    obtain ⟨original, inUnion, rfl⟩ := List.mem_map.mp member
    have sound := registrySound.variants stored inStore original inUnion
    have shapes : original.shape ∈ stored.union.variants.map VariantOf.shape :=
      List.mem_map_of_mem inUnion
    exact ⟨sound.name.replaceLead _ proper, covers_of_listed registrySound apiSound
      (List.mem_append_right _ (List.mem_flatMap.mpr ⟨stored, inStore, shapes⟩))⟩

end Naming

namespace Client

variable {naming : Naming} {policy : Policy}

structure Fits (naming : Naming) (api : Api) : Prop where
  components : ∀ component ∈ api.components, naming.Holds component
  endpoints : ∀ endpoint ∈ api.endpoints, naming.HoldsEndpoint endpoint
  targets : naming.CoversComponents

section Declarations

variable (tidy : naming.IsTidy)

include tidy

theorem ofComponent_tidy {component : Component} (holds : naming.Holds component) :
    Behaves policy TidyHelpers (ofComponent naming component) TidySources := by
  have closed : Closed (fun {_} (action : Run Helpers _) => Maintains TidyHelpers action) :=
    Maintains.closed
  exact .withPath _ (.ofReturns (componentDeclarations_closed closed naming component)
    (componentDeclarations_tidy tidy holds))

theorem ofEndpoint_tidy (components : naming.CoversComponents) (config : Config)
    (document : Document) {base : BaseUrl} (baseTidy : Tidy base.expression) {endpoint : Endpoint}
    (holds : naming.HoldsEndpoint endpoint) :
    Behaves policy TidyHelpers (ofEndpoint naming config document base endpoint) TidySources :=
  .withPath _ (.withPath _ (.map (Request.ofEndpoint_tidy tidy components document baseTidy holds)
    fun _ request => request.declarations config.profiles))

omit tidy in
theorem helperDeclarations_tidy : Behaves policy TidyHelpers helperDeclarations TidySources := by
  refine .map .getStore fun helpers stored => List.forall_mem_map.mpr fun helper member => ?_
  exact stored helper (List.mem_mergeSort.mp member)

theorem declare_tidy (config : Config) (document : Document) {api : Api} (fits : Fits naming api) :
    Behaves policy TidyHelpers (declare naming config document api) TidySources := by
  have closed : Closed (fun {_} (action : Run Helpers _) => Maintains TidyHelpers action) :=
    Maintains.closed
  have servers := ServerPlan.ofMode_tidy tidy document config.server
  refine .bind (.traverseValues fun component member =>
    ofComponent_tidy tidy (fits.components component member)) fun components componentsTidy => ?_
  refine .bind (.ofReturns (discoveredDeclarations_closed closed naming)
    (discoveredDeclarations_tidy tidy)) fun found foundTidy => ?_
  refine .bind (.traverseValues fun endpoint member => ofEndpoint_tidy tidy fits.targets config
    document servers.base (fits.endpoints endpoint member)) fun endpoints endpointsTidy => ?_
  refine .map helperDeclarations_tidy fun helpers helpersTidy => ?_
  have common : TidySources ((commonDeclarations config.profiles).map (Group.common, ·)) :=
    List.forall_mem_map.mpr (commonDeclarations_tidy config.profiles)
  have constants : TidySources ((ServerPlan.ofMode naming document config.server).declarations.map
      (Group.servers, ·)) := List.forall_mem_map.mpr servers.declarations
  unfold TidySources
  simp only [List.forall_mem_append]
  exact ⟨⟨⟨⟨⟨TidySources.flatten componentsTidy, foundTidy⟩, constants⟩,
    TidySources.flatten endpointsTidy⟩, helpersTidy⟩, common⟩

end Declarations

theorem payload_covers {payload : Payload}
    (covers : ∀ shape ∈ Packages.payloadShapes payload, naming.Covers shape) :
    naming.Covers payload.shape := by
  cases payload with
  | json shape => exact covers shape List.mem_cons_self
  | text => exact (Shape.everywhere_flat_iff rfl).mpr trivial
  | bytes => exact (Shape.everywhere_flat_iff rfl).mpr trivial
  | empty => exact (Shape.everywhere_flat_iff rfl).mpr trivial

theorem ofApi_fits (config : Config) {document : Document} {api : Api} {registry : Registry}
    (registrySound : registry.Sound document.components.schemas)
    (apiSound : api.Sound document registry)
    (endpoints : ∀ endpoint ∈ api.endpoints, endpoint.name.Proper) :
    Fits (Naming.ofApi config api (declaredTypes api registry)) api := by
  have covers : ∀ shape ∈ Packages.apiShapes api,
      (Naming.ofApi config api (declaredTypes api registry)).Covers shape := fun shape listed =>
    covers_of_listed registrySound apiSound (List.mem_append_left _ listed)
  have ofComponent : ∀ component ∈ api.components,
      (Naming.ofApi config api (declaredTypes api registry)).Covers component.shape :=
    fun component member =>
      covers _ (List.mem_append_left _ (List.mem_map_of_mem member))
  have sent : ∀ endpoint ∈ api.endpoints, ∀ shape ∈ Packages.endpointShapes endpoint,
      (Naming.ofApi config api (declaredTypes api registry)).Covers shape :=
    fun endpoint member shape inEndpoint =>
      covers _ (List.mem_append_right _ (List.mem_flatMap.mpr ⟨endpoint, member, inEndpoint⟩))
  refine ⟨fun component member => ⟨?_, ofComponent component member⟩,
    fun endpoint member => ⟨endpoints endpoint member, ?_, ?_, ?_⟩, ?_⟩
  · rw [apiSound.names component member]
    exact TypeName.ofRaw_proper _
  · exact fun parameter listed => sent endpoint member _
      (List.mem_append_left _ (List.mem_append_left _ (List.mem_map_of_mem listed)))
  · exact fun body present => payload_covers fun shape inBody => sent endpoint member shape
      (List.mem_append_left _ (List.mem_append_right _
        (List.mem_flatMap.mpr ⟨body, Option.mem_toList.mpr present, inBody⟩)))
  · exact fun response listed => payload_covers fun shape inResponse => sent endpoint member shape
      (List.mem_append_right _ (List.mem_flatMap.mpr ⟨response, listed, inResponse⟩))
  · exact List.forall_mem_map.mpr ofComponent

/-- The sources of all declarations are tidy. -/
theorem ofDocument_tidy {config : Config} {document : Document} {client : Client}
    (valid : config.validate = .ok ()) (formats : config.FormatsTidy)
    (generated : ofDocument config document = .ok client) : TidySources client.declarations := by
  obtain ⟨api, log, declarations, finished, resolved, ended, rfl⟩ := ofDocument_ok generated
  obtain ⟨registrySound, apiSound⟩ := document.resolve_sound resolved
  have tidy := ofApi_tidy registrySound apiSound (Config.isModulePath_of_validate valid) formats
  have apart := document.resolve_apart _ _ _ _ resolved
  have fits := ofApi_fits config registrySound apiSound apart.proper
  have behaves : Behaves (scope config).policy TidyHelpers
      (declare (Naming.ofApi config api (declaredTypes api log.store)) config document api)
      TidySources := declare_tidy tidy config document fits
  have empty : TidyHelpers [] := fun _ member => absurd member List.not_mem_nil
  refine (behaves (scope config) { warnings := log.warnings, store := [] } rfl empty).2 _ ?_
  exact congrArg Prod.fst ended

end Client

end ElmClient
