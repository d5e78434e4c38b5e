/-
When the request functions have distinct names. The names of operations are distinct, and
so are those of the helpers; what collides is a name with a suffix behind it.
-/

import ElmClient.Proofs.Client
import ElmClient.Proofs.Closed.Elm
import ElmClient.Proofs.Distinct.Requests
import ElmClient.Proofs.Keyed
import ElmClient.Proofs.Resolve.Steps
import ElmClient.Proofs.Sample

namespace ElmClient

/-! ### Operations of a document -/

namespace Resolve

open Run

/-- Endpoints with proper names that are distinct and not met before. -/
structure Apart (seen : List (TypeName × String)) (endpoints : List Endpoint) : Prop where
  proper : ∀ endpoint ∈ endpoints, endpoint.name.Proper
  unseen : ∀ endpoint ∈ endpoints, Keyed.find? endpoint.name seen = none
  distinct : (endpoints.map Endpoint.name).Nodup

private theorem Apart.cons {seen : List (TypeName × String)} {endpoints : List Endpoint}
    {resolved : Endpoint} {id : String} (proper : resolved.name.Proper)
    (new : Keyed.find? resolved.name seen = none)
    (apart : Apart ((resolved.name, id) :: seen) endpoints) :
    Apart seen (resolved :: endpoints) where
  proper := List.forall_mem_cons.mpr ⟨proper, apart.proper⟩
  unseen := List.forall_mem_cons.mpr ⟨new, fun endpoint member =>
    (Keyed.find?_cons_eq_none_iff.mp (apart.unseen endpoint member)).2⟩
  distinct := by
    refine List.nodup_cons.mpr ⟨fun again => ?_, apart.distinct⟩
    obtain ⟨endpoint, member, same⟩ := List.mem_map.mp again
    exact (Keyed.find?_cons_eq_none_iff.mp (apart.unseen endpoint member)).1 same

theorem endpoint_proper (source : Source) (placed : PlacedOperation) :
    Returns (endpoint source placed) fun resolved => resolved.name.Proper := by
  rw [endpoint_eq]
  refine Returns.bind (Returns.any _) fun _ _ => ?_
  refine Returns.bind (Returns.any _) fun _ _ => ?_
  exact Returns.map (Returns.any _) fun _ _ => TypeName.ofRaw_proper _

theorem distinctEndpoint_apart (source : Source) (seen : List (TypeName × String))
    (placed : PlacedOperation) :
    Returns (distinctEndpoint source seen placed) fun resolved =>
      resolved.name.Proper ∧ Keyed.find? resolved.name seen = none := by
  apply Returns.withPath
  apply Returns.withPath
  refine Returns.bind (endpoint_proper source placed) fun resolved proper => ?_
  split
  case h_1 => exact Returns.fail
  case h_2 new => exact Returns.pure ⟨proper, new⟩

theorem endpointsFrom_apart (source : Source) (seen : List (TypeName × String))
    (operations : List PlacedOperation) :
    Returns (endpointsFrom source seen operations) (Apart seen) := by
  induction operations generalizing seen with
  | nil =>
      exact Returns.pure ⟨fun _ absent => absurd absent List.not_mem_nil,
        fun _ absent => absurd absent List.not_mem_nil, List.nodup_nil⟩
  | cons placed rest ih =>
      unfold endpointsFrom
      refine Returns.bind (distinctEndpoint_apart source seen placed) fun resolved first => ?_
      exact Returns.map (ih _) fun _ apart => apart.cons first.1 first.2

end Resolve

theorem Document.resolve_apart (document : Document) :
    Run.Returns document.resolve fun api => Resolve.Apart [] api.endpoints := by
  refine Run.Returns.bind (Run.Returns.any _) fun _ _ => ?_
  exact Run.Returns.map (Resolve.endpointsFrom_apart _ [] _) fun _ apart => apart

/-! ### Helpers -/

namespace Elm

open Run

structure HelpersOnce (helpers : Helpers) : Prop where
  distinct : (Keyed.keys helpers).Nodup
  declared : ∀ entry ∈ helpers, entry.2.name = entry.1
  ofUnions : ∀ entry ∈ helpers, ∃ union, entry.1 = Stringifier.helperName union

private theorem HelpersOnce.insert {helpers : Helpers} (once : HelpersOnce helpers) (union : Union)
    (source : String) :
    HelpersOnce (Keyed.insert (Stringifier.helperName union)
      (Declaration.value (Stringifier.helperName union) none source) helpers) where
  distinct := Keyed.nodup_keys_insert once.distinct _ _
  declared entry member := by
    rcases Keyed.mem_of_mem_insert member with rfl | former
    · rfl
    · exact once.declared entry former
  ofUnions entry member := by
    rcases Keyed.mem_of_mem_insert member with rfl | former
    · exact ⟨union, rfl⟩
    · exact once.ofUnions entry former

private theorem helpersOnce_closed :
    HelperClosed (fun {_} (action : Run Helpers _) => Maintains HelpersOnce action) where
  toClosed := Maintains.closed
  getStore := Maintains.getStore
  remember union source _ _ once := once.insert union source

/-! ### Names in a group -/

def groupNames (group : Group) (declarations : List Grouped) : List String :=
  (declarations.filter fun entry => entry.1 == group).map fun entry => entry.2.name

private theorem groupNames_append (group : Group) (left right : List Grouped) :
    groupNames group (left ++ right) = groupNames group left ++ groupNames group right := by
  rw [groupNames, List.filter_append, List.map_append]
  rfl

private theorem groupNames_flatten (group : Group) (lists : List (List Grouped)) :
    groupNames group lists.flatten = lists.flatMap (groupNames group) := by
  rw [groupNames, List.filter_flatten, List.map_flatten, List.map_map]
  rfl

theorem groupNames_of_others {group : Group} {declarations : List Grouped}
    (others : ∀ entry ∈ declarations, entry.1 ≠ group) : groupNames group declarations = [] := by
  rw [groupNames, List.filter_eq_nil_iff.mpr, List.map_nil]
  intro entry member
  simpa using others entry member

private theorem groupNames_map (group : Group) (declarations : List Declaration) :
    groupNames group (declarations.map fun declaration => (group, declaration)) =
      declarations.map Declaration.name := by
  rw [groupNames, List.filter_eq_self.mpr, List.map_map]
  · rfl
  · intro entry member
    obtain ⟨declaration, _, rfl⟩ := List.mem_map.mp member
    exact beq_self_eq_true group

/-! ### Names of requests -/

theorem functions_eq_map (request : Request) (profiles : List EffectProfile) :
    (Group.requests, request.wireDeclaration) ::
        (profiles.map fun profile => (Group.requests, request.functionDeclaration profile)) =
      (request.wireDeclaration :: profiles.map request.functionDeclaration).map
        fun declaration => (Group.requests, declaration) := by
  rw [List.map_cons, List.map_map]
  rfl

private theorem request_names (request : Request) (profiles : List EffectProfile) :
    groupNames .requests (request.declarations profiles) =
      requestNames profiles request.endpoint.name := by
  have errorless : groupNames .requests (request.declarations profiles) =
      (request.wireDeclaration :: profiles.map request.functionDeclaration).map
        Declaration.name := by
    rw [Request.declarations, groupNames_append, functions_eq_map, groupNames_map]
    cases request.responses.declaration <;> rfl
  rw [errorless, requestNames, requestSuffixes, List.map_cons, List.map_cons, List.map_map,
    List.map_map]
  rfl

theorem ofEndpoint_endpoint (naming : Naming) (document : Document) (base : BaseUrl)
    (endpoint : Endpoint) :
    Returns (Request.ofEndpoint naming document base endpoint) fun request =>
      request.endpoint = endpoint := by
  unfold Request.ofEndpoint
  refine Returns.bind (Returns.any _) fun _ _ => ?_
  refine Returns.bind (Returns.any _) fun _ _ => ?_
  refine Returns.bind (Returns.any _) fun _ _ => ?_
  refine Returns.bind (Returns.any _) fun _ _ => ?_
  refine Returns.bind (Returns.any _) fun _ _ => ?_
  exact Returns.map (Returns.any _) fun _ _ => rfl

/-! ### Declarations of types -/

theorem componentDeclarations_noRequests (naming : Naming) (component : Component) :
    Returns (componentDeclarations naming component : Run Helpers (List Grouped))
      fun declarations => groupNames .requests declarations = [] := by
  unfold componentDeclarations
  split
  · exact Returns.pure rfl
  · refine Returns.bind (Returns.any _) fun _ _ => ?_
    exact Returns.map (Returns.any _) fun _ _ => rfl

theorem declaredDeclarations_noRequests (naming : Naming) (declared : Declared) :
    Returns (declaredDeclarations naming declared : Run Helpers (List Grouped)) fun declarations =>
      groupNames .requests declarations = [] := by
  cases declared with
  | enum name values => exact Returns.pure rfl
  | union union => exact Returns.withPath _ (Returns.map (Returns.any _) fun _ _ => rfl)

theorem discoveredDeclarations_noRequests (naming : Naming) :
    Returns (discoveredDeclarations naming : Run Helpers (List Grouped)) fun declarations =>
      groupNames .requests declarations = [] := by
  refine Returns.map (Returns.traverse (declaredDeclarations_noRequests naming) _)
    fun lists related => ?_
  rw [groupNames_flatten]
  exact List.flatMap_eq_nil_iff.mpr (all_of_forall₂ related)

end Elm

/-! ### Clients -/

namespace Client

open Elm Run

theorem ofComponent_noRequests (naming : Naming) (component : Component) :
    Returns (ofComponent naming component) fun declarations =>
      groupNames .requests declarations = [] :=
  Returns.withPath _ (componentDeclarations_noRequests naming component)

theorem ofEndpoint_requests (naming : Naming) (config : Config) (document : Document)
    (base : BaseUrl) (endpoint : Endpoint) :
    Returns (ofEndpoint naming config document base endpoint) fun declarations =>
      groupNames .requests declarations = requestNames config.profiles endpoint.name := by
  apply Returns.withPath
  apply Returns.withPath
  refine Returns.map (ofEndpoint_endpoint naming document base endpoint) fun request same => ?_
  rw [request_names, same]

structure HelperNames (names : List String) : Prop where
  distinct : names.Nodup
  ofUnions : ∀ name ∈ names, ∃ union, name = Stringifier.helperName union

/-- Helpers are called like no function of an operation unless they have the value name of
one whose plain function is declared. -/
theorem allRequestNames_disjoint_iff {profiles : List EffectProfile} {names : List TypeName}
    {helpers : List String} (helperNames : HelperNames helpers) :
    List.Disjoint (names.flatMap (requestNames profiles)) helpers ↔
      (EffectProfile.standard ∈ profiles → ∀ name ∈ names, name.toValueName ∉ helpers) := by
  constructor
  · intro disjoint standard name listed helper
    obtain ⟨union, same⟩ := helperNames.ofUnions _ helper
    have inNames := helperName_mem_requestNames.mpr ⟨standard, same⟩
    rw [← same] at inNames
    exact disjoint (List.mem_flatMap.mpr ⟨name, listed, inNames⟩) helper
  · intro apart helper inRequests inHelpers
    obtain ⟨name, listed, inNames⟩ := List.mem_flatMap.mp inRequests
    obtain ⟨union, rfl⟩ := helperNames.ofUnions helper inHelpers
    obtain ⟨standard, same⟩ := helperName_mem_requestNames.mp inNames
    exact apart standard name listed (same ▸ inHelpers)

private theorem storedHelpers_names :
    ReturnsFrom HelpersOnce helperDeclarations fun declarations =>
      HelperNames (groupNames .requests declarations) := by
  intro scope log declarations reached once equal
  let sorted := Sorted.sortBy (fun left right => decide (left < right)) Prod.fst log.store
  have ended : helperDeclarations.outcome scope log =
      (.ok (sorted.map fun helper => (.requests, helper.2)), log) := rfl
  rw [ended] at equal
  cases equal
  have sortedPerm : sorted.Perm log.store := List.mergeSort_perm _ _
  have names : groupNames .requests (sorted.map fun helper => (.requests, helper.2)) =
      Keyed.keys sorted := by
    rw [← Function.comp_def (Prod.mk Group.requests), ← List.map_map, groupNames_map, List.map_map]
    exact List.map_congr_left fun entry member =>
      once.declared entry (sortedPerm.mem_iff.mp member)
  rw [names]
  refine ⟨(sortedPerm.map Prod.fst).nodup_iff.mpr once.distinct, fun name member => ?_⟩
  obtain ⟨entry, listed, rfl⟩ := List.mem_map.mp member
  exact once.ofUnions entry (sortedPerm.mem_iff.mp listed)

/-- The request group holds the functions of all operations and then the helpers. -/
theorem declare_requests (naming : Naming) (config : Config) (document : Document) (api : Api) :
    ReturnsFrom HelpersOnce (declare naming config document api) fun declarations =>
      ∃ helpers, HelperNames helpers ∧
        groupNames .requests declarations =
          (api.endpoints.map Endpoint.name).flatMap (requestNames config.profiles) ++ helpers := by
  have closed := helpersOnce_closed
  unfold declare
  refine ReturnsFrom.bind (closed.traverse (ofComponent_closed closed naming) _)
    (Returns.traverse (ofComponent_noRequests naming) _) fun components componentNames => ?_
  refine ReturnsFrom.bind (discoveredDeclarations_closed closed.toClosed naming)
    (discoveredDeclarations_noRequests naming) fun discovered discoveredNames => ?_
  dsimp only
  refine ReturnsFrom.bind (closed.traverse (ofEndpoint_closed closed naming config document _) _)
    (Returns.traverse (ofEndpoint_requests naming config document _) _)
    fun endpoints endpointNames => ?_
  -- no helper is stored behind this point, so what is declared here is all that ever was
  refine ReturnsFrom.map storedHelpers_names fun helpers helperNames => ⟨_, helperNames, ?_⟩
  have noComponents : groupNames .requests components.flatten = [] := by
    rw [groupNames_flatten, List.flatMap_eq_nil_iff]
    exact all_of_forall₂ componentNames
  have functions : groupNames .requests endpoints.flatten =
      (api.endpoints.map Endpoint.name).flatMap (requestNames config.profiles) := by
    rw [groupNames_flatten, List.flatMap_map]
    exact flatMap_eq_of_forall₂ endpointNames
  have noOthers : ∀ (group : Group) (declarations : List Declaration), group ≠ .requests →
      groupNames .requests (declarations.map fun declaration => (group, declaration)) = [] := by
    intro group declarations other
    refine groupNames_of_others fun entry member => ?_
    obtain ⟨declaration, _, rfl⟩ := List.mem_map.mp member
    exact other
  rw [groupNames_append, groupNames_append, groupNames_append, groupNames_append,
    groupNames_append, noComponents, discoveredNames, noOthers .servers _ nofun, functions,
    noOthers .common _ nofun, List.append_nil, List.nil_append, List.nil_append]
  rfl

theorem group_names (client : Client) (group : Group) :
    (client.group group).map Declaration.name = groupNames group client.declarations :=
  List.map_map

/-- The request group declares the builders and functions of all operations and then the
helpers of unions. Their names are distinct exactly when no operation is called like another
one, escaped, with a text that makes one suffix another one, and no operation has the value
name of a helper where its plain function is declared. -/
theorem requestNames_nodup_iff {config : Config} {document : Document} {client : Client}
    {api : Api} {log : Log Registry} (profiles : config.profiles.Nodup)
    (resolved : document.resolve.outcome (scope config) (Log.starting Registry.empty) =
      (.ok api, log))
    (generated : ofDocument config document = .ok client) :
    ∃ helpers, HelperNames helpers ∧
      (client.group .requests).map Declaration.name =
        (api.endpoints.map Endpoint.name).flatMap (requestNames config.profiles) ++ helpers ∧
      (((client.group .requests).map Declaration.name).Nodup ↔
        (∀ endpoint ∈ api.endpoints, ∀ other ∈ api.endpoints, endpoint.name ≠ other.name →
          ∀ tail, Extends config.profiles tail →
            endpoint.name.text ≠ other.name.escaped ++ tail) ∧
        (EffectProfile.standard ∈ config.profiles →
          ∀ endpoint ∈ api.endpoints, endpoint.name.toValueName ∉ helpers)) := by
  obtain ⟨finished, ended⟩ := ofDocument_declared resolved generated
  have apart := document.resolve_apart _ _ api log resolved
  have noHelpers : HelpersOnce [] := ⟨List.nodup_nil, nofun, nofun⟩
  obtain ⟨helpers, helperNames, names⟩ :=
    declare_requests _ config document api _ _ client.declarations finished noHelpers ended
  refine ⟨helpers, helperNames, (group_names _ _).trans names, ?_⟩
  have proper : ∀ name ∈ api.endpoints.map Endpoint.name, name.Proper :=
    List.forall_mem_map.mpr apart.proper
  rw [group_names, names, List.nodup_append',
    allRequestNames_nodup_iff profiles apart.distinct proper]
  rw [allRequestNames_disjoint_iff helperNames, and_iff_right helperNames.distinct]
  simp only [List.forall_mem_map]

def twoOperations (reader poster : String) : Document :=
  Document.ofParts
    [("/pets", PathItem.readingAndPosting reader poster
      [("200", .inline { description := "ok", content := [] })])] []

/-- Two operations whose functions are called apart. -/
theorem requestNames_nodup_iff_pets :
    let document := twoOperations "getPet" "savePet"
    Config.default.profiles.Nodup ∧ ∃ api log client,
      document.resolve.outcome (scope Config.default) (Log.starting Registry.empty) =
          (.ok api, log) ∧
        ofDocument Config.default document = .ok client ∧
        ∃ helpers, HelperNames helpers ∧
          (client.group .requests).map Declaration.name =
            (api.endpoints.map Endpoint.name).flatMap (requestNames Config.default.profiles)
              ++ helpers ∧
          (((client.group .requests).map Declaration.name).Nodup ↔
            (∀ endpoint ∈ api.endpoints, ∀ other ∈ api.endpoints, endpoint.name ≠ other.name →
              ∀ tail, Extends Config.default.profiles tail →
                endpoint.name.text ≠ other.name.escaped ++ tail) ∧
            (EffectProfile.standard ∈ Config.default.profiles →
              ∀ endpoint ∈ api.endpoints, endpoint.name.toValueName ∉ helpers)) := by
  intro document
  have profiles : Config.default.profiles.Nodup := by decide
  have succeeds : (match ofDocument Config.default document with
      | .ok _ => true
      | .error _ => false) = true := by
    decide +kernel
  split at succeeds
  case h_1 client generated =>
    obtain ⟨api, log, -, -, resolved, -, -⟩ := ofDocument_ok generated
    exact ⟨profiles, api, log, client, resolved, generated,
      requestNames_nodup_iff profiles resolved generated⟩
  case h_2 => contradiction

/-- The task of one operation and the plain function of another one that is called like it
have one name. -/
theorem task_declared_twice :
    ∃ client,
      ofDocument Config.default (twoOperations "getPet" "getPetTask") = .ok client ∧
        ¬ ((client.group .requests).map Declaration.name).Nodup := by
  have declaredTwice :
      (match ofDocument Config.default (twoOperations "getPet" "getPetTask") with
        | .ok client => decide ((client.group .requests).map Declaration.name).Nodup
        | .error _ => true) = false := by
    decide +kernel
  split at declaredTwice
  case h_1 client generated => exact ⟨client, generated, of_decide_eq_false declaredTwice⟩
  case h_2 => contradiction

end Client

end ElmClient
