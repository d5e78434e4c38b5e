/-
Helpers of a resolved document. A helper is stored under a name alone, although its source
depends on the union and on whether it was reached through a reference. Where the names of
the unions that are asked for keep apart, and those that are asked for in both modes hold
no reference, requests are independent of each other: in any order all tables that they lead
to agree, and each further request succeeds as it would have done at first.
-/

import ElmClient.Proofs.Distinct.Client
import ElmClient.Proofs.Helpers.Levels
import ElmClient.Proofs.Helpers.Table
import ElmClient.Proofs.Sample

namespace ElmClient.Elm

open Run Stringifier

/-! ### Sequences of requests -/

/-- What is left behind by requests made one after the other, some of which may fail. -/
def requestAll (naming : Naming) : List (Scope × Shape) → Log Helpers → Log Helpers
  | [], log => log
  | (scope, shape) :: rest, log =>
      requestAll naming rest ((stringify naming shape).outcome scope log).2

theorem stringify_returns (naming : Naming) (shape : Shape) :
    Returns (stringify naming shape) fun found => found = expressionAt naming true shape :=
  within_returns naming _ true shape

def RequestsFor (policy : Policy) (shapes : List Shape) (requests : List (Scope × Shape)) : Prop :=
  ∀ request ∈ requests, request.1.policy = policy ∧ request.2 ∈ shapes

/-- A union that is asked for on the way to the serializer of one of the shapes. -/
def Naming.Asks (naming : Naming) (shapes : List Shape) (follow : Bool) (union : Union) : Prop :=
  ∃ shape ∈ shapes, naming.Needs true shape follow union

section Requests

variable {naming : Naming} {shapes : List Shape} {policy : Policy}
  (clear : Unambiguous naming (naming.Asks shapes))

include clear

theorem stringify_behaves {shape : Shape} (listed : shape ∈ shapes) :
    Behaves policy (Justified naming policy (naming.Asks shapes)) (stringify naming shape) fun _ =>
      policy = .failOnUnsupported → naming.Writable true shape :=
  within_behaves clear fun _ _ needs => ⟨shape, listed, needs⟩

private theorem requestAll_justified {requests : List (Scope × Shape)}
    (requested : RequestsFor policy shapes requests) {log : Log Helpers}
    (justified : Justified naming policy (naming.Asks shapes) log.store) :
    Justified naming policy (naming.Asks shapes) (requestAll naming requests log).store := by
  induction requests generalizing log with
  | nil => exact justified
  | cons request rest ih =>
      obtain ⟨head, tail⟩ := List.forall_mem_cons.mp requested
      exact ih tail (stringify_behaves clear head.2 request.1 log head.1 justified).1

/-- Justified tables agree on the helpers that both hold. -/
theorem Justified.agree {left right : Helpers}
    (leftJustified : Justified naming policy (naming.Asks shapes) left)
    (rightJustified : Justified naming policy (naming.Asks shapes) right) {helper : String}
    {first second : Declaration} (inLeft : Keyed.find? helper left = some first)
    (inRight : Keyed.find? helper right = some second) : first = second := by
  obtain ⟨follow, union, asked, named, rfl, -⟩ := leftJustified helper first inLeft
  obtain ⟨other, another, also, same, rfl, -⟩ := rightJustified helper second inRight
  obtain rfl := clear.names asked also (named.trans same.symm)
  by_cases modes : follow = other
  · rw [modes]
  · rw [sourceText_eq (clear.plain_of_ne modes asked also) follow other]

/-- From a justified table a request succeeds where placeholders are allowed or not needed,
and with an expression that is written from the shape alone. -/
theorem stringify_ok_iff {shape : Shape} (listed : shape ∈ shapes)
    (enough : naming.Enough (shape.depth + 2 * naming.depth + 2) true shape) {scope : Scope}
    (permitted : scope.policy = policy) {log : Log Helpers}
    (justified : Justified naming policy (naming.Asks shapes) log.store) (value : Stringifier) :
    ((stringify naming shape).outcome scope log).1 = .ok value ↔
      (policy = .generateTodos ∨ naming.Writable true shape) ∧
        value = expressionAt naming true shape := by
  have returns := stringify_returns naming shape scope log
  constructor
  · intro ended
    refine ⟨?_, returns value _ (Prod.ext ended rfl)⟩
    cases policy with
    | generateTodos => exact Or.inl rfl
    | failOnUnsupported =>
        have behaves := stringify_behaves clear listed scope log permitted justified
        exact Or.inr (behaves.2 value ended rfl)
  · rintro ⟨allowed, rfl⟩
    obtain ⟨found, reached, ended⟩ := within_succeeds enough allowed scope log permitted
    rw [← returns found reached ended]
    exact congrArg Prod.fst ended

end Requests

end ElmClient.Elm

namespace ElmClient

def Api.parameterShapes (api : Api) : List Shape :=
  api.endpoints.flatMap fun endpoint => endpoint.parameters.map EndpointParameter.shape

namespace Elm

open Run Stringifier

/-- Unions that are asked for share a helper name only if they have the same name, and no
reference is held by a union that is asked for from a parameter and behind a reference. -/
structure Naming.Separate (naming : Naming) (shapes : List Shape) : Prop where
  names : ∀ {follow other : Bool} {union another : Union}, naming.Asks shapes follow union →
    naming.Asks shapes other another → helperName union = helperName another →
      union.name = another.name
  plain : ∀ {union : Union}, naming.Asks shapes true union → naming.Asks shapes false union →
    union.Plain

/-- It does not matter in which order the shapes are requested, from an empty table. -/
structure Naming.Independent (naming : Naming) (policy : Policy) (shapes : List Shape) : Prop where
  helpers : ∀ {first second : List (Scope × Shape)}, RequestsFor policy shapes first →
    RequestsFor policy shapes second → ∀ {helper : String} {left right : Declaration},
      Keyed.find? helper (requestAll naming first (Log.starting [])).store = some left →
        Keyed.find? helper (requestAll naming second (Log.starting [])).store = some right →
          left = right
  requests : ∀ {earlier : List (Scope × Shape)}, RequestsFor policy shapes earlier →
    ∀ shape ∈ shapes, ∀ scope : Scope, scope.policy = policy → ∀ value : Stringifier,
      ((stringify naming shape).outcome scope (requestAll naming earlier (Log.starting []))).1 =
          .ok value ↔
        ((stringify naming shape).outcome scope (Log.starting [])).1 = .ok value

section Unambiguous

variable {naming : Naming} {shapes : List Shape} {policy : Policy}
  (clear : Unambiguous naming (naming.Asks shapes))

include clear

private theorem Unambiguous.independent
    (enough : ∀ shape ∈ shapes, naming.Enough (shape.depth + 2 * naming.depth + 2) true shape) :
    naming.Independent policy shapes where
  helpers first second _ _ _ inFirst inSecond := by
    have empty : Justified naming policy (naming.Asks shapes) [] := nofun
    exact (requestAll_justified clear first empty).agree clear
      (requestAll_justified clear second empty) inFirst inSecond
  requests := by
    intro earlier requested shape listed scope permitted value
    have empty : Justified naming policy (naming.Asks shapes) [] := nofun
    rw [stringify_ok_iff clear listed (enough shape listed) permitted
        (requestAll_justified clear requested empty),
      stringify_ok_iff clear listed (enough shape listed) permitted empty]

end Unambiguous

section Resolved

variable {document : Document} {api : Api} {registry : Registry}
  (registrySound : registry.Sound document.components.schemas)
  (sound : api.Sound document registry) (config : Config)

include sound

private theorem parameterShapes_sound {shape : Shape} (listed : shape ∈ api.parameterShapes) :
    shape.Sound document.components.schemas registry := by
  obtain ⟨endpoint, member, inEndpoint⟩ := List.mem_flatMap.mp listed
  refine sound.shapes shape (List.mem_append_right _ (List.mem_flatMap.mpr ⟨endpoint, member, ?_⟩))
  exact List.mem_append_left _ (List.mem_append_left _ inEndpoint)

include registrySound

private theorem asks_declared {follow : Bool} {union : Union}
    (asks : (Naming.ofApi config api (Client.declaredTypes api registry)).Asks
      api.parameterShapes follow union) :
    ∃ name, (name, union) ∈ (Client.declaredTypes api registry).unions := by
  obtain ⟨shape, listed, needs⟩ := asks
  obtain ⟨name, declared⟩ := (sound_grounded registrySound sound config).declared_of_needs
    (parameterShapes_sound sound listed) needs
  exact ⟨name, Keyed.mem_of_find? declared⟩

private theorem Naming.Separate.unambiguous
    (separate : (Naming.ofApi config api (Client.declaredTypes api registry)).Separate
      api.parameterShapes) :
    Unambiguous (Naming.ofApi config api (Client.declaredTypes api registry))
      ((Naming.ofApi config api (Client.declaredTypes api registry)).Asks api.parameterShapes) where
  closed := by
    rintro follow union ⟨shape, listed, needs⟩ variant member single mode another inside
    exact ⟨shape, listed, needs.of_variant member single inside⟩
  names := by
    intro follow other union another asks alsoAsks same
    obtain ⟨name, declared⟩ := asks_declared registrySound sound config asks
    obtain ⟨_, alsoDeclared⟩ := asks_declared registrySound sound config alsoAsks
    have distinct : ((Client.declaredTypes api registry).unions.map fun entry =>
        entry.2.name).Nodup :=
      (declaredNames_perm.nodup_iff.mpr (registry.finalNames_nodup _)).of_append_right
    have entries := List.inj_on_of_nodup_map distinct declared alsoDeclared
      (separate.names asks alsoAsks same)
    exact congrArg Prod.snd entries
  plain := separate.plain

theorem separate_of_single {entry : TypeName × Union}
    (single : (Client.declaredTypes api registry).unions = [entry]) (plain : entry.2.Plain) :
    (Naming.ofApi config api (Client.declaredTypes api registry)).Separate
      api.parameterShapes := by
  have only : ∀ {follow : Bool} {union : Union},
      (Naming.ofApi config api (Client.declaredTypes api registry)).Asks
        api.parameterShapes follow union → union = entry.2 := by
    intro follow union asks
    obtain ⟨name, member⟩ := asks_declared registrySound sound config asks
    rw [single, List.mem_singleton] at member
    exact congrArg Prod.snd member
  refine ⟨fun first second _ => ?_, fun first _ => ?_⟩
  · rw [only first, only second]
  · rw [only first]
    exact plain

end Resolved

end Elm

open Elm

/-- The expression of a parameter never depends on earlier requests, and where placeholders
are allowed there always is one. Where unions keep apart, what is stored and whether a
request succeeds do not depend on earlier requests under any policy. -/
theorem Document.resolve_helpers_independent {document : Document} {scope : Scope} {api : Api}
    {log : Log Registry}
    (resolved : document.resolve.outcome scope (Log.starting Registry.empty) = (.ok api, log))
    (config : Config) :
    let naming := Naming.ofApi config api (Client.declaredTypes api log.store)
    (∀ shape ∈ api.parameterShapes, ∀ scope helpers,
      (∀ value, ((stringify naming shape).outcome scope helpers).1 = .ok value →
        value = Stringifier.expressionAt naming true shape) ∧
      (scope.policy = .generateTodos →
        ((stringify naming shape).outcome scope helpers).1.isOk = true)) ∧
      (naming.Separate api.parameterShapes → ∀ policy,
        naming.Independent policy api.parameterShapes) := by
  intro naming
  obtain ⟨registrySound, sound⟩ := document.resolve_sound resolved
  have enough : ∀ shape ∈ api.parameterShapes,
      naming.Enough (shape.depth + 2 * naming.depth + 2) true shape :=
    fun shape listed => stringify_enough registrySound sound config
      (parameterShapes_sound sound listed)
  constructor
  · intro shape listed scope helpers
    constructor
    · intro value ended
      exact stringify_returns naming shape scope helpers value _ (Prod.ext ended rfl)
    · intro lenient
      obtain ⟨value, reached, ended⟩ :=
        within_succeeds (enough shape listed) (Or.inl rfl) scope helpers lenient
      have outcome := congrArg Prod.fst ended
      exact outcome ▸ rfl
  · intro separate policy
    exact (separate.unambiguous registrySound sound config).independent enough

/-- An integer or what the other schema describes, as the parameter of one operation, and
behind a reference as that of another. -/
def Document.filteringTwice (other : RefOr Schema) (schemas : List (String × RefOr Schema)) :
    Document :=
  let integer := RefOr.inline { Schema.bare with kind := some (.one "integer") }
  let filter := RefOr.inline { Schema.bare with oneOf := some [integer, other] }
  let direct := RefOr.reference "#/components/parameters/Filter"
  let behind := RefOr.inline
    (Parameter.inQuery "filter" (.reference "#/components/schemas/Filter"))
  let item := PathItem.readingAndPosting "list" "search" []
  let filtered :=
    { item with
      get := item.get.map fun operation => { operation with parameters := [direct] }
      post := item.post.map fun operation => { operation with parameters := [behind] } }
  let plain := Document.ofParts [("/pets", filtered)] (("Filter", filter) :: schemas)
  let parameters := [("Filter", RefOr.inline (Parameter.inQuery "filter" filter))]
  { plain with components := { plain.components with parameters := parameters } }

/-- A union of primitives is asked for in both modes, and either parameter stores its
helper. -/
theorem Document.resolve_helpers_independent_filter :
    let document := Document.filteringTwice
      (.inline { Schema.bare with kind := some (.one "string") }) []
    let scope := Scope.root .failOnUnsupported
    ∃ api log,
      document.resolve.outcome scope (Log.starting Registry.empty) = (.ok api, log) ∧
        let naming := Naming.ofApi Config.default api (Client.declaredTypes api log.store)
        (api.parameterShapes.length = 2 ∧ ∀ shape ∈ api.parameterShapes,
          Keyed.contains "filterToParam_"
            (requestAll naming [(scope, shape)] (Log.starting [])).store = true) ∧
        naming.Separate api.parameterShapes ∧
        ∀ policy, naming.Independent policy api.parameterShapes := by
  intro document scope
  have resolves : (match document.resolve.outcome scope (Log.starting Registry.empty) with
      | (.ok api, log) =>
          let types := Client.declaredTypes api log.store
          let naming := Naming.ofApi Config.default api types
          decide (types.unions.length = 1 ∧ api.parameterShapes.length = 2 ∧
            (∀ entry ∈ types.unions, ∀ variant ∈ entry.2.variants,
              variant.shape.wrapsReference = false) ∧
            ∀ shape ∈ api.parameterShapes, Keyed.contains "filterToParam_"
              (requestAll naming [(scope, shape)] (Log.starting [])).store = true)
      | (.error _, _) => false) = true := by
    decide +kernel
  split at resolves
  case h_2 => contradiction
  case h_1 api log resolved =>
    obtain ⟨single, two, plain, stored⟩ := of_decide_eq_true resolves
    obtain ⟨entry, only⟩ := List.length_eq_one_iff.mp single
    have member : entry ∈ (Client.declaredTypes api log.store).unions := by
      rw [only]
      exact List.mem_cons_self
    obtain ⟨registrySound, sound⟩ := document.resolve_sound resolved
    have separate := separate_of_single registrySound sound Config.default only
      fun variant inUnion _ => plain entry member variant inUnion
    exact ⟨api, log, resolved, ⟨two, stored⟩, separate,
      (Document.resolve_helpers_independent resolved Config.default).2 separate⟩

/-- A union that refers to a component cannot be serialized behind a reference, unless it was
the parameter of an earlier operation. -/
theorem Document.helper_of_earlier_request :
    let document := Document.filteringTwice (.reference "#/components/schemas/Name")
      [("Name", .inline { Schema.bare with kind := some (.one "string") })]
    let scope := Scope.root .failOnUnsupported
    ∃ api log,
      document.resolve.outcome scope (Log.starting Registry.empty) = (.ok api, log) ∧
        ¬ (Naming.ofApi Config.default api (Client.declaredTypes api log.store)).Independent
          .failOnUnsupported api.parameterShapes := by
  intro document scope
  have sorted : Sorted.sortBy (fun left right => decide (left < right)) Prod.fst
      (Resolve.Source.ofDocument document).components.schemas =
        (Resolve.Source.ofDocument document).components.schemas :=
    List.mergeSort_of_pairwise (by decide +kernel)
  have resolves : (match document.resolve.outcome scope (Log.starting Registry.empty) with
      | (.ok api, log) =>
          let naming := Naming.ofApi Config.default api (Client.declaredTypes api log.store)
          api.parameterShapes.any fun direct => api.parameterShapes.any fun behind =>
            let reached := requestAll naming [(scope, direct)] (Log.starting [])
            ((stringify naming behind).outcome scope reached).1.isOk &&
              !((stringify naming behind).outcome scope (Log.starting [])).1.isOk
      | (.error _, _) => false) = true := by
    unfold Document.resolve Resolve.components
    dsimp only
    rw [sorted]
    decide +kernel
  split at resolves
  case h_2 => contradiction
  case h_1 api log resolved =>
    refine ⟨api, log, resolved, fun independent => ?_⟩
    obtain ⟨direct, directListed, found⟩ := List.any_eq_true.mp resolves
    obtain ⟨behind, behindListed, differs⟩ := List.any_eq_true.mp found
    obtain ⟨later, atFirst⟩ := Bool.and_eq_true_iff.mp differs
    have requested : RequestsFor .failOnUnsupported api.parameterShapes [(scope, direct)] :=
      List.forall_mem_singleton.mpr ⟨rfl, directListed⟩
    have same := independent.requests requested behind behindListed scope rfl
    obtain ⟨value, reached, ended⟩ := Run.succeeds_of_isOk later
    rw [(same value).mp (congrArg Prod.fst ended)] at atFirst
    contradiction

end ElmClient
