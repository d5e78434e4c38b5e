/-
Resolving documents gives sound shapes. Every schema component is resolved under a name
of its own, so a reference leads to exactly one of them; and what is registered is
declared, so enums and unions are found under their final names.
-/

import ElmClient.Client
import ElmClient.Proofs.Sound.Resolve

namespace ElmClient

namespace Resolve

open Run

variable {source : Source} {known : Registry → Prop}

abbrev Source.Gives {α : Type} (source : Source) (known : Registry → Prop)
    (action : Run Registry α) (shapes : α → List Shape) : Prop :=
  Ensures (Registry.Sound source.components.schemas) known action fun later value =>
    ∀ shape ∈ shapes value, shape.Sound source.components.schemas later

private theorem source_schema_sound {site : Site} (proper : site.Proper) (schema : RefOr Schema) :
    GivesShape source.components.schemas known (source.schema site schema) :=
  (within_sound source.components.schemas source.levels).schema known site schema proper

/-! ### Components -/

structure Listed (seen : List (TypeName × String)) (entries : List (String × RefOr Schema))
    (components : List Component) : Prop where
  raws : components.map Component.raw = entries.map Prod.fst
  names : ∀ component ∈ components, component.name = TypeName.ofRaw component.raw
  unseen : ∀ component ∈ components, Keyed.find? component.name seen = none
  distinct : (components.map Component.name).Nodup

private theorem Listed.cons {seen : List (TypeName × String)}
    {entries : List (String × RefOr Schema)}
    {components : List Component} {resolved : Component} {schema : RefOr Schema} {text : String}
    (name : resolved.name = TypeName.ofRaw resolved.raw)
    (new : Keyed.find? resolved.name seen = none)
    (listed : Listed ((resolved.name, text) :: seen) entries components) :
    Listed seen ((resolved.raw, schema) :: entries) (resolved :: components) where
  raws := by rw [List.map_cons, List.map_cons, listed.raws]
  names := List.forall_mem_cons.mpr ⟨name, listed.names⟩
  unseen := List.forall_mem_cons.mpr ⟨new, fun component member =>
    (Keyed.find?_cons_eq_none_iff.mp (listed.unseen component member)).2⟩
  distinct := by
    refine List.nodup_cons.mpr ⟨fun again => ?_, listed.distinct⟩
    obtain ⟨component, member, same⟩ := List.mem_map.mp again
    exact (Keyed.find?_cons_eq_none_iff.mp (listed.unseen component member)).1 same

theorem component_sound (raw : String) (schema : RefOr Schema) :
    Ensures (Registry.Sound source.components.schemas) known (component source raw schema)
      fun later resolved => resolved.raw = raw ∧ resolved.name = TypeName.ofRaw raw ∧
        resolved.shape.Sound source.components.schemas later := by
  have proper := Site.component_proper (TypeName.ofRaw_proper raw)
  exact Ensures.map (.withPath _ (source_schema_sound proper schema))
    fun _ _ _ shape => ⟨rfl, rfl, shape⟩

theorem componentsFrom_sound (source : Source) (seen : List (TypeName × String))
    (entries : List (String × RefOr Schema)) :
    Ensures (Registry.Sound source.components.schemas) known (componentsFrom source seen entries)
      fun later components => Listed seen entries components ∧
        ∀ shape ∈ components.map Component.shape,
          shape.Sound source.components.schemas later := by
  induction entries generalizing known seen with
  | nil => exact Ensures.pure fun _ _ => ⟨⟨rfl, nofun, nofun, List.nodup_nil⟩, nofun⟩
  | cons entry rest ih =>
      obtain ⟨raw, schema⟩ := entry
      unfold componentsFrom
      dsimp only
      split
      · exact Ensures.fail
      case h_2 new =>
        apply Ensures.bind (component_sound raw schema)
        intro resolved
        apply Ensures.map (ih _)
        rintro later components ⟨_, rfl, name, shape⟩ ⟨listed, shapes⟩
        rw [← name] at listed new
        exact ⟨listed.cons name new, List.forall_mem_cons.mpr ⟨shape, shapes⟩⟩

/-! ### Parameters -/

theorem lookup_any {α : Type} {valid : Registry → Prop} (component : Section)
    (components : List (String × RefOr α)) (item : RefOr α) :
    Ensures valid known (lookup component components item) fun _ _ => True := by
  have everyLook : ∀ (looks : Nat) (known : Registry → Prop) (origin : Option String)
      (item : RefOr α),
      Ensures valid known (follow component components looks origin item) fun _ _ => True := by
    intro looks
    induction looks with
    | zero => exact fun known origin item => Ensures.fail
    | succ looks ih =>
        intro known origin item
        cases item with
        | inline item => exact Ensures.pure fun _ _ => trivial
        | reference text =>
            unfold follow
            apply Ensures.bind (parseReference_any text)
            intro reference
            split
            · exact Ensures.fail
            · split
              · exact Ensures.fail
              · exact ih _ _ _
  exact everyLook _ known none item

theorem originSite_proper (origin : Option String) {otherwise : TypeName}
    (proper : otherwise.Proper) : (originSite origin otherwise).Proper := by
  apply Site.unowned_proper
  cases origin with
  | none => exact proper
  | some component => exact TypeName.ofRaw_proper component

theorem parameterShape_sound {site : Site} (proper : site.Proper) (parameter : Parameter) :
    GivesShape source.components.schemas known (parameterShape source site parameter) := by
  unfold parameterShape
  split
  · exact Ensures.withPath _ (source_schema_sound proper _)
  · split
    · exact Ensures.withPath _ (source_schema_sound proper _)
    · exact Ensures.placeholderOr fun _ _ => Shape.sound_primitive _

theorem parameter_sound {operationName : TypeName} (proper : operationName.Proper)
    (declared : Option String × Parameter) :
    Ensures (Registry.Sound source.components.schemas) known
      (parameter source operationName declared)
      fun later resolved => resolved.shape.Sound source.components.schemas later := by
  have siteProper := originSite_proper declared.1 (proper.child declared.2.name)
  apply Ensures.withPath
  exact Ensures.map (parameterShape_sound siteProper declared.2) fun _ _ _ shape => shape

theorem declaredParameters_any {valid : Registry → Prop} (placed : PlacedOperation) :
    Ensures valid known (declaredParameters source placed) fun _ _ => True := by
  apply Ensures.withPath
  apply Ensures.bind (Ensures.traverse fun item _ _ => lookup_any _ _ item)
  intro inherited
  apply Ensures.map (Ensures.traverse fun item _ _ => lookup_any _ _ item)
  exact fun _ _ _ _ => trivial

theorem parameters_sound {operationName : TypeName} (proper : operationName.Proper)
    (placed : PlacedOperation) :
    source.Gives known (parameters source operationName placed)
      fun resolved => resolved.map EndpointParameter.shape := by
  apply Ensures.bind (declaredParameters_any placed)
  intro declared
  apply Ensures.withPath
  apply Ensures.imp (Ensures.traverse fun item _ _ => parameter_sound proper item)
  intro later resolved _ related shape member
  obtain ⟨found, inResolved, rfl⟩ := List.mem_map.mp member
  exact all_of_forall₂ related found inResolved

/-! ### Bodies and responses -/

theorem selectedPayload_sound {site : Site} (proper : site.Proper) (name : String)
    (media : MediaType) :
    source.Gives known (selectedPayload source site name media) Packages.payloadShapes := by
  apply Ensures.withPath
  apply Ensures.withPath
  unfold payload
  split
  · split
    · refine Ensures.map (.withPath _ (source_schema_sound proper _)) fun _ _ _ shape => ?_
      exact List.forall_mem_singleton.mpr shape
    · exact Ensures.pure fun _ _ => List.forall_mem_singleton.mpr Shape.sound_anyJson
  · exact Ensures.pure fun _ _ => nofun
  · exact Ensures.pure fun _ _ => nofun

private theorem bodyPayload_sound {site : Site} (proper : site.Proper)
    (content : List (String × MediaType)) :
    source.Gives known (bodyPayload source site content)
      fun chosen => Packages.payloadShapes chosen.2 := by
  unfold bodyPayload
  split
  · exact Ensures.map (selectedPayload_sound proper _ _) fun _ _ _ shapes => shapes
  · split
    · exact Ensures.pure fun _ _ => nofun
    · have placeholder : ∀ message, source.Gives known
          (Run.placeholderOr message (Payload.json .anyJson)) Packages.payloadShapes :=
        fun message => Ensures.placeholderOr fun _ _ =>
          List.forall_mem_singleton.mpr Shape.sound_anyJson
      exact Ensures.map (placeholder _) fun _ _ _ shapes => shapes

private theorem responsePayload_sound {site : Site} (proper : site.Proper)
    (content : List (String × MediaType)) :
    source.Gives known (responsePayload source site content) Packages.payloadShapes := by
  unfold responsePayload
  split
  · exact selectedPayload_sound proper _ _
  · split
    · exact Ensures.pure fun _ _ => nofun
    · exact Ensures.placeholderOr fun _ _ => nofun

theorem body_sound {operationName : TypeName} (proper : operationName.Proper)
    (item : RefOr RequestBody) :
    source.Gives known (body source operationName item)
      fun resolved => Packages.payloadShapes resolved.payload := by
  rw [body_eq]
  apply Ensures.bind (lookup_any _ _ item)
  intro found
  have siteProper := originSite_proper found.1 (proper.child "Body")
  exact Ensures.map (bodyPayload_sound siteProper found.2.content) fun _ _ _ shapes => shapes

theorem response_sound {operationName : TypeName} (proper : operationName.Proper)
    (entry : String × RefOr Response) :
    source.Gives known (response source operationName entry)
      fun resolved => Packages.payloadShapes resolved.payload := by
  rw [response_eq]
  apply Ensures.withPath
  apply Ensures.bind (lookup_any _ _ entry.2)
  intro found
  have siteProper := originSite_proper found.1 (proper.child ("Response" ++ entry.1))
  exact Ensures.map (responsePayload_sound siteProper found.2.content) fun _ _ _ shapes => shapes

/-! ### Operations -/

private theorem endpointBody_sound {operationName : TypeName} (proper : operationName.Proper)
    (operation : Operation) :
    source.Gives known (endpointBody source operationName operation)
      fun body => body.toList.flatMap fun body => Packages.payloadShapes body.payload := by
  unfold endpointBody
  split
  · refine Ensures.map (.withPath _ (body_sound proper _)) fun _ _ _ shapes => ?_
    dsimp only
    rw [Option.toList_some, List.flatMap_singleton]
    exact shapes
  · exact Ensures.pure fun _ _ => nofun

theorem endpoint_sound (placed : PlacedOperation) :
    source.Gives known (endpoint source placed) Packages.endpointShapes := by
  have proper : (operationName placed).Proper := TypeName.ofRaw_proper _
  rw [endpoint_eq]
  apply Ensures.bind (parameters_sound proper placed)
  intro parameters
  apply Ensures.bind (endpointBody_sound proper placed.operation)
  intro body
  apply Ensures.map (Ensures.withPath _ (Ensures.traverse fun entry _ _ =>
    response_sound proper entry))
  rintro later responses ⟨⟨_, parameterShapes⟩, bodyShapes⟩ related
  intro shape member
  rcases List.mem_append.mp member with inRequest | inResponses
  · rcases List.mem_append.mp inRequest with inParameters | inBody
    · exact parameterShapes shape inParameters
    · exact bodyShapes shape inBody
  · obtain ⟨found, inList, inPayload⟩ := List.mem_flatMap.mp inResponses
    exact all_of_forall₂ related found inList shape inPayload

theorem distinctEndpoint_sound (seen : List (TypeName × String)) (placed : PlacedOperation) :
    source.Gives known (distinctEndpoint source seen placed) Packages.endpointShapes := by
  apply Ensures.withPath
  apply Ensures.withPath
  apply Ensures.bind (endpoint_sound placed)
  intro resolved
  split
  · exact Ensures.fail
  · exact Ensures.pure fun _ both => both.2

theorem endpointsFrom_sound (source : Source) (seen : List (TypeName × String))
    (operations : List PlacedOperation) :
    source.Gives known (endpointsFrom source seen operations)
      fun endpoints => endpoints.flatMap Packages.endpointShapes := by
  induction operations generalizing known seen with
  | nil => exact Ensures.pure fun _ _ => nofun
  | cons placed rest ih =>
      unfold endpointsFrom
      apply Ensures.bind (distinctEndpoint_sound seen placed)
      intro resolved
      apply Ensures.map (ih _)
      rintro later endpoints ⟨_, first⟩ others shape member
      rcases List.mem_append.mp member with inFirst | inOthers
      · exact first shape inFirst
      · exact others shape inOthers

end Resolve

/-! ### Documents -/

/-- The components and shapes of a resolved document. -/
structure Api.Sound (document : Document) (registry : Registry) (api : Api) : Prop where
  raws : (api.components.map Component.raw).Perm (Keyed.keys document.components.schemas)
  names : ∀ component ∈ api.components, component.name = TypeName.ofRaw component.raw
  distinct : (api.components.map Component.name).Nodup
  shapes : ∀ shape ∈ Packages.apiShapes api, shape.Sound document.components.schemas registry

theorem Document.resolve_ensures (document : Document) :
    Run.Ensures (Registry.Sound document.components.schemas) (fun _ => True) document.resolve
      fun later api => api.Sound document later := by
  apply Run.Ensures.bind (Resolve.componentsFrom_sound (.ofDocument document) [] _)
  intro components
  apply Run.Ensures.map (Resolve.endpointsFrom_sound (.ofDocument document) [] _)
  rintro later endpoints ⟨_, listed, componentShapes⟩ endpointShapes
  have raws : (components.map Component.raw).Perm (Keyed.keys document.components.schemas) := by
    rw [listed.raws]
    exact (List.mergeSort_perm _ _).map Prod.fst
  refine ⟨raws, listed.names, listed.distinct, fun shape member => ?_⟩
  rcases List.mem_append.mp member with inComponents | inEndpoints
  · exact componentShapes shape inComponents
  · exact endpointShapes shape inEndpoints

/-- What a document resolves to is sound, and so is the registry. -/
theorem Document.resolve_sound {document : Document} {scope : Scope} {api : Api}
    {log : Log Registry}
    (resolved : document.resolve.outcome scope (Log.starting Registry.empty) = (.ok api, log)) :
    log.store.Sound document.components.schemas ∧ api.Sound document log.store := by
  obtain ⟨sound, _, holds⟩ := document.resolve_ensures scope _ api log Registry.empty_sound
    (fun _ _ => trivial) resolved
  exact ⟨sound, holds log.store (.refl _)⟩

end ElmClient
