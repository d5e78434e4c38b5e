/-
Everything that is mentioned is declared. Type, decoder and encoder are there for every
enum and union found and for every component, either its own or those of an entry it
owns. Only a component that resolves to a reference to itself is left out: its annotation
is its own name, too, as if an entry it owned were declared under that name.
-/

import ElmClient.Proofs.Declared.Annotation
import ElmClient.Proofs.Distinct.Client
import ElmClient.Proofs.Sound.WellFormed

namespace ElmClient

/-- The component resolves to a reference to itself. -/
def Component.RefersToItself (component : Component) : Prop :=
  ∃ target, component.shape = .ref target ∧ target.typeName = component.name

namespace Elm

/-! ### Declared names -/

def Declares (namespaceName : String) (declarations : List Grouped) (name : TypeName) : Prop :=
  ∀ placed ∈ ownNames namespaceName name, placed ∈ codecNames namespaceName declarations

theorem typeName_mem_ownNames_iff {namespaceName : String} {name other : TypeName} :
    (Group.types.moduleName namespaceName, name.text) ∈ ownNames namespaceName other ↔
      name = other := by
  rw [mem_ownNames]
  constructor
  · rintro (same | same | same)
    · exact TypeName.text_inj (Prod.mk.inj same).2
    · exact absurd (Prod.mk.inj same).1 (types_ne_json _)
    · exact absurd (Prod.mk.inj same).1 (types_ne_json _)
  · rintro rfl
    exact Or.inl rfl

private theorem declares_iff {naming : Naming} {api : Api} {declarations : List Grouped}
    (names : (codecNames naming.namespaceName declarations).Perm
      (Client.expectedNames naming api))
    (proper : ∀ name ∈ emittedNames naming api, name.Proper) {name : TypeName}
    (nameProper : name.Proper) :
    Declares naming.namespaceName declarations name ↔ name ∈ emittedNames naming api := by
  have everyName : ∀ placed, placed ∈ codecNames naming.namespaceName declarations ↔
      placed ∈ (emittedNames naming api).flatMap (ownNames naming.namespaceName)
        ++ (naming.declared.enums.map Prod.snd).flatMap (besideNames naming.namespaceName) :=
    fun _ => (names.trans (expectedNames_perm naming api)).mem_iff
  constructor
  · intro declares
    have typeName := declares (Group.types.moduleName naming.namespaceName, name.text)
      (typeName_mem_ownNames_iff.mpr rfl)
    rcases List.mem_append.mp ((everyName _).mp typeName) with inOwn | inBesides
    · obtain ⟨other, emitted, own⟩ := List.mem_flatMap.mp inOwn
      exact typeName_mem_ownNames_iff.mp own ▸ emitted
    · obtain ⟨other, inEnums, beside⟩ := List.mem_flatMap.mp inBesides
      have otherProper := proper other (List.mem_append_right _ (List.mem_append_left _ inEnums))
      exact absurd beside (ownNames_disjoint_besideNames _ nameProper otherProper
        (typeName_mem_ownNames_iff.mpr rfl))
  · intro emitted placed own
    exact (everyName placed).mpr
      (List.mem_append_left _ (List.mem_flatMap.mpr ⟨name, emitted, own⟩))

private theorem enumName_mem_declaredNames {types : DeclaredTypes} {values : List String}
    {name : TypeName} (found : types.enumName? values = some name) :
    name ∈ declaredNames types :=
  List.mem_append_left _ (List.mem_map.mpr ⟨_, Keyed.mem_of_find? found, rfl⟩)

theorem unionName_mem_declaredNames {types : DeclaredTypes} {name : TypeName} {union : Union}
    (found : types.union? name = some union) : union.name ∈ declaredNames types :=
  List.mem_append_right _ (List.mem_map.mpr ⟨_, Keyed.mem_of_find? found, rfl⟩)

theorem mentioned_cases {document : Document} {api : Api} {registry : Registry}
    {naming : Naming} {shape : Shape} (anchored : shape.Anchored document api registry naming)
    {name : TypeName} (mentioned : naming.mentioned? shape = some name) :
    name ∈ declaredNames naming.declared ∨
      ∃ target, shape = .ref target ∧ target.typeName = name ∧
        ∃ component ∈ api.components, component.name = name := by
  cases shape with
  | ref target =>
      obtain ⟨_, _, component, _, only, _⟩ := anchored
      obtain rfl := Option.some.inj mentioned
      have kept : component ∈ api.components.filter fun other => other.name == target.typeName := by
        rw [only]
        exact List.mem_cons_self
      obtain ⟨member, same⟩ := List.mem_filter.mp kept
      exact Or.inr ⟨target, rfl, rfl, component, member, eq_of_beq same⟩
  | enum values => exact Or.inl (enumName_mem_declaredNames mentioned)
  | union stored variants =>
      obtain ⟨_, _, union, found, _⟩ := anchored
      have named : naming.unionName stored = union.name := by
        rw [Naming.unionName, found]
      rw [← Option.some.inj mentioned, named]
      exact Or.inl (unionName_mem_declaredNames found)
  | _ => contradiction

/-- A component emits its name, or an entry that it owns does. -/
theorem component_mem_emittedNames_iff {config : Config} {document : Document} {api : Api}
    {registry : Registry} (apiSound : api.Sound document registry)
    (valid : Config.isModulePath config.namespaceName = true)
    (apart : FormatsApart (Naming.ofApi config api (Client.declaredTypes api registry)))
    {component : Component} (member : component ∈ api.components) (proper : component.name.Proper)
    (anchored : component.shape.Anchored document api registry
      (Naming.ofApi config api (Client.declaredTypes api registry))) :
    component.name ∈
        emittedNames (Naming.ofApi config api (Client.declaredTypes api registry)) api ↔
      ¬ component.RefersToItself ∨
        ∃ entry ∈ registry.entries, entry.owner = some component.name := by
  have finals : ∀ name, name ∈ declaredNames (Client.declaredTypes api registry) ↔
      name ∈ (registry.finalNames (api.components.map Component.name)).map Prod.snd :=
    fun _ => declaredNames_perm.mem_iff
  constructor
  · intro emitted
    rcases List.mem_append.mp emitted with inComponents | inDeclared
    · obtain ⟨other, kept, sameName⟩ := List.mem_map.mp inComponents
      obtain ⟨inApi, declares⟩ := List.mem_filter.mp kept
      obtain rfl := List.inj_on_of_nodup_map apiSound.distinct inApi member sameName
      refine Or.inl ?_
      rintro ⟨target, shape, same⟩
      refine of_decide_eq_true declares ?_
      rw [shape]
      exact congrArg _ same
    · obtain ⟨final, inFinals, named⟩ := List.mem_map.mp ((finals _).mp inDeclared)
      have taken : final.2 ∈ api.components.map Component.name := by
        rw [named]
        exact List.mem_map_of_mem member
      have owned := registry.finalNames_reserved _ inFinals taken
      rw [named] at owned
      have inEntries := (registry.finalNames_perm _).mem_iff.mp (List.mem_map_of_mem inFinals)
      exact Or.inr ⟨final.1, inEntries, owned⟩
  · rintro (notItself | ⟨entry, inEntries, owned⟩)
    · by_cases declares : declaresComponent
          (Naming.ofApi config api (Client.declaredTypes api registry)) component = true
      · exact List.mem_append_left _ (List.mem_map_of_mem (List.mem_filter.mpr ⟨member, declares⟩))
      · -- the annotation is the own name: an enum or a union has the name, or it is a reference
        have same := not_not.mp fun different => declares (decide_eq_true different)
        have mentioned := (typeExpression_eq_iff valid apart proper _).mp same
        rcases mentioned_cases anchored mentioned with final | ⟨target, shape, named, -⟩
        · exact List.mem_append_right _ final
        · exact absurd ⟨target, shape, named⟩ notItself
    · exact List.mem_append_right _
        ((finals _).mpr (registry.owner_mem_finalNames _ inEntries owned))

end Elm

/-! ### Formats -/

def Config.FormatsApart (config : Config) : Prop :=
  ∀ kind ∈ config.formats.kinds, ∀ entry ∈ kind.2,
    Text.startsWith (Elm.Group.types.moduleName config.namespaceName ++ ".") entry.2.elmType =
      false

theorem Config.FormatsApart.ofApi {config : Config} (apart : config.FormatsApart) (api : Api)
    (declared : DeclaredTypes) : Elm.FormatsApart (Elm.Naming.ofApi config api declared) := by
  intro value entry found name same
  obtain ⟨format, -, looked⟩ := Option.bind_eq_some_iff.mp found
  obtain ⟨formats, kindFound, entryFound⟩ := Option.bind_eq_some_iff.mp looked
  have outside := apart _ (Keyed.mem_of_find? kindFound) _ (Keyed.mem_of_find? entryFound)
  have inside : Text.startsWith (Elm.Group.types.moduleName config.namespaceName ++ ".")
      entry.elmType = true := by
    rw [same]
    refine List.isPrefixOf_iff_prefix.mpr ⟨name.text.toList, ?_⟩
    rw [← String.toList_append]
    rfl
  rw [outside] at inside
  contradiction

theorem Config.isModulePath_of_validate {config : Config} (valid : config.validate = .ok ()) :
    Config.isModulePath config.namespaceName = true := by
  unfold Config.validate at valid
  split at valid
  · contradiction
  case isFalse path => simpa using path

/-! ### Clients -/

namespace Client

open Elm

/-- Type, decoder and encoder of what a document names are among the declarations; those of
a component that refers to itself may be missing. -/
structure Complete (config : Config) (document : Document) (api : Api) (registry : Registry)
    (declarations : List Grouped) : Prop where
  /-- Either declarations are made for the component itself, or for an entry it owns. -/
  components : ∀ raw ∈ Keyed.keys document.components.schemas,
    ∃ component ∈ api.components, component.raw = raw ∧ component.name = TypeName.ofRaw raw ∧
      (Declares config.namespaceName declarations component.name ↔
        ¬ component.RefersToItself ∨
          ∃ entry ∈ registry.entries, entry.owner = some component.name)
  discovered : ∀ declared ∈ (declaredTypes api registry).declarations,
    Declares config.namespaceName declarations declared.name
  mentioned : ∀ shape ∈ Packages.apiShapes api ++
      registry.unions.flatMap (fun entry => entry.union.variants.map VariantOf.shape),
    ∀ inner ∈ shape.nested, ∀ name,
      (Naming.ofApi config api (declaredTypes api registry)).mentioned? inner = some name →
        Declares config.namespaceName declarations name ∨
          ∃ component ∈ api.components, component.name = name ∧ component.RefersToItself

/-- What is generated for a document is complete. -/
theorem ofDocument_complete {config : Config} {document : Document} {client : Client} {api : Api}
    {log : Log Registry} (valid : config.validate = .ok ()) (formats : config.FormatsApart)
    (resolved : document.resolve.outcome (scope config) (Log.starting Registry.empty) =
      (.ok api, log))
    (generated : ofDocument config document = .ok client) :
    Complete config document api log.store client.declarations := by
  obtain ⟨registrySound, apiSound⟩ := document.resolve_sound resolved
  have anchored := apiSound.anchored config registrySound
  obtain ⟨finished, ended⟩ := ofDocument_declared resolved generated
  let naming := Naming.ofApi config api (declaredTypes api log.store)
  let declares := Declares config.namespaceName client.declarations
  have names : (codecNames naming.namespaceName client.declarations).Perm
      (expectedNames naming api) :=
    declare_names naming config document api _ _ client.declarations finished ended
  have proper := emittedNames_proper registrySound apiSound config
  have declaresEmitted : ∀ {name : TypeName}, name.Proper →
      (declares name ↔ name ∈ emittedNames naming api) := declares_iff names proper
  have declaresFinal : ∀ name ∈ declaredNames naming.declared, declares name := fun name member =>
    (declaresEmitted (proper name (List.mem_append_right _ member))).mpr
      (List.mem_append_right _ member)
  have componentProper : ∀ component ∈ api.components, component.name.Proper :=
    fun component member => by
      rw [apiSound.names component member]
      exact TypeName.ofRaw_proper _
  have declaresComponent_iff : ∀ component ∈ api.components,
      (declares component.name ↔ ¬ component.RefersToItself ∨
        ∃ entry ∈ log.store.entries, entry.owner = some component.name) := by
    intro component member
    have shapeAnchored := anchored component.shape
      (List.mem_append_left _ (List.mem_append_left _ (List.mem_map_of_mem member)))
      component.shape component.shape.mem_nested_self
    rw [declaresEmitted (componentProper component member)]
    exact component_mem_emittedNames_iff apiSound (Config.isModulePath_of_validate valid)
      (formats.ofApi api _) member (componentProper component member) shapeAnchored
  refine ⟨fun raw listed => ?_, fun declared member => ?_,
    fun shape listed inner nested name mentioned => ?_⟩
  · obtain ⟨component, member, rfl⟩ := List.mem_map.mp (apiSound.raws.mem_iff.mpr listed)
    exact ⟨component, member, rfl, apiSound.names component member,
      declaresComponent_iff component member⟩
  · have stored := (declarations_perm naming.declared).mem_iff.mp member
    refine declaresFinal declared.name ?_
    rw [← storedDeclared_names]
    exact List.mem_map_of_mem stored
  · rcases mentioned_cases (anchored shape listed inner nested) mentioned with
      final | ⟨target, rfl, rfl, component, member, named⟩
    · exact Or.inl (declaresFinal name final)
    · by_cases itself : component.RefersToItself
      · exact Or.inr ⟨component, member, named, itself⟩
      · exact Or.inl (named ▸ (declaresComponent_iff component member).mpr (Or.inl itself))

/-- A component that leads back to itself, with an enum inside. -/
theorem ofDocument_complete_pet :
    let pet := Schema.record
      [("kind", .inline (Schema.oneOfTexts ["dog", "cat"])),
        ("friend", .reference "#/components/schemas/Pet")]
    let document := Document.ofParts [] [("Pet", .inline pet)]
    ∃ api log client,
      document.resolve.outcome (scope Config.default) (Log.starting Registry.empty) =
          (.ok api, log) ∧
        ofDocument Config.default document = .ok client ∧
        Complete Config.default document api log.store client.declarations := by
  intro pet document
  have succeeds : (match ofDocument Config.default document with
      | .ok _ => true
      | .error _ => false) = true := by
    decide +kernel
  split at succeeds
  case h_1 client generated =>
    obtain ⟨api, log, -, -, resolved, -, -⟩ := ofDocument_ok generated
    have formats : Config.default.FormatsApart := by
      unfold Config.FormatsApart
      decide
    exact ⟨api, log, client, resolved, generated,
      ofDocument_complete (by decide) formats resolved generated⟩
  case h_2 => contradiction

/-- A component that is nothing but a reference to itself is not declared at all. -/
theorem self_reference_undeclared :
    ∃ client,
      ofDocument Config.default
          (Document.ofParts [] [("X", .reference "#/components/schemas/X")]) = .ok client ∧
        ¬ Declares Config.default.namespaceName client.declarations ⟨"X"⟩ := by
  have missing :
      (match ofDocument Config.default
          (Document.ofParts [] [("X", .reference "#/components/schemas/X")]) with
        | .ok client =>
            decide (("Api.Types", "X") ∈
              codecNames Config.default.namespaceName client.declarations)
        | .error _ => true) = false := by
    decide +kernel
  split at missing
  case h_1 client generated =>
    refine ⟨client, generated, fun declares => ?_⟩
    exact of_decide_eq_false missing (declares _ (typeName_mem_ownNames_iff.mpr rfl))
  case h_2 => contradiction

end Client

end ElmClient
