/-
Packages of formats. The reported packages are those of the shapes that are sent, received
or declared as components. Unions are declared from the registry, which keeps what was
registered for a field that another one replaced later. So what is declared can depend on a
format whose packages are not reported, exactly where a registered union is written with it.
-/

import ElmClient.Proofs.Client
import ElmClient.Proofs.Config.Layers
import ElmClient.Proofs.Formats.Occurrence
import ElmClient.Proofs.Formats.Requests
import ElmClient.Proofs.Sorted

namespace ElmClient

open Elm

/-! ### Exchanging a format -/

namespace FormatRegistry

def withEntry (registry : FormatRegistry) (kind : PrimitiveKind) (format : String)
    (entry : FormatEntry) : FormatRegistry :=
  registry.layerKind kind.text [(format, entry)]

/-- The registries have the same entries for all other formats. -/
def SameBut (kind : PrimitiveKind) (format : String) (left right : FormatRegistry) : Prop :=
  ∀ otherKind other, ¬ (otherKind = kind ∧ other = format) →
    left.find? otherKind other = right.find? otherKind other

variable {registry : FormatRegistry} {kind : PrimitiveKind} {format : String}

theorem find?_withEntry (entry : FormatEntry) (otherKind : PrimitiveKind) (other : String) :
    (registry.withEntry kind format entry).find? otherKind other =
      if otherKind = kind ∧ other = format then some entry
      else registry.find? otherKind other := by
  have kinds : kind.text = otherKind.text ↔ otherKind = kind := by
    cases kind <;> cases otherKind <;> decide
  rw [withEntry, layerKind, find?, find?_insertSorted]
  by_cases sameKind : otherKind = kind
  · subst sameKind
    rw [if_pos rfl, Option.bind_some, List.foldl_cons, List.foldl_nil, find?_insertSorted, find?]
    by_cases sameFormat : format = other
    · rw [if_pos sameFormat, if_pos ⟨rfl, sameFormat.symm⟩]
    · rw [if_neg sameFormat, if_neg fun same => sameFormat same.2.symm]
      cases Keyed.find? otherKind.text registry.kinds <;> rfl
  · rw [if_neg fun same => sameKind (kinds.mp same), if_neg fun same => sameKind same.1, find?]

private theorem withEntry_sameBut (entry : FormatEntry) :
    SameBut kind format (registry.withEntry kind format entry) registry := by
  intro otherKind other different
  rw [find?_withEntry, if_neg different]

end FormatRegistry

/-! ### Reported packages -/

namespace Packages

private theorem mem_ofPrimitive_iff {formats : FormatRegistry} {value : Primitive}
    {package : String} :
    package ∈ ofPrimitive formats value ↔ ∃ format entry, value.format = some format ∧
      formats.find? value.kind format = some entry ∧ package ∈ entry.packages := by
  unfold ofPrimitive
  cases value.format with
  | none => simp
  | some format => cases found : formats.find? value.kind format <;> simp [found]

private theorem mem_ofShape {formats : FormatRegistry} {shape : Shape} {value : Primitive}
    (direct : value ∈ shape.directPrimitives) {package : String}
    (needed : package ∈ ofPrimitive formats value) : package ∈ ofShape formats shape :=
  List.mem_flatMap.mpr ⟨_, Shape.mem_nested_of_direct shape direct, needed⟩

private theorem mem_required {config : Config} {api : Api} {shape : Shape} {package : String}
    (listed : shape ∈ apiShapes api) (needed : package ∈ ofShape config.formats shape) :
    package ∈ required config api :=
  Sorted.mem_texts_iff.mpr
    (List.mem_append_right _ (List.mem_flatMap.mpr ⟨shape, listed, needed⟩))

end Packages

theorem Registry.stored_of_drain {registry : Registry} {reserved : List TypeName}
    {entry : TypeName × Union} (declared : entry ∈ (registry.drain reserved).unions) :
    ∃ stored ∈ registry.unions, ∃ name, entry.2 = stored.union.renamed name := by
  obtain ⟨⟨found, name⟩, final, same⟩ := List.mem_filterMap.mp declared
  have listed := (registry.finalNames_perm reserved).mem_iff.mp (List.mem_map_of_mem final)
  cases found with
  | enum enumEntry => cases same
  | union stored =>
      cases same
      rcases Registry.mem_entries_iff.mp listed with ⟨other, -, same⟩ | ⟨other, inUnions, same⟩
      · cases same
      · exact ⟨stored, Discovery.union.inj same ▸ inUnions, name, rfl⟩

namespace Client

/-! ### Declarations that depend on a format -/

/-- What is declared for a document is not the same under every entry of the format. -/
def DependsOn (config : Config) (document : Document) (kind : PrimitiveKind) (format : String) :
    Prop :=
  ∃ formats, FormatRegistry.SameBut kind format formats config.formats ∧
    (ofDocument { config with formats := formats } document).map declarations ≠
      (ofDocument config document).map declarations

/-- The packages of every format that the declarations depend on are reported. -/
def ReportsPackages (config : Config) (document : Document) (client : Client) : Prop :=
  ∀ kind format entry, config.formats.find? kind format = some entry →
    DependsOn config document kind format → ∀ package ∈ entry.packages, package ∈ client.packages

/-- The packages of every format that a variant of a registered union is written with are
among those given. -/
def CoversUnions (formats : FormatRegistry) (registry : Registry) (packages : List String) :
    Prop :=
  ∀ entry ∈ registry.unions, ∀ variant ∈ entry.union.variants,
    ∀ value ∈ variant.shape.directPrimitives,
      ∀ package ∈ Packages.ofPrimitive formats value, package ∈ packages

section Resolved

variable {config : Config} {document : Document} {api : Api} {log : Log Registry}
  (resolved : document.resolve.outcome (scope config) (Log.starting Registry.empty) =
    (.ok api, log))

include resolved

theorem ofDocument_agrees {formats : FormatRegistry}
    (components : ∀ shape ∈ Packages.apiShapes api,
      (Naming.ofApi config api (declaredTypes api log.store)).AgreesOn formats shape)
    (unions : (Naming.ofApi config api (declaredTypes api log.store)).UnionsAgree formats) :
    (ofDocument { config with formats := formats } document).map declarations =
      (ofDocument config document).map declarations := by
  obtain ⟨registrySound, sound⟩ := document.resolve_sound resolved
  have agrees : (Naming.ofApi config api (declaredTypes api log.store)).Agrees formats
      (Shape.Sound document.components.schemas log.store) :=
    { sound_grounded registrySound sound config with
      components := by
        intro component member
        obtain ⟨declared, listed, rfl⟩ := List.mem_map.mp member
        exact components _ (List.mem_append_left _ (List.mem_map_of_mem listed))
      unions := unions }
  have same : declared { config with formats := formats } document api log =
      declared config document api log :=
    congrArg (fun action : Run Helpers (List Grouped) =>
      action.outcome (scope config) { warnings := log.warnings, store := [] })
      (declare_agrees agrees config document sound.shapes components)
  have alsoResolved : document.resolve.outcome (scope { config with formats := formats })
      (Log.starting Registry.empty) = (.ok api, log) := resolved
  rw [ofDocument_eq, ofDocument_eq, resolved, alsoResolved]
  dsimp only
  rw [same]
  rcases declared config document api log with ⟨_ | declarations, finished⟩ <;> rfl

end Resolved

private theorem exists_of_forall₂ {α β : Type} {related : α → β → Prop} {items : List α}
    {values : List β} (pairs : List.Forall₂ related items values) {item : α}
    (member : item ∈ items) : ∃ value ∈ values, related item value := by
  induction pairs with
  | nil => exact absurd member List.not_mem_nil
  | cons first _ ih =>
      rcases List.mem_cons.mp member with rfl | later
      · exact ⟨_, List.mem_cons_self, first⟩
      · obtain ⟨value, listed, holds⟩ := ih later
        exact ⟨value, List.mem_cons_of_mem _ listed, holds⟩

def unionType (naming : Naming) (union : Union) : Grouped :=
  (.types, Declaration.customType union.name.text none
    (customTypeSource union.name (union.variants.map (variantConstructor naming))))

theorem declaredDeclarations_unionType {naming : Naming} (declared : Declared) :
    Run.Returns (declaredDeclarations naming declared : Run Helpers (List Grouped))
      fun list => ∀ union, declared = .union union → unionType naming union ∈ list := by
  cases declared with
  | enum name values => exact Run.Returns.pure nofun
  | union union =>
      refine Run.Returns.withPath _ (Run.Returns.map (Run.Returns.any _) ?_)
      intro codecs _ other same
      obtain rfl := Declared.union.inj same
      exact List.mem_cons_self

theorem declare_unionTypes (naming : Naming) (config : Config) (document : Document) (api : Api) :
    Run.Returns (declare naming config document api) fun declarations =>
      ∀ union, Declared.union union ∈ naming.declared.declarations →
        unionType naming union ∈ declarations := by
  have discovered : Run.Returns (discoveredDeclarations naming : Run Helpers (List Grouped))
      fun declarations => ∀ union, Declared.union union ∈ naming.declared.declarations →
        unionType naming union ∈ declarations := by
    refine Run.Returns.map (Run.Returns.traverse declaredDeclarations_unionType _) ?_
    intro lists related union member
    obtain ⟨list, listed, holds⟩ := exists_of_forall₂ related member
    exact List.mem_flatten.mpr ⟨list, listed, holds union rfl⟩
  refine Run.Returns.bind (Run.Returns.any _) fun components _ => ?_
  refine Run.Returns.bind discovered fun found holds => ?_
  refine Run.Returns.bind (Run.Returns.any _) fun endpoints _ => ?_
  refine Run.Returns.bind (Run.Returns.any _) fun helpers _ => Run.Returns.pure ?_
  intro union member
  simp only [List.mem_append]
  exact Or.inl (Or.inl (Or.inl (Or.inl (Or.inr (holds union member)))))

def sources (declarations : List Grouped) : String :=
  String.join (declarations.map fun entry => entry.2.source)

section Resolved

variable {config : Config} {document : Document} {api : Api} {log : Log Registry}
  (resolved : document.resolve.outcome (scope config) (Log.starting Registry.empty) =
    (.ok api, log))

include resolved

/-- A format that a variant of a registered union is written with makes a difference: under
an annotation longer than all that is declared, more is declared. -/
theorem dependsOn_of_union {client : Client} (generated : ofDocument config document = .ok client)
    {entry : UnionEntry} (stored : entry ∈ log.store.unions) {variant : Variant}
    (member : variant ∈ entry.union.variants) {value : Primitive}
    (direct : value ∈ variant.shape.directPrimitives) {format : String}
    (formatted : value.format = some format) :
    DependsOn config document value.kind format := by
  let long : FormatEntry :=
    { elmType := "_" ++ sources client.declarations, encode := "", decode := "", stringify := none
      packages := [] }
  let formats := config.formats.withEntry value.kind format long
  refine ⟨formats, FormatRegistry.withEntry_sameBut long, fun same => ?_⟩
  obtain ⟨registrySound, -⟩ := document.resolve_sound resolved
  let naming := (Naming.ofApi config api (declaredTypes api log.store)).withFormats formats
  obtain ⟨name, declared⟩ := Registry.drain_union? (api.components.map Component.name)
    registrySound.distinct stored
  have listed : Declared.union (entry.union.renamed name) ∈ naming.declared.declarations :=
    List.mem_mergeSort.mpr (List.mem_append_right _
      (List.mem_map.mpr ⟨_, Keyed.mem_of_find? declared, rfl⟩))
  have found : naming.formatEntry? value = some long := by
    rw [Naming.formatEntry?, formatted]
    exact (FormatRegistry.find?_withEntry long value.kind format).trans (if_pos ⟨rfl, rfl⟩)
  -- The client under the long annotation has the same declarations, so it has them all.
  have other : ∃ again, ofDocument { config with formats := formats } document = .ok again ∧
      again.declarations = client.declarations := by
    rw [generated] at same
    cases ended : ofDocument { config with formats := formats } document with
    | error diagnostic =>
        rw [ended] at same
        cases same
    | ok again =>
        rw [ended] at same
        exact ⟨again, rfl, Except.ok.inj same⟩
  obtain ⟨again, ended, equal⟩ := other
  have alsoResolved : document.resolve.outcome (scope { config with formats := formats })
      (Log.starting Registry.empty) = (.ok api, log) := resolved
  obtain ⟨finished, declares⟩ := ofDocument_declared alsoResolved ended
  have emitted : unionType naming (entry.union.renamed name) ∈ client.declarations :=
    equal ▸ declare_unionTypes naming _ document api _ _ _ _ declares _ listed
  have short : (unionType naming (entry.union.renamed name)).2.source.length ≤
      (sources client.declarations).length :=
    Text.length_le_concat (List.mem_map_of_mem (f := fun entry : Grouped => entry.2.source) emitted)
  have inUnion : { variant with name := variant.name.replaceLead entry.union.name name } ∈
      (entry.union.renamed name).variants := List.mem_map_of_mem member
  have written : long.elmType.length ≤
      (unionType naming (entry.union.renamed name)).2.source.length :=
    length_le_unionType found inUnion direct
  have longer : long.elmType.length = 1 + (sources client.declarations).length :=
    String.length_append _ _
  omega

/-- Packages are reported for all that declarations depend on exactly when they cover the
unions that were registered. -/
theorem reportsPackages_iff {client : Client}
    (generated : ofDocument config document = .ok client) :
    ReportsPackages config document client ↔
      CoversUnions config.formats log.store client.packages := by
  constructor
  · intro reports entry stored variant member value direct package needed
    obtain ⟨format, found, formatted, known, inEntry⟩ := Packages.mem_ofPrimitive_iff.mp needed
    exact reports value.kind format found known
      (dependsOn_of_union resolved generated stored member direct formatted) package inEntry
  · intro covers kind format found known depends package inEntry
    by_contra unreported
    -- What is written with the format would have the package reported.
    have unwritten : ∀ shape : Shape,
        (∀ value ∈ shape.directPrimitives, ∀ package ∈ Packages.ofPrimitive config.formats value,
          package ∈ client.packages) →
        ∀ formats, FormatRegistry.SameBut kind format formats config.formats →
          (Naming.ofApi config api (declaredTypes api log.store)).AgreesOn formats shape := by
      intro shape reported formats same value direct
      unfold Naming.formatEntry?
      cases formatted : value.format with
      | none => rfl
      | some other =>
          refine same value.kind other fun equal => unreported ?_
          obtain ⟨rfl, rfl⟩ := equal
          exact reported value direct package
            (Packages.mem_ofPrimitive_iff.mpr ⟨_, found, formatted, known, inEntry⟩)
    obtain ⟨formats, same, differs⟩ := depends
    obtain ⟨resolvedApi, resolvedLog, declarations, finished, also, -, rfl⟩ :=
      ofDocument_ok generated
    obtain ⟨sameApi, -⟩ := Prod.mk.inj (resolved.symm.trans also)
    obtain rfl := Except.ok.inj sameApi
    refine differs (ofDocument_agrees resolved ?_ ?_)
    · exact fun shape listed => unwritten shape (fun value direct package needed =>
        Packages.mem_required listed (Packages.mem_ofShape direct needed)) formats same
    · intro entry declared variant member
      obtain ⟨stored, inStore, name, renamed⟩ := Registry.stored_of_drain declared
      rw [renamed] at member
      obtain ⟨original, listed, rfl⟩ := List.mem_map.mp member
      exact unwritten _ (covers stored inStore original listed) formats same

end Resolved

def momentOrNumber : RefOr Schema :=
  let moment : Schema :=
    { Schema.bare with kind := some (.one "string"), format := some "date-time" }
  let number : Schema := { Schema.bare with kind := some (.one "integer") }
  .inline { Schema.bare with oneOf := some [.inline moment, .inline number] }

/-- A component that is a union: it is registered, and the packages of its variants are
reported. -/
theorem reportsPackages_iff_moment :
    let document := Document.ofParts [] [("Moment", momentOrNumber)]
    ∃ api log client,
      document.resolve.outcome (scope Config.default) (Log.starting Registry.empty) =
          (.ok api, log) ∧
        ofDocument Config.default document = .ok client ∧ log.store.unions ≠ [] ∧
        "elm/time" ∈ client.packages ∧ ReportsPackages Config.default document client := by
  intro document
  have resolves : (match document.resolve.outcome (scope Config.default)
        (Log.starting Registry.empty) with
      | (.ok api, log) =>
          match ofDocument Config.default document with
          | .ok client =>
              decide (log.store.unions.length = 1 ∧ "elm/time" ∈ client.packages ∧
                ∀ entry ∈ log.store.unions, ∀ variant ∈ entry.union.variants,
                  ∀ value ∈ variant.shape.directPrimitives,
                    ∀ package ∈ Packages.ofPrimitive Config.default.formats value,
                      package ∈ client.packages)
          | .error _ => false
      | (.error _, _) => false) = true := by
    decide +kernel
  split at resolves
  case h_2 => contradiction
  case h_1 api log resolved =>
    split at resolves
    case h_2 => contradiction
    case h_1 client generated =>
      obtain ⟨single, reported, covers⟩ := of_decide_eq_true resolves
      refine ⟨api, log, client, resolved, generated, fun none => ?_, reported,
        (reportsPackages_iff resolved generated).mpr covers⟩
      rw [none] at single
      contradiction

/-- A property that is a union in one member of an allOf and a string in a later one: the
union stays registered and is declared, but the packages of its moments are not reported. -/
theorem overwritten_union_unreported :
    let first := Schema.record [("a", momentOrNumber)]
    let second :=
      Schema.record [("a", .inline { Schema.bare with kind := some (.one "string") })]
    let merged : Schema := { Schema.bare with allOf := some [.inline first, .inline second] }
    let document := Document.ofParts [] [("X", .inline merged)]
    ∃ client, ofDocument Config.default document = .ok client ∧
      ¬ ReportsPackages Config.default document client := by
  intro first second merged document
  have resolves : (match document.resolve.outcome (scope Config.default)
        (Log.starting Registry.empty) with
      | (.ok api, log) =>
          match ofDocument Config.default document with
          | .ok client =>
              decide (∃ entry ∈ log.store.unions, ∃ variant ∈ entry.union.variants,
                ∃ value ∈ variant.shape.directPrimitives,
                  value.kind = .string ∧ value.format = some "date-time" ∧
                    "elm/time" ∉ client.packages)
          | .error _ => false
      | (.error _, _) => false) = true := by
    decide +kernel
  split at resolves
  case h_2 => contradiction
  case h_1 api log resolved =>
    split at resolves
    case h_2 => contradiction
    case h_1 client generated =>
      obtain ⟨entry, stored, variant, member, value, direct, isString, formatted, unreported⟩ :=
        of_decide_eq_true resolves
      refine ⟨client, generated, fun reports => unreported ?_⟩
      have depends := dependsOn_of_union resolved generated stored member direct formatted
      rw [isString] at depends
      exact reports .string "date-time" FormatRegistry.dateTime (by decide) depends "elm/time"
        (by decide)

end Client

end ElmClient
