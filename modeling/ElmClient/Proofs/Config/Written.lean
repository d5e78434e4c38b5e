/-
Configurations are read again as they were written. Every server mode, profile and format
entry is; a list of profiles is if it is in canonical order, and a registry if it has been put
over the built-in one. Whatever is read has both, in any of its spellings.
-/

import ElmClient.Config.Format
import ElmClient.Proofs.Config.Layers
import ElmClient.Proofs.Json.Rereading

namespace ElmClient

open Json

theorem list?_strings (texts : List String) :
    list? string? (.array (texts.map .string)) = some texts :=
  mapM_map_eq_some fun _ _ => rfl

theorem members?_map {α : Type} {read : Json → Option α} (write : α → Json)
    (again : ∀ value, read (write value) = some value) (entries : List (String × α)) :
    members? read (.object (entries.map fun entry => (entry.1, write entry.2))) =
      some entries := by
  refine mapM_map_eq_some fun entry _ => ?_
  rw [again]
  rfl

namespace EffectProfile

theorem ofTag?_tag (profile : EffectProfile) : ofTag? profile.tag = some profile := by
  obtain ⟨library, convention⟩ := profile
  cases library <;> cases convention <;> decide

theorem ofJson?_tag (profile : EffectProfile) : ofJson? (.string profile.tag) = some profile :=
  ofTag?_tag profile

theorem canonical_again (profiles : List EffectProfile) :
    canonical (canonical profiles) = canonical profiles := by
  unfold canonical
  refine List.filter_congr fun profile member => ?_
  rw [List.contains_eq_mem, List.contains_eq_mem]
  exact decide_eq_decide.mpr
    (List.mem_filter.trans ((and_iff_right member).trans List.contains_iff_mem))

end EffectProfile

namespace ServerMode

theorem ofJson?_toJson (mode : ServerMode) : ofJson? mode.toJson = some mode := by
  cases mode with
  | fromDocument => rfl
  | single url => rfl
  | multiple servers =>
      have again : members? string?
          (.object (servers.map fun server => (server.1, .string server.2)))
          = some servers := members?_map .string (fun _ => rfl) servers
      change (required? (members? string?) "servers" _).bind _ = _
      rw [required?, Keyed.find?, if_neg (by decide), Keyed.find?, if_pos rfl, Option.bind_some,
        again]
      rfl

end ServerMode

namespace FormatEntry

theorem ofJson?_toJson (surplus : Bool) (entry : FormatEntry) :
    ofJson? surplus entry.toJson = some entry := by
  obtain ⟨elmType, encode, decode, stringify, packages⟩ := entry
  cases packages with
  | nil => cases stringify <;> rfl
  | cons package rest =>
      have listed := list?_strings (package :: rest)
      -- The packages are read last; all other fields are found by evaluation.
      cases stringify <;>
      · change (list? string? (.array ((package :: rest).map .string))).bind _ = _
        rw [listed]
        rfl

end FormatEntry

namespace FormatRegistry

/-- A registry is read from its written form as that form put over the built-in one. -/
theorem ofJson?_toJson (surplus : Bool) (registry : FormatRegistry) :
    ofJson? surplus registry.toJson = some (builtIn.layer registry.kinds) := by
  have formats (entries : List (String × FormatEntry)) :
      members? (FormatEntry.ofJson? surplus)
        (.object (entries.map fun entry => (entry.1, entry.2.toJson))) = some entries :=
    members?_map FormatEntry.toJson (FormatEntry.ofJson?_toJson surplus) entries
  have kinds : members? (members? (FormatEntry.ofJson? surplus)) registry.toJson =
      some registry.kinds :=
    members?_map (fun entries => .object (entries.map fun entry => (entry.1, entry.2.toJson)))
      formats registry.kinds
  rw [ofJson?, kinds]
  rfl

theorem layer_of_ofJson? {surplus : Bool} {json : Json} {registry : FormatRegistry}
    (read : ofJson? surplus json = some registry) :
    builtIn.layer registry.kinds = registry := by
  obtain ⟨kinds, -, rfl⟩ := Option.map_eq_some_iff.mp read
  exact layer_builtIn_again kinds

end FormatRegistry

namespace Config

/-- What a configuration that was read does not lose by being written. -/
structure Rereadable (config : Config) : Prop where
  profiles : EffectProfile.canonical config.profiles = config.profiles
  formats : FormatRegistry.builtIn.layer config.formats.kinds = config.formats

theorem ofJson?_toJson (surplus : Bool) (config : Config) :
    ofJson? surplus config.toJson = some { config with
      profiles := EffectProfile.canonical config.profiles
      formats := FormatRegistry.builtIn.layer config.formats.kinds } := by
  have profiles : list? EffectProfile.ofJson?
      (.array (config.profiles.map fun profile => .string profile.tag)) =
        some config.profiles :=
    mapM_map_eq_some fun profile _ => EffectProfile.ofJson?_tag profile
  have server := ServerMode.ofJson?_toJson config.server
  have formats := FormatRegistry.ofJson?_toJson surplus config.formats
  -- The keys are found by evaluation, which leaves the three fields with readers of their own.
  change ((list? EffectProfile.ofJson?
      (.array (config.profiles.map fun profile => .string profile.tag))).map
        EffectProfile.canonical).bind (fun profiles =>
      (ServerMode.ofJson? config.server.toJson).bind fun server =>
      (FormatRegistry.ofJson? surplus config.formats.toJson).bind fun formats =>
      some { config with profiles, server, formats }) = _
  rw [profiles, server, formats]
  rfl

private theorem of_defaulted? {α : Type} {read : Json → Option α} {default : α} {name : String}
    {entries : List (String × Json)} {value : α} (right : α → Prop)
    (field : defaulted? read default name entries = some value) (ofDefault : right default)
    (ofRead : ∀ json value, read json = some value → right value) : right value := by
  unfold defaulted? at field
  split at field
  · exact Option.some.inj field ▸ ofDefault
  · exact ofRead _ value field

private theorem rereadable_of_ofJson? {surplus : Bool} {json : Json} {config : Config}
    (read : ofJson? surplus json = some config) : config.Rereadable := by
  obtain ⟨entries, -, read⟩ := Option.bind_eq_some_iff.mp read
  split at read
  · contradiction
  · obtain ⟨generateTodos, -, read⟩ := Option.bind_eq_some_iff.mp read
    obtain ⟨profiles, readProfiles, read⟩ := Option.bind_eq_some_iff.mp read
    obtain ⟨server, -, read⟩ := Option.bind_eq_some_iff.mp read
    obtain ⟨namespaceName, -, read⟩ := Option.bind_eq_some_iff.mp read
    obtain ⟨formats, readFormats, read⟩ := Option.bind_eq_some_iff.mp read
    obtain rfl := Option.some.inj read
    have canonical : EffectProfile.canonical profiles = profiles := by
      refine of_defaulted? (fun profiles => EffectProfile.canonical profiles = profiles)
        readProfiles (by decide) fun _ listed read => ?_
      obtain ⟨tags, -, rfl⟩ := Option.map_eq_some_iff.mp read
      exact EffectProfile.canonical_again tags
    have layered : FormatRegistry.builtIn.layer formats.kinds = formats :=
      of_defaulted? (fun formats => FormatRegistry.builtIn.layer formats.kinds = formats)
        readFormats (by decide) fun _ _ read => FormatRegistry.layer_of_ofJson? read
    exact ⟨canonical, layered⟩

/-- What is accepted: a value in either reading of records, or the text of a settings file. -/
def Accepted (config : Config) : Prop :=
  (∃ surplus json, ofJson? surplus json = some config) ∨ ∃ source, ofToml? source = some config

/-- A configuration that was accepted is read from its written form. -/
theorem ofJson?_toJson_of_accepted {config : Config} (accepted : config.Accepted)
    (surplus : Bool) : ofJson? surplus config.toJson = some config := by
  have rereadable : config.Rereadable := by
    rcases accepted with ⟨_, _, read⟩ | ⟨_, read⟩
    · exact rereadable_of_ofJson? read
    · obtain ⟨_, -, read⟩ := Option.bind_eq_some_iff.mp read
      exact rereadable_of_ofJson? read
  rw [ofJson?_toJson, rereadable.profiles, rereadable.formats]

/-- Servers that are not sorted, a profile listed twice, a kind without formats, an entry
spelled as a list that has no stringifier, and a settings file. -/
theorem ofJson?_toJson_of_accepted_spellings :
    let json := Json.object
      [("server", .array [.string "multiple",
          .object [("staging", .string "s"), ("prod", .string "p")]]),
        ("effect_profiles", .array
          [.string "effect-cmd", .string "elm-http-task", .string "effect-cmd"]),
        ("formats", .object
          [("string", .object [("uuid", .array [.string "Id", .string "e", .string "d"])]),
            ("integer", .object [])])]
    ∃ config, ofJson? false json = some config ∧
      config.server = .multiple [("staging", "s"), ("prod", "p")] ∧
      config.profiles = [⟨.elmHttp, .task⟩, ⟨.effect, .cmd⟩] ∧
      config.formats.kinds.map (fun kind => (kind.1, kind.2.map Prod.fst)) =
        [("integer", []), ("string", ["date-time", "password", "uuid"])] ∧
      config.formats.find? .string "uuid" =
        some { elmType := "Id", encode := "e", decode := "d", stringify := none, packages := [] } ∧
      ofJson? true config.toJson = some config ∧
      ∃ other, ofToml? "namespace = 'Pets'" = some other ∧
        ofJson? false other.toJson = some other := by
  intro json
  refine ⟨_, rfl, by decide, by decide, by decide, by decide,
    ofJson?_toJson_of_accepted (.inl ⟨false, json, rfl⟩) true, ?_⟩
  obtain ⟨other, read⟩ : ∃ other, ofToml? "namespace = 'Pets'" = some other :=
    Option.isSome_iff_exists.mp (by decide)
  exact ⟨other, read, ofJson?_toJson_of_accepted (.inr ⟨_, read⟩) false⟩

end Config

end ElmClient
