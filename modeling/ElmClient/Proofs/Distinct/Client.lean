/-
When the declarations of types, decoders and encoders have distinct names. Final names
are distinct and avoid components; so two declarations collide only where an entry takes
the name of a component that is declared, too, or where the companions of two enums are
called alike because a reserved word is escaped.
-/

import ElmClient.Proofs.Client
import ElmClient.Proofs.Distinct.Names
import ElmClient.Proofs.Sample
import ElmClient.Proofs.Sound.Document

namespace ElmClient

namespace Elm

/-! ### Names of one type -/

theorem types_ne_json (namespaceName : String) :
    Group.types.moduleName namespaceName ≠ Group.decoders.moduleName namespaceName := by
  intro same
  exact absurd ((String.append_right_inj _).mp same) (by decide)

theorem mem_ownNames {namespaceName : String} {name : TypeName} {placed : String × String} :
    placed ∈ ownNames namespaceName name ↔
      placed = (Group.types.moduleName namespaceName, name.text) ∨
        placed = (Group.decoders.moduleName namespaceName, name.decoderName) ∨
        placed = (Group.decoders.moduleName namespaceName, name.encoderName) := by
  rw [ownNames, List.mem_cons, List.mem_cons, List.mem_singleton]
  rfl

private theorem ownNames_nodup (namespaceName : String) (name : TypeName) :
    (ownNames namespaceName name).Nodup := by
  refine List.nodup_cons.mpr ⟨fun again => ?_, List.nodup_cons.mpr ⟨fun again => ?_, ?_⟩⟩
  · rcases List.mem_cons.mp again with same | later
    · exact types_ne_json _ (Prod.mk.inj same).1
    · exact types_ne_json _ (Prod.mk.inj (List.mem_singleton.mp later)).1
  · exact TypeName.decoderName_ne_encoderName _ _ (Prod.mk.inj (List.mem_singleton.mp again)).2
  · exact List.nodup_singleton _

private theorem ownNames_disjoint_iff (namespaceName : String) (left right : TypeName) :
    List.Disjoint (ownNames namespaceName left) (ownNames namespaceName right) ↔
      left ≠ right := by
  constructor
  · rintro apart rfl
    exact apart List.mem_cons_self List.mem_cons_self
  · intro different placed inLeft inRight
    rw [mem_ownNames] at inLeft inRight
    rcases inLeft with rfl | rfl | rfl
    · rcases inRight with same | same | same
      · exact different (TypeName.text_inj (Prod.mk.inj same).2)
      · exact types_ne_json _ (Prod.mk.inj same).1
      · exact types_ne_json _ (Prod.mk.inj same).1
    · rcases inRight with same | same | same
      · exact types_ne_json _ (Prod.mk.inj same).1.symm
      · exact different (TypeName.decoderName_inj (Prod.mk.inj same).2)
      · exact TypeName.decoderName_ne_encoderName _ _ (Prod.mk.inj same).2
    · rcases inRight with same | same | same
      · exact types_ne_json _ (Prod.mk.inj same).1.symm
      · exact TypeName.decoderName_ne_encoderName _ _ (Prod.mk.inj same).2.symm
      · exact different (TypeName.encoderName_inj (Prod.mk.inj same).2)

private theorem besideNames_nodup (namespaceName : String) (name : TypeName) :
    (besideNames namespaceName name).Nodup :=
  (companionNames_nodup name.toValueName).map fun _ _ same => (Prod.mk.inj same).2

private theorem besideNames_disjoint_iff (namespaceName : String) (left right : TypeName) :
    List.Disjoint (besideNames namespaceName left) (besideNames namespaceName right) ↔
      left.toValueName ≠ right.toValueName := by
  constructor
  · intro apart same
    rw [besideNames, besideNames, same] at apart
    exact apart List.mem_cons_self List.mem_cons_self
  · intro different placed inLeft inRight
    obtain ⟨name, inLeftNames, rfl⟩ := List.mem_map.mp inLeft
    obtain ⟨other, inRightNames, same⟩ := List.mem_map.mp inRight
    rw [(Prod.mk.inj same).2] at inRightNames
    exact companionNames_disjoint different inLeftNames inRightNames

theorem ownNames_disjoint_besideNames (namespaceName : String) {name other : TypeName}
    (proper : name.Proper) (otherProper : other.Proper) :
    List.Disjoint (ownNames namespaceName name) (besideNames namespaceName other) := by
  intro placed inOwn inBeside
  obtain ⟨companion, listed, rfl⟩ := List.mem_map.mp inBeside
  obtain ⟨first, rest, text, upper, -⟩ := proper
  obtain ⟨second, others, lowered, notUpper⟩ := TypeName.toValueName_head otherProper
  rcases mem_ownNames.mp inOwn with same | same | same
  · have begins : ∃ tail, companion.toList = second :: tail := by
      simp only [companionNames, List.mem_cons, List.not_mem_nil, or_false] at listed
      rcases listed with rfl | rfl | rfl
      · exact ⟨_, by rw [String.toList_append, lowered, List.cons_append]⟩
      · exact ⟨_, by rw [String.toList_append, lowered, List.cons_append]⟩
      · exact ⟨_, by rw [String.toList_append, lowered, List.cons_append]⟩
    obtain ⟨tail, companionText⟩ := begins
    rw [(Prod.mk.inj same).2, text] at companionText
    rw [(List.cons.inj companionText).1, notUpper] at upper
    exact Bool.false_ne_true upper
  · exact types_ne_json _ (Prod.mk.inj same).1
  · exact types_ne_json _ (Prod.mk.inj same).1

/-! ### Names of all declarations -/

private theorem nodup_flatMap_iff {α β κ : Type} {names : α → List β} (key : α → κ) (items : List α)
    (each : ∀ item, (names item).Nodup)
    (apart : ∀ first second, List.Disjoint (names first) (names second) ↔ key first ≠ key second) :
    (items.flatMap names).Nodup ↔ (items.map key).Nodup := by
  have mapped : (items.map key).Nodup ↔
      items.Pairwise fun first second => key first ≠ key second := List.pairwise_map
  rw [List.nodup_flatMap, mapped]
  constructor
  · intro both
    exact both.2.imp fun disjoint => (apart _ _).mp disjoint
  · intro distinct
    exact ⟨fun item _ => each item, distinct.imp fun different => (apart _ _).mpr different⟩

def declaredNames (types : DeclaredTypes) : List TypeName :=
  types.enums.map Prod.snd ++ types.unions.map fun entry => entry.2.name

def emittedNames (naming : Naming) (api : Api) : List TypeName :=
  (api.components.filter (declaresComponent naming)).map Component.name
    ++ declaredNames naming.declared

def storedDeclared (types : DeclaredTypes) : List Declared :=
  types.enums.map (fun entry => .enum entry.2 entry.1)
    ++ types.unions.map fun entry => .union entry.2

theorem declarations_perm (types : DeclaredTypes) :
    types.declarations.Perm (storedDeclared types) :=
  List.mergeSort_perm _ _

theorem storedDeclared_names (types : DeclaredTypes) :
    (storedDeclared types).map Declared.name = declaredNames types := by
  rw [storedDeclared, List.map_append, List.map_map, List.map_map]
  rfl

private theorem storedDeclared_besides (namespaceName : String) (types : DeclaredTypes) :
    (storedDeclared types).flatMap (declaredBesides namespaceName) =
      (types.enums.map Prod.snd).flatMap (besideNames namespaceName) := by
  have noUnions : (types.unions.map fun entry => Declared.union entry.2).flatMap
      (declaredBesides namespaceName) = [] := by
    refine List.flatMap_eq_nil_iff.mpr fun declared member => ?_
    obtain ⟨entry, _, rfl⟩ := List.mem_map.mp member
    rfl
  rw [storedDeclared, List.flatMap_append, noUnions, List.append_nil, List.flatMap_map,
    List.flatMap_map]
  rfl

theorem expectedNames_perm (naming : Naming) (api : Api) :
    (Client.expectedNames naming api).Perm
      ((emittedNames naming api).flatMap (ownNames naming.namespaceName)
        ++ (naming.declared.enums.map Prod.snd).flatMap (besideNames naming.namespaceName)) := by
  have own : (storedDeclared naming.declared).flatMap
      (fun declared => ownNames naming.namespaceName declared.name) =
        (declaredNames naming.declared).flatMap (ownNames naming.namespaceName) := by
    rw [← storedDeclared_names, List.flatMap_map]
  have discovered := ((declarations_perm naming.declared).flatMap_right fun declared =>
    ownNames naming.namespaceName declared.name
      ++ declaredBesides naming.namespaceName declared).trans
    (List.flatMap_append_perm (storedDeclared naming.declared) _ _).symm
  rw [own, storedDeclared_besides] at discovered
  rw [Client.expectedNames, emittedNames, List.flatMap_append, List.flatMap_map,
    List.append_assoc]
  exact discovered.append_left _

private theorem expectedNames_nodup_iff {naming : Naming} {api : Api}
    (proper : ∀ name ∈ emittedNames naming api, name.Proper) :
    (Client.expectedNames naming api).Nodup ↔
      (emittedNames naming api).Nodup ∧
        ((naming.declared.enums.map Prod.snd).map TypeName.toValueName).Nodup := by
  have enumsProper : ∀ name ∈ naming.declared.enums.map Prod.snd, name.Proper :=
    fun name member =>
      proper name (List.mem_append_right _ (List.mem_append_left _ member))
  have own := nodup_flatMap_iff id (emittedNames naming api)
    (ownNames_nodup naming.namespaceName) (ownNames_disjoint_iff naming.namespaceName)
  have besides := nodup_flatMap_iff TypeName.toValueName (naming.declared.enums.map Prod.snd)
    (besideNames_nodup naming.namespaceName) (besideNames_disjoint_iff naming.namespaceName)
  rw [List.map_id] at own
  rw [(expectedNames_perm naming api).nodup_iff, List.nodup_append', own, besides]
  constructor
  · exact fun parts => ⟨parts.1, parts.2.1⟩
  · rintro ⟨emitted, values⟩
    refine ⟨emitted, values, fun placed inOwn inBesides => ?_⟩
    obtain ⟨name, inNames, placedOwn⟩ := List.mem_flatMap.mp inOwn
    obtain ⟨other, inEnums, placedBeside⟩ := List.mem_flatMap.mp inBesides
    exact ownNames_disjoint_besideNames _ (proper name inNames) (enumsProper other inEnums)
      placedOwn placedBeside

/-- Companions of enums differ unless a reserved word is escaped to the name of another
enum. -/
theorem valueNames_nodup_iff {names : List TypeName} (distinct : names.Nodup)
    (proper : ∀ name ∈ names, name.Proper) :
    (names.map TypeName.toValueName).Nodup ↔
      ∀ name ∈ names, ∀ other ∈ names, name.Reserved → other.text ≠ name.text ++ "_" := by
  rw [List.nodup_map_iff_inj_on distinct]
  constructor
  · intro injective name inNames other alsoInNames reserved text
    have same := injective name inNames other alsoInNames
      (TypeName.toValueName_eq_of_underscore (proper name inNames) reserved text)
    have lengths := congrArg String.length text
    rw [same, String.length_append] at lengths
    exact absurd lengths (Nat.ne_of_lt (Nat.lt_succ_self _))
  · intro noEscape name inNames other alsoInNames same
    rcases (TypeName.toValueName_eq_iff (proper name inNames) (proper other alsoInNames)).mp same
      with equal | ⟨reserved, text⟩ | ⟨reserved, text⟩
    · exact equal
    · exact absurd text (noEscape name inNames other alsoInNames reserved)
    · exact absurd text (noEscape other alsoInNames name inNames reserved)

/-! ### Components and final names -/

section Declared

variable {document : Document} {api : Api} {registry : Registry}
  (registrySound : registry.Sound document.components.schemas)
  (apiSound : api.Sound document registry)

theorem declaredNames_perm :
    (declaredNames (Client.declaredTypes api registry)).Perm
      ((registry.finalNames (api.components.map Component.name)).map Prod.snd) :=
  Registry.drain_names_perm _ registry

include registrySound

theorem finalNames_proper (reserved : List TypeName) :
    ∀ name ∈ (registry.finalNames reserved).map Prod.snd, name.Proper := by
  intro name member
  obtain ⟨final, inFinals, rfl⟩ := List.mem_map.mp member
  rcases registry.finalNames_origin reserved inFinals with owned | ⟨entry, inEntries, number, equal⟩
  · have named : final.1 ∈ (registry.finalNames reserved).map Prod.fst :=
      List.mem_map_of_mem inFinals
    have inEntries := (registry.finalNames_perm reserved).mem_iff.mp named
    exact (registrySound.proper final.1 inEntries).owner final.2 owned
  · have proper := (registrySound.proper entry inEntries).name
    rw [equal]
    cases number with
    | zero => exact proper
    | succ number => exact proper.withSuffix (number + 2)

include apiSound

theorem emittedNames_proper (config : Config) :
    ∀ name ∈ emittedNames (Naming.ofApi config api (Client.declaredTypes api registry)) api,
      name.Proper := by
  intro name member
  rcases List.mem_append.mp member with inComponents | inDeclared
  · obtain ⟨component, kept, rfl⟩ := List.mem_map.mp inComponents
    rw [apiSound.names component (List.mem_of_mem_filter kept)]
    exact TypeName.ofRaw_proper _
  · exact finalNames_proper registrySound _ name (declaredNames_perm.mem_iff.mp inDeclared)

omit registrySound in
/-- A component's name is also a final name exactly when it owns an entry. -/
theorem emittedNames_nodup_iff (config : Config) :
    (emittedNames (Naming.ofApi config api (Client.declaredTypes api registry)) api).Nodup ↔
      ∀ component ∈ api.components,
        (∃ entry ∈ registry.entries, entry.owner = some component.name) →
          typeExpression (Naming.ofApi config api (Client.declaredTypes api registry))
              component.shape =
            (Naming.ofApi config api (Client.declaredTypes api registry)).typeRef
              component.name := by
  have declared : (declaredNames (Client.declaredTypes api registry)).Perm
      ((registry.finalNames (api.components.map Component.name)).map Prod.snd) :=
    declaredNames_perm
  have declaredNodup := declared.nodup_iff.mpr (registry.finalNames_nodup _)
  have keptNodup := (List.Sublist.map Component.name
    (List.filter_sublist (l := api.components)
      (p := declaresComponent (Naming.ofApi config api (Client.declaredTypes api registry))))).nodup
    apiSound.distinct
  rw [emittedNames, List.nodup_append']
  constructor
  · rintro ⟨-, -, disjoint⟩ component member ⟨entry, inEntries, owned⟩
    by_contra different
    have kept : component.name ∈
        (api.components.filter (declaresComponent
          (Naming.ofApi config api (Client.declaredTypes api registry)))).map Component.name :=
      List.mem_map_of_mem (List.mem_filter.mpr ⟨member, decide_eq_true different⟩)
    have final := registry.owner_mem_finalNames (api.components.map Component.name) inEntries owned
    exact disjoint kept (declared.mem_iff.mpr final)
  · intro undeclared
    refine ⟨keptNodup, declaredNodup, fun name inComponents inDeclared => ?_⟩
    obtain ⟨component, kept, rfl⟩ := List.mem_map.mp inComponents
    obtain ⟨member, declares⟩ := List.mem_filter.mp kept
    obtain ⟨final, inFinals, named⟩ := List.mem_map.mp (declared.mem_iff.mp inDeclared)
    have taken : final.2 ∈ api.components.map Component.name := by
      rw [named]
      exact List.mem_map_of_mem member
    have owned := registry.finalNames_reserved _ inFinals taken
    rw [named] at owned
    have inEntries := (registry.finalNames_perm _).mem_iff.mp (List.mem_map_of_mem inFinals)
    exact of_decide_eq_true declares (undeclared component member ⟨final.1, inEntries, owned⟩)

end Declared

end Elm

/-! ### Clients -/

namespace Client

open Elm

/-- The names of types, decoders and encoders are distinct exactly when every component
that owns an entry leaves the declaration to it, and no enum is called like another one
whose value name is an escaped reserved word. -/
theorem codecNames_nodup_iff {config : Config} {document : Document} {client : Client}
    {api : Api} {log : Log Registry}
    (resolved : document.resolve.outcome (scope config) (Log.starting Registry.empty) =
      (.ok api, log))
    (generated : ofDocument config document = .ok client) :
    let naming := Naming.ofApi config api (declaredTypes api log.store)
    (codecNames config.namespaceName client.declarations).Nodup ↔
      (∀ component ∈ api.components,
        (∃ entry ∈ log.store.entries, entry.owner = some component.name) →
          typeExpression naming component.shape = naming.typeRef component.name) ∧
      ∀ name ∈ naming.declared.enums.map Prod.snd,
        ∀ other ∈ naming.declared.enums.map Prod.snd,
          name.Reserved → other.text ≠ name.text ++ "_" := by
  intro naming
  obtain ⟨registrySound, apiSound⟩ := document.resolve_sound resolved
  obtain ⟨found, store, declarations, finished, sameResolved, ended, rfl⟩ := ofDocument_ok generated
  rw [resolved] at sameResolved
  obtain ⟨sameApi, rfl⟩ := Prod.mk.inj sameResolved
  obtain rfl := Except.ok.inj sameApi
  have names : (codecNames naming.namespaceName declarations).Perm (expectedNames naming api) :=
    declare_names naming config document api _ _ declarations finished ended
  have proper := emittedNames_proper registrySound apiSound config
  have enumsProper : ∀ name ∈ naming.declared.enums.map Prod.snd, name.Proper :=
    fun name member =>
      proper name (List.mem_append_right _ (List.mem_append_left _ member))
  have enumsNodup : (naming.declared.enums.map Prod.snd).Nodup :=
    (declaredNames_perm.nodup_iff.mpr (log.store.finalNames_nodup _)).of_append_left
  rw [← emittedNames_nodup_iff apiSound config, ← valueNames_nodup_iff enumsNodup enumsProper,
    ← expectedNames_nodup_iff proper]
  exact names.nodup_iff

/-- A component that is an enum leaves the declaration to it. -/
theorem codecNames_nodup_iff_enum :
    let document := Document.ofParts [] [("X", .inline (Schema.oneOfTexts ["a"]))]
    ∃ api log client,
      document.resolve.outcome (scope Config.default) (Log.starting Registry.empty) =
          (.ok api, log) ∧
        ofDocument Config.default document = .ok client ∧
        ((codecNames Config.default.namespaceName client.declarations).Nodup ↔
          (∀ component ∈ api.components,
            (∃ entry ∈ log.store.entries, entry.owner = some component.name) →
              typeExpression (Naming.ofApi Config.default api (declaredTypes api log.store))
                  component.shape =
                (Naming.ofApi Config.default api (declaredTypes api log.store)).typeRef
                  component.name) ∧
          ∀ name ∈ (declaredTypes api log.store).enums.map Prod.snd,
            ∀ other ∈ (declaredTypes api log.store).enums.map Prod.snd,
              name.Reserved → other.text ≠ name.text ++ "_") := by
  intro document
  have succeeds : (match ofDocument Config.default document with
      | .ok _ => true
      | .error _ => false) = true := by
    decide +kernel
  split at succeeds
  case h_1 client generated =>
    obtain ⟨api, log, -, -, resolved, -, -⟩ := ofDocument_ok generated
    exact ⟨api, log, client, resolved, generated, codecNames_nodup_iff resolved generated⟩
  case h_2 => contradiction

/-- A nullable component whose only alternative is an enum is declared as an alias, and
the enum takes its name, too. -/
theorem nullable_enum_declared_twice :
    let nullable :=
      { Schema.bare with
        nullable := some true, anyOf := some [.inline (Schema.oneOfTexts ["a"])] }
    ∃ client,
      ofDocument Config.default (Document.ofParts [] [("X", .inline nullable)]) = .ok client ∧
        ¬ (codecNames Config.default.namespaceName client.declarations).Nodup := by
  intro nullable
  have declaredTwice :
      (match ofDocument Config.default (Document.ofParts [] [("X", .inline nullable)]) with
        | .ok client =>
            decide (codecNames Config.default.namespaceName client.declarations).Nodup
        | .error _ => true) = false := by
    decide +kernel
  split at declaredTwice
  case h_1 client generated => exact ⟨client, generated, of_decide_eq_false declaredTwice⟩
  case h_2 => contradiction

end Client

end ElmClient
