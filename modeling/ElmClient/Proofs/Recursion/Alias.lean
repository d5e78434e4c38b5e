/-
Type aliases of a client. They are those of the components off every cycle of references
whose type is not written as their own name, and no others, so Elm can expand them all.
-/

import ElmClient.Proofs.Declared.Client
import ElmClient.Proofs.Recursion.Search

namespace ElmClient

namespace Elm

open Run Name

variable {σ : Type}

/-! ### Sources of type aliases -/

def isAlias (entry : Grouped) : Bool :=
  entry.1 == .types && Text.startsWith "type alias " entry.2.source

def aliasesOf (declarations : List Grouped) : List Declaration :=
  (declarations.filter isAlias).map Prod.snd

private theorem aliasesOf_append (left right : List Grouped) :
    aliasesOf (left ++ right) = aliasesOf left ++ aliasesOf right := by
  rw [aliasesOf, List.filter_append, List.map_append]
  rfl

private theorem aliasesOf_flatten (lists : List (List Grouped)) :
    aliasesOf lists.flatten = lists.flatMap aliasesOf := by
  rw [aliasesOf, List.filter_flatten, List.map_flatten, List.map_map]
  rfl

private theorem aliasesOf_eq_nil {declarations : List Grouped}
    (others : ∀ entry ∈ declarations, isAlias entry = false) : aliasesOf declarations = [] := by
  rw [aliasesOf, List.filter_eq_nil_iff.mpr, List.map_nil]
  intro entry member
  rw [others entry member]
  exact Bool.false_ne_true

private theorem isAlias_of_group {entry : Grouped} (other : entry.1 ≠ .types) :
    isAlias entry = false := by
  rw [isAlias, beq_eq_false_iff_ne.mpr other, Bool.false_and]

private theorem aliasesOf_of_codecNames {namespaceName : String} {declarations : List Grouped}
    (none : codecNames namespaceName declarations = []) : aliasesOf declarations = [] := by
  refine aliasesOf_eq_nil fun entry member => isAlias_of_group ?_
  intro types
  refine List.filter_eq_nil_iff.mp (List.map_eq_nil_iff.mp none) entry member ?_
  rw [Group.isCodec, types]
  rfl

private theorem aliasesOf_map (group : Group) (other : group ≠ .types)
    (declarations : List Declaration) :
    aliasesOf (declarations.map fun declaration => (group, declaration)) = [] := by
  refine aliasesOf_eq_nil fun entry member => ?_
  obtain ⟨declaration, -, rfl⟩ := List.mem_map.mp member
  exact isAlias_of_group other

private theorem eq_of_first_blank {left right leftEnd rightEnd : List Char}
    (same : left ++ ' ' :: leftEnd = right ++ ' ' :: rightEnd) (leftNone : ' ' ∉ left)
    (rightNone : ' ' ∉ right) : left = right ∧ leftEnd = rightEnd := by
  have pieces := congrArg (Text.splitChars ' ') same
  rw [Text.splitChars_append leftNone, Text.splitChars_append rightNone] at pieces
  obtain rfl := (List.cons.inj pieces).1
  exact ⟨rfl, (List.cons.inj (List.append_cancel_left same)).2⟩

/-- After its first word, the source of an alias goes on with a letter `a`. -/
theorem isAlias_of_word {entry : Grouped} (word : List Char) {next : Char} {rest : List Char}
    (source : entry.2.source.toList = word ++ ' ' :: next :: rest) (whole : ' ' ∉ word)
    (other : next ≠ 'a') : isAlias entry = false := by
  rw [isAlias, Bool.and_eq_false_iff]
  refine Or.inr (Bool.eq_false_iff.mpr fun begins => other ?_)
  obtain ⟨tail, equal⟩ := List.isPrefixOf_iff_prefix.mp begins
  have split : "type".toList ++ ' ' :: ("alias ".toList ++ tail) = word ++ ' ' :: next :: rest :=
    equal.trans source
  exact ((List.cons.inj (eq_of_first_blank split (by decide) whole).2).1).symm

private theorem isAlias_customType {name : TypeName} (proper : name.Proper)
    {declaration : Declaration}
    (tail : String) (source : declaration.source = "type " ++ (name.text ++ tail)) :
    isAlias (.types, declaration) = false := by
  obtain ⟨first, rest, text, upper, -⟩ := proper
  refine isAlias_of_word "type".toList (?_ : _ = _ ++ ' ' :: first :: (rest ++ tail.toList))
    (by decide) ?_
  · rw [source, String.toList_append, String.toList_append, text]
    rfl
  · rintro rfl
    exact absurd upper (by decide)

private theorem isAlias_signature {name : TypeName} (proper : name.Proper)
    {declaration : Declaration}
    (suffix mark : String) {rest : List Char} (holdable : Holdable suffix.toList)
    (colon : mark.toList = ' ' :: ':' :: rest)
    (source : ∃ tail, declaration.source = name.toValueName ++ (suffix ++ (mark ++ tail))) :
    isAlias (.types, declaration) = false := by
  obtain ⟨tail, source⟩ := source
  refine isAlias_of_word (name.toValueName.toList ++ suffix.toList)
    (?_ : _ = _ ++ ' ' :: ':' :: (rest ++ tail.toList)) ?_ (by decide)
  · rw [source, String.toList_append, String.toList_append, String.toList_append, colon,
      List.append_assoc, List.cons_append, List.cons_append]
  · exact ((TypeName.holdable_toValueName proper).append holdable).not_mem (by decide)

/-! ### Aliases of components -/

def componentAliases (naming : Naming) (component : Component) : List Declaration :=
  if declaresComponent naming component &&
      !naming.isRecursive component.name component.shape then
    [typeDeclaration naming component false]
  else []

private theorem mem_componentAliases_iff {naming : Naming} {component : Component}
    {declaration : Declaration} :
    declaration ∈ componentAliases naming component ↔
      (declaresComponent naming component = true ∧
        naming.isRecursive component.name component.shape = false) ∧
      declaration = typeDeclaration naming component false := by
  unfold componentAliases
  rw [← Bool.not_eq_true', ← Bool.and_eq_true]
  split
  case isTrue kept => rw [List.mem_singleton, and_iff_right kept]
  case isFalse dropped => exact iff_of_false List.not_mem_nil fun written => dropped written.1

theorem typeDeclaration_alias (naming : Naming) (component : Component) :
    ∃ body, (typeDeclaration naming component false).source =
      "type alias " ++ component.name.text ++ " =\n" ++ body :=
  ⟨_, rfl⟩

theorem typeDeclaration_custom (naming : Naming) (component : Component) :
    ∃ body, (typeDeclaration naming component true).source =
      "type " ++ (component.name.text ++ body) := by
  simp only [typeDeclaration, if_true, Declaration.customType, String.append_assoc]
  exact ⟨_, rfl⟩

private theorem isAlias_typeDeclaration (naming : Naming) {component : Component}
    (proper : component.name.Proper) (recursive : Bool) :
    isAlias (.types, typeDeclaration naming component recursive) = !recursive := by
  cases recursive with
  | true =>
      obtain ⟨body, source⟩ := typeDeclaration_custom naming component
      exact isAlias_customType proper _ source
  | false =>
      obtain ⟨body, source⟩ := typeDeclaration_alias naming component
      have begins : Text.startsWith "type alias " (typeDeclaration naming component false).source =
          true := by
        rw [source, Text.startsWith, List.isPrefixOf_iff_prefix, String.append_assoc,
          String.append_assoc, String.toList_append]
        exact List.prefix_append _ _
      rw [isAlias, begins]
      rfl

private theorem eq_of_startsWith_alias {name other : TypeName} (proper : name.Proper)
    (otherProper : other.Proper) {body : String}
    (begins : Text.startsWith ("type alias " ++ name.text ++ " =")
      ("type alias " ++ other.text ++ " =\n" ++ body) = true) : name = other := by
  obtain ⟨tail, equal⟩ := List.isPrefixOf_iff_prefix.mp begins
  simp only [String.toList_append, List.append_assoc] at equal
  have named : name.text.toList ++ ' ' :: ('=' :: tail) =
      other.text.toList ++ ' ' :: ("=\n".toList ++ body.toList) :=
    List.append_cancel_left equal
  have same := eq_of_first_blank named ((holdable_of_proper proper).not_mem (by decide))
    ((holdable_of_proper otherProper).not_mem (by decide))
  exact TypeName.text_inj (String.toList_inj.mp same.1)

theorem componentDeclarations_aliases (naming : Naming) {component : Component}
    (proper : component.name.Proper) :
    Returns (componentDeclarations naming component : Run σ (List Grouped))
      fun declarations => aliasesOf declarations = componentAliases naming component := by
  unfold componentDeclarations componentAliases declaresComponent
  split
  case isTrue same => exact Returns.pure (by rw [same]; simp [aliasesOf])
  case isFalse different =>
    refine Returns.bind (Returns.any _) fun decoder _ => ?_
    refine Returns.map (Returns.any _) fun encoder _ => ?_
    have written := isAlias_typeDeclaration naming proper
      (naming.isRecursive component.name component.shape)
    have noCodec : aliasesOf [(.decoders, decoder), (.encoders, encoder)] = [] := rfl
    rw [aliasesOf] at noCodec
    rw [decide_eq_true different, Bool.true_and, aliasesOf, List.filter_cons, written]
    cases naming.isRecursive component.name component.shape with
    | true => exact noCodec
    | false => exact congrArg (List.cons _) noCodec

/-! ### Enums and unions -/

theorem enumDeclarations_aliases (naming : Naming) {name : TypeName} (proper : name.Proper)
    (values : List String) : aliasesOf (enumDeclarations naming name values) = [] := by
  apply aliasesOf_eq_nil
  simp only [enumDeclarations, List.forall_mem_cons]
  refine ⟨isAlias_customType proper _ (String.append_assoc ..), ?_, ?_, ?_,
    isAlias_of_group nofun, isAlias_of_group nofun, nofun⟩
  · refine isAlias_signature proper "ToString" " : " (holdable_of_all (by decide)) rfl ?_
    simp only [Declaration.value, enumToString, caseHeader, String.append_assoc]
    exact ⟨_, rfl⟩
  · refine isAlias_signature proper "FromString" " : "
      (holdable_of_all (by decide)) rfl ?_
    simp only [Declaration.value, enumFromString, caseHeader, String.append_assoc]
    exact ⟨_, rfl⟩
  · refine isAlias_signature proper "Variants" " : List "
      (holdable_of_all (by decide)) rfl ?_
    simp only [Declaration.value, enumVariants, String.append_assoc]
    exact ⟨_, rfl⟩

theorem unionDeclarations_aliases (naming : Naming) {union : Union} (proper : union.name.Proper) :
    Returns (unionDeclarations naming union : Run σ (List Grouped))
      fun declarations => aliasesOf declarations = [] := by
  unfold unionDeclarations
  refine Returns.map (Returns.any _) fun codecs _ => aliasesOf_eq_nil ?_
  simp only [List.forall_mem_cons]
  exact ⟨isAlias_customType proper _ (String.append_assoc ..), isAlias_of_group nofun,
    isAlias_of_group nofun, nofun⟩

theorem discoveredDeclarations_aliases (naming : Naming)
    (proper : ∀ name ∈ declaredNames naming.declared, name.Proper) :
    Returns (discoveredDeclarations naming : Run σ (List Grouped))
      fun declarations => aliasesOf declarations = [] := by
  have each : ∀ declared ∈ naming.declared.declarations,
      Returns (declaredDeclarations naming declared : Run σ (List Grouped))
        fun declarations => aliasesOf declarations = [] := by
    intro declared member
    have stored := (declarations_perm naming.declared).mem_iff.mp member
    have named : declared.name.Proper := proper _ (storedDeclared_names naming.declared ▸
      List.mem_map_of_mem stored)
    cases declared with
    | enum name values => exact Returns.pure (enumDeclarations_aliases naming named values)
    | union union => exact Returns.withPath _ (unionDeclarations_aliases naming named)
  unfold discoveredDeclarations
  refine Returns.map (Returns.traverseOf each) fun lists related => ?_
  rw [aliasesOf_flatten, List.flatMap_eq_nil_iff]
  exact all_of_forall₂ related

end Elm

namespace Client

open Elm Run

theorem declare_aliases (naming : Naming) (config : Config) (document : Document) (api : Api)
    (componentProper : ∀ component ∈ api.components, component.name.Proper)
    (proper : ∀ name ∈ declaredNames naming.declared, name.Proper) :
    Returns (declare naming config document api) fun declarations =>
      aliasesOf declarations = api.components.flatMap (componentAliases naming) := by
  have each : ∀ component ∈ api.components, Returns (ofComponent naming component)
      fun declarations => aliasesOf declarations = componentAliases naming component :=
    fun component member =>
      Returns.withPath _ (componentDeclarations_aliases naming (componentProper component member))
  unfold declare
  refine Returns.bind (Returns.traverseOf each) fun components ofComponents => ?_
  refine Returns.bind (discoveredDeclarations_aliases naming proper)
    fun discovered noDiscovered => ?_
  dsimp only
  refine Returns.bind (Returns.traverse (ofEndpoint_names naming config document _) _)
    fun endpoints endpointNames => ?_
  refine Returns.map (helperDeclarations_names naming.namespaceName) fun helpers helperNames => ?_
  have noEndpoints : aliasesOf endpoints.flatten = [] := by
    rw [aliasesOf_flatten, List.flatMap_eq_nil_iff]
    exact fun declarations member =>
      aliasesOf_of_codecNames (all_of_forall₂ endpointNames declarations member)
  rw [aliasesOf_append, aliasesOf_append, aliasesOf_append, aliasesOf_append, aliasesOf_append,
    noDiscovered, noEndpoints, aliasesOf_of_codecNames helperNames,
    aliasesOf_map .servers (by decide), aliasesOf_map .common (by decide), List.append_nil,
    List.append_nil, List.append_nil, List.append_nil, List.append_nil, aliasesOf_flatten]
  exact flatMap_eq_of_forall₂ ofComponents

def Aliases (client : Client) (name : TypeName) : Prop :=
  ∃ declaration ∈ client.group .types,
    Text.startsWith ("type alias " ++ name.text ++ " =") declaration.source = true

private theorem mem_group_iff {client : Client} {group : Group} {declaration : Declaration} :
    declaration ∈ client.group group ↔ (group, declaration) ∈ client.declarations := by
  unfold Client.group
  rw [List.mem_map]
  constructor
  · rintro ⟨⟨other, _⟩, member, rfl⟩
    obtain ⟨listed, same⟩ := List.mem_filter.mp member
    exact eq_of_beq same ▸ listed
  · intro listed
    exact ⟨_, List.mem_filter.mpr ⟨listed, beq_self_eq_true group⟩, rfl⟩

private theorem mem_aliasesOf_iff {client : Client} {declaration : Declaration} :
    declaration ∈ aliasesOf client.declarations ↔
      declaration ∈ client.group .types ∧
        Text.startsWith "type alias " declaration.source = true := by
  rw [mem_group_iff, aliasesOf, List.mem_map]
  constructor
  · rintro ⟨⟨group, _⟩, member, rfl⟩
    obtain ⟨listed, kept⟩ := List.mem_filter.mp member
    obtain ⟨types, begins⟩ := Bool.and_eq_true_iff.mp kept
    exact ⟨eq_of_beq types ▸ listed, begins⟩
  · rintro ⟨listed, begins⟩
    exact ⟨_, List.mem_filter.mpr ⟨listed, begins⟩, rfl⟩

private theorem aliases_iff {client : Client} {naming : Naming} {components : List Component}
    (aliases : aliasesOf client.declarations = components.flatMap (componentAliases naming))
    (proper : ∀ component ∈ components, component.name.Proper) {name : TypeName}
    (nameProper : name.Proper) :
    client.Aliases name ↔ ∃ component ∈ components, component.name = name ∧
      declaresComponent naming component = true ∧
      naming.isRecursive component.name component.shape = false := by
  constructor
  · rintro ⟨declaration, listed, begins⟩
    have keyword : Text.startsWith "type alias " declaration.source = true := by
      rw [Text.startsWith, List.isPrefixOf_iff_prefix] at begins ⊢
      rw [String.append_assoc, String.toList_append] at begins
      exact (List.prefix_append _ _).trans begins
    have written := mem_aliasesOf_iff.mpr ⟨listed, keyword⟩
    rw [aliases] at written
    obtain ⟨component, member, ofComponent⟩ := List.mem_flatMap.mp written
    obtain ⟨kept, rfl⟩ := mem_componentAliases_iff.mp ofComponent
    obtain ⟨body, source⟩ := typeDeclaration_alias naming component
    rw [source] at begins
    have same := eq_of_startsWith_alias nameProper (proper component member) begins
    exact ⟨component, member, same.symm, kept⟩
  · rintro ⟨component, member, rfl, kept⟩
    have written : typeDeclaration naming component false ∈ aliasesOf client.declarations := by
      rw [aliases]
      exact List.mem_flatMap.mpr ⟨component, member, mem_componentAliases_iff.mpr ⟨kept, rfl⟩⟩
    refine ⟨_, (mem_aliasesOf_iff.mp written).1, ?_⟩
    obtain ⟨body, source⟩ := typeDeclaration_alias naming component
    rw [source, Text.startsWith, List.isPrefixOf_iff_prefix]
    refine ⟨("\n" ++ body).toList, ?_⟩
    rw [← String.toList_append, String.append_assoc, String.append_assoc, String.append_assoc]
    rfl

/-! ### Generated aliases -/

/-- The components that a client declares as type aliases, and how they refer to each
other. -/
structure Expandable (config : Config) (api : Api) (registry : Registry) (client : Client) :
    Prop where
  aliases_iff : ∀ component ∈ api.components,
    client.Aliases component.name ↔ ¬ api.Cyclic component ∧
      declaresComponent (Naming.ofApi config api (declaredTypes api registry)) component = true
  acyclic : ∀ component,
    ¬ Relation.TransGen
      (fun first second => api.Refers first second ∧
        client.Aliases first.name ∧ client.Aliases second.name) component component
  /-- What is off all cycles and no alias is an enum or a union declared under its name. -/
  others : config.validate = .ok () → config.FormatsApart →
    ∀ component ∈ api.components, ¬ api.Cyclic component → ¬ client.Aliases component.name →
      ((∃ values, component.shape = .enum values) ∨
        ∃ name variants, component.shape = .union name variants) ∧
      ∃ declared ∈ (declaredTypes api registry).declarations, declared.name = component.name

private theorem cyclic_of_ref {document : Document} {api : Api} {registry : Registry}
    (sound : api.Sound document registry) {component : Component}
    (member : component ∈ api.components) {target : Reference}
    (shape : component.shape = .ref target) (same : target.typeName = component.name) :
    api.Cyclic component := by
  rw [← sound.isRecursive_iff Config.default ⟨[], []⟩ member, shape, Naming.isRecursive,
    directReferences, Naming.reaches, if_pos same]

/-- Off all cycles, a component is written as its own name where an enum or a union has the
name. -/
theorem owned_of_not_declares {config : Config} {document : Document} {api : Api}
    {registry : Registry} (registrySound : registry.Sound document.components.schemas)
    (sound : api.Sound document registry) (valid : config.validate = .ok ())
    (formats : config.FormatsApart) {component : Component} (member : component ∈ api.components)
    (finite : ¬ api.Cyclic component)
    (undeclared : declaresComponent
      (Naming.ofApi config api (declaredTypes api registry)) component = false) :
    ((∃ values, component.shape = .enum values) ∨
        ∃ name variants, component.shape = .union name variants) ∧
      ∃ declared ∈ (declaredTypes api registry).declarations, declared.name = component.name := by
  have proper : component.name.Proper := by
    rw [sound.names component member]
    exact TypeName.ofRaw_proper _
  have mentioned := (typeExpression_eq_iff (Config.isModulePath_of_validate valid)
    (formats.ofApi api _) proper _).mp (not_not.mp (of_decide_eq_false undeclared))
  have anchored := sound.anchored config registrySound component.shape
    (List.mem_append_left _ (List.mem_append_left _ (List.mem_map_of_mem member)))
    component.shape component.shape.mem_nested_self
  refine ⟨?_, ?_⟩
  · cases shape : component.shape with
    | enum values => exact Or.inl ⟨values, rfl⟩
    | union name variants => exact Or.inr ⟨name, variants, rfl⟩
    | ref target =>
        rw [shape] at mentioned
        exact absurd (cyclic_of_ref sound member shape (Option.some.inj mentioned)) finite
    | _ =>
        rw [shape] at mentioned
        contradiction
  · rcases mentioned_cases anchored mentioned with final | ⟨target, shape, same, -⟩
    · rw [← storedDeclared_names] at final
      obtain ⟨declared, stored, named⟩ := List.mem_map.mp final
      exact ⟨declared, (declarations_perm _).mem_iff.mpr stored, named⟩
    · exact absurd (cyclic_of_ref sound member shape same) finite

section Resolved

variable {config : Config} {document : Document} {api : Api} {log : Log Registry}
  (resolved : document.resolve.outcome (scope config) (Log.starting Registry.empty) =
    (.ok api, log))

include resolved

private theorem aliases_component_iff {client : Client}
    (generated : ofDocument config document = .ok client) {component : Component}
    (member : component ∈ api.components) :
    client.Aliases component.name ↔ ¬ api.Cyclic component ∧
      declaresComponent (Naming.ofApi config api (declaredTypes api log.store)) component =
        true := by
  obtain ⟨registrySound, sound⟩ := document.resolve_sound resolved
  obtain ⟨finished, ended⟩ := ofDocument_declared resolved generated
  have proper : ∀ component ∈ api.components, component.name.Proper := fun component member => by
    rw [sound.names component member]
    exact TypeName.ofRaw_proper _
  have finalProper := emittedNames_proper registrySound sound config
  have aliases := declare_aliases _ config document api proper
    (fun name member => finalProper name (List.mem_append_right _ member))
    _ _ client.declarations finished ended
  rw [aliases_iff aliases proper (proper component member),
    ← sound.isRecursive_iff config (declaredTypes api log.store) member, Bool.not_eq_true,
    and_comm]
  constructor
  · rintro ⟨other, otherMember, named, kept⟩
    obtain rfl := List.inj_on_of_nodup_map sound.distinct otherMember member named
    exact kept
  · intro kept
    exact ⟨component, member, rfl, kept⟩

/-- A search from a component tells whether it lies on a cycle of references, and the
aliases of a client are the components off all cycles whose type does not have their name
already. So no alias leads back to itself. -/
theorem ofDocument_expandable :
    (∀ component ∈ api.components,
      (Naming.ofApi config api (declaredTypes api log.store)).isRecursive component.name
          component.shape = true ↔
        api.Cyclic component) ∧
      ∀ client, ofDocument config document = .ok client →
        client.Expandable config api log.store := by
  obtain ⟨registrySound, sound⟩ := document.resolve_sound resolved
  refine ⟨fun component member => sound.isRecursive_iff config _ member,
    fun client generated => ?_⟩
  have aliased_iff := fun component (member : component ∈ api.components) =>
    aliases_component_iff resolved generated member
  refine ⟨aliased_iff, fun component cycle => ?_,
    fun valid formats component member finite none => ?_⟩
  · obtain ⟨_, first, -⟩ := Relation.TransGen.head'_iff.mp cycle
    have cyclic : api.Cyclic component :=
      Relation.TransGen.mono (fun _ _ step => step.1) _ _ cycle
    exact ((aliased_iff component first.1.1).mp first.2.1).1 cyclic
  · refine owned_of_not_declares registrySound sound valid formats member finite ?_
    rw [aliased_iff component member, and_iff_right finite, Bool.not_eq_true] at none
    exact none

end Resolved

/-- A component that refers to itself behind a field and a list. -/
theorem ofDocument_expandable_node :
    let children := { Schema.bare with
      kind := some (.one "array")
      items := some (.single (.reference "#/components/schemas/Node")) }
    let document := Document.ofParts []
      [("Node", .inline (Schema.record [("children", .inline children)]))]
    ∃ api log client,
      document.resolve.outcome (scope Config.default) (Log.starting Registry.empty) =
          (.ok api, log) ∧
        ofDocument Config.default document = .ok client ∧
        (∃ component ∈ api.components, api.Cyclic component) ∧
        client.Expandable Config.default api log.store := by
  intro children document
  have resolves : (match document.resolve.outcome (scope Config.default)
        (Log.starting Registry.empty) with
      | (.ok api, log) => api.components.any fun component =>
          (Naming.ofApi Config.default api (declaredTypes api log.store)).isRecursive
            component.name component.shape
      | (.error _, _) => false) = true := by
    decide +kernel
  have succeeds : (ofDocument Config.default document).isOk = true := by
    decide +kernel
  split at resolves
  case h_2 => contradiction
  case h_1 api log resolved =>
    obtain ⟨component, member, recursive⟩ := List.any_eq_true.mp resolves
    obtain ⟨recursive_iff, expandable⟩ := ofDocument_expandable resolved
    cases generated : ofDocument Config.default document with
    | error diagnostic =>
        rw [generated] at succeeds
        contradiction
    | ok client =>
        exact ⟨api, log, client, resolved, rfl,
          ⟨component, member, (recursive_iff component member).mp recursive⟩,
          expandable client generated⟩

/-- A component that is an enum is off all cycles, and it is declared as the enum. -/
theorem enum_component_not_aliased :
    let document := Document.ofParts []
      [("Color", .inline (Schema.oneOfTexts ["red", "green"]))]
    ∃ api log client component,
      document.resolve.outcome (scope Config.default) (Log.starting Registry.empty) =
          (.ok api, log) ∧
        ofDocument Config.default document = .ok client ∧
        component ∈ api.components ∧ ¬ api.Cyclic component ∧
        ¬ client.Aliases component.name := by
  intro document
  have resolves : (match document.resolve.outcome (scope Config.default)
        (Log.starting Registry.empty) with
      | (.ok api, log) => api.components.any fun component =>
          (directReferences component.shape).isEmpty &&
            !declaresComponent
              (Naming.ofApi Config.default api (declaredTypes api log.store)) component
      | (.error _, _) => false) = true := by
    decide +kernel
  have succeeds : (ofDocument Config.default document).isOk = true := by
    decide +kernel
  split at resolves
  case h_2 => contradiction
  case h_1 api log resolved =>
    obtain ⟨component, member, found⟩ := List.any_eq_true.mp resolves
    obtain ⟨alone, undeclared⟩ := Bool.and_eq_true_iff.mp found
    cases generated : ofDocument Config.default document with
    | error diagnostic =>
        rw [generated] at succeeds
        contradiction
    | ok client =>
        refine ⟨api, log, client, component, resolved, rfl, member, fun cyclic => ?_, ?_⟩
        · obtain ⟨_, ⟨-, -, target, exposed, -⟩, -⟩ := Relation.TransGen.head'_iff.mp cyclic
          have mentioned := mem_directReferences_iff.mpr ⟨target, exposed, rfl⟩
          rw [List.isEmpty_iff.mp alone] at mentioned
          exact absurd mentioned List.not_mem_nil
        · rw [aliases_component_iff resolved generated member]
          rintro ⟨-, declares⟩
          rw [declares] at undeclared
          contradiction

end Client

end ElmClient
