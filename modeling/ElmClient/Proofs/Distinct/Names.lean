/-
What types, decoders and encoders are called. A component declares its own three names,
or none; an enum or union declares its three names, and an enum its companions besides.
-/

import ElmClient.Client
import ElmClient.Proofs.Name.Value
import ElmClient.Proofs.Run

namespace ElmClient.Elm

open Run

variable {σ : Type}

/-! ### Modules with names -/

/-- The module that an entry is written to, and its name there. -/
def placedName (namespaceName : String) (entry : Grouped) : String × String :=
  (entry.1.moduleName namespaceName, entry.2.name)

def Group.isCodec (group : Group) : Bool :=
  group == .types || group == .encoders || group == .decoders

def codecNames (namespaceName : String) (declarations : List Grouped) : List (String × String) :=
  (declarations.filter fun entry => entry.1.isCodec).map (placedName namespaceName)

def ownNames (namespaceName : String) (name : TypeName) : List (String × String) :=
  [(Group.types.moduleName namespaceName, name.text),
    (Group.decoders.moduleName namespaceName, name.decoderName),
    (Group.encoders.moduleName namespaceName, name.encoderName)]

def besideNames (namespaceName : String) (name : TypeName) : List (String × String) :=
  (companionNames name.toValueName).map (Prod.mk (Group.types.moduleName namespaceName))

/-- A component is declared unless its type is written as its own name. -/
def declaresComponent (naming : Naming) (component : Component) : Bool :=
  decide (typeExpression naming component.shape ≠ naming.typeRef component.name)

def declaredBesides (namespaceName : String) : Declared → List (String × String)
  | .enum name _ => besideNames namespaceName name
  | .union _ => []

private theorem codecNames_append (namespaceName : String) (left right : List Grouped) :
    codecNames namespaceName (left ++ right) =
      codecNames namespaceName left ++ codecNames namespaceName right := by
  rw [codecNames, List.filter_append, List.map_append]
  rfl

private theorem codecNames_flatten (namespaceName : String) (lists : List (List Grouped)) :
    codecNames namespaceName lists.flatten = lists.flatMap (codecNames namespaceName) := by
  rw [codecNames, List.filter_flatten, List.map_flatten, List.map_map]
  rfl

private theorem codecNames_of_others (namespaceName : String) {declarations : List Grouped}
    (others : ∀ entry ∈ declarations, entry.1.isCodec = false) :
    codecNames namespaceName declarations = [] := by
  rw [codecNames, List.filter_eq_nil_iff.mpr, List.map_nil]
  intro entry member
  rw [others entry member]
  exact Bool.false_ne_true

/-! ### Components -/

theorem typeDeclaration_name (naming : Naming) (component : Component) (recursive : Bool) :
    (typeDeclaration naming component recursive).name = component.name.text := by
  cases recursive <;> rfl

theorem decoderDeclaration_name (naming : Naming) (component : Component) (recursive : Bool) :
    Returns (decoderDeclaration naming component recursive : Run σ Declaration)
      fun declaration => declaration.name = component.name.decoderName := by
  unfold decoderDeclaration
  dsimp only
  split
  · exact Returns.bind (Returns.any _) fun _ _ => Returns.pure rfl
  · exact Returns.bind (Returns.any _) fun _ _ => Returns.pure rfl

theorem encoderDeclaration_name (naming : Naming) (component : Component) (recursive : Bool) :
    Returns (encoderDeclaration naming component recursive : Run σ Declaration)
      fun declaration => declaration.name = component.name.encoderName := by
  unfold encoderDeclaration
  dsimp only
  split
  · exact Returns.map (Returns.any _) fun _ _ => rfl
  · exact Returns.map (Returns.any _) fun _ _ => rfl

theorem componentDeclarations_names (naming : Naming) (component : Component) :
    Returns (componentDeclarations naming component : Run σ (List Grouped))
      fun declarations => codecNames naming.namespaceName declarations =
        if declaresComponent naming component then ownNames naming.namespaceName component.name
        else [] := by
  unfold componentDeclarations declaresComponent
  split
  case isTrue same => exact Returns.pure (by rw [same]; simp [codecNames])
  case isFalse different =>
    refine Returns.bind (decoderDeclaration_name naming component _) fun decoder decoderName => ?_
    refine Returns.map (encoderDeclaration_name naming component _) fun encoder encoderName => ?_
    rw [if_pos (decide_eq_true different), ownNames, ← decoderName, ← encoderName,
      ← typeDeclaration_name naming component (naming.isRecursive component.name component.shape)]
    rfl

/-! ### Enums and unions -/

theorem enumDeclarations_names (naming : Naming) (name : TypeName) (values : List String) :
    (codecNames naming.namespaceName (enumDeclarations naming name values)).Perm
      (ownNames naming.namespaceName name ++ besideNames naming.namespaceName name) := by
  change ((Group.types.moduleName naming.namespaceName, name.text)
    :: (besideNames naming.namespaceName name
      ++ [(Group.decoders.moduleName naming.namespaceName, name.decoderName),
        (Group.encoders.moduleName naming.namespaceName, name.encoderName)])).Perm _
  exact List.perm_append_comm.cons _

theorem unionDeclarations_names (naming : Naming) (union : Union) :
    Returns (unionDeclarations naming union : Run σ (List Grouped)) fun declarations =>
      codecNames naming.namespaceName declarations =
        ownNames naming.namespaceName union.name := by
  unfold unionDeclarations
  exact Returns.map (Returns.any _) fun _ _ => rfl

theorem declaredDeclarations_names (naming : Naming) (declared : Declared) :
    Returns (declaredDeclarations naming declared : Run σ (List Grouped)) fun declarations =>
      (codecNames naming.namespaceName declarations).Perm
        (ownNames naming.namespaceName declared.name
          ++ declaredBesides naming.namespaceName declared) := by
  cases declared with
  | enum name values => exact Returns.pure (enumDeclarations_names naming name values)
  | union union =>
      intro scope log declarations reached equal
      have names := Returns.withPath union.name.text (unionDeclarations_names naming union)
        scope log declarations reached equal
      rw [names, declaredBesides, List.append_nil]
      exact .refl _

/-! ### Lists of declarations -/

private theorem perm_of_forall₂ {α β γ : Type} {names : β → List γ} {expected : α → List γ}
    {items : List α} {lists : List β}
    (related : List.Forall₂ (fun item list => (names list).Perm (expected item)) items lists) :
    (lists.flatMap names).Perm (items.flatMap expected) := by
  induction related with
  | nil => exact .refl _
  | cons first _ ih =>
      rw [List.flatMap_cons, List.flatMap_cons]
      exact first.append ih

private theorem flatMap_filter_eq {α β : Type} (keep : α → Bool) (names : α → List β)
    (items : List α) :
    (items.filter keep).flatMap names =
      items.flatMap fun item => if keep item then names item else [] := by
  induction items with
  | nil => rfl
  | cons item rest ih =>
      rw [List.flatMap_cons, List.filter_cons, ← ih]
      split
      · rfl
      · rfl

theorem discoveredDeclarations_names (naming : Naming) :
    Returns (discoveredDeclarations naming : Run σ (List Grouped)) fun declarations =>
      (codecNames naming.namespaceName declarations).Perm
        (naming.declared.declarations.flatMap fun declared =>
          ownNames naming.namespaceName declared.name
            ++ declaredBesides naming.namespaceName declared) := by
  unfold discoveredDeclarations
  refine Returns.map (Returns.traverse (declaredDeclarations_names naming) _)
    fun lists related => ?_
  rw [codecNames_flatten]
  exact perm_of_forall₂ related

private theorem request_others (request : Request) (profiles : List EffectProfile) :
    ∀ entry ∈ request.declarations profiles, entry.1.isCodec = false := by
  intro entry member
  unfold Request.declarations at member
  rcases List.mem_append.mp member with inErrors | inRequests
  · split at inErrors
    · rw [List.mem_singleton.mp inErrors]
      rfl
    · exact absurd inErrors List.not_mem_nil
  · rcases List.mem_cons.mp inRequests with rfl | inProfiles
    · rfl
    · obtain ⟨profile, _, rfl⟩ := List.mem_map.mp inProfiles
      rfl

end ElmClient.Elm

namespace ElmClient.Client

open Elm Run

theorem ofComponent_names (naming : Naming) (component : Component) :
    Returns (ofComponent naming component) fun declarations =>
      codecNames naming.namespaceName declarations =
        if declaresComponent naming component then ownNames naming.namespaceName component.name
        else [] :=
  Returns.withPath _ (componentDeclarations_names naming component)

theorem ofEndpoint_names (naming : Naming) (config : Config) (document : Document)
    (base : BaseUrl) (endpoint : Endpoint) :
    Returns (ofEndpoint naming config document base endpoint) fun declarations =>
      codecNames naming.namespaceName declarations = [] := by
  apply Returns.withPath
  apply Returns.withPath
  exact Returns.map (Returns.any _) fun request _ =>
    codecNames_of_others _ (request_others request config.profiles)

theorem helperDeclarations_names (namespaceName : String) :
    Returns helperDeclarations fun declarations => codecNames namespaceName declarations = [] := by
  refine Returns.map (Returns.any _) fun helpers _ => codecNames_of_others _ ?_
  intro entry member
  obtain ⟨helper, _, rfl⟩ := List.mem_map.mp member
  rfl

/-- The names that a client declares about types: those of its components, and those of
the enums and unions found. -/
def expectedNames (naming : Naming) (api : Api) : List (String × String) :=
  (api.components.filter (declaresComponent naming)).flatMap
      (fun component => ownNames naming.namespaceName component.name)
    ++ naming.declared.declarations.flatMap fun declared =>
      ownNames naming.namespaceName declared.name
        ++ declaredBesides naming.namespaceName declared

theorem declare_names (naming : Naming) (config : Config) (document : Document) (api : Api) :
    Returns (declare naming config document api) fun declarations =>
      (codecNames naming.namespaceName declarations).Perm (expectedNames naming api) := by
  unfold declare
  refine Returns.bind (Returns.traverse (ofComponent_names naming) _)
    fun components componentNames => ?_
  refine Returns.bind (discoveredDeclarations_names naming) fun discovered discoveredNames => ?_
  dsimp only
  refine Returns.bind (Returns.traverse (ofEndpoint_names naming config document _) _)
    fun endpoints endpointNames => ?_
  refine Returns.map (helperDeclarations_names naming.namespaceName) fun helpers helperNames => ?_
  have componentsDeclared : (codecNames naming.namespaceName components.flatten).Perm
      ((api.components.filter (declaresComponent naming)).flatMap fun component =>
        ownNames naming.namespaceName component.name) := by
    rw [codecNames_flatten, flatMap_filter_eq]
    exact perm_of_forall₂ (componentNames.imp fun _ _ equal => .of_eq equal)
  have noEndpoints : codecNames naming.namespaceName endpoints.flatten = [] := by
    rw [codecNames_flatten, List.flatMap_eq_nil_iff]
    exact all_of_forall₂ endpointNames
  have noOthers : ∀ (group : Group) (declarations : List Declaration), group.isCodec = false →
      codecNames naming.namespaceName (declarations.map fun declaration =>
        (group, declaration)) = [] := by
    intro group declarations other
    refine codecNames_of_others _ fun entry member => ?_
    obtain ⟨declaration, _, rfl⟩ := List.mem_map.mp member
    exact other
  rw [codecNames_append, codecNames_append, codecNames_append, codecNames_append,
    codecNames_append, noOthers .servers _ rfl, noEndpoints, helperNames, noOthers .common _ rfl,
    List.append_nil, List.append_nil, List.append_nil, List.append_nil]
  exact componentsDeclared.append discoveredNames

end ElmClient.Client
