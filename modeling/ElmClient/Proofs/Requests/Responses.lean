/-
Error responses of an operation. Every response beside the one that gives the result has an
entry in the table of error decoders and, where an error type is declared, a constructor. The
entries keep apart unless two statuses differ in case only, and the constructors unless two
statuses make one identifier.
-/

import ElmClient.Elm.Responses
import ElmClient.Proofs.Path.Url
import ElmClient.Proofs.Registry.Constructors
import ElmClient.Proofs.Requests.Authorization

namespace ElmClient

namespace Text

private theorem toUpper_toLower (character : Char) :
    character.toLower.toUpper = character.toUpper := by
  apply Char.toNat_inj.mp
  rw [toNat_toUpper, toNat_toUpper, toNat_toLower]
  by_cases capital : 65 ≤ character.toNat ∧ character.toNat ≤ 90
  · rw [if_pos capital, if_pos (by omega), if_neg (by omega)]
    omega
  · rw [if_neg capital]

theorem upper_lower (text : String) : upper (lower text) = upper text := by
  simp only [lower, upper, String.toList_ofList, List.map_map]
  congr 1
  apply List.map_congr_left
  intro character _
  exact toUpper_toLower character

theorem upper_eq_iff {left right : String} :
    upper left = upper right ↔ lower left = lower right := by
  constructor
  · exact lower_eq_of_upper_eq
  · intro same
    rw [← upper_lower left, same, upper_lower]

end Text

/-! ### Keys of statuses -/

namespace Status

open Text

theorem upper_ne_default (status : String) : upper status ≠ "default" := by
  intro same
  have letter : 'd' ∈ (upper status).toList := by
    rw [same]
    decide
  rw [upper, String.toList_ofList] at letter
  obtain ⟨character, -, raised⟩ := List.mem_map.mp letter
  have code := congrArg Char.toNat raised
  rw [toNat_toUpper] at code
  change _ = 100 at code
  split at code <;> omega

theorem key_eq_iff {left right : String} : key left = key right ↔ lower left = lower right := by
  have default_iff (status : String) : isDefault status = true ↔ lower status = lower "default" :=
    beq_iff_eq
  unfold key
  by_cases leftDefault : isDefault left = true
  · by_cases rightDefault : isDefault right = true
    · rw [default_iff] at leftDefault rightDefault
      simp [isDefault, equalIgnoringCase, leftDefault, rightDefault]
    · rw [if_pos leftDefault, if_neg rightDefault]
      rw [default_iff] at leftDefault rightDefault
      rw [leftDefault]
      exact iff_of_false (upper_ne_default right).symm (Ne.symm rightDefault)
  · by_cases rightDefault : isDefault right = true
    · rw [if_neg leftDefault, if_pos rightDefault]
      rw [default_iff] at leftDefault rightDefault
      rw [rightDefault]
      exact iff_of_false (upper_ne_default left) leftDefault
    · rw [if_neg leftDefault, if_neg rightDefault]
      exact upper_eq_iff

private theorem nodup_keys_iff {statuses : List String} :
    (statuses.map key).Nodup ↔
      statuses.Pairwise fun first second => equalIgnoringCase first second = false := by
  rw [List.Nodup, List.pairwise_map]
  have apart (first second : String) :
      key first ≠ key second ↔ equalIgnoringCase first second = false := by
    rw [equalIgnoringCase, beq_eq_false_iff_ne, ne_eq, key_eq_iff]
  simp only [apart]

end Status

namespace Elm.ResponsePlan

open Run Text

variable {σ : Type}

/-! ### Selecting the result -/

/-- The first response that means success gives the result, the others are errors. -/
def Selects (responses : List EndpointResponse) (success : EndpointResponse)
    (errors : List EndpointResponse) : Prop :=
  ∃ before behind, responses = before ++ success :: behind ∧ errors = before ++ behind ∧
    Status.isSuccess success.status = true ∧
      ∀ response ∈ before, Status.isSuccess response.status = false

theorem split?_iff {responses : List EndpointResponse} {success : EndpointResponse}
    {errors : List EndpointResponse} :
    split? responses = some (success, errors) ↔ Selects responses success errors := by
  constructor
  · intro found
    induction responses generalizing errors with
    | nil => cases found
    | cons response rest ih =>
        rw [split?] at found
        split at found
        case isTrue first =>
          cases found
          exact ⟨[], rest, rfl, rfl, first, by simp⟩
        case isFalse other =>
          obtain ⟨⟨inner, others⟩, later, same⟩ := Option.map_eq_some_iff.mp found
          cases same
          obtain ⟨before, behind, rfl, rfl, means, none⟩ := ih later
          refine ⟨response :: before, behind, rfl, rfl, means, ?_⟩
          exact List.forall_mem_cons.mpr ⟨Bool.not_eq_true _ ▸ other, none⟩
  · rintro ⟨before, behind, rfl, rfl, means, none⟩
    induction before with
    | nil => exact if_pos means
    | cons response before ih =>
        obtain ⟨other, others⟩ := List.forall_mem_cons.mp none
        rw [List.cons_append, split?, if_neg (by simp [other]), ih others]
        rfl

/-! ### Handlers -/

def Decodes (σ : Type) (naming : Naming) (payload : Payload) (handler : String) : Prop :=
  ∃ scope log reached,
    (errorHandler naming payload : Run σ String).outcome scope log = (.ok handler, reached)

def builder (naming : Naming) (endpoint : Endpoint) (response : EndpointResponse) : String :=
  let constructor := naming.qualified .errors (errorVariant endpoint response).text
  match response.payload with
  | .empty => "(\\_ -> " ++ constructor ++ ")"
  | _ => constructor

def Handles (σ : Type) (naming : Naming) (response : EndpointResponse)
    (entry : String × String) : Prop :=
  entry.1 = response.status ∧ Decodes σ naming response.payload entry.2

/-- The entry is the handler of the response, and builds its constructor. -/
def Builds (σ : Type) (naming : Naming) (endpoint : Endpoint) (response : EndpointResponse)
    (entry : String × String) : Prop :=
  entry.1 = response.status ∧ ∃ handler, Decodes σ naming response.payload handler ∧
    entry.2 = atom (common "mapErrorDecoder" ++ " " ++ builder naming endpoint response ++ " "
      ++ atom handler)

section Handlers

variable {naming : Naming} {endpoint : Endpoint}

theorem statusHandler_handles (response : EndpointResponse) :
    Returns (statusHandler naming response : Run σ (String × String))
      (Handles σ naming response) := by
  intro scope log entry reached ended
  obtain ⟨handler, _, decoded, same⟩ := parts_of_outcome_bind ended
  cases same
  exact ⟨rfl, scope.below response.status, log, _, decoded⟩

theorem wrappedHandler_builds (response : EndpointResponse) :
    Returns (wrappedHandler naming endpoint response : Run σ (String × String))
      (Builds σ naming endpoint response) := by
  intro scope log entry reached ended
  obtain ⟨handler, _, decoded, same⟩ := parts_of_outcome_bind ended
  cases same
  refine ⟨rfl, handler, ⟨scope.below response.status, log, _, decoded⟩, ?_⟩
  unfold builder
  cases payload : response.payload with
  | empty =>
      rw [payload] at decoded
      cases decoded
      have opening : " (\\_ -> " = " " ++ "(\\_ -> " := by decide
      have closing : ") " = ")" ++ " " := by decide
      have bare : atom (common "unitErrorDecoder") = common "unitErrorDecoder" := by decide
      dsimp only
      rw [bare, opening, closing]
      simp only [String.append_assoc]
  | json shape => dsimp only
  | text => dsimp only
  | bytes => dsimp only

end Handlers

/-! ### Plans -/

section Plans

variable {naming : Naming} {endpoint : Endpoint}

theorem distinctPayloads_eq_nil {payloads : List Payload}
    (none : distinctPayloads payloads = []) : payloads = [] := by
  have grows : ∀ (rest found : List Payload), found ≠ [] → rest.foldl
      (fun found payload => if found.any payload.same then found else found ++ [payload]) found ≠
        [] := by
    intro rest
    induction rest with
    | nil => exact fun found inhabited => inhabited
    | cons payload rest ih =>
        intro found inhabited
        apply ih
        dsimp only
        split
        · exact inhabited
        · exact List.append_ne_nil_of_right_ne_nil found (List.cons_ne_nil _ _)
  cases payloads with
  | nil => rfl
  | cons payload rest => exact absurd none (grows rest [payload] (List.cons_ne_nil _ _))

/-- One handler for every error; an error type is declared if there are several payloads. -/
theorem errorPlan_ok {errors : List EndpointResponse} {plan : ErrorPlan} {scope : Scope}
    {log reached : Log σ}
    (ended : (errorPlan naming endpoint errors).outcome scope log = (.ok plan, reached)) :
    (plan.declaration = none ∧ (distinctPayloads (errors.map EndpointResponse.payload)).length < 2 ∧
      List.Forall₂ (Handles σ naming) errors plan.handlers) ∨
    (plan.declaration = some (errorDeclaration naming endpoint errors) ∧
      2 ≤ (distinctPayloads (errors.map EndpointResponse.payload)).length ∧
      List.Forall₂ (Builds σ naming endpoint) errors plan.handlers) := by
  unfold errorPlan at ended
  split at ended
  case h_1 nowhere =>
    cases ended
    obtain rfl : errors = [] := List.map_eq_nil_iff.mp (distinctPayloads_eq_nil nowhere)
    exact Or.inl ⟨rfl, by decide, .nil⟩
  case h_2 payload one =>
    obtain ⟨handlers, _, traversed, same⟩ := parts_of_outcome_bind ended
    cases same
    have handles : List.Forall₂ (Handles σ naming) errors handlers :=
      Returns.traverseOf (fun response _ => statusHandler_handles response) _ _ _ _ traversed
    rw [one]
    exact Or.inl ⟨rfl, Nat.one_lt_two, handles⟩
  case h_3 notNone notOne =>
    obtain ⟨handlers, _, traversed, same⟩ := parts_of_outcome_bind ended
    cases same
    have builds : List.Forall₂ (Builds σ naming endpoint) errors handlers :=
      Returns.traverseOf (fun response _ => wrappedHandler_builds response) _ _ _ _ traversed
    refine Or.inr ⟨rfl, ?_, builds⟩
    match payloads : distinctPayloads (errors.map EndpointResponse.payload) with
    | [] => exact absurd payloads notNone
    | [payload] => exact absurd payloads (notOne payload)
    | _ :: _ :: _ => exact Nat.le_add_left _ _

theorem expectation_table (table : String) (payload : Payload) :
    Returns (expectation naming table payload : Run σ (String × String)) fun written =>
      ∃ mode ∈ ["ExpectJson", "ExpectString", "ExpectBytes", "ExpectWhatever"], ∃ tail,
        written.2 = common mode ++ " " ++ table ++ tail := by
  cases payload with
  | json shape =>
      refine Returns.map (Returns.any _) ?_
      intro decode _
      exact ⟨"ExpectJson", by decide, " " ++ atom decode, String.append_assoc⟩
  | text => exact Returns.pure ⟨"ExpectString", by decide, " identity", rfl⟩
  | bytes => exact Returns.pure ⟨"ExpectBytes", by decide, " identity", rfl⟩
  | empty => exact Returns.pure ⟨"ExpectWhatever", by decide, " ()", rfl⟩

private theorem statuses_eq {related : EndpointResponse → String × String → Prop}
    (status : ∀ response entry, related response entry → entry.1 = response.status)
    {errors : List EndpointResponse} {handlers : List (String × String)}
    (each : List.Forall₂ related errors handlers) :
    handlers.map Prod.fst = errors.map EndpointResponse.status := by
  induction each with
  | nil => rfl
  | cons first _ ih => rw [List.map_cons, List.map_cons, status _ _ first, ih]

/-- What is planned for the responses of an operation. -/
structure Planned (σ : Type) (naming : Naming) (endpoint : Endpoint) (plan : ResponsePlan)
    (success : EndpointResponse) (errors : List EndpointResponse)
    (handlers : List (String × String)) : Prop where
  selected : Selects endpoint.responses success errors
  /-- The table of the handlers stands in the expectation. -/
  table : ∃ mode ∈ ["ExpectJson", "ExpectString", "ExpectBytes", "ExpectWhatever"], ∃ tail,
    plan.expect = common mode ++ " " ++ atom (errorTable handlers) ++ tail
  /-- Every error has one entry. -/
  statuses : handlers.map Prod.fst = errors.map EndpointResponse.status
  several : plan.declaration.isSome = true ↔
    2 ≤ (distinctPayloads (errors.map EndpointResponse.payload)).length
  undeclared : plan.declaration = none → List.Forall₂ (Handles σ naming) errors handlers
  declared : ∀ declaration, plan.declaration = some declaration →
    declaration = errorDeclaration naming endpoint errors ∧
      List.Forall₂ (Builds σ naming endpoint) errors handlers

/-- The table has every entry, since no key comes twice, and the error type is one, since no
constructor does. -/
structure KeepsAll (endpoint : Endpoint) (plan : ResponsePlan) (errors : List EndpointResponse)
    (handlers : List (String × String)) : Prop where
  keys : (handlers.map fun entry => Status.key entry.1).Nodup
  constructors : plan.declaration.isSome = true → (errors.map (errorVariant endpoint)).Nodup

/-- No two statuses differ in case only, and if there is an error type, no two of them make
one identifier. -/
structure SpelledApart (plan : ResponsePlan) (errors : List EndpointResponse) : Prop where
  statuses : errors.Pairwise fun first second =>
    equalIgnoringCase first.status second.status = false
  members : plan.declaration.isSome = true →
    (errors.map fun response => TypeName.memberText response.status).Nodup

private theorem Planned.keepsAll_iff {plan : ResponsePlan} {success : EndpointResponse}
    {errors : List EndpointResponse} {handlers : List (String × String)}
    (planned : Planned σ naming endpoint plan success errors handlers) :
    KeepsAll endpoint plan errors handlers ↔ SpelledApart plan errors := by
  have keys : (handlers.map fun entry => Status.key entry.1).Nodup ↔
      errors.Pairwise fun first second =>
        equalIgnoringCase first.status second.status = false := by
    have listed : handlers.map (fun entry => Status.key entry.1) =
        (errors.map EndpointResponse.status).map Status.key := by
      rw [← planned.statuses, List.map_map]
      rfl
    rw [listed, Status.nodup_keys_iff, List.pairwise_map]
  have constructors : (errors.map (errorVariant endpoint)).Nodup ↔
      (errors.map fun response => TypeName.memberText response.status).Nodup := by
    have named : ((errors.map EndpointResponse.status).map endpoint.name.child).Nodup ↔
        ((errors.map EndpointResponse.status).map TypeName.memberText).Nodup :=
      TypeName.nodup_children_iff
    rwa [List.map_map, List.map_map] at named
  constructor
  · rintro ⟨keysApart, constructorsApart⟩
    exact ⟨keys.mp keysApart, fun some => constructors.mp (constructorsApart some)⟩
  · rintro ⟨statuses, members⟩
    exact ⟨keys.mpr statuses, fun some => constructors.mpr (members some)⟩

private theorem planned_of_outcome {plan : ResponsePlan} {scope : Scope} {log reached : Log σ}
    (ended : (ofEndpoint naming endpoint).outcome scope log = (.ok plan, reached)) :
    ∃ success errors handlers, Planned σ naming endpoint plan success errors handlers := by
  obtain ⟨⟨success, errors⟩, middle, divided, rest⟩ := parts_of_outcome_bind ended
  obtain ⟨errorSide, last, planned, expected⟩ := parts_of_outcome_bind rest
  obtain ⟨written, _, expects, same⟩ := parts_of_outcome_bind expected
  cases same
  have selected : Selects endpoint.responses success errors := by
    rw [← split?_iff]
    unfold split at divided
    split at divided
    case h_1 found equal =>
      cases divided
      exact equal
    case h_2 => cases divided
  have table := expectation_table _ success.payload _ _ _ _ expects
  refine ⟨success, errors, errorSide.handlers, ?_⟩
  rcases errorPlan_ok planned with ⟨none, few, handles⟩ | ⟨declared, several, builds⟩
  · refine ⟨selected, table, statuses_eq (fun _ _ handled => handled.1) handles, ?_,
      fun _ => handles, ?_⟩
    · rw [none]
      exact iff_of_false Bool.false_ne_true (by omega)
    · rw [none]
      exact fun _ impossible => absurd impossible (by simp)
  · refine ⟨selected, table, statuses_eq (fun _ _ built => built.1) builds, ?_, ?_, ?_⟩
    · rw [declared]
      exact iff_of_true rfl several
    · rw [declared]
      exact fun impossible => absurd impossible (by simp)
    · rw [declared]
      exact fun _ same => ⟨(Option.some.inj same).symm, builds⟩

/-- No error response is lost exactly if the statuses of the errors are spelled apart. -/
theorem errors_kept_iff {plan : ResponsePlan} {scope : Scope} {log reached : Log σ}
    (ended : (ofEndpoint naming endpoint).outcome scope log = (.ok plan, reached)) :
    ∃ success errors handlers, Planned σ naming endpoint plan success errors handlers ∧
      (KeepsAll endpoint plan errors handlers ↔ SpelledApart plan errors) := by
  obtain ⟨success, errors, handlers, planned⟩ := planned_of_outcome ended
  exact ⟨success, errors, handlers, planned, planned.keepsAll_iff⟩

end Plans

/-- A code, a range and a default, with two payloads. -/
theorem errors_kept_missing :
    let responses : List EndpointResponse :=
      [⟨"200", .text, none⟩, ⟨"404", .empty, none⟩, ⟨"5XX", .text, none⟩,
        ⟨"default", .text, none⟩]
    let endpoint := { Endpoint.reading "/pets" [] with responses := responses }
    let scope := Scope.root .failOnUnsupported
    let log : Log Unit := Log.starting ()
    ∃ plan reached, (ofEndpoint .plain endpoint).outcome scope log = (.ok plan, reached) ∧
      ∃ success errors handlers, Planned Unit .plain endpoint plan success errors handlers ∧
        (KeepsAll endpoint plan errors handlers ↔ SpelledApart plan errors) := by
  intro responses endpoint scope log
  obtain ⟨plan, reached, ended⟩ := succeeds_of_isOk
    (show ((ofEndpoint .plain endpoint).outcome scope log).1.isOk = true by decide)
  exact ⟨plan, reached, ended, errors_kept_iff ended⟩

/-- Two ranges that differ in case only have one key, so the table forgets the first. -/
theorem errors_of_case_lost :
    let responses : List EndpointResponse :=
      [⟨"204", .empty, none⟩, ⟨"4XX", .text, none⟩, ⟨"4xx", .empty, none⟩]
    let endpoint := { Endpoint.reading "/pets" [] with responses := responses }
    let scope := Scope.root .failOnUnsupported
    let log : Log Unit := Log.starting ()
    (responses.map EndpointResponse.status).Nodup ∧
      ∃ plan reached, (ofEndpoint .plain endpoint).outcome scope log = (.ok plan, reached) ∧
        ∀ success errors handlers, Planned Unit .plain endpoint plan success errors handlers →
          ¬ KeepsAll endpoint plan errors handlers := by
  intro responses endpoint scope log
  obtain ⟨plan, reached, ended⟩ := succeeds_of_isOk
    (show ((ofEndpoint .plain endpoint).outcome scope log).1.isOk = true by decide)
  refine ⟨by decide, plan, reached, ended, ?_⟩
  intro success errors handlers planned kept
  have selected : split? responses = some (success, errors) := split?_iff.mpr planned.selected
  cases selected
  have apart := (planned.keepsAll_iff.mp kept).statuses
  exact absurd (List.rel_of_pairwise_cons apart List.mem_cons_self) (by decide)

end Elm.ResponsePlan

end ElmClient
