/-
Parameters in buckets. Every parameter is either in the bucket of its location, in the order
of declaration and under a name of its own, or it is left out under one warning; a template
that is accepted has a path parameter for every variable of every segment.
-/

import ElmClient.Elm.Request
import ElmClient.Proofs.Fresh
import ElmClient.Proofs.Path.Url

namespace ElmClient.Elm.RequestParameters

open Run Text

/-! ### Where parameters go -/

/-- The bucket of a location. A path parameter needs a place in the template. -/
def destination? (template : String) (parameter : EndpointParameter) : Option Bucket :=
  match parameter.location with
  | .path => if parameter.name ∈ templateVariables template then some .path else none
  | .query => some .query
  | .header => some .header
  | .cookie | .unknown => none

def leftOut (template : String) (parameter : EndpointParameter) : String :=
  match parameter.location with
  | .path =>
      "path parameter `" ++ parameter.name ++ "` does not appear in `" ++ template ++ "`"
  | other => other.text ++ " parameter `" ++ parameter.name ++ "` is not supported"

theorem destination?_path_iff {template : String} {parameter : EndpointParameter} :
    destination? template parameter = some .path ↔
      parameter.location = .path ∧ parameter.name ∈ templateVariables template := by
  unfold destination?
  cases parameter.location <;> simp

theorem destination?_query_iff {template : String} {parameter : EndpointParameter} :
    destination? template parameter = some .query ↔ parameter.location = .query := by
  unfold destination?
  cases parameter.location <;> simp

theorem destination?_header_iff {template : String} {parameter : EndpointParameter} :
    destination? template parameter = some .header ↔ parameter.location = .header := by
  unfold destination?
  cases parameter.location <;> simp

section Places

variable {σ : Type} {template : String}

theorem bucket?_eq {parameter : EndpointParameter}
    (required : parameter.location = .path → parameter.required = true) :
    (bucket? template parameter : Run σ (Option Bucket)) =
      match destination? template parameter with
      | some bucket => pure (some bucket)
      | none => Run.placeholderOr (leftOut template parameter) none := by
  unfold bucket? destination? leftOut
  cases location : parameter.location with
  | path =>
      rw [required location]
      by_cases present : parameter.name ∈ templateVariables template <;> simp [present]
  | query => rfl
  | header => rfl
  | cookie => rfl
  | unknown => rfl

theorem bucket?_required {parameter : EndpointParameter} :
    Returns (bucket? template parameter : Run σ (Option Bucket)) fun _ =>
      parameter.location = .path → parameter.required = true := by
  unfold bucket?
  cases parameter.location with
  | path =>
      cases required : parameter.required with
      | true => exact .imp (.any _) fun _ _ _ => rfl
      | false => exact .fail
  | _ => exact .imp (.any _) fun _ _ => nofun

def warningsAt (path : List String) (template : String) (parameters : List EndpointParameter) :
    List Diagnostic :=
  (parameters.filter fun parameter => destination? template parameter = none).map
    fun parameter => ⟨path, leftOut template parameter⟩

/-- What is known of parameters that are treated without failing. -/
structure Treated (template : String) (scope : Scope) (parameters : List EndpointParameter)
    (before after : Log σ) : Prop where
  required : ∀ parameter ∈ parameters, parameter.location = .path → parameter.required = true
  log : after = { before with
    warnings := before.warnings ++ warningsAt scope.path template parameters }
  lenient : scope.policy = .failOnUnsupported →
    ∀ parameter ∈ parameters, destination? template parameter ≠ none

theorem placed?_ok {scope : Scope} {before after : Log σ} {parameter : EndpointParameter}
    {found : Option (Bucket × EndpointParameter)}
    (ended : (placed? template parameter).outcome scope before = (.ok found, after)) :
    found = (destination? template parameter).map (·, parameter) ∧
      Treated template scope [parameter] before after := by
  obtain ⟨bucket, middle, treated, same⟩ := parts_of_outcome_bind ended
  have required := bucket?_required scope before bucket middle treated
  rw [bucket?_eq required] at treated
  cases same
  cases goes : destination? template parameter with
  | some destination =>
      rw [goes] at treated
      cases treated
      refine ⟨rfl, by simpa using required, ?_, by simp [goes]⟩
      simp [warningsAt, goes]
  | none =>
      rw [goes, outcome_placeholderOr] at treated
      split at treated
      case h_1 policy =>
        cases treated
        refine ⟨rfl, by simpa using required, ?_, fun strict => ?_⟩
        · simp [warningsAt, goes, Log.warn]
        · rw [policy] at strict
          contradiction
      case h_2 => cases treated

theorem traverse_placed?_ok {scope : Scope} {before after : Log σ}
    {parameters : List EndpointParameter} {found : List (Option (Bucket × EndpointParameter))}
    (ended : (Run.traverse (placed? template) parameters).outcome scope before =
      (.ok found, after)) :
    found = parameters.map (fun parameter => (destination? template parameter).map (·, parameter)) ∧
      Treated template scope parameters before after := by
  induction parameters generalizing before found with
  | nil =>
      cases ended
      exact ⟨rfl, nofun, by simp [warningsAt], fun _ => nofun⟩
  | cons parameter rest ih =>
      obtain ⟨first, middle, head, tail⟩ := parts_of_outcome_bind ended
      obtain ⟨others, last, later, same⟩ := parts_of_outcome_bind tail
      cases same
      obtain ⟨rfl, headTreated⟩ := placed?_ok head
      obtain ⟨rfl, restTreated⟩ := ih later
      refine ⟨rfl, ?_, ?_, fun strict => ?_⟩
      · exact List.forall_mem_cons.mpr
          ⟨headTreated.required parameter List.mem_cons_self, restTreated.required⟩
      · rw [restTreated.log, headTreated.log]
        simp [warningsAt, List.filter_cons]
        split <;> simp
      · exact List.forall_mem_cons.mpr
          ⟨headTreated.lenient strict parameter List.mem_cons_self, restTreated.lenient strict⟩

private theorem log_checkVariables {path : List ParameterField} {names : List String}
    {scope : Scope}
    {before after : Log σ}
    (ended : (checkVariables path names).outcome scope before = (.ok (), after)) :
    after = before := by
  induction names with
  | nil =>
      cases ended
      rfl
  | cons name rest ih =>
      unfold checkVariables at ended
      split at ended
      · exact ih ended
      · cases ended

end Places

/-! ### Fields -/

section Fields

variable (placed : List (Bucket × EndpointParameter))

def placedFields : List (Bucket × ParameterField) :=
  (placed.zip (Fresh.assign Fresh.appendNumber
    (placed.map fun entry => Name.toValueName entry.2.name))).map fun entry =>
      (entry.1.1, { field := entry.2, parameter := entry.1.2 })

private theorem length_names :
    (Fresh.assign Fresh.appendNumber
      (placed.map fun entry => Name.toValueName entry.2.name)).length = placed.length := by
  rw [Fresh.assign, Fresh.length_assignAfter, List.length_map]

private theorem placedFields_parameters :
    (placedFields placed).map (fun entry => (entry.1, entry.2.parameter)) = placed := by
  rw [placedFields, List.map_map]
  have parameters := List.map_fst_zip (Nat.le_of_eq (length_names placed).symm)
  exact parameters.symm ▸ List.map_congr_left fun _ _ => rfl

private theorem placedFields_names :
    ((placedFields placed).map fun entry => entry.2.field).Nodup := by
  have names : ((placedFields placed).map fun entry => entry.2.field) =
      Fresh.assign Fresh.appendNumber
        (placed.map fun entry => Name.toValueName entry.2.name) := by
    rw [placedFields, List.map_map]
    exact List.map_snd_zip (Nat.le_of_eq (length_names placed))
  rw [names]
  exact Fresh.assignAfter_nodup Fresh.appendNumber_injective _ _

theorem select_parameters (bucket : Bucket) :
    (select bucket (placedFields placed)).map ParameterField.parameter =
      (placed.filter fun entry => entry.1 == bucket).map Prod.snd := by
  conv_rhs => rw [← placedFields_parameters placed, List.filter_map, List.map_map]
  rw [select, List.map_map]
  rfl

theorem fields_perm :
    (ofPlaced placed).fields.Perm ((placedFields placed).map Prod.snd) := by
  change (select .path (placedFields placed) ++ select .query (placedFields placed)
    ++ select .header (placedFields placed)).Perm _
  induction placedFields placed with
  | nil => exact .refl _
  | cons entry rest ih =>
      obtain ⟨bucket, field⟩ := entry
      cases bucket with
      | path => exact ih.cons field
      | query =>
          refine .trans ?_ (ih.cons field)
          change (select .path rest ++ field :: select .query rest ++ select .header rest).Perm _
          rw [List.append_assoc, List.append_assoc]
          exact List.perm_middle
      | header => exact List.perm_middle.trans (ih.cons field)

theorem fields_nodup : ((ofPlaced placed).fields.map ParameterField.field).Nodup := by
  have perm := (fields_perm placed).map ParameterField.field
  rw [List.map_map] at perm
  exact perm.nodup_iff.mpr (placedFields_names placed)

end Fields

def destinations (template : String) (parameters : List EndpointParameter) :
    List (Bucket × EndpointParameter) :=
  (parameters.map fun parameter =>
    (destination? template parameter).map (·, parameter)).filterMap id

private theorem filter_destinations (template : String) (parameters : List EndpointParameter)
    (bucket : Bucket) :
    ((destinations template parameters).filter fun entry => entry.1 == bucket).map Prod.snd =
      parameters.filter fun parameter => destination? template parameter = some bucket := by
  unfold destinations
  induction parameters with
  | nil => rfl
  | cons parameter rest ih =>
      cases goes : destination? template parameter with
      | none => simpa [goes] using ih
      | some destination =>
          by_cases same : destination = bucket
          · simpa [goes, same] using ih
          · simpa [goes, same] using ih

private theorem bucket_parameters {template : String} {bucket : Bucket}
    {goes : EndpointParameter → Prop}
    [DecidablePred goes]
    (meets : ∀ {parameter}, destination? template parameter = some bucket ↔ goes parameter)
    (parameters : List EndpointParameter) :
    (select bucket (placedFields (destinations template parameters))).map
        ParameterField.parameter =
      parameters.filter fun parameter => goes parameter := by
  rw [select_parameters, filter_destinations]
  exact List.filter_congr fun parameter _ => decide_eq_decide.mpr meets

theorem path_parameters (template : String) (parameters : List EndpointParameter) :
    (select .path (placedFields (destinations template parameters))).map
        ParameterField.parameter =
      parameters.filter fun parameter =>
        parameter.location = .path ∧ parameter.name ∈ templateVariables template :=
  bucket_parameters destination?_path_iff parameters

/-! ### Partitions -/

/-- A parameter that has a place in the request. -/
def Sent (template : String) (parameter : EndpointParameter) : Prop :=
  parameter.location = .query ∨ parameter.location = .header ∨
    (parameter.location = .path ∧ parameter.name ∈ templateVariables template)

instance (template : String) : DecidablePred (Sent template) :=
  fun _ => inferInstanceAs (Decidable (_ ∨ _ ∨ _))

theorem destination?_eq_none_iff {template : String} {parameter : EndpointParameter} :
    destination? template parameter = none ↔ ¬ Sent template parameter := by
  unfold destination? Sent
  cases parameter.location <;> simp

/-- The parameters of an operation are sorted into the buckets without loss or repetition. -/
structure Partitioned {σ : Type} (endpoint : Endpoint) (scope : Scope)
    (parameters : RequestParameters) (before after : Log σ) : Prop where
  query : parameters.query.map ParameterField.parameter =
    endpoint.parameters.filter fun parameter => parameter.location = .query
  header : parameters.header.map ParameterField.parameter =
    endpoint.parameters.filter fun parameter => parameter.location = .header
  path : parameters.path.map ParameterField.parameter =
    endpoint.parameters.filter fun parameter =>
      parameter.location = .path ∧ parameter.name ∈ templateVariables endpoint.path
  required : ∀ field ∈ parameters.path, field.parameter.required = true
  /-- Every other parameter leaves one warning. -/
  log : after = { before with
    warnings := before.warnings ++
      (endpoint.parameters.filter fun parameter => ¬ Sent endpoint.path parameter).map
        fun parameter => ⟨scope.path, leftOut endpoint.path parameter⟩ }
  /-- The strict policy allows no other parameter. -/
  strict : scope.policy = .failOnUnsupported →
    ∀ parameter ∈ endpoint.parameters, Sent endpoint.path parameter
  served : ∀ name ∈ templateVariables endpoint.path,
    ∃ field ∈ parameters.path, field.parameter.name = name
  distinct : (parameters.fields.map ParameterField.field).Nodup
  /-- Cutting the path at its slashes makes no variable that has no field. -/
  interpolated : ∀ segment ∈ splitOn '/' endpoint.path, ∀ name,
    .variable name ∈ Piece.ofTemplate segment →
      ∃ field ∈ parameters.path, field.parameter.name = name ∧ ∀ naming,
        pieceExpression naming parameters (.variable name) = interpolation naming field

theorem pieceExpression_variable {parameters : RequestParameters} {name : String}
    (has : HasField parameters name) :
    ∃ field ∈ parameters.path, field.parameter.name = name ∧ ∀ naming,
      pieceExpression naming parameters (.variable name) = interpolation naming field := by
  obtain ⟨field, listed, same⟩ := has
  obtain ⟨first, found⟩ := Option.isSome_iff_exists.mp
    (List.find?_isSome (p := fun entry => entry.parameter.name == name).mpr
      ⟨field, listed, beq_iff_eq.mpr same⟩)
  have named : first.parameter.name = name := by simpa using List.find?_some found
  refine ⟨first, List.mem_of_find?_eq_some found, named, fun naming => ?_⟩
  rw [pieceExpression, found]

/-- Partitioning loses and repeats no parameter, whatever the operation is. -/
theorem partition_exact {σ : Type} {endpoint : Endpoint} {parameters : RequestParameters}
    {scope : Scope} {before after : Log σ}
    (ended : (partition endpoint).outcome scope before = (.ok parameters, after)) :
    Partitioned endpoint scope parameters before after := by
  have has := partition_hasField endpoint scope before parameters after ended
  obtain ⟨found, middle, treated, rest⟩ := parts_of_outcome_bind ended
  obtain ⟨_, last, checked, same⟩ := parts_of_outcome_bind rest
  obtain ⟨rfl, known⟩ := traverse_placed?_ok treated
  obtain rfl : last = middle := log_checkVariables checked
  cases same
  refine ⟨bucket_parameters destination?_query_iff _, bucket_parameters destination?_header_iff _,
    path_parameters _ _, fun field listed => ?_, ?_,
    fun strict parameter listed => ?_, has, fields_nodup _, fun segment cut name member => ?_⟩
  · have path := path_parameters endpoint.path endpoint.parameters
    obtain ⟨inEndpoint, goes⟩ :=
      List.mem_filter.mp ((List.Perm.of_eq path).subset (List.mem_map_of_mem listed))
    exact known.required _ inEndpoint (of_decide_eq_true goes).1
  · simpa only [warningsAt, destination?_eq_none_iff] using known.log
  · exact not_not.mp fun unsent =>
      known.lenient strict parameter listed (destination?_eq_none_iff.mpr unsent)
  · refine pieceExpression_variable (has name (Piece.mem_templateVariables_of_segment cut ?_))
    exact List.mem_filterMap.mpr ⟨_, member, rfl⟩

/-- A name in the path and in the query, a cookie, and a path parameter without a place. -/
theorem partition_exact_pet :
    let parameter (name : String) (location : ParameterLocation) : EndpointParameter :=
      { name := name, location := location, required := true, shape := .string, doc := none }
    let endpoint := Endpoint.reading "/pets/\x7bid\x7d"
      [parameter "id" .query, parameter "session" .cookie, parameter "id" .path,
        parameter "owner" .path]
    let scope := Scope.root .generateTodos
    let log : Log Unit := Log.starting ()
    ∃ parameters after, (partition endpoint).outcome scope log = (.ok parameters, after) ∧
      Partitioned endpoint scope parameters log after := by
  intro parameter endpoint scope log
  obtain ⟨parameters, after, ended⟩ := succeeds_of_isOk
    (show ((partition endpoint).outcome scope log).1.isOk = true by decide)
  exact ⟨parameters, after, ended, partition_exact ended⟩

end ElmClient.Elm.RequestParameters
