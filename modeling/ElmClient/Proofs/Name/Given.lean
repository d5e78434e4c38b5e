/-
Names given in turn. Each is what is wanted or a numbered form of it, the first that no
earlier one has; a number may make it what a later key wants. Record fields, constructors of
enums, request parameters and server constants are named so.
-/

import ElmClient.Elm.Servers
import ElmClient.Elm.Types
import ElmClient.Proofs.Requests.Partition

namespace ElmClient

namespace Fresh

variable {α : Type}

/-- The names that are wanted are given in order, each in the first form that is free. -/
structure Gives (numbered : α → Nat → α) (wanted names : List α) : Prop where
  length : names.length = wanted.length
  distinct : names.Nodup
  /-- The search ends with a free form after at most as many tries as there are earlier names. -/
  first : ∀ (index : Nat) (base : α), wanted[index]? = some base → ∃ number ≤ index,
    names[index]? = some (candidate base numbered number) ∧
      ∀ earlier < number, candidate base numbered earlier ∈ names.take index
  /-- What is wanted and free is given as it is. -/
  kept : ∀ (index : Nat) (base : α), wanted[index]? = some base → base ∉ names.take index →
    names[index]? = some base

section Assigning

variable [BEq α] [LawfulBEq α] {numbered : α → Nat → α}

theorem unused_first (numbered : α → Nat → α) (taken : List α) (base : α) :
    ∃ number ≤ taken.length, unused numbered taken base = candidate base numbered number ∧
      ∀ earlier < number, candidate base numbered earlier ∈ taken := by
  obtain ⟨number, few, found, before⟩ :=
    search_first taken.contains base numbered taken.length 0
  refine ⟨number, few, ?_, ?_⟩
  · rw [unused, found, Nat.zero_add]
  · intro earlier less
    have refused := before earlier less
    rw [Nat.zero_add] at refused
    exact List.contains_iff_mem.mp refused

/-- Beside the names taken before, a name gives way only to those given before it. -/
theorem assignAfter_first (numbered : α → Nat → α) (taken : List α) {wanted : List α}
    {index : Nat} {base : α} (wants : wanted[index]? = some base) :
    ∃ number ≤ taken.length + index,
      (assignAfter numbered taken wanted)[index]? = some (candidate base numbered number) ∧
        ∀ earlier < number, candidate base numbered earlier ∈ taken ∨
          candidate base numbered earlier ∈ (assignAfter numbered taken wanted).take index := by
  induction wanted generalizing taken index with
  | nil => simp at wants
  | cons head rest ih =>
      cases index with
      | zero =>
          obtain rfl : head = base := by simpa using wants
          obtain ⟨number, few, found, before⟩ := unused_first numbered taken head
          refine ⟨number, few, ?_, fun earlier less => Or.inl (before earlier less)⟩
          rw [assignAfter, List.getElem?_cons_zero, found]
      | succ index =>
          rw [List.getElem?_cons_succ] at wants
          obtain ⟨number, few, found, before⟩ := ih (unused numbered taken head :: taken) wants
          rw [List.length_cons] at few
          refine ⟨number, by omega, by rwa [assignAfter, List.getElem?_cons_succ], ?_⟩
          intro earlier less
          rw [assignAfter, List.take_succ_cons]
          rcases before earlier less with inTaken | later
          · rcases List.mem_cons.mp inTaken with given | old
            · exact Or.inr (given ▸ List.mem_cons_self)
            · exact Or.inl old
          · exact Or.inr (List.mem_cons_of_mem _ later)

theorem assign_gives (apart : ∀ base, Function.Injective (candidate base numbered))
    (wanted : List α) : Gives numbered wanted (assign numbered wanted) := by
  have first : ∀ (index : Nat) (base : α), wanted[index]? = some base → ∃ number ≤ index,
      (assign numbered wanted)[index]? = some (candidate base numbered number) ∧
        ∀ earlier < number,
          candidate base numbered earlier ∈ (assign numbered wanted).take index := by
    intro index base wants
    obtain ⟨number, few, found, before⟩ := assignAfter_first numbered [] wants
    rw [List.length_nil, Nat.zero_add] at few
    refine ⟨number, few, found, fun earlier less => ?_⟩
    exact (before earlier less).resolve_left List.not_mem_nil
  refine ⟨length_assignAfter _ _ _, assignAfter_nodup apart _ _, first, ?_⟩
  intro index base wants free
  obtain ⟨number, -, found, before⟩ := first index base wants
  cases number with
  | zero => exact found
  | succ number => exact absurd (before 0 (Nat.zero_lt_succ number)) free

end Assigning

end Fresh

namespace Elm

open Fresh Run

/-! ### Fields and constructors -/

theorem recordNames_gives (fields : List Field) :
    Gives appendNumber (fields.map fun field => Name.toValueName field.key)
      (recordNames fields) :=
  assign_gives appendNumber_injective _

private theorem length_assign_child (name : TypeName) (values : List String) :
    (assign TypeName.withSuffix (values.map name.child)).length = values.length := by
  rw [assign, length_assignAfter, List.length_map]

theorem enumConstructors_names (name : TypeName) (values : List String) :
    (enumConstructors name values).map Prod.fst =
      assign TypeName.withSuffix (values.map name.child) := by
  rw [enumConstructors]
  exact List.map_fst_zip (Nat.le_of_eq (length_assign_child name values))

theorem enumConstructors_values (name : TypeName) (values : List String) :
    (enumConstructors name values).map Prod.snd = values := by
  rw [enumConstructors]
  exact List.map_snd_zip (Nat.le_of_eq (length_assign_child name values).symm)

theorem enumConstructors_gives (name : TypeName) (values : List String) :
    Gives TypeName.withSuffix (values.map name.child)
      ((enumConstructors name values).map Prod.fst) := by
  rw [enumConstructors_names]
  exact assign_gives TypeName.candidate_injective _

/-! ### Server constants -/

namespace ServerPlan

def wantedConstants (document : Document) : ServerMode → List String
  | .fromDocument => wantedNames 0 document.servers
  | .single _ => ["server"]
  | .multiple servers => servers.map fun server => Name.toValueName server.1

private theorem constants_names {β : Type} (names : List String) (servers : List β)
    (doc : β → Option String) (url : β → String) (length : names.length = servers.length) :
    ((names.zip servers).map fun entry => constant entry.1 (doc entry.2) (url entry.2)).map
        Declaration.name = names := by
  rw [List.map_map]
  exact List.map_fst_zip (Nat.le_of_eq length)

private theorem length_wantedNames (index : Nat) (servers : List Server) :
    (wantedNames index servers).length = servers.length := by
  induction servers generalizing index with
  | nil => rfl
  | cons server rest ih => rw [wantedNames, List.length_cons, List.length_cons, ih]

theorem ofMode_gives (naming : Naming) (document : Document) (mode : ServerMode) :
    Gives appendNumber (wantedConstants document mode)
      ((ofMode naming document mode).declarations.map Declaration.name) := by
  cases mode with
  | fromDocument =>
      have names := constants_names (assign appendNumber (wantedNames 0 document.servers))
        document.servers Server.description Server.resolvedUrl
        (by rw [assign, length_assignAfter, length_wantedNames])
      rw [ofMode, ofServers, names]
      exact assign_gives appendNumber_injective _
  | single url => exact assign_gives appendNumber_injective ["server"]
  | multiple servers =>
      have names := constants_names
        (assign appendNumber (servers.map fun server => Name.toValueName server.1)) servers
        (fun _ => none) Prod.snd (by rw [assign, length_assignAfter, List.length_map])
      rw [ofMode, ofNamed, names]
      exact assign_gives appendNumber_injective _

end ServerPlan

/-! ### Request parameters -/

def Bucket.location : Bucket → ParameterLocation
  | .path => .path
  | .query => .query
  | .header => .header

namespace RequestParameters

/-- The parameters that are sent are named in the order of the operation, and every one is in
the bucket of its location. -/
def NamedInOrder (endpoint : Endpoint) (parameters : RequestParameters) : Prop :=
  let sent := endpoint.parameters.filter fun parameter => Sent endpoint.path parameter
  ∃ names, Gives appendNumber (sent.map fun parameter => Name.toValueName parameter.name) names ∧
    let located (bucket : Bucket) : List ParameterField :=
      ((sent.zip names).filter fun entry => entry.1.location = bucket.location).map
        fun entry => { field := entry.2, parameter := entry.1 }
    parameters = { path := located .path, query := located .query, header := located .header }

section Destinations

variable {template : String}

private theorem location_of_destination {parameter : EndpointParameter} {bucket : Bucket}
    (goes : destination? template parameter = some bucket) :
    parameter.location = bucket.location := by
  cases bucket with
  | path => exact (destination?_path_iff.mp goes).1
  | query => exact destination?_query_iff.mp goes
  | header => exact destination?_header_iff.mp goes

private theorem destinations_parameters (template : String) (parameters : List EndpointParameter) :
    (destinations template parameters).map Prod.snd =
      parameters.filter fun parameter => Sent template parameter := by
  unfold destinations
  induction parameters with
  | nil => rfl
  | cons parameter rest ih =>
      have sent : destination? template parameter = none ↔ ¬ Sent template parameter :=
        destination?_eq_none_iff
      cases goes : destination? template parameter with
      | none =>
          have unsent := sent.mp goes
          simpa [goes, unsent] using ih
      | some destination =>
          have goesOut : Sent template parameter := by
            by_contra unsent
            rw [sent.mpr unsent] at goes
            contradiction
          simpa [goes, goesOut] using ih

private theorem destination_of_mem {parameters : List EndpointParameter}
    {entry : Bucket × EndpointParameter} (member : entry ∈ destinations template parameters) :
    destination? template entry.2 = some entry.1 := by
  obtain ⟨found, listed, same⟩ := List.mem_filterMap.mp member
  obtain ⟨parameter, -, rfl⟩ := List.mem_map.mp listed
  obtain ⟨bucket, goes, rfl⟩ := Option.map_eq_some_iff.mp same
  exact goes

theorem select_located (template : String) (parameters : List EndpointParameter)
    (names : List String) (bucket : Bucket) :
    select bucket (((destinations template parameters).zip names).map fun entry =>
        (entry.1.1, { field := entry.2, parameter := entry.1.2 })) =
      (((parameters.filter fun parameter => Sent template parameter).zip names).filter
        fun entry => entry.1.location = bucket.location).map
          fun entry => { field := entry.2, parameter := entry.1 } := by
  rw [← destinations_parameters, List.zip_map_left, select, List.filter_map, List.filter_map,
    List.map_map, List.map_map]
  have same : ((destinations template parameters).zip names).filter
      (fun entry => entry.1.1 == bucket) =
        ((destinations template parameters).zip names).filter
          fun entry => entry.1.2.location = bucket.location := by
    apply List.filter_congr
    intro entry member
    have located := location_of_destination (destination_of_mem (List.of_mem_zip member).1)
    rw [Bool.eq_iff_iff, beq_iff_eq, decide_eq_true_iff, located]
    cases entry.1.1 <;> cases bucket <;> simp [Bucket.location]
  exact congrArg _ same

end Destinations

theorem partition_named {σ : Type} (endpoint : Endpoint) :
    Returns (partition endpoint : Run σ RequestParameters) (NamedInOrder endpoint) := by
  intro scope before parameters after ended
  obtain ⟨found, middle, treated, rest⟩ := parts_of_outcome_bind ended
  obtain ⟨_, last, checked, same⟩ := parts_of_outcome_bind rest
  obtain ⟨rfl, -⟩ := traverse_placed?_ok treated
  cases same
  let placed := destinations endpoint.path endpoint.parameters
  let names := assign appendNumber (placed.map fun entry => Name.toValueName entry.2.name)
  have buckets := select_located endpoint.path endpoint.parameters names
  refine ⟨names, ?_, ?_⟩
  · rw [← destinations_parameters, List.map_map]
    exact assign_gives appendNumber_injective _
  · dsimp only
    rw [← buckets .path, ← buckets .query, ← buckets .header]
    rfl

end RequestParameters

end Elm

end ElmClient
