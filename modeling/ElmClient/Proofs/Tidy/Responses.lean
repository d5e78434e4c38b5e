/-
The result and error side of requests is tidy: handlers by status, the table they stand in,
and the error type that an operation declares.
-/

import ElmClient.Proofs.Formats.Agreement
import ElmClient.Proofs.Tidy.Types

namespace ElmClient.Elm

open Lexer Name Run Text

namespace ResponsePlan

variable {σ : Type} {naming : Naming}

structure ErrorPlan.IsTidy (plan : ErrorPlan) : Prop where
  error : Tidy plan.error
  handlers : ∀ handler ∈ plan.handlers, Tidy handler.2
  declaration : ∀ declaration ∈ plan.declaration, Tidy declaration.source

private theorem tidy_errorTable {handlers : List (String × String)}
    (tidy : ∀ handler ∈ handlers, Tidy handler.2) : Tidy (errorTable handlers) := by
  unfold errorTable
  split
  · exact .fixed
  · refine Lead.code .fixed (tidy_list (List.forall_mem_map.mpr fun handler member => ?_))
    exact ((Lead.code .fixed (tidy_stringLiteral _)).gap.code
      (tidy_atom (tidy handler member))).close

section Payloads

variable (tidy : naming.IsTidy)

include tidy

theorem errorHandler_tidy {payload : Payload} (covers : naming.Covers payload.shape) :
    Returns (errorHandler naming payload : Run σ String) Tidy := by
  cases payload with
  | json shape =>
      exact (decoder_tidy tidy shape covers).map fun _ found =>
        (Tidy.gap tidy_common).code (tidy_atom found)
  | text => exact .pure tidy_common
  | bytes => exact .pure tidy_common
  | empty => exact .pure tidy_common

theorem expectation_tidy {table : String} (tableTidy : Tidy table) {payload : Payload}
    (covers : naming.Covers payload.shape) :
    Returns (expectation naming table payload : Run σ (String × String))
      fun result => Tidy result.1 ∧ Tidy result.2 := by
  cases payload with
  | json shape =>
      exact (decoder_tidy tidy shape covers).map fun _ found =>
        ⟨tidy_typeExpression tidy shape covers,
          ((Tidy.gap tidy_common).code tableTidy).gap.code (tidy_atom found)⟩
  | text => exact .pure ⟨.fixed, ((Tidy.gap tidy_common).code tableTidy).close⟩
  | bytes => exact .pure ⟨.fixed, ((Tidy.gap tidy_common).code tableTidy).close⟩
  | empty => exact .pure ⟨.fixed, ((Tidy.gap tidy_common).code tableTidy).close⟩

end Payloads

section Errors

variable (tidy : naming.IsTidy) {endpoint : Endpoint} (proper : endpoint.name.Proper)

include tidy proper

private theorem tidy_errorConstructor {response : EndpointResponse}
    (covers : naming.Covers response.payload.shape) :
    Tidy (errorConstructor naming endpoint response) := by
  have name := tidy_typeName (proper.child response.status)
  unfold errorConstructor
  dsimp only
  split
  · exact name
  · exact (name.gap (by decide)).code (tidy_atom (tidy_typeExpression tidy _ covers))

theorem wrappedHandler_tidy {response : EndpointResponse}
    (covers : naming.Covers response.payload.shape) :
    Returns (wrappedHandler naming endpoint response : Run σ (String × String))
      fun handler => Tidy handler.2 := by
  have constructor := tidy_qualified tidy.valid .errors
    (holdable_of_proper (proper.child response.status))
  refine .map (.withPath _ (errorHandler_tidy tidy covers)) fun handler found => tidy_atom ?_
  split
  · exact ((Tidy.gap tidy_common).code constructor).gap.code found
  · exact ((Tidy.gap tidy_common).code constructor).gap.code (tidy_atom found)

variable {errors : List EndpointResponse}
  (covers : ∀ response ∈ errors, naming.Covers response.payload.shape)

include covers

private theorem tidy_errorDeclaration : Tidy (errorDeclaration naming endpoint errors).source := by
  have name := tidy_typeName (proper.child "Error")
  refine tidy_leadLines .fixed .fixed (Lead.code .fixed name) ?_
  exact List.forall_mem_map.mpr fun response member =>
    tidy_errorConstructor tidy proper (covers response member)

theorem errorPlan_tidy :
    Returns (errorPlan naming endpoint errors : Run σ ErrorPlan) ErrorPlan.IsTidy := by
  unfold errorPlan
  split
  · exact .pure ⟨.fixed (by decide), fun _ member => absurd member List.not_mem_nil, nofun⟩
  case h_2 payload single =>
    have listed : payload ∈ distinctPayloads (errors.map EndpointResponse.payload) := by
      rw [single]
      exact List.mem_cons_self
    obtain ⟨source, member, rfl⟩ := List.mem_map.mp (mem_of_mem_distinctPayloads listed)
    have handlers : ∀ response ∈ errors,
        Returns (statusHandler naming response : Run σ (String × String))
          fun handler => Tidy handler.2 := fun response inErrors =>
      .map (.withPath _ (errorHandler_tidy tidy (covers response inErrors))) fun _ found => found
    exact (Returns.traverseOf handlers).map fun _ related =>
      ⟨tidy_typeExpression tidy _ (covers source member), all_of_forall₂ related, nofun⟩
  · refine (Returns.traverseOf fun response member =>
      wrappedHandler_tidy tidy proper (covers response member)).map fun _ related => ?_
    refine ⟨tidy_qualified tidy.valid .errors (holdable_of_proper (proper.child "Error")),
      all_of_forall₂ related, fun declaration same => ?_⟩
    rw [← Option.some.inj same]
    exact tidy_errorDeclaration tidy proper covers

end Errors

/-! ### Whole plans -/

theorem split_within (endpoint : Endpoint) :
    Returns (split endpoint : Run σ _) fun parts =>
      parts.1 ∈ endpoint.responses ∧ ∀ response ∈ parts.2, response ∈ endpoint.responses := by
  unfold ResponsePlan.split
  split
  case h_1 found same => exact .pure (mem_of_split? same)
  case h_2 => exact .fail

structure IsTidy (plan : ResponsePlan) : Prop where
  success : Tidy plan.success
  error : Tidy plan.error
  expect : Tidy plan.expect
  declaration : ∀ declaration ∈ plan.declaration, Tidy declaration.source

theorem ofEndpoint_tidy (tidy : naming.IsTidy) {endpoint : Endpoint}
    (proper : endpoint.name.Proper)
    (covers : ∀ response ∈ endpoint.responses, naming.Covers response.payload.shape) :
    Returns (ofEndpoint naming endpoint : Run σ ResponsePlan) ResponsePlan.IsTidy := by
  refine .bind (split_within endpoint) ?_
  rintro ⟨success, errors⟩ ⟨inResponses, within⟩
  refine .bind (errorPlan_tidy tidy proper fun response member => covers _ (within _ member))
    fun plan planTidy => ?_
  refine .map (.withPath _ (expectation_tidy tidy (tidy_atom (tidy_errorTable planTidy.handlers))
    (covers success inResponses))) fun result found => ?_
  exact ⟨found.1, planTidy.error, found.2, planTidy.declaration⟩

end ResponsePlan

end ElmClient.Elm
