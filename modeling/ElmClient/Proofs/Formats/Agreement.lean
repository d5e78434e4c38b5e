/-
Formats matter only through the entries of primitives. If two format registries have the
same entry for every primitive that is written, the declarations are the same: each function
that writes code is treated in turn. Unions are written by name where they are mentioned,
and from their variants where they are declared, so the primitives of a shape are those
outside of its unions.
-/

import ElmClient.Client

namespace ElmClient

open Elm

/-! ### Primitives outside of unions -/

namespace Shape

mutual

/-- The primitives of a shape that are not nested in one of its unions. -/
def directPrimitives : Shape → List Primitive
  | .primitive value => [value]
  | .nullable inner => directPrimitives inner
  | .list inner => directPrimitives inner
  | .dict inner => directPrimitives inner
  | .object fields => fieldPrimitives fields
  | _ => []

def fieldPrimitives : List (FieldOf Shape) → List Primitive
  | [] => []
  | ⟨_, _, _, shape⟩ :: rest => directPrimitives shape ++ fieldPrimitives rest

end

private theorem mem_fieldPrimitives_iff {value : Primitive} {fields : List Field} :
    value ∈ fieldPrimitives fields ↔
      ∃ field ∈ fields, value ∈ field.shape.directPrimitives := by
  induction fields with
  | nil => simp [fieldPrimitives]
  | cons field rest ih => simp [fieldPrimitives, ih]

mutual

theorem mem_nested_of_direct {value : Primitive} (shape : Shape)
    (direct : value ∈ shape.directPrimitives) : .primitive value ∈ shape.nested := by
  match shape with
  | .primitive other =>
      obtain rfl := List.mem_singleton.mp direct
      exact List.mem_cons_self
  | .nullable inner => exact List.mem_cons_of_mem _ (mem_nested_of_direct inner direct)
  | .list inner => exact List.mem_cons_of_mem _ (mem_nested_of_direct inner direct)
  | .dict inner => exact List.mem_cons_of_mem _ (mem_nested_of_direct inner direct)
  | .object fields => exact List.mem_cons_of_mem _ (mem_nestedFields_of_direct fields direct)
termination_by structural shape

theorem mem_nestedFields_of_direct {value : Primitive} (fields : List (FieldOf Shape))
    (direct : value ∈ fieldPrimitives fields) : .primitive value ∈ nestedFields fields := by
  match fields with
  | ⟨_, _, _, shape⟩ :: rest =>
      rcases List.mem_append.mp direct with here | later
      · exact List.mem_append_left _ (mem_nested_of_direct shape here)
      · exact List.mem_append_right _ (mem_nestedFields_of_direct rest later)
termination_by structural fields

end

end Shape

/-! ### Runs -/

theorem Run.traverse_congr {σ α β : Type} {left right : α → Run σ β} {items : List α}
    (same : ∀ item ∈ items, left item = right item) :
    Run.traverse left items = Run.traverse right items := by
  induction items with
  | nil => rfl
  | cons item rest ih =>
      obtain ⟨first, later⟩ := List.forall_mem_cons.mp same
      rw [Run.traverse, Run.traverse, first, ih later]

theorem Run.fail_bind {σ α β : Type} (message : String) (next : α → Run σ β) :
    (Run.fail message : Run σ α) >>= next = Run.fail message := rfl

namespace Elm

/-! ### Agreeing formats -/

def Naming.withFormats (naming : Naming) (formats : FormatRegistry) : Naming :=
  { naming with formats := formats }

section Agreement

variable {σ : Type} {naming : Naming} {formats : FormatRegistry}

/-- Every primitive that is written in the shape's own type has the same entry in both
registries. -/
def Naming.AgreesOn (naming : Naming) (formats : FormatRegistry) (shape : Shape) : Prop :=
  ∀ value ∈ shape.directPrimitives,
    Naming.formatEntry? (naming.withFormats formats) value = naming.formatEntry? value

namespace Naming.AgreesOn

theorem nullable {inner : Shape} (agrees : naming.AgreesOn formats (.nullable inner)) :
    naming.AgreesOn formats inner := agrees

theorem list {inner : Shape} (agrees : naming.AgreesOn formats (.list inner)) :
    naming.AgreesOn formats inner := agrees

theorem dict {inner : Shape} (agrees : naming.AgreesOn formats (.dict inner)) :
    naming.AgreesOn formats inner := agrees

theorem object {fields : List Field} (agrees : naming.AgreesOn formats (.object fields)) :
    ∀ field ∈ fields, naming.AgreesOn formats field.shape := fun field member value direct =>
  agrees value (Shape.mem_fieldPrimitives_iff.mpr ⟨field, member, direct⟩)

theorem primitive {value : Primitive} (agrees : naming.AgreesOn formats (.primitive value)) :
    Naming.formatEntry? (naming.withFormats formats) value = naming.formatEntry? value :=
  agrees value List.mem_cons_self

end Naming.AgreesOn

/-! ### Codecs -/

mutual

theorem typeExpression_agrees (shape : Shape) (agrees : naming.AgreesOn formats shape) :
    typeExpression (naming.withFormats formats) shape = typeExpression naming shape := by
  match shape with
  | .nullable inner =>
      unfold typeExpression
      rw [typeExpression_agrees inner agrees.nullable]
  | .object fields =>
      unfold typeExpression
      rw [fieldTypes_agrees fields agrees.object]
  | .primitive value =>
      unfold typeExpression
      rw [agrees.primitive]
  | .list inner =>
      unfold typeExpression
      rw [typeExpression_agrees inner agrees.list]
  | .dict inner =>
      unfold typeExpression
      rw [typeExpression_agrees inner agrees.dict]
  | .union _ _ => rfl
  | .enum _ => rfl
  | .ref _ => rfl
  | .bytes => rfl
  | .unit => rfl
  | .anyJson => rfl
termination_by structural shape

theorem fieldTypes_agrees (fields : List (FieldOf Shape))
    (agrees : ∀ field ∈ fields, naming.AgreesOn formats field.shape) :
    fieldTypes (naming.withFormats formats) fields = fieldTypes naming fields := by
  match fields with
  | [] => rfl
  | ⟨_, _, _, shape⟩ :: rest =>
      obtain ⟨first, later⟩ := List.forall_mem_cons.mp agrees
      rw [fieldTypes, fieldTypes, typeExpression_agrees shape first,
        fieldTypes_agrees rest later]
termination_by structural fields

end

mutual

theorem decoder_agrees (shape : Shape) (agrees : naming.AgreesOn formats shape) :
    (decoder (naming.withFormats formats) shape : Run σ String) = decoder naming shape := by
  match shape with
  | .nullable inner => rw [decoder, decoder, decoder_agrees inner agrees.nullable]
  | .object fields => rw [decoder, decoder, fieldDecoders_agrees fields agrees.object]
  | .primitive value => rw [decoder, decoder, agrees.primitive]
  | .list inner => rw [decoder, decoder, decoder_agrees inner agrees.list]
  | .dict inner => rw [decoder, decoder, decoder_agrees inner agrees.dict]
  | .union _ _ => rfl
  | .enum _ => rfl
  | .ref _ => rfl
  | .bytes => rfl
  | .unit => rfl
  | .anyJson => rfl
termination_by structural shape

theorem fieldDecoders_agrees (fields : List (FieldOf Shape))
    (agrees : ∀ field ∈ fields, naming.AgreesOn formats field.shape) :
    (fieldDecoders (naming.withFormats formats) fields : Run σ (List String)) =
      fieldDecoders naming fields := by
  match fields with
  | [] => rfl
  | ⟨_, _, _, shape⟩ :: rest =>
      obtain ⟨first, later⟩ := List.forall_mem_cons.mp agrees
      rw [fieldDecoders, fieldDecoders, decoder_agrees shape first,
        fieldDecoders_agrees rest later]
termination_by structural fields

end

mutual

theorem encoder_agrees (depth : Nat) (shape : Shape) (agrees : naming.AgreesOn formats shape) :
    (encoder (naming.withFormats formats) depth shape : Run σ String) =
      encoder naming depth shape := by
  match shape with
  | .nullable inner => rw [encoder, encoder, encoder_agrees depth inner agrees.nullable]
  | .object fields =>
      rw [encoder, encoder, fieldEncoders_agrees (depth + 1) fields agrees.object]
  | .primitive value => rw [encoder, encoder, agrees.primitive]
  | .list inner => rw [encoder, encoder, encoder_agrees depth inner agrees.list]
  | .dict inner => rw [encoder, encoder, encoder_agrees depth inner agrees.dict]
  | .union _ _ => rfl
  | .enum _ => rfl
  | .ref _ => rfl
  | .bytes => rfl
  | .unit => rfl
  | .anyJson => rfl
termination_by structural shape

theorem fieldEncoders_agrees (depth : Nat) (fields : List (FieldOf Shape))
    (agrees : ∀ field ∈ fields, naming.AgreesOn formats field.shape) :
    (fieldEncoders (naming.withFormats formats) depth fields : Run σ (List String)) =
      fieldEncoders naming depth fields := by
  match fields with
  | [] => rfl
  | ⟨_, _, _, shape⟩ :: rest =>
      obtain ⟨first, later⟩ := List.forall_mem_cons.mp agrees
      rw [fieldEncoders, fieldEncoders, encoder_agrees depth shape first,
        fieldEncoders_agrees depth rest later]
termination_by structural fields

end

/-! ### Components -/

theorem reaches_agrees (target : TypeName) (visited pending : List TypeName) :
    (naming.withFormats formats).reaches target visited pending =
      naming.reaches target visited pending := by
  induction visited, pending using Naming.reaches.induct naming target with
  | case1 visited => rw [Naming.reaches, Naming.reaches]
  | case2 visited pending => rw [Naming.reaches, Naming.reaches, if_pos rfl, if_pos rfl]
  | case3 visited name pending other seen ih =>
      rw [Naming.reaches, Naming.reaches, if_neg other, if_neg other, if_pos seen, if_pos seen, ih]
  | case4 visited name pending other fresh ih =>
      rw [Naming.reaches, Naming.reaches, if_neg other, if_neg other, if_neg fresh, if_neg fresh]
      exact ih

theorem isRecursive_agrees (name : TypeName) (shape : Shape) :
    (naming.withFormats formats).isRecursive name shape = naming.isRecursive name shape :=
  reaches_agrees name [] (directReferences shape)

section Components

variable {component : Component} (agrees : naming.AgreesOn formats component.shape)

include agrees

theorem typeDeclaration_agrees (recursive : Bool) :
    typeDeclaration (naming.withFormats formats) component recursive =
      typeDeclaration naming component recursive := by
  obtain ⟨raw, name, shape, doc⟩ := component
  have whole := typeExpression_agrees shape agrees
  unfold typeDeclaration
  cases shape with
  | object fields =>
      cases fields with
      | nil => rfl
      | cons field rest =>
          dsimp only [recordEntries]
          rw [fieldTypes_agrees (field :: rest) agrees.object]
  | _ =>
      dsimp only
      rw [whole]

theorem decoderDeclaration_agrees (recursive : Bool) :
    (decoderDeclaration (naming.withFormats formats) component recursive : Run σ Declaration) =
      decoderDeclaration naming component recursive := by
  obtain ⟨raw, name, shape, doc⟩ := component
  have whole : (decoder (naming.withFormats formats) shape : Run σ String) = _ :=
    decoder_agrees shape agrees
  unfold decoderDeclaration
  cases shape with
  | object fields =>
      dsimp only
      rw [fieldDecoders_agrees fields agrees.object]
      rfl
  | _ =>
      dsimp only
      rw [whole]
      rfl

theorem encoderDeclaration_agrees (recursive : Bool) :
    (encoderDeclaration (naming.withFormats formats) component recursive : Run σ Declaration) =
      encoderDeclaration naming component recursive := by
  obtain ⟨raw, name, shape, doc⟩ := component
  have whole : (encoder (naming.withFormats formats) 1 shape : Run σ String) = _ :=
    encoder_agrees 1 shape agrees
  unfold encoderDeclaration
  cases shape with
  | object fields =>
      cases fields with
      | nil =>
          dsimp only
          rw [whole]
          rfl
      | cons field rest =>
          dsimp only [objectEntries]
          rw [fieldEncoders_agrees 1 (field :: rest) agrees.object]
          rfl
  | _ =>
      dsimp only
      rw [whole]
      rfl

theorem componentDeclarations_agrees :
    (componentDeclarations (naming.withFormats formats) component : Run σ (List Grouped)) =
      componentDeclarations naming component := by
  unfold componentDeclarations
  dsimp only
  rw [typeExpression_agrees component.shape agrees, isRecursive_agrees,
    decoderDeclaration_agrees agrees, encoderDeclaration_agrees agrees,
    typeDeclaration_agrees agrees]
  rfl

end Components

/-! ### Unions -/

theorem variantCodec_agrees {variant : Variant} (agrees : naming.AgreesOn formats variant.shape) :
    (variantCodec (naming.withFormats formats) variant : Run σ (String × String)) =
      variantCodec naming variant := by
  unfold variantCodec
  rw [decoder_agrees variant.shape agrees, encoder_agrees 1 variant.shape agrees]
  rfl

theorem variantConstructor_agrees {variant : Variant}
    (agrees : naming.AgreesOn formats variant.shape) :
    variantConstructor (naming.withFormats formats) variant =
      variantConstructor naming variant := by
  unfold variantConstructor
  rw [typeExpression_agrees variant.shape agrees]

theorem unionDeclarations_agrees {union : Union}
    (agrees : ∀ variant ∈ union.variants, naming.AgreesOn formats variant.shape) :
    (unionDeclarations (naming.withFormats formats) union : Run σ (List Grouped)) =
      unionDeclarations naming union := by
  unfold unionDeclarations
  rw [Run.traverse_congr fun variant member => variantCodec_agrees (agrees variant member),
    List.map_congr_left fun variant member => variantConstructor_agrees (agrees variant member)]
  rfl

def Naming.UnionsAgree (naming : Naming) (formats : FormatRegistry) : Prop :=
  ∀ entry ∈ naming.declared.unions, ∀ variant ∈ entry.2.variants,
    naming.AgreesOn formats variant.shape

theorem discoveredDeclarations_agrees (agree : naming.UnionsAgree formats) :
    (discoveredDeclarations (naming.withFormats formats) : Run σ (List Grouped)) =
      discoveredDeclarations naming := by
  unfold discoveredDeclarations
  refine congrArg (fun action => action >>= fun lists => pure lists.flatten)
    (Run.traverse_congr fun declared member => ?_)
  cases declared with
  | enum name values => rfl
  | union union =>
      refine congrArg (Run.withPath union.name.text) (unionDeclarations_agrees ?_)
      have listed := List.mem_mergeSort.mp member
      rcases List.mem_append.mp listed with enum | listed
      · obtain ⟨_, -, other⟩ := List.mem_map.mp enum
        cases other
      · obtain ⟨entry, declared, same⟩ := List.mem_map.mp listed
        obtain rfl := Declared.union.inj same
        exact agree entry declared

/-! ### Responses -/

namespace ResponsePlan

theorem mem_of_mem_distinctPayloads {payload : Payload} {payloads : List Payload}
    (member : payload ∈ distinctPayloads payloads) : payload ∈ payloads := by
  have general : ∀ found : List Payload, payload ∈ payloads.foldl
      (fun found payload => if found.any payload.same then found else found ++ [payload]) found →
        payload ∈ found ∨ payload ∈ payloads := by
    clear member
    induction payloads with
    | nil => exact fun found member => Or.inl member
    | cons head rest ih =>
        intro found member
        rcases ih _ member with early | late
        · dsimp only at early
          split at early
          · exact Or.inl early
          · rcases List.mem_append.mp early with early | here
            · exact Or.inl early
            · exact Or.inr (List.mem_cons.mpr (Or.inl (List.mem_singleton.mp here)))
        · exact Or.inr (List.mem_cons_of_mem _ late)
  exact (general [] member).resolve_left List.not_mem_nil

theorem mem_of_split? {responses : List EndpointResponse}
    {parts : EndpointResponse × List EndpointResponse} (found : split? responses = some parts) :
    parts.1 ∈ responses ∧ ∀ response ∈ parts.2, response ∈ responses := by
  induction responses generalizing parts with
  | nil => cases found
  | cons head rest ih =>
      rw [split?] at found
      split at found
      · cases found
        exact ⟨List.mem_cons_self, fun _ => List.mem_cons_of_mem _⟩
      · obtain ⟨inner, later, rfl⟩ := Option.map_eq_some_iff.mp found
        obtain ⟨first, others⟩ := ih later
        refine ⟨List.mem_cons_of_mem _ first, fun response member => ?_⟩
        rcases List.mem_cons.mp member with rfl | member
        · exact List.mem_cons_self
        · exact List.mem_cons_of_mem _ (others response member)

theorem errorHandler_agrees {payload : Payload}
    (agrees : naming.AgreesOn formats payload.shape) :
    (errorHandler (naming.withFormats formats) payload : Run σ String) =
      errorHandler naming payload := by
  cases payload with
  | json shape =>
      unfold errorHandler
      dsimp only
      rw [decoder_agrees shape agrees]
  | _ => rfl

section Responses

variable {endpoint : Endpoint} {responses : List EndpointResponse}
  (agree : ∀ response ∈ responses, naming.AgreesOn formats response.payload.shape)

include agree

private theorem statusHandlers_agree :
    (Run.traverse (statusHandler (naming.withFormats formats)) responses : Run σ _) =
      Run.traverse (statusHandler naming) responses := by
  refine Run.traverse_congr fun response member => ?_
  unfold statusHandler
  rw [errorHandler_agrees (agree response member)]

private theorem wrappedHandlers_agree :
    (Run.traverse (wrappedHandler (naming.withFormats formats) endpoint) responses : Run σ _) =
      Run.traverse (wrappedHandler naming endpoint) responses := by
  refine Run.traverse_congr fun response member => ?_
  unfold wrappedHandler
  rw [errorHandler_agrees (agree response member)]
  rfl

theorem errorDeclaration_agrees :
    errorDeclaration (naming.withFormats formats) endpoint responses =
      errorDeclaration naming endpoint responses := by
  have constructors : responses.map (errorConstructor (naming.withFormats formats) endpoint) =
      responses.map (errorConstructor naming endpoint) := by
    refine List.map_congr_left fun response member => ?_
    have whole := typeExpression_agrees _ (agree response member)
    unfold errorConstructor
    dsimp only
    split
    · rfl
    · rw [whole]
  unfold errorDeclaration
  rw [constructors]

theorem errorPlan_agrees :
    (errorPlan (naming.withFormats formats) endpoint responses : Run σ ErrorPlan) =
      errorPlan naming endpoint responses := by
  unfold errorPlan
  rw [statusHandlers_agree agree, wrappedHandlers_agree agree, errorDeclaration_agrees agree]
  split
  · rfl
  · next payload single =>
      have listed : payload ∈ distinctPayloads (responses.map EndpointResponse.payload) := by
        rw [single]
        exact List.mem_cons_self
      obtain ⟨response, member, rfl⟩ := List.mem_map.mp (mem_of_mem_distinctPayloads listed)
      rw [typeExpression_agrees _ (agree response member)]
  · rfl

end Responses

theorem expectation_agrees (table : String) {payload : Payload}
    (agrees : naming.AgreesOn formats payload.shape) :
    (expectation (naming.withFormats formats) table payload : Run σ (String × String)) =
      expectation naming table payload := by
  cases payload with
  | json shape =>
      unfold expectation
      dsimp only
      rw [decoder_agrees shape agrees, typeExpression_agrees shape agrees]
  | _ => rfl

theorem ofEndpoint_agrees {endpoint : Endpoint}
    (agree : ∀ response ∈ endpoint.responses,
      naming.AgreesOn formats response.payload.shape) :
    (ofEndpoint (naming.withFormats formats) endpoint : Run σ ResponsePlan) =
      ofEndpoint naming endpoint := by
  unfold ofEndpoint split
  cases found : split? endpoint.responses with
  | none => simp only [Run.fail_bind]
  | some parts =>
      obtain ⟨success, errors⟩ := mem_of_split? found
      simp only [pure_bind]
      rw [errorPlan_agrees fun response member => agree response (errors response member)]
      simp only [expectation_agrees _ (agree _ success)]

end ResponsePlan

end Agreement

end Elm

end ElmClient
