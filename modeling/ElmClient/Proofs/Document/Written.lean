/-
Documents are read again as they were written. Every reader of the model has its writer,
and what a reader accepts, in whichever spelling, is read again from what is written for
it. Schemas nest, so their readers are bounded; a bound that the written form keeps to
is enough, whatever bound the schema was first read with.
-/

import ElmClient.Proofs.Json.Rereading

namespace ElmClient

open Json

variable {bound : Nat}

attribute [local simp] Keyed.find? Keyed.find?_append

theorem texts_rereads : Rereads bound (list? string?) (list? string?) textsToJson :=
  string_rereads.list

/-! ### Schemas -/

theorem SchemaKinds.rereads :
    Rereads bound SchemaKinds.ofJson? SchemaKinds.ofJson? SchemaKinds.toJson where
  again json kinds _ _ := by
    cases kinds with
    | one kind => rfl
    | many kinds =>
        have again : list? string? (textsToJson kinds) = some kinds :=
          mapM_map_eq_some fun _ _ => rfl
        exact congrArg (Option.map SchemaKinds.many) again
  present _ kinds _ _ := by cases kinds <;> exact nofun

namespace Schema

def itemsToJson : ItemsOf Schema → Json
  | .tuple members => .array (refsToJson members)
  | .single item => refToJson item

def additionalToJson : AdditionalOf Schema → Json
  | .allowed value => .bool value
  | .schema item => refToJson item

def writtenFields (schema : Schema) : List (String × Json) :=
  optionalField "type" SchemaKinds.toJson schema.kind
    ++ optionalField "format" .string schema.format
    ++ optionalField "title" .string schema.title
    ++ optionalField "description" .string schema.description
    ++ optionalField "enum" (listToJson id) schema.enumeration
    ++ optionalField "const" id schema.constant
    ++ optionalField "nullable" .bool schema.nullable
    ++ optionalField "items" itemsToJson schema.items
    ++ filledField "properties" (membersToJson refToJson) schema.properties
    ++ filledField "required" textsToJson schema.required
    ++ optionalField "additionalProperties" additionalToJson schema.additional
    ++ optionalField "allOf" (listToJson refToJson) schema.allOf
    ++ optionalField "anyOf" (listToJson refToJson) schema.anyOf
    ++ optionalField "oneOf" (listToJson refToJson) schema.oneOf
    ++ [("deprecated", .bool schema.deprecated)]

theorem refsToJson_eq_map (members : List (RefOr Schema)) :
    refsToJson members = members.map refToJson := by
  induction members with
  | nil => rfl
  | cons member rest ih => rw [refsToJson, ih, List.map_cons]

theorem propertiesToJson_eq_map (properties : List (String × RefOr Schema)) :
    propertiesToJson properties =
      properties.map fun entry => (entry.1, refToJson entry.2) := by
  induction properties with
  | nil => rfl
  | cons entry rest ih => rw [propertiesToJson, ih, List.map_cons]

theorem toJson_eq (schema : Schema) : toJson schema = .object (writtenFields schema) := by
  obtain ⟨kind, format, title, description, enumeration, constant, nullable, items, properties,
    required, additional, allOf, anyOf, oneOf, deprecated⟩ := schema
  have members : listToJson refToJson = fun members => .array (refsToJson members) :=
    funext fun members => congrArg Json.array (refsToJson_eq_map members).symm
  have entries : membersToJson refToJson =
      fun properties => .object (propertiesToJson properties) :=
    funext fun properties => congrArg Json.object (propertiesToJson_eq_map properties).symm
  have values : listToJson id = Json.array :=
    funext fun values => congrArg Json.array (List.map_id values)
  rw [writtenFields, members, entries, values]
  -- writing goes on inside of the keywords that hold schemas
  rcases items with _ | ⟨_⟩ | ⟨_⟩ <;> rcases additional with _ | ⟨_⟩ | ⟨_⟩ <;>
    cases allOf <;> cases anyOf <;> cases oneOf <;> rfl

theorem refToJson_eq (schema : RefOr Schema) : refToJson schema = RefOr.toJson toJson schema := by
  cases schema <;> rfl

theorem toJson_inline (schema : Schema) :
    ∃ entries, toJson schema = .object entries ∧ Keyed.find? "$ref" entries = none := by
  refine ⟨_, toJson_eq schema, ?_⟩
  simp [writtenFields, Keyed.find?_append, Keyed.find?]

theorem refToJson_object (schema : RefOr Schema) :
    ∃ entries, refToJson schema = .object entries := by
  cases schema with
  | reference target => exact ⟨_, rfl⟩
  | inline schema => exact ⟨_, toJson_eq schema⟩

section Keywords

variable {read reread : Json → Option (RefOr Schema)}

theorem items_rereads (schemas : Rereads bound read reread refToJson) :
    Rereads bound (items? read) (items? reread) itemsToJson where
  again json items readItems shallow := by
    unfold items? at readItems
    cases readTuple : list? read json with
    | some members =>
        rw [readTuple] at readItems
        obtain rfl := Option.some.inj readItems
        rw [itemsToJson, refsToJson_eq_map] at shallow ⊢
        have again := schemas.list.again json members readTuple shallow
        rw [listToJson] at again
        rw [items?, again]
    | none =>
        rw [readTuple] at readItems
        obtain ⟨item, readItem, rfl⟩ := Option.map_eq_some_iff.mp readItems
        obtain ⟨entries, written⟩ := refToJson_object item
        have again := schemas.again json item readItem shallow
        rw [written] at again
        rw [items?, itemsToJson, written, list?, again]
        · rfl
        · exact nofun
  present _ items _ _ := by
    cases items with
    | tuple members => exact nofun
    | single item =>
        obtain ⟨entries, written⟩ := refToJson_object item
        rw [itemsToJson, written]
        exact nofun

private theorem additional_rereads (schemas : Rereads bound read reread refToJson) :
    Rereads bound (additional? read) (additional? reread) additionalToJson where
  again json additional readAdditional shallow := by
    cases additional with
    | allowed value => rfl
    | schema item =>
        obtain ⟨source, readItem⟩ : ∃ source, read source = some item := by
          unfold additional? at readAdditional
          split at readAdditional
          · cases readAdditional
          · obtain ⟨_, readItem, same⟩ := Option.map_eq_some_iff.mp readAdditional
            exact ⟨_, AdditionalOf.schema.inj same ▸ readItem⟩
        obtain ⟨entries, written⟩ := refToJson_object item
        have again := schemas.again source item readItem shallow
        rw [written] at again
        rw [additionalToJson, written, additional?, again]
        · rfl
        · exact nofun
  present _ additional _ _ := by
    cases additional with
    | allowed value => exact nofun
    | schema item =>
        obtain ⟨entries, written⟩ := refToJson_object item
        rw [additionalToJson, written]
        exact nofun

theorem ofEntries?_again (schemas : Rereads bound read reread refToJson)
    {entries : List (String × Json)} {schema : Schema}
    (readEntries : ofEntries? read entries = some schema)
    (shallow : depthEntries (writtenFields schema) ≤ bound) :
    ofEntries? reread (writtenFields schema) = some schema := by
  obtain ⟨kind, readKind, readEntries⟩ := Option.bind_eq_some_iff.mp readEntries
  obtain ⟨format, readFormat, readEntries⟩ := Option.bind_eq_some_iff.mp readEntries
  obtain ⟨title, readTitle, readEntries⟩ := Option.bind_eq_some_iff.mp readEntries
  obtain ⟨description, readDescription, readEntries⟩ := Option.bind_eq_some_iff.mp readEntries
  obtain ⟨enumeration, readEnumeration, readEntries⟩ := Option.bind_eq_some_iff.mp readEntries
  obtain ⟨constant, readConstant, readEntries⟩ := Option.bind_eq_some_iff.mp readEntries
  obtain ⟨nullable, readNullable, readEntries⟩ := Option.bind_eq_some_iff.mp readEntries
  obtain ⟨items, readItems, readEntries⟩ := Option.bind_eq_some_iff.mp readEntries
  obtain ⟨properties, readProperties, readEntries⟩ := Option.bind_eq_some_iff.mp readEntries
  obtain ⟨required, readRequired, readEntries⟩ := Option.bind_eq_some_iff.mp readEntries
  obtain ⟨additional, readAdditional, readEntries⟩ := Option.bind_eq_some_iff.mp readEntries
  obtain ⟨allOf, readAllOf, readEntries⟩ := Option.bind_eq_some_iff.mp readEntries
  obtain ⟨anyOf, readAnyOf, readEntries⟩ := Option.bind_eq_some_iff.mp readEntries
  obtain ⟨oneOf, readOneOf, readEntries⟩ := Option.bind_eq_some_iff.mp readEntries
  obtain ⟨deprecated, readDeprecated, readEntries⟩ := Option.bind_eq_some_iff.mp readEntries
  obtain rfl := Option.some.inj readEntries
  rw [writtenFields] at shallow ⊢
  have kindAgain := optional_again SchemaKinds.rereads readKind shallow (by simp)
  have formatAgain := optional_again string_rereads readFormat shallow (by simp)
  have titleAgain := optional_again string_rereads readTitle shallow (by simp)
  have descriptionAgain := optional_again string_rereads readDescription shallow (by simp)
  have enumerationAgain := optional_again anything_rereads.list readEnumeration shallow (by simp)
  have constantAgain := optional_again anything_rereads readConstant shallow (by simp)
  have nullableAgain := optional_again bool_rereads readNullable shallow (by simp)
  have itemsAgain := optional_again (items_rereads schemas) readItems shallow (by simp)
  have propertiesAgain := filled_again schemas.members readProperties shallow (by simp)
  have requiredAgain := filled_again texts_rereads readRequired shallow (by simp)
  have additionalAgain :=
    optional_again (additional_rereads schemas) readAdditional shallow (by simp)
  have allOfAgain := optional_again schemas.list readAllOf shallow (by simp)
  have anyOfAgain := optional_again schemas.list readAnyOf shallow (by simp)
  have oneOfAgain := optional_again schemas.list readOneOf shallow (by simp)
  have deprecatedAgain := defaulted_again bool_rereads rfl readDeprecated shallow (by simp)
  simp only [ofEntries?, kindAgain, formatAgain, titleAgain, descriptionAgain, enumerationAgain,
    constantAgain, nullableAgain, itemsAgain, propertiesAgain, requiredAgain, additionalAgain,
    allOfAgain, anyOfAgain, oneOfAgain, deprecatedAgain, Option.bind_eq_bind, Option.bind_some]

end Keywords

/-- Whatever bound a schema was read with, its written form is read with its own depth. -/
theorem within_rereads (fuel : Nat) :
    Rereads bound (ofJsonWithin? fuel) (ofJsonWithin? (bound + 1)) refToJson := by
  -- every schema inside has less of both bounds
  induction fuel generalizing bound with
  | zero => exact ⟨nofun, nofun⟩
  | succ fuel ih =>
      have inside : Rereads bound (record? fieldNames (ofEntries? (ofJsonWithin? fuel)))
          (record? fieldNames (ofEntries? (ofJsonWithin? bound))) toJson := by
        rw [funext toJson_eq]
        refine ⟨fun json schema readSchema shallow => ?_, fun _ _ _ _ => nofun⟩
        obtain ⟨entries, -, readEntries⟩ := Option.bind_eq_some_iff.mp readSchema
        have deeper : depthEntries (writtenFields schema) + 1 ≤ bound := shallow
        cases bound with
        | zero => omega
        | succ bound =>
            rw [record?_object]
            exact ofEntries?_again ih readEntries (Nat.le_of_succ_le_succ deeper)
      rw [funext refToJson_eq]
      exact @Rereads.reference _ bound _ _ toJson inside toJson_inline

theorem ofJson?_rereads : Rereads bound ofJson? ofJson? refToJson where
  again _ schema readSchema _ := (within_rereads _).again _ schema readSchema (Nat.le_refl _)
  present _ schema readSchema present :=
    (@within_rereads bound _).present _ schema readSchema present

end Schema

/-! ### Requests and responses -/

theorem ParameterLocation.rereads :
    Rereads bound ParameterLocation.ofJson? ParameterLocation.ofJson?
      (fun location => .string location.keyword) where
  again _ location _ _ := by cases location <;> rfl
  present _ _ _ _ := nofun

theorem MediaType.rereads :
    Rereads bound MediaType.ofJson? MediaType.ofJson? MediaType.toJson :=
  Rereads.record fun entries media readEntries shallow => by
    simp only [Option.bind_eq_bind, Option.bind_eq_some_iff, Option.some.injEq] at readEntries
    obtain ⟨schema, readSchema, rfl⟩ := readEntries
    have schemaAgain := optional_again Schema.ofJson?_rereads readSchema shallow (by simp)
    simp only [schemaAgain, Option.bind_eq_bind, Option.bind_some]

theorem Parameter.rereads :
    Rereads bound Parameter.ofJson? Parameter.ofJson? Parameter.toJson :=
  Rereads.record fun entries parameter readEntries shallow => by
    simp only [Option.bind_eq_bind, Option.bind_eq_some_iff, Option.some.injEq] at readEntries
    obtain ⟨name, readName, location, readLocation, required, readRequired, description,
      readDescription, schema, readSchema, content, readContent, deprecated, readDeprecated,
      rfl⟩ := readEntries
    have nameAgain := required_again string_rereads readName shallow (by simp)
    have locationAgain := required_again ParameterLocation.rereads readLocation shallow (by simp)
    have requiredAgain := defaulted_again bool_rereads rfl readRequired shallow (by simp)
    have descriptionAgain := optional_again string_rereads readDescription shallow (by simp)
    have schemaAgain := optional_again Schema.ofJson?_rereads readSchema shallow (by simp)
    have contentAgain := filled_again MediaType.rereads.members readContent shallow (by simp)
    have deprecatedAgain := defaulted_again bool_rereads rfl readDeprecated shallow (by simp)
    simp only [nameAgain, locationAgain, requiredAgain, descriptionAgain, schemaAgain,
      contentAgain, deprecatedAgain, Option.bind_eq_bind, Option.bind_some]

theorem RequestBody.rereads :
    Rereads bound RequestBody.ofJson? RequestBody.ofJson? RequestBody.toJson :=
  Rereads.record fun entries body readEntries shallow => by
    simp only [Option.bind_eq_bind, Option.bind_eq_some_iff, Option.some.injEq] at readEntries
    obtain ⟨description, readDescription, content, readContent, required, readRequired, rfl⟩ :=
      readEntries
    have descriptionAgain := optional_again string_rereads readDescription shallow (by simp)
    have contentAgain := defaulted_again MediaType.rereads.members rfl readContent shallow (by simp)
    have requiredAgain := defaulted_again bool_rereads rfl readRequired shallow (by simp)
    simp only [descriptionAgain, contentAgain, requiredAgain, Option.bind_eq_bind,
      Option.bind_some]

theorem Response.rereads :
    Rereads bound Response.ofJson? Response.ofJson? Response.toJson :=
  Rereads.record fun entries response readEntries shallow => by
    simp only [Option.bind_eq_bind, Option.bind_eq_some_iff, Option.some.injEq] at readEntries
    obtain ⟨description, readDescription, content, readContent, rfl⟩ := readEntries
    have descriptionAgain := defaulted_again string_rereads rfl readDescription shallow (by simp)
    have contentAgain := defaulted_again MediaType.rereads.members rfl readContent shallow (by simp)
    simp only [descriptionAgain, contentAgain, Option.bind_eq_bind, Option.bind_some]

/-! A parameter, body or response is written as an object without the key of references. -/

theorem Parameter.referenced :
    Rereads bound (RefOr.ofJson? Parameter.ofJson?) (RefOr.ofJson? Parameter.ofJson?)
      (RefOr.toJson Parameter.toJson) :=
  Parameter.rereads.reference fun _ => ⟨_, rfl, by simp⟩

theorem RequestBody.referenced :
    Rereads bound (RefOr.ofJson? RequestBody.ofJson?) (RefOr.ofJson? RequestBody.ofJson?)
      (RefOr.toJson RequestBody.toJson) :=
  RequestBody.rereads.reference fun _ => ⟨_, rfl, by simp⟩

theorem Response.referenced :
    Rereads bound (RefOr.ofJson? Response.ofJson?) (RefOr.ofJson? Response.ofJson?)
      (RefOr.toJson Response.toJson) :=
  Response.rereads.reference fun _ => ⟨_, rfl, by simp⟩

private theorem requirement_rereads : Rereads bound requirement? requirement? requirementToJson :=
  texts_rereads.members

theorem SecurityScheme.rereads :
    Rereads bound SecurityScheme.ofJson? SecurityScheme.ofJson? SecurityScheme.toJson :=
  Rereads.record fun entries scheme readEntries shallow => by
    simp only [Option.bind_eq_bind, Option.bind_eq_some_iff, Option.some.injEq] at readEntries
    obtain ⟨kind, readKind, name, readName, location, readLocation, scheme, readScheme,
      bearerFormat, readBearerFormat, description, readDescription, rfl⟩ := readEntries
    have kindAgain := required_again string_rereads readKind shallow (by simp)
    have nameAgain := optional_again string_rereads readName shallow (by simp)
    have locationAgain := optional_again string_rereads readLocation shallow (by simp)
    have schemeAgain := optional_again string_rereads readScheme shallow (by simp)
    have bearerFormatAgain := optional_again string_rereads readBearerFormat shallow (by simp)
    have descriptionAgain := optional_again string_rereads readDescription shallow (by simp)
    simp only [kindAgain, nameAgain, locationAgain, schemeAgain, bearerFormatAgain,
      descriptionAgain, Option.bind_eq_bind, Option.bind_some]

/-! ### Operations -/

theorem Operation.rereads :
    Rereads bound Operation.ofJson? Operation.ofJson? Operation.toJson :=
  Rereads.record fun entries operation readEntries shallow => by
    obtain ⟨operationId, readOperationId, readEntries⟩ := Option.bind_eq_some_iff.mp readEntries
    obtain ⟨summary, readSummary, readEntries⟩ := Option.bind_eq_some_iff.mp readEntries
    obtain ⟨description, readDescription, readEntries⟩ := Option.bind_eq_some_iff.mp readEntries
    obtain ⟨tags, readTags, readEntries⟩ := Option.bind_eq_some_iff.mp readEntries
    obtain ⟨parameters, readParameters, readEntries⟩ := Option.bind_eq_some_iff.mp readEntries
    obtain ⟨requestBody, readRequestBody, readEntries⟩ := Option.bind_eq_some_iff.mp readEntries
    obtain ⟨responses, readResponses, readEntries⟩ := Option.bind_eq_some_iff.mp readEntries
    obtain ⟨security, readSecurity, readEntries⟩ := Option.bind_eq_some_iff.mp readEntries
    obtain ⟨deprecated, readDeprecated, readEntries⟩ := Option.bind_eq_some_iff.mp readEntries
    obtain rfl := Option.some.inj readEntries
    have operationIdAgain := optional_again string_rereads readOperationId shallow (by simp)
    have summaryAgain := optional_again string_rereads readSummary shallow (by simp)
    have descriptionAgain := optional_again string_rereads readDescription shallow (by simp)
    have tagsAgain := defaulted_again texts_rereads rfl readTags shallow (by simp)
    have parametersAgain :=
      defaulted_again Parameter.referenced.list rfl readParameters shallow (by simp)
    have requestBodyAgain := optional_again RequestBody.referenced readRequestBody shallow (by simp)
    have responsesAgain :=
      defaulted_again Response.referenced.members rfl readResponses shallow (by simp)
    have securityAgain := optional_again requirement_rereads.list readSecurity shallow (by simp)
    have deprecatedAgain := defaulted_again bool_rereads rfl readDeprecated shallow (by simp)
    simp only [operationIdAgain, summaryAgain, descriptionAgain, tagsAgain, parametersAgain,
      requestBodyAgain, responsesAgain, securityAgain, deprecatedAgain, Option.bind_eq_bind,
      Option.bind_some]

theorem PathItem.rereads :
    Rereads bound PathItem.ofJson? PathItem.ofJson? PathItem.toJson :=
  Rereads.record fun entries item readEntries shallow => by
    obtain ⟨summary, readSummary, readEntries⟩ := Option.bind_eq_some_iff.mp readEntries
    obtain ⟨description, readDescription, readEntries⟩ := Option.bind_eq_some_iff.mp readEntries
    obtain ⟨parameters, readParameters, readEntries⟩ := Option.bind_eq_some_iff.mp readEntries
    obtain ⟨get, readGet, readEntries⟩ := Option.bind_eq_some_iff.mp readEntries
    obtain ⟨put, readPut, readEntries⟩ := Option.bind_eq_some_iff.mp readEntries
    obtain ⟨post, readPost, readEntries⟩ := Option.bind_eq_some_iff.mp readEntries
    obtain ⟨delete, readDelete, readEntries⟩ := Option.bind_eq_some_iff.mp readEntries
    obtain ⟨options, readOptions, readEntries⟩ := Option.bind_eq_some_iff.mp readEntries
    obtain ⟨head, readHead, readEntries⟩ := Option.bind_eq_some_iff.mp readEntries
    obtain ⟨patch, readPatch, readEntries⟩ := Option.bind_eq_some_iff.mp readEntries
    obtain ⟨trace, readTrace, readEntries⟩ := Option.bind_eq_some_iff.mp readEntries
    obtain rfl := Option.some.inj readEntries
    have summaryAgain := optional_again string_rereads readSummary shallow (by simp)
    have descriptionAgain := optional_again string_rereads readDescription shallow (by simp)
    have parametersAgain :=
      defaulted_again Parameter.referenced.list rfl readParameters shallow (by simp)
    have getAgain := optional_again Operation.rereads readGet shallow (by simp)
    have putAgain := optional_again Operation.rereads readPut shallow (by simp)
    have postAgain := optional_again Operation.rereads readPost shallow (by simp)
    have deleteAgain := optional_again Operation.rereads readDelete shallow (by simp)
    have optionsAgain := optional_again Operation.rereads readOptions shallow (by simp)
    have headAgain := optional_again Operation.rereads readHead shallow (by simp)
    have patchAgain := optional_again Operation.rereads readPatch shallow (by simp)
    have traceAgain := optional_again Operation.rereads readTrace shallow (by simp)
    simp only [summaryAgain, descriptionAgain, parametersAgain, getAgain, putAgain, postAgain,
      deleteAgain, optionsAgain, headAgain, patchAgain, traceAgain, Option.bind_eq_bind,
      Option.bind_some]

/-! ### Documents -/

theorem Info.rereads : Rereads bound Info.ofJson? Info.ofJson? Info.toJson :=
  Rereads.record fun entries info readEntries shallow => by
    simp only [Option.bind_eq_bind, Option.bind_eq_some_iff, Option.some.injEq] at readEntries
    obtain ⟨title, readTitle, version, readVersion, description, readDescription, rfl⟩ :=
      readEntries
    have titleAgain := defaulted_again string_rereads rfl readTitle shallow (by simp)
    have versionAgain := defaulted_again string_rereads rfl readVersion shallow (by simp)
    have descriptionAgain := optional_again string_rereads readDescription shallow (by simp)
    simp only [titleAgain, versionAgain, descriptionAgain, Option.bind_eq_bind, Option.bind_some]

private theorem serverVariable_rereads :
    Rereads bound serverVariable? serverVariable? variableToJson :=
  Rereads.record fun _ _ readDefault shallow =>
    required_again string_rereads readDefault shallow (by simp)

theorem Server.rereads : Rereads bound Server.ofJson? Server.ofJson? Server.toJson :=
  Rereads.record fun entries server readEntries shallow => by
    simp only [Option.bind_eq_bind, Option.bind_eq_some_iff, Option.some.injEq] at readEntries
    obtain ⟨url, readUrl, description, readDescription, placeholders, readPlaceholders, rfl⟩ :=
      readEntries
    have urlAgain := required_again string_rereads readUrl shallow (by simp)
    have descriptionAgain := optional_again string_rereads readDescription shallow (by simp)
    have placeholdersAgain :=
      filled_again serverVariable_rereads.members readPlaceholders shallow (by simp)
    simp only [urlAgain, descriptionAgain, placeholdersAgain, Option.bind_eq_bind,
      Option.bind_some]

theorem Components.rereads :
    Rereads bound Components.ofJson? Components.ofJson? Components.toJson :=
  Rereads.record fun entries components readEntries shallow => by
    simp only [Option.bind_eq_bind, Option.bind_eq_some_iff, Option.some.injEq] at readEntries
    obtain ⟨schemas, readSchemas, responses, readResponses, parameters, readParameters,
      requestBodies, readRequestBodies, securitySchemes, readSecuritySchemes, rfl⟩ := readEntries
    have schemasAgain :=
      defaulted_again Schema.ofJson?_rereads.members rfl readSchemas shallow (by simp)
    have responsesAgain :=
      defaulted_again Response.referenced.members rfl readResponses shallow (by simp)
    have parametersAgain :=
      defaulted_again Parameter.referenced.members rfl readParameters shallow (by simp)
    have requestBodiesAgain :=
      defaulted_again RequestBody.referenced.members rfl readRequestBodies shallow (by simp)
    have securitySchemesAgain :=
      defaulted_again SecurityScheme.rereads.members rfl readSecuritySchemes shallow (by simp)
    simp only [schemasAgain, responsesAgain, parametersAgain, requestBodiesAgain,
      securitySchemesAgain, Option.bind_eq_bind, Option.bind_some]

namespace Document

def keys : List String :=
  ["openapi", "info", "servers", "paths", "components", "security"]

theorem rereads :
    Rereads bound (record? keys ofEntries?) (record? keys ofEntries?) Document.toJson :=
  Rereads.record fun entries document readEntries shallow => by
    simp only [ofEntries?, Option.bind_eq_bind, Option.bind_eq_some_iff,
      Option.some.injEq] at readEntries
    obtain ⟨openapi, readOpenapi, info, readInfo, servers, readServers, paths, readPaths,
      components, readComponents, security, readSecurity, rfl⟩ := readEntries
    have openapiAgain := defaulted_again string_rereads rfl readOpenapi shallow (by simp)
    have infoAgain := defaulted_again Info.rereads rfl readInfo shallow (by simp)
    have serversAgain := defaulted_again Server.rereads.list rfl readServers shallow (by simp)
    have pathsAgain := defaulted_again PathItem.rereads.members rfl readPaths shallow (by simp)
    have componentsAgain := defaulted_again Components.rereads rfl readComponents shallow (by simp)
    have securityAgain := optional_again requirement_rereads.list readSecurity shallow (by simp)
    simp only [ofEntries?, openapiAgain, infoAgain, serversAgain, pathsAgain, componentsAgain,
      securityAgain, Option.bind_eq_bind, Option.bind_some]

theorem ofJson_ok {json : Json} {document : Document} (read : ofJson json = .ok document) :
    Text.startsWith "3." document.openapi = true ∧
      record? keys ofEntries? json = some document := by
  unfold ofJson at read
  split at read
  · cases read
  · split at read
    · cases read
    · split at read
      · cases read
      next version listed supported =>
        split at read
        next found readDocument =>
          have same : found = document := Except.ok.inj read
          rw [same] at readDocument
          refine ⟨?_, readDocument⟩
          obtain ⟨value, found, text⟩ := Option.bind_eq_some_iff.mp listed
          cases json with
          | object entries =>
              have named : document.openapi = version := by
                have readEntries : ofEntries? entries = some document := readDocument
                simp only [ofEntries?, Option.bind_eq_bind, Option.bind_eq_some_iff,
                  Option.some.injEq] at readEntries
                obtain ⟨openapi, readOpenapi, _, _, _, _, _, _, _, _, _, _, rfl⟩ := readEntries
                rw [defaulted?, show Keyed.find? "openapi" entries = some value from found]
                  at readOpenapi
                exact Option.some.inj (readOpenapi.symm.trans text)
              rw [named]
              simpa using supported
          | _ => contradiction
        · cases read

/-- A document that was read is written in a form that gives the same document. -/
theorem ofJson_toJson {json : Json} {document : Document} (read : ofJson json = .ok document) :
    ofJson document.toJson = .ok document := by
  obtain ⟨supported, readDocument⟩ := ofJson_ok read
  have again := rereads.again json document readDocument (Nat.le_refl _)
  have unversioned : document.toJson.get? "swagger" = none := by
    simp [toJson, Json.get?, Keyed.find?]
  have versioned : (document.toJson.get? "openapi").bind Json.asString? =
      some document.openapi := by
    simp [toJson, Json.get?, Keyed.find?, Json.asString?]
  rw [ofJson, unversioned, versioned]
  rw [keys] at again
  dsimp only
  rw [supported, again]
  rfl

/-- A parameter spelled as a list, at an unknown location; a list of kinds, a tuple of items,
an empty `allOf` and a constant that is null. -/
theorem ofJson_toJson_spellings :
    let parameter := Json.array [.string "page", .string "nowhere"]
    let schema := Json.object
      [("type", .array [.string "array", .string "null"]), ("items", .array [.object []]),
        ("const", .null), ("allOf", .array []), ("additionalProperties", .bool false)]
    let json := Json.object
      [("openapi", .string "3.1.0"),
        ("components", .object
          [("schemas", .object [("Pages", schema)]),
            ("parameters", .object [("Page", parameter)])])]
    ∃ document, ofJson json = .ok document ∧ ofJson document.toJson = .ok document ∧
      document.components.parameters =
        [("Page", .inline
          { name := "page", location := .unknown, required := false, description := none
            schema := none, content := [], deprecated := false })] := by
  intro parameter schema json
  obtain ⟨document, read⟩ : ∃ document, ofJson json = .ok document := ⟨_, rfl⟩
  refine ⟨document, read, ofJson_toJson read, ?_⟩
  obtain rfl := Except.ok.inj read
  rfl

end Document

end ElmClient
