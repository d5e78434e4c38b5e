/-
What becomes of the properties of a schema. They are kept as fields, alone and next to
`allOf`; `anyOf` and `oneOf` come first, and nothing is then made of them. A field of a
merged object is required exactly when some part of the merge that has the key, from its own
properties or from below, lists it as required or has a direct inline member that does. So a
key listed behind a reference, or one `allOf` further down, stays optional if it is declared
elsewhere.
-/

import ElmClient.Proofs.Resolve.Merged
import ElmClient.Proofs.Sample

namespace ElmClient.Resolve

/-! ### Fields of a merge -/

/-- A schema that merges its members is an object; it has the fields that are declared
anywhere in the merge, and those are required that are demanded by a part. -/
theorem merged_required_iff {schemas : SchemaMap} {levels : Nat} {site : Site} {schema : Schema}
    {scope : Scope} {log reached : Log Registry} {shape : Shape} (merges : MergesAllOf schema)
    (resolved : (schemaWithin schemas levels site (.inline schema)).outcome scope log =
      (.ok shape, reached)) :
    ∃ fields, shape.withoutNull = .object fields ∧
      (∀ key, key ∈ Field.keys fields ↔ Declares schemas key (.inline schema)) ∧
      ∀ key field, Field.find? key fields = some field →
        (field.required = true ↔
          ∃ part, PartOf schemas part (.inline schema) ∧ key ∈ requiredKeys part ∧
            Declares schemas key (.inline part)) := by
  have merged := schemaWithin_returns (fun inner (contributes : inner.Contributes schemas) =>
    inline_merges contributes site merges) _ _ _ _ resolved
  obtain ⟨fields, isObject, matched⟩ := merged
  refine ⟨fields, isObject, fun key => ?_, fun key field found => ?_⟩
  · rw [← Field.has_iff_mem_keys]
    exact (matched key).1
  · have requires : Field.Requires key fields ↔ field.required = true := by
      rw [Field.Requires, found]
      simp
    exact requires.symm.trans (matched key).2

/-- A key of a referenced member, listed by a direct inline member. -/
theorem merged_required_beside :
    let schemas : SchemaMap :=
      [("A", .inline (Schema.record [("x", .inline (Schema.oneOfTexts ["on"]))]))]
    let schema :=
      { Schema.bare with
        allOf := some
          [.reference "#/components/schemas/A",
            .inline { Schema.bare with required := ["x"] }] }
    MergesAllOf schema ∧ ∃ shape reached,
      (schemaWithin schemas 4 (Site.unowned (TypeName.ofRaw "Site")) (.inline schema)).outcome
          (Scope.root .failOnUnsupported) (Log.starting Registry.empty) = (.ok shape, reached) ∧
        ∃ fields, shape.withoutNull = .object fields ∧
          (∀ key, key ∈ Field.keys fields ↔ Declares schemas key (.inline schema)) ∧
          ∀ key field, Field.find? key fields = some field →
            (field.required = true ↔
              ∃ part, PartOf schemas part (.inline schema) ∧ key ∈ requiredKeys part ∧
                Declares schemas key (.inline part)) := by
  intro schemas schema
  have merges : MergesAllOf schema :=
    ⟨Or.inl rfl, rfl, rfl, rfl, rfl, Or.inr (Or.inr (by decide))⟩
  have isOk : ((schemaWithin schemas 4 (Site.unowned (TypeName.ofRaw "Site"))
      (.inline schema)).outcome (Scope.root .failOnUnsupported)
      (Log.starting Registry.empty)).1.isOk = true := by
    decide +kernel
  obtain ⟨shape, reached, resolved⟩ := Run.succeeds_of_isOk isOk
  exact ⟨merges, shape, reached, resolved, merged_required_iff merges resolved⟩

/-- A key that one referenced member declares and another one requires stays optional. -/
theorem required_by_another_reference_lost :
    let holder := Schema.record [("x", .inline (Schema.oneOfTexts ["on"]))]
    let wanting :=
      { Schema.record [("y", .inline (Schema.oneOfTexts ["on"]))] with required := ["x"] }
    let schemas : SchemaMap := [("A", .inline holder), ("R", .inline wanting)]
    let schema :=
      { Schema.bare with
        allOf := some
          [.reference "#/components/schemas/A", .reference "#/components/schemas/R"] }
    MergesAllOf schema ∧ Declares schemas "x" (.inline schema) ∧
      PartOf schemas wanting (.inline schema) ∧ "x" ∈ wanting.required ∧
      ∃ shape reached fields field,
        (schemaWithin schemas 4 (Site.unowned (TypeName.ofRaw "Site")) (.inline schema)).outcome
            (Scope.root .failOnUnsupported) (Log.starting Registry.empty) =
          (.ok shape, reached) ∧
        shape.withoutNull = .object fields ∧ Field.find? "x" fields = some field ∧
        field.required = false := by
  intro holder wanting schemas schema
  have merges : MergesAllOf schema :=
    ⟨Or.inl rfl, rfl, rfl, rfl, rfl, Or.inr (Or.inr (by decide))⟩
  have parsedFirst : Reference.parse "#/components/schemas/A" = .ok ⟨.schemas, "A"⟩ := rfl
  have parsedSecond : Reference.parse "#/components/schemas/R" = .ok ⟨.schemas, "R"⟩ := rfl
  have first : referenced? schemas "#/components/schemas/A" = some (.inline holder) :=
    referenced?_of_parse parsedFirst
  have second : referenced? schemas "#/components/schemas/R" = some (.inline wanting) :=
    referenced?_of_parse parsedSecond
  have declares : Declares schemas "x" (.inline schema) :=
    .member rfl List.mem_cons_self (.reference first (.own (Or.inr rfl) List.mem_cons_self))
  have part : PartOf schemas wanting (.inline schema) :=
    .member rfl (List.mem_cons_of_mem _ List.mem_cons_self) (.reference second .itself)
  have notDemanded : ¬ Demands schemas "x" (.inline schema) := by
    have inFirst : ¬ Demands schemas "x" (.reference "#/components/schemas/A") := by
      rw [demands_reference_iff first, demands_alone_iff rfl]
      exact fun both => List.not_mem_nil both.1
    have inSecond : ¬ Demands schemas "x" (.reference "#/components/schemas/R") := by
      rw [demands_reference_iff second, demands_alone_iff rfl, declares_alone_iff rfl]
      exact fun all => absurd all.2.2 (by decide)
    rw [demands_inline_iff]
    rintro (⟨required, _⟩ | ⟨member, listed, demands⟩)
    · exact List.not_mem_nil required
    · rcases List.mem_pair.mp listed with rfl | rfl
      · exact inFirst demands
      · exact inSecond demands
  have isOk : ((schemaWithin schemas 4 (Site.unowned (TypeName.ofRaw "Site"))
      (.inline schema)).outcome (Scope.root .failOnUnsupported)
      (Log.starting Registry.empty)).1.isOk = true := by
    decide +kernel
  obtain ⟨shape, reached, resolved⟩ := Run.succeeds_of_isOk isOk
  obtain ⟨fields, isObject, matched⟩ :=
    schemaWithin_returns (fun inner (contributes : inner.Contributes schemas) =>
      inline_merges contributes _ merges) _ _ _ _ resolved
  obtain ⟨field, found⟩ := (matched "x").1.mpr declares
  refine ⟨merges, declares, part, List.mem_cons_self, shape, reached, fields, field, resolved,
    isObject, found, ?_⟩
  rw [← (matched "x").2] at notDemanded
  exact Bool.eq_false_iff.mpr fun required => notDemanded ⟨field, found, required⟩

/-! ### Properties next to other keywords -/

section

variable {schemas : SchemaMap} {inner : Inner} {schema : Schema}

theorem inline_keeps_properties (contributes : inner.Contributes schemas) (site : Site)
    (typed : ObjectTyped schema) (enumeration : schema.enumeration = none)
    (anyOf : schema.anyOf = none) (oneOf : schema.oneOf = none)
    (declares : schema.properties ≠ []) :
    Run.Returns (inline schemas inner site schema) fun shape =>
      ∃ fields, shape.withoutNull = .object fields ∧
        ∀ key ∈ Keyed.keys schema.properties, Field.Has key fields := by
  cases composed : schema.allOf with
  | some members =>
      have merges : MergesAllOf schema :=
        ⟨typed, by rw [composed]; rfl, enumeration, anyOf, oneOf, Or.inl declares⟩
      refine (inline_merges contributes site merges).imp ?_
      rintro shape ⟨fields, isObject, matched⟩
      exact ⟨fields, isObject, fun key listed =>
        (matched key).1.mpr (.own (Or.inl merges.composed) listed)⟩
  | none =>
      apply inline_returns
      · simp [Schema.isUnconstrained, declares]
      · exact typed
      rw [ofKinds_plain typed (by simp [hasComposition, composed, anyOf, oneOf]) enumeration
        declares, object, if_neg (by simpa using declares)]
      exact .map (properties_returns inner site schema)
        fun fields listed => ⟨fields, rfl, fun key => (listed key).1.mpr⟩

theorem inline_ignores_properties (inner : Inner) (site : Site) (typed : ObjectTyped schema)
    (enumeration : schema.enumeration = none)
    (alternatives : schema.anyOf.isSome = true ∨ schema.oneOf.isSome = true) :
    inline schemas inner site schema =
      inline schemas inner site { schema with properties := [] } := by
  have composed : hasComposition schema = true := by
    rcases alternatives with anyOf | oneOf
    · rw [hasComposition, anyOf, Bool.or_true, Bool.true_or]
    · rw [hasComposition, oneOf, Bool.or_true]
  have bareTyped : ObjectTyped { schema with properties := [] } := typed
  have bareComposed : hasComposition { schema with properties := [] } = true := composed
  -- Neither the rule for alternatives nor the owner of their union looks at the properties.
  have sameUntyped : untyped schemas inner site schema =
      untyped schemas inner site { schema with properties := [] } := by
    rcases Option.eq_none_or_eq_some schema.anyOf with anyOf | ⟨members, anyOf⟩
    · rcases Option.eq_none_or_eq_some schema.oneOf with oneOf | ⟨members, oneOf⟩
      · simp [anyOf, oneOf] at alternatives
      · refine (untyped_oneOf enumeration anyOf oneOf).trans (Eq.symm ?_)
        exact untyped_oneOf enumeration anyOf oneOf
    · refine (untyped_anyOf enumeration anyOf).trans (Eq.symm ?_)
      exact untyped_anyOf enumeration anyOf
  have sameBase : base schemas inner site schema =
      base schemas inner site { schema with properties := [] } := by
    rw [base, base, constrained_of_composed composed, constrained_of_composed bareComposed,
      ofKinds_composed typed composed, ofKinds_composed bareTyped bareComposed, sameUntyped]
    rfl
  rw [inline, inline, sameBase]

theorem schemaWithin_ignores_properties {levels : Nat} {site : Site} (typed : ObjectTyped schema)
    (enumeration : schema.enumeration = none)
    (alternatives : schema.anyOf.isSome = true ∨ schema.oneOf.isSome = true) :
    schemaWithin schemas levels site (.inline schema) =
      schemaWithin schemas levels site (.inline { schema with properties := [] }) := by
  cases levels with
  | zero => rfl
  | succ levels => exact inline_ignores_properties _ site typed enumeration alternatives

end

/-- The properties of an object become fields unless there are alternatives; next to
those, the schema is resolved as if it had no properties. -/
theorem properties_kept_or_ignored {schemas : SchemaMap} {levels : Nat} {site : Site}
    {schema : Schema} {scope : Scope} {log reached : Log Registry} {shape : Shape}
    (typed : ObjectTyped schema) (enumeration : schema.enumeration = none)
    (declares : schema.properties ≠ [])
    (resolved : (schemaWithin schemas levels site (.inline schema)).outcome scope log =
      (.ok shape, reached)) :
    (schema.anyOf = none ∧ schema.oneOf = none →
      ∃ fields, shape.withoutNull = .object fields ∧
        ∀ key ∈ Keyed.keys schema.properties, key ∈ Field.keys fields) ∧
    (schema.anyOf.isSome = true ∨ schema.oneOf.isSome = true →
      (schemaWithin schemas levels site
          (.inline { schema with properties := [] })).outcome scope log =
        (.ok shape, reached)) := by
  constructor
  · rintro ⟨anyOf, oneOf⟩
    have keeps := schemaWithin_returns (fun inner (contributes : inner.Contributes schemas) =>
      inline_keeps_properties contributes site typed enumeration anyOf oneOf declares) _ _ _ _
      resolved
    obtain ⟨fields, isObject, kept⟩ := keeps
    exact ⟨fields, isObject, fun key listed => Field.has_iff_mem_keys.mp (kept key listed)⟩
  · intro alternatives
    rw [← schemaWithin_ignores_properties typed enumeration alternatives]
    exact resolved

/-- Properties next to a reference to merge, admitting null. -/
theorem properties_kept_beside_reference :
    let schemas : SchemaMap :=
      [("A", .inline (Schema.record [("x", .inline (Schema.oneOfTexts ["on"]))]))]
    let schema :=
      { Schema.record [("y", .inline (Schema.oneOfTexts ["off"]))] with
        kind := some (.many ["null", "object"])
        allOf := some [.reference "#/components/schemas/A"] }
    ObjectTyped schema ∧ schema.enumeration = none ∧ schema.properties ≠ [] ∧
      ∃ shape reached,
        (schemaWithin schemas 4 (Site.unowned (TypeName.ofRaw "Site")) (.inline schema)).outcome
            (Scope.root .failOnUnsupported) (Log.starting Registry.empty) =
          (.ok shape, reached) ∧
        ∃ fields, shape.withoutNull = .object fields ∧
          ∀ key ∈ Keyed.keys schema.properties, key ∈ Field.keys fields := by
  intro schemas schema
  have typed : ObjectTyped schema := by decide
  have isOk : ((schemaWithin schemas 4 (Site.unowned (TypeName.ofRaw "Site"))
      (.inline schema)).outcome (Scope.root .failOnUnsupported)
      (Log.starting Registry.empty)).1.isOk = true := by
    decide +kernel
  obtain ⟨shape, reached, resolved⟩ := Run.succeeds_of_isOk isOk
  exact ⟨typed, rfl, List.cons_ne_nil _ _, shape, reached, resolved,
    (properties_kept_or_ignored typed rfl (List.cons_ne_nil _ _) resolved).1 ⟨rfl, rfl⟩⟩

/-- Alternatives that only require properties make a union without any of them, and there
is no warning. -/
theorem properties_beside_anyOf_lost :
    let schema :=
      { Schema.record
          [("a", .inline (Schema.oneOfTexts ["on"])), ("b", .inline (Schema.oneOfTexts ["off"]))]
        with
        anyOf := some
          [.inline { Schema.bare with required := ["a"] },
            .inline { Schema.bare with required := ["b"] }] }
    ObjectTyped schema ∧ schema.enumeration = none ∧ schema.properties ≠ [] ∧
      ∃ shape reached,
        (schemaWithin [] 2 (Site.unowned (TypeName.ofRaw "Site")) (.inline schema)).outcome
            (Scope.root .failOnUnsupported) (Log.starting Registry.empty) =
          (.ok shape, reached) ∧
        reached.warnings = [] ∧ ∀ fields, shape.withoutNull ≠ .object fields := by
  intro schema
  have typed : ObjectTyped schema := by decide
  exact ⟨typed, rfl, List.cons_ne_nil _ _, .union _ _, _, rfl, rfl, nofun⟩

end ElmClient.Resolve
