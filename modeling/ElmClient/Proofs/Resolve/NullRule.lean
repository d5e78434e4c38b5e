/-
Two alternatives of which one is null. A member is taken for null if names of components lead
to a schema that describes only null, whatever sections the references point into. So the rule
is exact unless just one member comes to null through a reference into another section.
-/

import ElmClient.Proofs.Closed.Schema
import ElmClient.Proofs.Registry.Registering
import ElmClient.Proofs.Resolve.Chains
import ElmClient.Proofs.Sample

namespace ElmClient.Resolve

open Run

/-! ### Null along references -/

/-- References into the sections lead from the member to a schema that describes only null. -/
def LeadsToNull (sections : Section → Prop) (schemas : SchemaMap) (member : RefOr Schema) :
    Prop :=
  ∃ names found, Chain sections schemas member names (.inline found) ∧ found.isNullKind = true

/-- The member is null itself or refers to null over schema components. -/
def DescribesNull (schemas : SchemaMap) (member : RefOr Schema) : Prop :=
  LeadsToNull (· = .schemas) schemas member

/-- The names of components lead to null, but references into the section of schemas alone do
not. -/
def Misdirected (schemas : SchemaMap) (member : RefOr Schema) : Prop :=
  LeadsToNull (fun _ => True) schemas member ∧ ¬ DescribesNull schemas member

/-- The member is a reference that is malformed, points into another section or names a
missing schema. -/
def Refused (schemas : SchemaMap) (member : RefOr Schema) : Prop :=
  ∃ text, member = .reference text ∧ ∀ raw, ¬ RefersTo schemas text raw

section Null

variable {schemas : SchemaMap} {member last : RefOr Schema} {names : List String}

private theorem Chain.anywhere {sections : Section → Prop}
    (chain : Chain sections schemas member names last) :
    Chain (fun _ => True) schemas member names last := by
  induction chain with
  | start item => exact .start item
  | step passes _ ih =>
      obtain ⟨component, _, parsed⟩ := passes.parsed
      exact .step ⟨⟨component, trivial, parsed⟩, passes.found⟩ ih

private theorem DescribesNull.anywhere (null : DescribesNull schemas member) :
    LeadsToNull (fun _ => True) schemas member := by
  obtain ⟨names, found, chain, onlyNull⟩ := null
  exact ⟨names, found, chain.anywhere, onlyNull⟩

private theorem misdirected_iff (anywhere : LeadsToNull (fun _ => True) schemas member) :
    Misdirected schemas member ↔ ¬ DescribesNull schemas member :=
  and_iff_right anywhere

private theorem not_misdirected (nowhere : ¬ LeadsToNull (fun _ => True) schemas member) :
    ¬ Misdirected schemas member :=
  fun misdirected => nowhere misdirected.1

private theorem DescribesNull.not_refused (null : DescribesNull schemas member) :
    ¬ Refused schemas member := by
  rintro ⟨text, rfl, nowhere⟩
  obtain ⟨_, found, chain, _⟩ := null
  cases chain with
  | step passes rest =>
      obtain ⟨_, rfl, parsed⟩ := passes.parsed
      exact nowhere _ ⟨parsed, List.mem_map_of_mem (Keyed.mem_of_find? passes.found)⟩

theorem Chain.describesNull_eq (chain : Chain (fun _ => True) schemas member names last)
    (looks : Nat) :
    describesNull schemas (names.length + looks) member = describesNull schemas looks last := by
  induction chain with
  | start item => rw [List.length_nil, Nat.zero_add]
  | step passes rest ih =>
      obtain ⟨_, _, parsed⟩ := passes.parsed
      rw [List.length_cons, Nat.add_right_comm, describesNull]
      simp only [referenced?, parsed, passes.found]
      exact ih

theorem describesNull_ends {text : String}
    (ends : Ends (fun _ => True) schemas (.reference text)) (looks : Nat) :
    describesNull schemas looks (.reference text) = false := by
  have missing : referenced? schemas text = none := by
    unfold referenced?
    cases parsed : Reference.parse text with
    | error malformed => rfl
    | ok reference =>
        cases found : Keyed.find? reference.name schemas with
        | none => exact found
        | some next => exact absurd ⟨⟨_, trivial, parsed⟩, found⟩ (ends text _ next rfl)
  cases looks with
  | zero => rfl
  | succ looks => simp only [describesNull, missing]

theorem isNull_iff (schemas : SchemaMap) (member : RefOr Schema) :
    isNull schemas member = true ↔ LeadsToNull (fun _ => True) schemas member := by
  unfold isNull
  rcases ends_or_leadsOn (fun _ => True) schemas member with
    ⟨names, last, chain, ends, few⟩ | endless
  · obtain ⟨spare, enough⟩ := Nat.exists_eq_add_of_le few
    rw [enough, Nat.add_assoc, chain.describesNull_eq]
    cases last with
    | inline found =>
        change found.isNullKind = true ↔ _
        constructor
        · intro onlyNull
          exact ⟨names, found, chain, onlyNull⟩
        · rintro ⟨others, other, also, onlyNull⟩
          obtain ⟨-, same⟩ := chain.unique ends also (ends_inline other)
          cases same
          exact onlyNull
    | reference text =>
        rw [describesNull_ends ends]
        refine iff_of_false Bool.false_ne_true ?_
        rintro ⟨others, other, also, _⟩
        obtain ⟨-, same⟩ := chain.unique ends also (ends_inline other)
        cases same
  · obtain ⟨names, last, chain, long⟩ := endless.long (schemas.length + 1)
    have spent := chain.describesNull_eq 0
    rw [Nat.add_zero, long] at spent
    rw [spent]
    refine iff_of_false Bool.false_ne_true ?_
    rintro ⟨others, other, also, _⟩
    exact endless.not_ends also (ends_inline other)

theorem isNull_eq_false_iff (schemas : SchemaMap) (member : RefOr Schema) :
    isNull schemas member = false ↔ ¬ LeadsToNull (fun _ => True) schemas member := by
  rw [← Bool.not_eq_true, isNull_iff]

end Null

/-! ### Two members -/

section Pairs

variable (schemas : SchemaMap) (levels : Nat) (site : Site) (owner : Option TypeName)
  (keyword : String) (first second : RefOr Schema)

def innerWithin : Inner :=
  ⟨schemaWithin schemas levels, contributionWithin schemas levels⟩

def memberRun (index : Nat) (name : TypeName) (member : RefOr Schema) : Run Registry Shape :=
  Run.withPath (keyword ++ "[" ++ toString index ++ "]")
    (schemaWithin schemas levels (Site.unowned name) member)

def MadeNullable (index : Nat) (member : RefOr Schema) (scope : Scope) (log : Log Registry)
    (shape : Shape) (after : Log Registry) : Prop :=
  ∃ inner, (memberRun schemas levels keyword index site.name member).outcome scope log =
      (.ok inner, after) ∧
    shape = inner.toNullable

def MadeUnion (scope : Scope) (log : Log Registry) (shape : Shape) : Prop :=
  ∃ name left right, shape = .union name [left, right] ∧
    ∃ leftName rightName middle last,
      (memberRun schemas levels keyword 0 leftName first).outcome scope log =
          (.ok left.shape, middle) ∧
        (memberRun schemas levels keyword 1 rightName second).outcome scope middle =
          (.ok right.shape, last)

/-- What two alternatives give when exactly one of them is null, and otherwise. -/
structure NullRule (scope : Scope) (log : Log Registry) (shape : Shape)
    (after : Log Registry) : Prop where
  nullFirst : DescribesNull schemas first → ¬ DescribesNull schemas second →
    MadeNullable schemas levels site keyword 1 second scope log shape after
  nullSecond : ¬ DescribesNull schemas first → DescribesNull schemas second →
    MadeNullable schemas levels site keyword 0 first scope log shape after
  union : (DescribesNull schemas first ↔ DescribesNull schemas second) →
    MadeUnion schemas levels keyword first second scope log shape
  accepted : ¬ Refused schemas first ∧ ¬ Refused schemas second

end Pairs

section Outcomes

variable {schemas : SchemaMap} {levels : Nat} {site : Site} {owner : Option TypeName}
  {keyword : String} {first second : RefOr Schema} {scope : Scope} {log after : Log Registry}
  {shape : Shape}

private theorem MadeNullable.not_union {index : Nat} {member : RefOr Schema}
    (made : MadeNullable schemas levels site keyword index member scope log shape after) :
    ¬ MadeUnion schemas levels keyword first second scope log shape := by
  obtain ⟨inner, -, rfl⟩ := made
  rintro ⟨name, left, right, same, -⟩
  cases inner <;> cases same

private theorem memberRun_accepted {index : Nat} {name : TypeName} {member : RefOr Schema}
    (ended : (memberRun schemas levels keyword index name member).outcome scope log =
      (.ok shape, after)) : ¬ Refused schemas member := by
  rintro ⟨text, rfl, nowhere⟩
  cases levels with
  | zero => cases ended
  | succ levels =>
      obtain ⟨reference, middle, parsed, -⟩ := parts_of_outcome_bind ended
      obtain ⟨-, refers⟩ := schemaReference_refersTo schemas text _ _ _ _ parsed
      exact nowhere _ refers

theorem registeredUnion_ok {variants : List Variant}
    (ended : (registeredUnion site owner variants).outcome scope log = (.ok shape, after)) :
    ∃ name renamed, shape = .union name renamed ∧
      renamed.map VariantOf.shape = variants.map VariantOf.shape := by
  obtain ⟨stored, middle, registered, same⟩ := parts_of_outcome_bind ended
  cases same
  rw [outcome_registerUnion] at registered
  cases registered
  have placed : (log.store.registerUnion ⟨site.name, variants⟩ owner).1 =
      log.store.placed ⟨site.name, variants⟩ := by
    unfold Registry.registerUnion
    dsimp only
    split <;> rfl
  refine ⟨_, _, rfl, ?_⟩
  rw [placed]
  rcases log.store.placed_cases ⟨site.name, variants⟩ with equal | ⟨number, equal⟩
  · rw [equal]
  · rw [equal, Union.renamed, List.map_map]
    rfl

private theorem variants_pair_ok {leftLabel rightLabel : String} {variants : List Variant}
    (ended : (Run.traverseIndexed keyword (variant (innerWithin schemas levels) site)
      [(first, leftLabel), (second, rightLabel)]).outcome scope log = (.ok variants, after)) :
    ∃ left right middle, variants = [left, right] ∧
      (memberRun schemas levels keyword 0 (site.name.child leftLabel) first).outcome scope log =
          (.ok left.shape, middle) ∧
        (memberRun schemas levels keyword 1 (site.name.child rightLabel) second).outcome scope
          middle = (.ok right.shape, after) := by
  obtain ⟨left, middle, atFirst, others⟩ := parts_of_outcome_bind ended
  obtain ⟨rest, _, behind, same⟩ := parts_of_outcome_bind others
  cases same
  obtain ⟨right, last, atSecond, more⟩ := parts_of_outcome_bind behind
  cases more
  obtain ⟨leftShape, _, firstEnded, same⟩ := parts_of_outcome_bind atFirst
  cases same
  obtain ⟨rightShape, _, secondEnded, same⟩ := parts_of_outcome_bind atSecond
  cases same
  exact ⟨_, _, middle, rfl, firstEnded, secondEnded⟩

theorem unionOf_pair_ok
    (ended : (unionOf (innerWithin schemas levels) site owner keyword [first, second]).outcome
      scope log = (.ok shape, after)) :
    MadeUnion schemas levels keyword first second scope log shape := by
  obtain ⟨leftLabel, rightLabel, labels⟩ : ∃ leftLabel rightLabel,
      memberLabels [] 0 [first, second] = [leftLabel, rightLabel] := ⟨_, _, rfl⟩
  unfold unionOf at ended
  rw [labels] at ended
  obtain ⟨variants, last, resolved, registered⟩ := parts_of_outcome_bind ended
  obtain ⟨left, right, middle, rfl, firstEnded, secondEnded⟩ := variants_pair_ok resolved
  obtain ⟨name, renamed, rfl, shapes⟩ := registeredUnion_ok registered
  obtain ⟨leftStored, others, rfl, leftShape, tail⟩ := List.map_eq_cons_iff.mp shapes
  obtain ⟨rightStored, rest, rfl, rightShape, none⟩ := List.map_eq_cons_iff.mp tail
  obtain rfl := List.map_eq_nil_iff.mp none
  rw [← leftShape] at firstEnded
  rw [← rightShape] at secondEnded
  exact ⟨name, leftStored, rightStored, rfl, _, _, middle, last, firstEnded, secondEnded⟩

private theorem MadeNullable.accepted {index : Nat} {member : RefOr Schema}
    (made : MadeNullable schemas levels site keyword index member scope log shape after) :
    ¬ Refused schemas member := by
  obtain ⟨inner, ended, -⟩ := made
  exact memberRun_accepted ended

private theorem MadeUnion.accepted
    (made : MadeUnion schemas levels keyword first second scope log shape) :
    ¬ Refused schemas first ∧ ¬ Refused schemas second := by
  obtain ⟨_, _, _, -, _, _, _, _, firstEnded, secondEnded⟩ := made
  exact ⟨memberRun_accepted firstEnded, memberRun_accepted secondEnded⟩

/-- Two alternatives that resolve follow the rule for null exactly when both or none of them
come to null through another section. -/
theorem nullRule_iff
    (ended : (alternatives schemas (innerWithin schemas levels) site owner keyword
      [first, second]).outcome scope log = (.ok shape, after)) :
    NullRule schemas levels site keyword first second scope log shape after ↔
      (Misdirected schemas first ↔ Misdirected schemas second) := by
  unfold alternatives at ended
  dsimp only at ended
  split at ended
  case h_1 firstNull secondNull =>
    rw [isNull_iff] at firstNull
    rw [isNull_eq_false_iff] at secondNull
    have secondNot : ¬ DescribesNull schemas second := fun null => secondNull null.anywhere
    obtain ⟨inner, _, resolved, same⟩ := parts_of_outcome_bind ended
    cases same
    have made : MadeNullable schemas levels site keyword 1 second scope log _ after :=
      ⟨inner, resolved, rfl⟩
    rw [misdirected_iff firstNull, iff_false_right (not_misdirected secondNull), not_not]
    constructor
    · intro rule
      by_contra firstNot
      exact made.not_union (rule.union (iff_of_false firstNot secondNot))
    · intro null
      exact ⟨fun _ _ => made, fun firstNot => absurd null firstNot,
        fun alike => absurd (alike.mp null) secondNot, null.not_refused, made.accepted⟩
  case h_2 firstNull secondNull =>
    rw [isNull_eq_false_iff] at firstNull
    rw [isNull_iff] at secondNull
    have firstNot : ¬ DescribesNull schemas first := fun null => firstNull null.anywhere
    obtain ⟨inner, _, resolved, same⟩ := parts_of_outcome_bind ended
    cases same
    have made : MadeNullable schemas levels site keyword 0 first scope log _ after :=
      ⟨inner, resolved, rfl⟩
    rw [misdirected_iff secondNull, iff_false_left (not_misdirected firstNull), not_not]
    constructor
    · intro rule
      by_contra secondNot
      exact made.not_union (rule.union (iff_of_false firstNot secondNot))
    · intro null
      exact ⟨fun first => absurd first firstNot, fun _ _ => made,
        fun alike => absurd (alike.mpr null) firstNot, made.accepted, null.not_refused⟩
  case h_3 notFirst notSecond =>
    have made := unionOf_pair_ok ended
    have rule_iff : NullRule schemas levels site keyword first second scope log shape after ↔
        (DescribesNull schemas first ↔ DescribesNull schemas second) := by
      constructor
      · intro rule
        constructor
        · intro firstNull
          by_contra secondNot
          exact (rule.nullFirst firstNull secondNot).not_union made
        · intro secondNull
          by_contra firstNot
          exact (rule.nullSecond firstNot secondNull).not_union made
      · intro alike
        exact ⟨fun firstNull secondNot => absurd (alike.mp firstNull) secondNot,
          fun firstNot secondNull => absurd (alike.mpr secondNull) firstNot,
          fun _ => made, made.accepted⟩
    rw [rule_iff]
    cases firstNull : isNull schemas first with
    | true =>
        have secondNull : isNull schemas second = true := by simpa [firstNull] using notFirst
        rw [isNull_iff] at firstNull secondNull
        rw [misdirected_iff firstNull, misdirected_iff secondNull, not_iff_not]
    | false =>
        have secondNull : isNull schemas second = false := by simpa [firstNull] using notSecond
        rw [isNull_eq_false_iff] at firstNull secondNull
        exact iff_of_true
          (iff_of_false (fun null => firstNull null.anywhere) fun null => secondNull null.anywhere)
          (iff_of_false (not_misdirected firstNull) (not_misdirected secondNull))

end Outcomes

/-- Null over two references, next to a string. -/
theorem nullRule_iff_chain :
    let null : RefOr Schema := .inline { Schema.bare with kind := some (.one "null") }
    let schemas : SchemaMap :=
      [("None", .reference "#/components/schemas/Null"), ("Null", null)]
    let first : RefOr Schema := .reference "#/components/schemas/None"
    let second : RefOr Schema := .inline { Schema.bare with kind := some (.one "string") }
    let site := Site.unowned ⟨"Site"⟩
    let scope := Scope.root .failOnUnsupported
    let log := Log.starting Registry.empty
    ∃ shape after,
      (alternatives schemas (innerWithin schemas 2) site none "anyOf" [first, second]).outcome
        scope log = (.ok shape, after) ∧
      NullRule schemas 2 site "anyOf" first second scope log shape after := by
  intro null schemas first second site scope log
  obtain ⟨shape, after, ended⟩ := succeeds_of_isOk (show ((alternatives schemas
    (innerWithin schemas 2) site none "anyOf" [first, second]).outcome scope log).1.isOk = true
      by decide)
  have described : DescribesNull schemas first := by
    refine ⟨["None", "Null"], { Schema.bare with kind := some (.one "null") }, ?_, by decide⟩
    refine .step ⟨⟨.schemas, rfl, by rfl⟩, by rfl⟩ ?_
    exact .step ⟨⟨.schemas, rfl, by rfl⟩, by rfl⟩ (.start null)
  have notNull : ¬ LeadsToNull (fun _ => True) schemas second :=
    (isNull_eq_false_iff schemas second).mp (by decide)
  refine ⟨shape, after, ended, (nullRule_iff ended).mpr ?_⟩
  exact iff_of_false (fun misdirected => misdirected.2 described) fun other => notNull other.1

/-- A reference into another section is left out, not refused, if a schema of its name is
null. -/
theorem misdirected_null_accepted :
    let null : RefOr Schema := .inline { Schema.bare with kind := some (.one "null") }
    let schemas : SchemaMap := [("Null", null)]
    let first : RefOr Schema := .reference "#/components/responses/Null"
    let second : RefOr Schema := .inline { Schema.bare with kind := some (.one "string") }
    let site := Site.unowned ⟨"Site"⟩
    let scope := Scope.root .failOnUnsupported
    let log := Log.starting Registry.empty
    Refused schemas first ∧ ∃ shape after,
      (alternatives schemas (innerWithin schemas 2) site none "anyOf" [first, second]).outcome
        scope log = (.ok shape, after) ∧
      ¬ NullRule schemas 2 site "anyOf" first second scope log shape after := by
  intro null schemas first second site scope log
  have refused : Refused schemas first := by
    refine ⟨_, rfl, fun raw refers => ?_⟩
    have elsewhere : Reference.parse "#/components/responses/Null" = .ok ⟨.responses, "Null"⟩ := by
      rfl
    have parsed := refers.parsed
    rw [elsewhere] at parsed
    cases parsed
  obtain ⟨shape, after, ended⟩ := succeeds_of_isOk (show ((alternatives schemas
    (innerWithin schemas 2) site none "anyOf" [first, second]).outcome scope log).1.isOk = true
      by decide)
  exact ⟨refused, shape, after, ended, fun rule => rule.accepted.1 refused⟩

end ElmClient.Resolve
