/-
Enums and texts. The functions between the constructors of an enum and its values are read
off their sources, case by case. Constructors and values come once each, so every case is
the one that its pattern selects, and either function undoes the other.
-/

import ElmClient.Proofs.Lexing.Enclosed
import ElmClient.Proofs.Name.Given
import ElmClient.Proofs.Sorted
import ElmClient.Proofs.Tidy.Types
import Mathlib.Data.List.Find

namespace ElmClient.Elm

open Name Text

/-! ### Reading cases -/

def readCase? (first second : List Char) : Option (String × String) := do
  let opened ← dropLead? "        ".toList first
  let pattern ← dropLead? " ->".toList.reverse opened.reverse
  let body ← dropLead? "            ".toList second
  return (String.ofList pattern.reverse, String.ofList body)

/-- Cases of two lines, each after a line that is empty. -/
def readCases : List (List Char) → List (String × String)
  | [] :: first :: second :: rest =>
      match readCase? first second with
      | some branch => branch :: readCases rest
      | none => []
  | _ => []

def casesBehind (header source : String) : List (String × String) :=
  match dropLead? header.toList source.toList with
  | some rest => readCases (splitChars '\n' rest)
  | none => []

/-- The body of the first case that is accepted; an underscore accepts everything. -/
def selected? (accepts : String → Bool) (cases : List (String × String)) : Option String :=
  (cases.find? fun branch => branch.1 == "_" || accepts branch.1).map Prod.snd

def textOf? (cases : List (String × String)) (constructor : String) : Option String :=
  (selected? (· == constructor) cases).bind readLiteral?

def readJust? (body : String) : Option String :=
  (dropLead? "Just ".toList body.toList).map String.ofList

/-- What a function from texts to constructors gives; a literal accepts the text it stands
for. -/
def constructorOf? (cases : List (String × String)) (text : String) : Option String :=
  (selected? (fun pattern => readLiteral? pattern == some text) cases).bind readJust?

/-! ### Reading what was written -/

def caseLines (branch : String × String) : List (List Char) :=
  [[], "        ".toList ++ (branch.1.toList ++ " ->".toList),
    "            ".toList ++ branch.2.toList]

private theorem readCase?_written (branch : String × String) :
    readCase? ("        ".toList ++ (branch.1.toList ++ " ->".toList))
      ("            ".toList ++ branch.2.toList) = some branch := by
  have behind := dropLead?_append " ->".toList.reverse branch.1.toList.reverse
  rw [← List.reverse_append] at behind
  simp only [readCase?, dropLead?_append, behind, Option.bind_eq_bind, Option.bind_some,
    List.reverse_reverse, String.ofList_toList, Option.pure_def]

private theorem readCases_lines (cases : List (String × String)) :
    readCases (cases.flatMap caseLines) = cases := by
  induction cases with
  | nil => rfl
  | cons branch rest ih =>
      rw [List.flatMap_cons, caseLines, List.cons_append, List.cons_append, List.cons_append,
        List.nil_append, readCases, readCase?_written, ih]

theorem toList_caseBranch (branch : String × String) :
    (caseBranch branch.1 branch.2).toList = List.intercalate ['\n'] (caseLines branch) := by
  simp only [caseBranch, caseLines, String.toList_append, List.append_assoc,
    List.intercalate_cons_cons, List.intercalate_singleton]
  rfl

theorem toList_cases (cases : List (String × String)) :
    (join "\n" (cases.map fun branch => caseBranch branch.1 branch.2)).toList =
      List.intercalate ['\n'] (cases.flatMap caseLines) := by
  rw [join, String.toList_intercalate, List.map_map]
  induction cases with
  | nil => rfl
  | cons branch rest ih =>
      rw [List.map_cons, Function.comp_apply, toList_caseBranch, List.flatMap_cons]
      cases rest with
      | nil => rw [List.map_nil, List.flatMap_nil, List.intercalate_singleton, List.append_nil]
      | cons second others =>
          rw [List.map_cons, List.intercalate_cons_cons, ← List.map_cons, ih]
          simp only [caseLines, List.flatMap_cons, List.cons_append, List.nil_append,
            List.intercalate_cons_cons, List.intercalate_singleton, List.append_assoc]
          rfl

/-- Cases on two lines each are read as they were written. -/
theorem casesBehind_written (header : String) {branches : List (String × String)}
    (lines : ∀ branch ∈ branches, '\n' ∉ branch.1.toList ∧ '\n' ∉ branch.2.toList) :
    casesBehind header
      (header ++ join "\n" (branches.map fun branch => caseBranch branch.1 branch.2)) =
        branches := by
  rw [casesBehind, String.toList_append, dropLead?_append, toList_cases]
  dsimp only
  cases branches with
  | nil => rfl
  | cons branch rest =>
      have whole : ∀ line ∈ (branch :: rest).flatMap caseLines, '\n' ∉ line := by
        intro line member
        obtain ⟨written, listed, within⟩ := List.mem_flatMap.mp member
        obtain ⟨pattern, body⟩ := lines written listed
        simp only [caseLines, List.mem_cons, List.not_mem_nil, or_false] at within
        rcases within with rfl | rfl | rfl <;> simp [pattern, body]
      rw [splitChars_intercalate whole (by simp [caseLines]), readCases_lines]

/-! ### Selecting cases -/

section Selecting

variable {pairs : List (TypeName × String)}

def textCases (pairs : List (TypeName × String)) : List (String × String) :=
  pairs.map fun pair => (pair.1.text, stringLiteral pair.2)

def constructorCases (pairs : List (TypeName × String)) : List (String × String) :=
  (pairs.map fun pair => (stringLiteral pair.2, "Just " ++ pair.1.text)) ++ [("_", "Nothing")]

theorem stringLiteral_ne_underscore (text : String) : stringLiteral text ≠ "_" := by
  intro same
  have first := congrArg (fun written => written.toList.head?) same
  rw [stringLiteral, String.toList_ofList] at first
  exact absurd (Option.some.inj first) (by decide)

private theorem proper_ne_underscore {name : TypeName} (proper : name.Proper) :
    name.text ≠ "_" := by
  obtain ⟨first, rest, characters, upper, -⟩ := proper
  intro same
  rw [same] at characters
  cases characters
  contradiction

theorem find?_of_unique {α : Type} {accepts : α → Bool} {items : List α} {item : α}
    (member : item ∈ items) (accepted : accepts item = true)
    (unique : ∀ other ∈ items, accepts other = true → other = item) :
    items.find? accepts = some item := by
  obtain ⟨found, equal⟩ := Option.isSome_iff_exists.mp
    (List.find?_isSome.mpr ⟨item, member, accepted⟩)
  rw [equal, unique found (List.mem_of_find?_eq_some equal) (List.find?_some equal)]

private theorem textOf?_eq (proper : ∀ pair ∈ pairs, pair.1.Proper) (constructor : String) :
    textOf? (textCases pairs) constructor =
      (pairs.find? fun pair => pair.1.text == constructor).map Prod.snd := by
  have accepted : (pairs.find? fun pair => pair.1.text == "_" || pair.1.text == constructor) =
      pairs.find? fun pair => pair.1.text == constructor := by
    apply List.find?_congr
    intro pair member
    rw [beq_false_of_ne (proper_ne_underscore (proper pair member)), Bool.false_or]
  rw [textOf?, selected?, textCases, List.find?_map]
  simp only [Function.comp_def, accepted, Option.map_map, Option.bind_map]
  cases pairs.find? fun pair => pair.1.text == constructor with
  | none => rfl
  | some pair => exact readLiteral?_stringLiteral pair.2

private theorem constructorOf?_eq (pairs : List (TypeName × String)) (text : String) :
    constructorOf? (constructorCases pairs) text =
      (pairs.find? fun pair => pair.2 == text).map fun pair => pair.1.text := by
  have accepted : (pairs.find? fun pair => stringLiteral pair.2 == "_" ||
      readLiteral? (stringLiteral pair.2) == some text) =
        pairs.find? fun pair => pair.2 == text := by
    apply List.find?_congr
    intro pair _
    rw [beq_false_of_ne (stringLiteral_ne_underscore pair.2), Bool.false_or,
      readLiteral?_stringLiteral, Option.some_beq_some]
  rw [constructorOf?, selected?, constructorCases, List.find?_append, List.find?_map]
  simp only [Function.comp_def, accepted]
  cases pairs.find? fun pair => pair.2 == text with
  | none => rfl
  | some pair =>
      simp only [Option.map_some, Option.some_or, Option.bind_some, readJust?,
        String.toList_append, dropLead?_append, String.ofList_toList]

private theorem textOf?_iff (proper : ∀ pair ∈ pairs, pair.1.Proper)
    (once : (pairs.map Prod.fst).Nodup) {constructor text : String} :
    textOf? (textCases pairs) constructor = some text ↔ (⟨constructor⟩, text) ∈ pairs := by
  rw [textOf?_eq proper, Option.map_eq_some_iff]
  constructor
  · rintro ⟨⟨name, value⟩, found, rfl⟩
    have named : name.text = constructor := by simpa using List.find?_some found
    subst named
    exact List.mem_of_find?_eq_some found
  · intro member
    refine ⟨_, find?_of_unique member (beq_self_eq_true constructor) ?_, rfl⟩
    intro other listed accepted
    apply List.inj_on_of_nodup_map once listed member
    exact TypeName.mk.injEq .. ▸ eq_of_beq accepted

private theorem constructorOf?_iff (once : (pairs.map Prod.snd).Nodup) {constructor text : String} :
    constructorOf? (constructorCases pairs) text = some constructor ↔
      (⟨constructor⟩, text) ∈ pairs := by
  rw [constructorOf?_eq, Option.map_eq_some_iff]
  constructor
  · rintro ⟨⟨name, value⟩, found, rfl⟩
    have valued : value = text := by simpa using List.find?_some found
    subst valued
    exact List.mem_of_find?_eq_some found
  · intro member
    refine ⟨_, find?_of_unique member (beq_self_eq_true text) ?_, rfl⟩
    intro other listed accepted
    exact List.inj_on_of_nodup_map once listed member (eq_of_beq accepted)

end Selecting

/-! ### Enums -/

/-- Either function undoes the other, on the constructors of the enum and its values. -/
structure Undoes (constructors values : List String)
    (toText toConstructor : String → Option String) :
    Prop where
  inverse : ∀ constructor text,
    toText constructor = some text ↔ toConstructor text = some constructor
  everyConstructor : ∀ constructor, (toText constructor).isSome = true ↔ constructor ∈ constructors
  everyValue : ∀ text, (toConstructor text).isSome = true ↔ text ∈ values

def ConvertsBack (naming : Naming) (name : TypeName) (texts : List String) : Prop :=
  let values := Shape.canonicalValues texts
  let declared := enumDeclarations naming name values
  let own := naming.typeRef name
  ∃ toSource ofSource,
    (.types, Declaration.value (enumToString name) none toSource) ∈ declared ∧
      (.types, Declaration.value (enumFromString name) none ofSource) ∈ declared ∧
      Undoes ((enumConstructors name values).map fun pair => pair.1.text) texts
        (textOf? (casesBehind (caseHeader (enumToString name) (own ++ " -> String")) toSource))
        (constructorOf?
          (casesBehind (caseHeader (enumFromString name) ("String -> Maybe " ++ own)) ofSource))

section Enum

variable {name : TypeName}

private theorem feed_not_mem_literal (text : String) : '\n' ∉ (stringLiteral text).toList := by
  intro member
  exact absurd (visible_stringLiteral text _ member) (by decide)

private theorem undoes_cases {pairs : List (TypeName × String)} {texts : List String}
    (proper : ∀ pair ∈ pairs, pair.1.Proper) (names : (pairs.map Prod.fst).Nodup)
    (values : (pairs.map Prod.snd).Nodup)
    (listed : ∀ text, text ∈ pairs.map Prod.snd ↔ text ∈ texts) :
    Undoes (pairs.map fun pair => pair.1.text) texts (textOf? (textCases pairs))
      (constructorOf? (constructorCases pairs)) where
  inverse constructor text := by
    rw [textOf?_iff proper names, constructorOf?_iff values]
  everyConstructor constructor := by
    rw [textOf?_eq proper, Option.isSome_map, List.find?_isSome, List.mem_map]
    simp
  everyValue text := by
    rw [← listed, constructorOf?_eq, Option.isSome_map, List.find?_isSome, List.mem_map]
    simp

private theorem textCases_lines {pairs : List (TypeName × String)}
    (proper : ∀ pair ∈ pairs, pair.1.Proper) :
    ∀ branch ∈ textCases pairs, '\n' ∉ branch.1.toList ∧ '\n' ∉ branch.2.toList := by
  intro branch listed
  obtain ⟨pair, member, rfl⟩ := List.mem_map.mp listed
  exact ⟨(holdable_of_proper (proper pair member)).not_mem (by decide), feed_not_mem_literal pair.2⟩

private theorem constructorCases_lines {pairs : List (TypeName × String)}
    (proper : ∀ pair ∈ pairs, pair.1.Proper) :
    ∀ branch ∈ constructorCases pairs, '\n' ∉ branch.1.toList ∧ '\n' ∉ branch.2.toList := by
  intro branch listed
  rcases List.mem_append.mp listed with forValue | forOthers
  · obtain ⟨pair, member, rfl⟩ := List.mem_map.mp forValue
    refine ⟨feed_not_mem_literal pair.2, ?_⟩
    rw [String.toList_append, List.mem_append, not_or]
    exact ⟨by decide, (holdable_of_proper (proper pair member)).not_mem (by decide)⟩
  · obtain rfl := List.mem_singleton.mp forOthers
    decide

private theorem toString_declared (naming : Naming) (name : TypeName) (values : List String) :
    (.types, Declaration.value (enumToString name) none
      (caseHeader (enumToString name) (naming.typeRef name ++ " -> String") ++
        join "\n" ((textCases (enumConstructors name values)).map
          fun branch => caseBranch branch.1 branch.2))) ∈
      enumDeclarations naming name values := by
  rw [textCases, List.map_map]
  exact List.mem_cons_of_mem _ List.mem_cons_self

private theorem fromString_declared (naming : Naming) (name : TypeName) (values : List String) :
    (.types, Declaration.value (enumFromString name) none
      (caseHeader (enumFromString name) ("String -> Maybe " ++ naming.typeRef name) ++
        join "\n" ((constructorCases (enumConstructors name values)).map
          fun branch => caseBranch branch.1 branch.2))) ∈
      enumDeclarations naming name values := by
  rw [constructorCases, List.map_append, List.map_map]
  exact List.mem_cons_of_mem _ (List.mem_cons_of_mem _ List.mem_cons_self)

private theorem convertsBack (naming : Naming) (proper : name.Proper) (texts : List String) :
    ConvertsBack naming name texts := by
  have constructorsProper := proper_enumConstructors proper (Shape.canonicalValues texts)
  have valued := enumConstructors_values name (Shape.canonicalValues texts)
  have once : (Shape.canonicalValues texts).Nodup :=
    (Sorted.texts_sorted texts).imp fun low => ne_of_lt low
  refine ⟨_, _, toString_declared naming name _, fromString_declared naming name _, ?_⟩
  rw [casesBehind_written _ (textCases_lines constructorsProper),
    casesBehind_written _ (constructorCases_lines constructorsProper)]
  apply undoes_cases constructorsProper (enumConstructors_gives name _).distinct
  · rwa [valued]
  · intro text
    rw [valued]
    exact Sorted.mem_texts_iff

end Enum

/-! ### All names -/

/-- Wherever names are made for keys, they are given in turn, whatever the keys are. -/
structure NamesGiven : Prop where
  fields : ∀ fields : List Field,
    Fresh.Gives Fresh.appendNumber (fields.map fun field => toValueName field.key)
      (recordNames fields)
  constructors : ∀ (name : TypeName) (values : List String),
    (enumConstructors name values).map Prod.snd = values ∧
      Fresh.Gives TypeName.withSuffix (values.map name.child)
        ((enumConstructors name values).map Prod.fst)
  parameters : ∀ (σ : Type) (endpoint : Endpoint),
    Run.Returns (RequestParameters.partition endpoint : Run σ RequestParameters)
      (RequestParameters.NamedInOrder endpoint)
  servers : ∀ (naming : Naming) (document : Document) (mode : ServerMode),
    Fresh.Gives Fresh.appendNumber (ServerPlan.wantedConstants document mode)
      ((ServerPlan.ofMode naming document mode).declarations.map Declaration.name)
  enums : ∀ (naming : Naming) (name : TypeName) (texts : List String), name.Proper →
    ConvertsBack naming name texts

theorem names_given : NamesGiven where
  fields := recordNames_gives
  constructors name values :=
    ⟨enumConstructors_values name values, enumConstructors_gives name values⟩
  parameters _ := RequestParameters.partition_named
  servers := ServerPlan.ofMode_gives
  enums naming _ texts proper := convertsBack naming proper texts

/-- A key that is spelled like the numbered form of an earlier one, and values that make one
constructor before they are numbered. -/
theorem names_given_overlapping :
    let field (key : String) : Field := ⟨key, true, none, .string⟩
    let fields := [field "a-b", field "a_b", field "a_b2"]
    let naming := Naming.plain
    recordNames fields = ["a_b", "a_b2", "a_b22"] ∧
      Fresh.Gives Fresh.appendNumber (fields.map fun field => toValueName field.key)
        (recordNames fields) ∧
      TypeName.Proper ⟨"Level"⟩ ∧ ConvertsBack naming ⟨"Level"⟩ ["v1", "V1", "v1_2"] := by
  intro field fields naming
  have proper : TypeName.Proper ⟨"Level"⟩ :=
    ⟨'L', "evel".toList, by decide, by decide, holdable_of_all (by decide)⟩
  exact ⟨by decide, names_given.fields fields, proper, names_given.enums naming _ _ proper⟩

end ElmClient.Elm
