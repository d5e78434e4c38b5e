/-
Annotations that are type references. References, enums and unions are written as the
reference to the type they name; no other shape is written so, unless a format is
annotated with a type of the namespace.
-/

import ElmClient.Elm.Codec
import ElmClient.Proofs.Name.Proper
import ElmClient.Proofs.Text.Split

namespace ElmClient.Elm

open Name Text

/-! ### Qualified names -/

def Dotted (characters : List Char) : Prop :=
  ∀ character ∈ characters, isNameChar character = true ∨ character = '.'

private theorem Dotted.append {left right : List Char} (first : Dotted left)
    (second : Dotted right) :
    Dotted (left ++ right) := by
  intro character member
  rcases List.mem_append.mp member with before | behind
  · exact first character before
  · exact second character behind

private theorem Dotted.not_mem {characters : List Char} (dotted : Dotted characters)
    {character : Char}
    (foreign : isNameChar character = false) (noDot : character ≠ '.') :
    character ∉ characters := by
  intro member
  rcases dotted character member with holdable | dot
  · rw [foreign] at holdable
    contradiction
  · exact noDot dot

theorem dotted_of_isModulePath {name : String} (valid : Config.isModulePath name = true) :
    Dotted name.toList := by
  intro character member
  rcases mem_splitChars member with dot | ⟨piece, listed, inPiece⟩
  · exact Or.inr dot
  · have part := List.all_eq_true.mp valid piece listed
    cases piece with
    | nil => exact absurd inPiece List.not_mem_nil
    | cons first rest =>
        obtain ⟨upper, holdable⟩ := Bool.and_eq_true_iff.mp part
        rcases List.mem_cons.mp inPiece with rfl | later
        · exact Or.inl ((isNameChar_iff character).mpr (Or.inl upper))
        · exact Or.inl (List.all_eq_true.mp holdable character later)

private theorem eq_of_last_dot {left right leftEnd rightEnd : List Char}
    (same : left ++ '.' :: leftEnd = right ++ '.' :: rightEnd) (leftNone : '.' ∉ leftEnd)
    (rightNone : '.' ∉ rightEnd) : left = right ∧ leftEnd = rightEnd := by
  rcases List.append_eq_append_iff.mp same with ⟨between, rest, tail⟩ | ⟨between, rest, tail⟩
  · cases between with
    | nil => exact ⟨by rw [rest, List.append_nil], (List.cons.inj tail).2⟩
    | cons head between =>
        refine absurd ?_ leftNone
        rw [(List.cons.inj tail).2]
        exact List.mem_append_right _ List.mem_cons_self
  · cases between with
    | nil => exact ⟨by rw [rest, List.append_nil], (List.cons.inj tail).2.symm⟩
    | cons head between =>
        refine absurd ?_ rightNone
        rw [(List.cons.inj tail).2]
        exact List.mem_append_right _ List.mem_cons_self

/-! ### Type references -/

theorem typeRef_toList (naming : Naming) (name : TypeName) :
    (naming.typeRef name).toList =
      (naming.namespaceName.toList ++ ".Types".toList) ++ '.' :: name.text.toList := by
  unfold Naming.typeRef Naming.qualified Group.moduleName
  rw [String.toList_append, String.toList_append, String.toList_append]
  exact List.append_assoc _ _ _

theorem Naming.typeRef_inj {naming : Naming} {left right : TypeName}
    (same : naming.typeRef left = naming.typeRef right) : left = right :=
  congrArg TypeName.mk ((String.append_right_inj _).mp same)

/-- The type that a shape is written as a reference to. -/
def Naming.mentioned? (naming : Naming) : Shape → Option TypeName
  | .ref target => some target.typeName
  | .union name _ => some (naming.unionName name)
  | .enum values => naming.enumName? values
  | _ => none

/-- No format is annotated with a type of the namespace. -/
def FormatsApart (naming : Naming) : Prop :=
  ∀ value entry, naming.formatEntry? value = some entry →
    ∀ name, entry.elmType ≠ naming.typeRef name

section TypeRef

variable {naming : Naming} {name : TypeName}

theorem holdable_of_proper (proper : name.Proper) : Holdable name.text.toList := by
  obtain ⟨first, rest, text, upper, holdable⟩ := proper
  intro character member
  rw [text] at member
  rcases List.mem_cons.mp member with rfl | later
  · exact (isNameChar_iff character).mpr (Or.inl upper)
  · exact holdable character later

private theorem dotted_of_holdable {characters : List Char} (holdable : Holdable characters) :
    Dotted characters :=
  fun character member => Or.inl (holdable character member)

theorem typeRef_dotted (valid : Config.isModulePath naming.namespaceName = true)
    (proper : name.Proper) : Dotted (naming.typeRef name).toList := by
  rw [typeRef_toList]
  have lead : Dotted ".Types".toList :=
    List.forall_mem_cons.mpr ⟨Or.inr rfl, dotted_of_holdable (holdable_of_all (by decide))⟩
  refine ((dotted_of_isModulePath valid).append lead).append ?_
  exact List.forall_mem_cons.mpr ⟨Or.inr rfl, dotted_of_holdable (holdable_of_proper proper)⟩

private theorem ne_typeRef_of_mem (valid : Config.isModulePath naming.namespaceName = true)
    (proper : name.Proper) {text : String} (character : Char) (member : character ∈ text.toList)
    (foreign : isNameChar character = false) (noDot : character ≠ '.') :
    text ≠ naming.typeRef name := by
  rintro rfl
  exact (typeRef_dotted valid proper).not_mem foreign noDot member

private theorem ne_typeRef_of_no_dot {text : String} (none : '.' ∉ text.toList) :
    text ≠ naming.typeRef name := by
  rintro rfl
  rw [typeRef_toList] at none
  exact none (List.mem_append_right _ List.mem_cons_self)

private theorem ne_typeRef_of_module (proper : name.Proper) {text : String} (module tail : String)
    (parts : text.toList = module.toList ++ '.' :: tail.toList) (last : '.' ∉ tail.toList)
    (other : ¬ ".Types".toList <:+ module.toList) : text ≠ naming.typeRef name := by
  rintro rfl
  rw [typeRef_toList] at parts
  have noDot : '.' ∉ name.text.toList := (holdable_of_proper proper).not_mem (by decide)
  obtain ⟨sameModule, _⟩ := eq_of_last_dot parts noDot last
  exact other ⟨_, sameModule⟩

private theorem mem_record (entries : List (String × String)) (separator : String) :
    '\x7b' ∈ (record entries separator).toList := by
  have begins : ∀ tail, '\x7b' ∈ ("\x7b " ++ tail).toList := fun tail => by
    rw [String.toList_append]
    exact List.mem_append_left _ (by decide)
  unfold record
  cases entries with
  | nil =>
      rw [List.isEmpty_nil, if_pos rfl]
      decide
  | cons first rest =>
      rw [List.isEmpty_cons, if_neg Bool.false_ne_true]
      dsimp only
      split
      · rw [String.append_assoc]
        exact begins _
      · rw [tallRecord, List.map_cons]
        simp only [String.append_assoc]
        exact begins _

private theorem ne_typeRef_of_applied (valid : Config.isModulePath naming.namespaceName = true)
    (proper : name.Proper) {lead : String} (blank : ' ' ∈ lead.toList) (argument : String) :
    lead ++ argument ≠ naming.typeRef name := by
  refine ne_typeRef_of_mem valid proper ' ' ?_ (by decide) (by decide)
  rw [String.toList_append]
  exact List.mem_append_left _ blank

theorem typeExpression_of_mentioned {shape : Shape} {target : TypeName}
    (mentioned : naming.mentioned? shape = some target) :
    typeExpression naming shape = naming.typeRef target := by
  cases shape with
  | union stored variants =>
      obtain rfl := Option.some.inj mentioned
      rfl
  | ref reference =>
      obtain rfl := Option.some.inj mentioned
      rfl
  | enum values =>
      change naming.enumName? values = some target at mentioned
      unfold typeExpression
      rw [mentioned]
  | _ => contradiction

/-- A shape that mentions no type is written with a character that no qualified name has,
or as something of another module. -/
theorem typeExpression_ne_typeRef (valid : Config.isModulePath naming.namespaceName = true)
    (apart : FormatsApart naming) (proper : name.Proper) {shape : Shape}
    (unmentioned : naming.mentioned? shape = none) :
    typeExpression naming shape ≠ naming.typeRef name := by
  cases shape with
  | nullable inner =>
      change common "Nullable" ++ " " ++ atom (typeExpression naming inner) ≠ _
      refine ne_typeRef_of_applied valid proper ?_ _
      rw [String.toList_append]
      exact List.mem_append_right _ List.mem_cons_self
  | list inner =>
      change "List " ++ atom (typeExpression naming inner) ≠ _
      exact ne_typeRef_of_applied valid proper (by decide) _
  | dict inner =>
      change "Dict.Dict String " ++ atom (typeExpression naming inner) ≠ _
      exact ne_typeRef_of_applied valid proper (by decide) _
  | object fields =>
      change record ((recordNames fields).zip (fieldTypes naming fields)) ":" ≠ _
      exact ne_typeRef_of_mem valid proper '\x7b' (mem_record _ _) (by decide) (by decide)
  | unit =>
      change "()" ≠ _
      exact ne_typeRef_of_mem valid proper '(' (by decide) (by decide) (by decide)
  | primitive value =>
      unfold typeExpression
      cases found : naming.formatEntry? value with
      | some entry => exact apart value entry found name
      | none => exact ne_typeRef_of_no_dot (by cases value.kind <;> decide)
  | bytes =>
      change "Bytes.Bytes" ≠ _
      exact ne_typeRef_of_module proper "Bytes" "Bytes" (by decide) (by decide) (by decide)
  | anyJson =>
      change "Json.Encode.Value" ≠ _
      exact ne_typeRef_of_module proper "Json.Encode" "Value" (by decide) (by decide) (by decide)
  | union stored variants => contradiction
  | ref reference => contradiction
  | enum values =>
      change naming.enumName? values = none at unmentioned
      unfold typeExpression
      rw [unmentioned]
      change "String" ≠ _
      exact ne_typeRef_of_no_dot (by decide)

theorem typeExpression_eq_iff (valid : Config.isModulePath naming.namespaceName = true)
    (apart : FormatsApart naming) (proper : name.Proper) (shape : Shape) :
    typeExpression naming shape = naming.typeRef name ↔ naming.mentioned? shape = some name := by
  cases mentioned : naming.mentioned? shape with
  | none => exact iff_of_false (typeExpression_ne_typeRef valid apart proper mentioned) nofun
  | some target =>
      rw [typeExpression_of_mentioned mentioned, Option.some.injEq]
      exact ⟨Naming.typeRef_inj, congrArg naming.typeRef⟩

end TypeRef

end ElmClient.Elm
