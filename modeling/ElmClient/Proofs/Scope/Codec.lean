/-
Encoders read nothing of the input, and their variables carry a depth: inside of a record only
variables of its own value and of greater depths are bound, so none hides another.
-/

import ElmClient.Proofs.Scope.Code

namespace ElmClient.Elm

open Lexer Name Run Text

/-! ### Numbered variables -/

private theorem isVariable_numbered {base : String} (isVariable : IsVariable base) (depth : Nat) :
    IsVariable (numberedVariable base depth) := by
  unfold numberedVariable
  split
  · exact isVariable
  · obtain ⟨first, present, lower⟩ := isVariable.begins
    refine ⟨?_, first, ?_, lower⟩
    · rw [String.toList_append]
      exact isVariable.holdable.append (small_digits depth).holdable
    · rw [String.toList_append, List.head?_append_of_ne_nil _ isVariable.inhabited]
      exact present

theorem isVariable_record (depth : Nat) : IsVariable (recordVariable depth) :=
  isVariable_numbered (.of_check (by decide)) depth

theorem isVariable_value (depth : Nat) : IsVariable (valueVariable depth) :=
  isVariable_numbered (.of_check (by decide)) depth

theorem numberedVariable_eq_candidate (base : String) (depth : Nat) :
    ∃ tail, (numberedVariable base depth).toList = base.toList ++ tail := by
  unfold numberedVariable
  split
  · exact ⟨[], (List.append_nil _).symm⟩
  · exact ⟨_, String.toList_append⟩

theorem ends_digit (base : String) (number : Nat) :
    ((base ++ toString number).toList.getLast?).any Char.isDigit = true := by
  have inhabited : (toString number).toList ≠ [] := by
    intro empty
    have digits : 0 < (Nat.repr number).length := Nat.length_repr_pos
    rw [← String.length_toList] at digits
    change (Nat.repr number).toList = [] at empty
    rw [empty] at digits
    contradiction
  rw [String.toList_append, List.getLast?_append_of_ne_nil _ inhabited]
  cases last : (toString number).toList.getLast? with
  | none => exact absurd (List.getLast?_eq_none_iff.mp last) inhabited
  | some character =>
      have member := List.mem_of_getLast? last
      apply Nat.isDigit_of_mem_toDigits (b := 10) (n := number) (by decide) (by decide)
      simpa [toString, Nat.repr] using member

theorem numberedVariable_eq_or_digit (base : String) (depth : Nat) :
    numberedVariable base depth = base ∨
      ((numberedVariable base depth).toList.getLast?).any Char.isDigit = true := by
  unfold numberedVariable
  split
  · exact Or.inl rfl
  · exact Or.inr (ends_digit base depth)

theorem numberedVariable_inj {base : String} {depth other : Nat}
    (same : numberedVariable base depth = numberedVariable base other) : depth = other := by
  have longer (number : Nat) : base ≠ base ++ toString number := by
    intro equal
    have lengths := congrArg String.length equal
    have digits : 0 < (Nat.repr number).length := Nat.length_repr_pos
    simp only [String.length_append, toString] at lengths
    omega
  unfold numberedVariable at same
  split at same <;> split at same
  case isTrue.isTrue zero other => rw [zero, other]
  case isTrue.isFalse => exact absurd same (longer _)
  case isFalse.isTrue => exact absurd same.symm (longer _)
  case isFalse.isFalse => exact Nat.repr_injective ((String.append_right_inj _).mp same)

theorem recordVariable_ne_valueVariable (depth other : Nat) :
    recordVariable depth ≠ valueVariable other := by
  intro same
  obtain ⟨recordTail, record⟩ := numberedVariable_eq_candidate "rec" depth
  obtain ⟨valueTail, value⟩ := numberedVariable_eq_candidate "val" other
  have lists := congrArg String.toList same
  rw [recordVariable, valueVariable, record, value] at lists
  exact absurd (List.cons.inj lists).1 (by decide)

/-! ### Depths -/

/-- All variables are of the depth or a greater one, and none hides another. -/
def Numbered (depth : Nat) (bound : List Binder) : Prop :=
  ∀ binder ∈ bound, ¬ binder.Hides ∧
    ∃ number, depth ≤ number ∧
      (binder.name = recordVariable number ∨ binder.name = valueVariable number)

/-- The variables in the record of the depth: its value, and those of greater depths. -/
def Beneath (depth : Nat) (bound : List Binder) : Prop :=
  ∀ binder ∈ bound, ¬ binder.Hides ∧ (binder.name = valueVariable depth ∨
    ∃ number, depth < number ∧
      (binder.name = recordVariable number ∨ binder.name = valueVariable number))

theorem numbered_nil (depth : Nat) : Numbered depth [] := nofun

theorem forall_function {holds : Binder → Prop} {bound : List Binder} {name : String}
    (outermost : holds ⟨name, []⟩)
    (inside : ∀ binder ∈ bound, holds (binder.within [name])) :
    ∀ binder ∈ ⟨name, []⟩ :: bound.map (Binder.within [name]), holds binder :=
  List.forall_mem_cons.mpr ⟨outermost, List.forall_mem_map.mpr inside⟩

theorem not_hides_within {binder : Binder} {name : String} (shown : ¬ binder.Hides)
    (apart : binder.name ≠ name) : ¬ (binder.within [name]).Hides := by
  intro hides
  rcases List.mem_append.mp hides with inside | outside
  · exact shown inside
  · exact apart (List.mem_singleton.mp outside)

theorem not_hides_alone (name : String) : ¬ Binder.Hides ⟨name, []⟩ := List.not_mem_nil

private theorem Numbered.value {depth : Nat} {bound : List Binder}
    (numbered : Numbered (depth + 1) bound) :
    Beneath depth (⟨valueVariable depth, []⟩ ::
      bound.map (Binder.within [valueVariable depth])) := by
  refine forall_function ⟨not_hides_alone _, Or.inl rfl⟩ fun binder listed => ?_
  obtain ⟨shown, number, greater, named⟩ := numbered binder listed
  refine ⟨not_hides_within shown fun same => ?_, Or.inr ⟨number, greater, named⟩⟩
  rcases named with record | value
  · exact recordVariable_ne_valueVariable number depth (record.symm.trans same)
  · have equal := numberedVariable_inj (value.symm.trans same)
    omega

theorem Beneath.record {depth : Nat} {bound : List Binder} (beneath : Beneath depth bound) :
    Numbered depth
      (⟨recordVariable depth, []⟩ :: bound.map (Binder.within [recordVariable depth])) := by
  refine forall_function ⟨not_hides_alone _, depth, Nat.le_refl _, Or.inl rfl⟩
    fun binder listed => ?_
  obtain ⟨shown, named⟩ := beneath binder listed
  rcases named with value | ⟨number, greater, record | value⟩
  · refine ⟨not_hides_within shown fun same => ?_, depth, Nat.le_refl _, Or.inr value⟩
    exact recordVariable_ne_valueVariable depth depth (same.symm.trans value)
  · refine ⟨not_hides_within shown fun same => ?_, number, by omega, Or.inl record⟩
    have equal := numberedVariable_inj (record.symm.trans same)
    omega
  · refine ⟨not_hides_within shown fun same => ?_, number, by omega, Or.inr value⟩
    exact recordVariable_ne_valueVariable depth number (same.symm.trans value)

private theorem Numbered.beneath {depth : Nat} {bound : List Binder}
    (numbered : Numbered (depth + 1) bound) :
    Beneath depth bound := by
  intro binder listed
  obtain ⟨shown, number, greater, named⟩ := numbered binder listed
  exact ⟨shown, Or.inr ⟨number, greater, named⟩⟩

/-! ### Encoders -/

section Encoders

variable {naming : Naming}

theorem spells_access (depth : Nat) {name : String} (small : Small name.toList) :
    Spells (recordVariable depth ++ "." ++ name) [] := by
  have regular : isRegular (recordVariable depth ++ "." ++ name).toList = true :=
    isRegular_field (run_recordVariable depth) small
  have apart : (recordVariable depth ++ "." ++ name).toList.head? ≠ some 'c' := by
    obtain ⟨tail, begins⟩ := numberedVariable_eq_candidate "rec" depth
    rw [String.toList_append, String.toList_append, recordVariable, begins]
    exact fun same => absurd (Option.some.inj same) (by decide)
  rw [← Word.ofName_of_head apart]
  exact spells_name regular

theorem spells_valueVariable (depth : Nat) : Spells (valueVariable depth) [] := by
  have apart : (valueVariable depth).toList.head? ≠ some 'c' := by
    obtain ⟨tail, begins⟩ := numberedVariable_eq_candidate "val" depth
    rw [valueVariable, begins]
    exact fun same => absurd (Option.some.inj same) (by decide)
  rw [← Word.ofName_of_head apart]
  exact spells_name (isVariable_value depth).regular

theorem encodingEntry_writes (depth : Nat) (field : Field) {name encoder : String}
    (small : Small name.toList) (writes : Writes naming encoder [] (Numbered (depth + 1))) :
    Writes naming (encodingEntry depth field name encoder) [] (Beneath depth) := by
  have access : Code naming _ [] := .own (spells_access depth small)
  have key : Code naming _ [] := .own (spells_stringLiteral field.key)
  have value : Code naming _ [] := .own (spells_valueVariable depth)
  obtain ⟨words, bound, code, closed, reads, numbered⟩ := writes.atom.parts
  unfold encodingEntry
  dsimp only
  split
  · refine .ofCode ((((key.behind [.opening]).beside [.comma] code).beside [] access).close
      [.closing]) ?_ ?_ numbered.beneath
    · have inside : Listed (.comma :: words) bound := .comma .nil (.last closed)
      simpa using inside.group
    · simpa [List.filterMap_cons] using reads
  · refine .ofCode (((((key.lambda [.opening] [.opening] (isVariable_value depth)).beside [.comma]
      code).beside [] value).beside [.closing, .closing] access)) ?_ ?_ numbered.value
    · have inside : Listed (.comma :: words) bound := .comma .nil (.last closed)
      simpa using inside.group.function [valueVariable depth]
    · simpa [List.filterMap_cons] using reads

theorem encodingEntries_write (depth : Nat) (fields : List Field) {encoders : List String}
    (each : ∀ encoder ∈ encoders, Writes naming encoder [] (Numbered (depth + 1))) :
    ∀ entry ∈ encodingEntries depth fields encoders, Writes naming entry [] (Beneath depth) := by
  intro text listed
  obtain ⟨entry, member, rfl⟩ := List.mem_map.mp listed
  obtain ⟨inNames, inEncoders⟩ := List.of_mem_zip (List.of_mem_zip member).2
  exact encodingEntry_writes depth entry.1 (small_recordNames fields _ inNames)
    (each _ inEncoders)

private theorem objectEncoder_writes (depth : Nat) {entries : List String}
    (each : ∀ entry ∈ entries, Writes naming entry [] (Beneath depth)) :
    Writes naming ("(\\" ++ recordVariable depth
      ++ " -> Json.Encode.object (List.filterMap identity " ++ list entries ++ "))") []
      (Numbered depth) := by
  have inside : Writes naming (list entries) [] (Beneath depth) :=
    .list_of_forall each fun bounds all binder member => by
      obtain ⟨bound, listed, inBound⟩ := List.mem_flatten.mp member
      exact all bound listed binder inBound
  obtain ⟨words, bound, code, closed, reads, beneath⟩ := inside.parts
  refine .ofCode ((code.lambda [.opening] [.opening] (isVariable_record depth)).close
    [.closing, .closing]) ?_ ?_ beneath.record
  · simpa using closed.group.function [recordVariable depth]
  · simpa [List.filterMap_cons] using reads

variable {σ : Type}

theorem registers_encode {value : Primitive} {entry : FormatEntry}
    (found : naming.formatEntry? value = some entry) : naming.Registers entry.encode :=
  ⟨value, entry, found, Or.inl rfl⟩

private theorem reference_writes {text : String} (spells : Spells text []) (depth : Nat) :
    Writes naming text [] (Numbered depth) :=
  .plain (.own spells) (numbered_nil depth)

theorem discardEncoder_writes (depth : Nat) :
    Writes naming discardEncoder [] (Numbered depth) :=
  .ofCode (.own (.fixed : Spells _ [.opening, .lambda [], .closing])) (.function [] .nil) rfl
    (numbered_nil depth)

/-- Encoders are kept in a module, and those of enums have proper names. -/
structure Naming.NamesEncoders (naming : Naming) : Prop where
  valid : Config.isModulePath naming.namespaceName = true
  enums : ∀ values name, naming.enumName? values = some name → name.Proper

def Naming.NamesUnion (naming : Naming) : Shape → Prop
  | .union name _ => (naming.unionName name).Proper
  | _ => True

theorem Naming.NamesTidy.namesEncoders (named : naming.NamesTidy) : naming.NamesEncoders :=
  ⟨named.valid, fun _ _ found => named.enumName found⟩

theorem Naming.NamesTidy.namesUnions (named : naming.NamesTidy) {shape : Shape}
    (covers : naming.Covers shape) : shape.Everywhere naming.NamesUnion := by
  intro part member
  cases part with
  | union name variants =>
      have knows : naming.formatless.Knows (.union name variants) := covers _ member
      exact named.unionName knows
  | _ => trivial

private theorem spells_encoderRef (named : naming.NamesEncoders) {name : TypeName}
    (proper : name.Proper) :
    Spells (naming.encoderRef name) [] :=
  spells_qualified named.valid .encoders (holdable_encoderName proper)

theorem Naming.NamesEncoders.proper (named : naming.NamesEncoders) {name : TypeName}
    (refers : naming.Refers naming.NamesUnion name) : name.Proper := by
  cases refers with
  | union admitted => exact admitted
  | enum found => exact named.enums _ _ found
  | component target => exact TypeName.ofRaw_proper target.name

theorem encoderForms_write (named : naming.NamesEncoders) :
    EncoderForms naming naming.NamesUnion
      fun depth text => Writes naming text [] (Numbered depth) where
  primitive depth kind := reference_writes (by cases kind <;> exact .fixed) depth
  registered found := .plain (.registered (registers_encode found)) (numbered_nil _)
  reference refers := reference_writes (spells_encoderRef named (named.proper refers)) _
  discard := discardEncoder_writes
  anyJson := reference_writes .fixed
  nullable inner :=
    have name : Writes naming (common "encodeNullable") [] (· = []) :=
      .plain (.own spells_common) rfl
    name.beside inner.atom fun _ _ none holds => none ▸ holds
  list inner := inner.atom.behind
  dict inner := inner.atom.behind
  object depth fields _ each :=
    objectEncoder_writes depth (encodingEntries_write depth fields each)

theorem encoder_writes (named : naming.NamesEncoders) (depth : Nat) (shape : Shape)
    (names : shape.Everywhere naming.NamesUnion) :
    Returns (encoder naming depth shape : Run σ String)
      fun text => Writes naming text [] (Numbered depth) :=
  (encoderForms_write named).encoder depth shape names

end Encoders

end ElmClient.Elm
