/-
Parameters as code. The entry of a query or header parameter and the text of a path variable
read one field of the input once, and hide a variable exactly if the serializer does.
-/

import ElmClient.Elm.Parameters
import ElmClient.Proofs.Scope.Serializers

namespace ElmClient.Elm

open Lexer Name Run Text

variable {naming : Naming} {policy : Policy}

/-! ### Entries -/

def ParameterField.read (field : ParameterField) : List String :=
  ["params", field.field]

/-- A value of the parameter can be null in more than one way. -/
def Naming.NullsTwice (naming : Naming) (field : ParameterField) : Prop :=
  2 ≤ naming.nullLevels true field.parameter.shape

def entryVariables : List String :=
  "param" :: serializerVariables

/-- The field is read once, and a variable is hidden if null levels are hidden. -/
def SendsField (naming : Naming) (field : ParameterField) (text : String) : Prop :=
  Writes naming text [field.read] (Shades (· ∈ entryVariables) (naming.NullsTwice field))

private theorem code_access {field : ParameterField} (small : Small field.field.toList) :
    Code naming (parameterAccess field) [.read field.read] :=
  .own (spells_configField "params".toList rfl small)

private theorem written_argument {function : Stringifier} {count : Nat} {text : String}
    (written : function.Written naming count)
    (same : function = .always text ∨ function = .sometimes text) :
    Writes naming (atom text) [] (Shades (· ∈ serializerVariables) (2 ≤ count)) := by
  cases written with
  | always writes =>
      obtain rfl : _ = text := by simpa using same
      exact writes.atom.imp fun _ flag => flag.levels.shades
  | sometimes writes =>
      obtain rfl : _ = text := by simpa using same
      exact writes.atom.imp fun _ levels => levels.shades

private theorem entryVariable_of_serializer {name : String} (listed : name ∈ serializerVariables) :
    name ∈ entryVariables :=
  List.mem_cons_of_mem _ listed

/-- A pair is made in a function of the text, beside the serializer or around it. -/
theorem shades_param {hidden : Prop} {bound : List Binder}
    (shades : Shades (· ∈ serializerVariables) hidden bound) :
    Shades (· ∈ entryVariables) hidden (⟨"param", []⟩ :: bound) ∧
      Shades (· ∈ entryVariables) hidden
        (⟨"param", []⟩ :: bound.map (Binder.within ["param"])) := by
  have apart : ∀ name ∈ serializerVariables, name ≠ "param" := by decide
  constructor
  · have own : Shades (· ∈ entryVariables) False [⟨"param", []⟩] := .alone (by decide)
    have beside := own.append (shades.imp fun _ => entryVariable_of_serializer)
    exact ⟨beside.named, beside.hides.trans (by simp)⟩
  · refine (shades.function apart).imp fun name listed => ?_
    rcases listed with rfl | inside
    · exact List.mem_cons_self
    · exact entryVariable_of_serializer inside

theorem closed_pair {words : List Word} {bound : List Binder} (closed : Closed words bound) :
    Closed (.opening :: .comma :: (words ++ [.closing])) bound := by
  have listed : Listed (.comma :: words) bound := .comma .nil (.last closed)
  exact listed.group

section Entry

variable {valid : Helpers → Prop} (stores : naming.Stores valid) {field : ParameterField}
  (small : Small field.field.toList)

include stores small

theorem pairEntry_sends (named : naming.NamesTidy) (components : naming.CoversComponents)
    (covers : naming.Covers field.parameter.shape) :
    Behaves policy valid (pairEntry naming field) (SendsField naming field) := by
  have key : Code naming (stringLiteral field.parameter.name) [] := .own (spells_stringLiteral _)
  have value : Code naming _ _ := code_access small
  have pair : Closed [.opening, .lambda ["param"], .opening, .comma, .closing, .closing]
      [⟨"param", []⟩] := (closed_pair .nil).function ["param"]
  unfold pairEntry
  dsimp only
  refine .bind (.withPath _ (stringify_written stores named components covers))
    fun found written => ?_
  split
  case h_1 function =>
    obtain ⟨words, bound, code, closed, reads, shades⟩ :=
      (written_argument written (Or.inl rfl)).parts
    refine .pure (.ofCode ((((key.behind [.opening]).beside [.comma] code).beside [] value).close
      [.closing]) ?_ ?_ (shades.imp fun _ => entryVariable_of_serializer))
    · simpa using closed_pair (closed.append (.read field.read))
    · simp [List.filterMap_cons, List.filterMap_append, reads]
  case h_2 function =>
    obtain ⟨words, bound, code, closed, reads, shades⟩ :=
      (written_argument written (Or.inr rfl)).parts
    refine .pure (.ofCode ((((key.behind [.opening, .lambda ["param"], .opening]).beside
      [.comma, .closing, .closing, .opening] code).beside [] value).close [.closing])
        ?_ ?_ (shades_param shades).1)
    · simpa using pair.append (closed.append (.read field.read)).group
    · simp [List.filterMap_cons, List.filterMap_append, reads]
  case h_3 function =>
    obtain ⟨words, bound, code, closed, reads, shades⟩ :=
      (written_argument written (Or.inl rfl)).parts
    refine .pure (.ofCode (((key.behind [.opening, .lambda ["param"], .opening]).beside
      [.comma] code).beside [.closing, .closing] value) ?_ ?_ (shades_param shades).2)
    · simpa using ((closed_pair closed).function ["param"]).append (.read field.read)
    · simp [List.filterMap_cons, List.filterMap_append, reads]
  case h_4 function =>
    obtain ⟨words, bound, code, closed, reads, shades⟩ :=
      (written_argument written (Or.inr rfl)).parts
    refine .pure (.ofCode ((((key.behind [.opening, .lambda ["param"], .opening]).beside
      [.comma, .closing, .closing, .opening] code).beside [] value).close [.closing])
        ?_ ?_ (shades_param shades).1)
    · simpa using pair.append (closed.append (.read field.read)).group
    · simp [List.filterMap_cons, List.filterMap_append, reads]

theorem interpolation_sends (named : naming.NamesTidy) (components : naming.CoversComponents)
    (covers : naming.Covers field.parameter.shape) :
    Behaves policy valid (interpolation naming field) (SendsField naming field) := by
  have value : Code naming _ _ := code_access small
  unfold interpolation
  dsimp only
  refine .map (.withPath _ (stringify_written stores named components covers))
    fun found written => ?_
  cases found with
  | always function =>
      obtain ⟨words, bound, code, closed, reads, shades⟩ :=
        (written_argument written (Or.inl rfl)).parts
      refine .ofCode (((code.beside [] value).behind [.opening]).close [.closing])
        ?_ ?_ (shades.imp fun _ => entryVariable_of_serializer)
      · simpa using (closed.append (.read field.read)).group
      · simp [List.filterMap_cons, List.filterMap_append, reads]
  | sometimes function =>
      obtain ⟨words, bound, code, closed, reads, shades⟩ :=
        (written_argument written (Or.inr rfl)).parts
      refine .ofCode (((((code.behind [.opening]).beside [] value).close [.closing]).behind
        [.opening]).close [.closing]) ?_ ?_
          (shades.imp fun _ => entryVariable_of_serializer)
      · simpa using (closed.append (.read field.read)).group.group
      · simp [List.filterMap_cons, List.filterMap_append, reads]

end Entry

/-! ### Several fields -/

/-- The fields are read one after the other, and a variable is hidden if one of them makes a
serializer hide it. -/
def SendsFields (naming : Naming) (fields : List ParameterField) (text : String) : Prop :=
  Writes naming text (fields.map ParameterField.read)
    (Shades (· ∈ entryVariables) (∃ field ∈ fields, naming.NullsTwice field))

theorem Shades.congr {named : String → Prop} {hidden further : Prop} {bound : List Binder}
    (shades : Shades named hidden bound) (same : hidden ↔ further) : Shades named further bound :=
  ⟨shades.named, shades.hides.trans same⟩

private theorem SendsField.sendsFields {field : ParameterField} {text : String}
    (sends : SendsField naming field text) : SendsFields naming [field] text :=
  Writes.imp sends fun _ shades => shades.congr (by simp)

private theorem sendsFields_literal (text : String) : SendsFields naming [] (stringLiteral text) :=
  .plain (.own (spells_stringLiteral text)) (Shades.none.congr (by simp))

section Several

variable {α : Type} {items : List α} {texts : List String} {fieldsOf : α → List ParameterField}

private theorem shades_fields {bounds : List (List Binder)}
    (each : List.Forall₂ (fun item bound => Shades (· ∈ entryVariables)
      (∃ field ∈ fieldsOf item, naming.NullsTwice field) bound) items bounds) :
    Shades (· ∈ entryVariables) (∃ field ∈ items.flatMap fieldsOf, naming.NullsTwice field)
      bounds.flatten := by
  refine (Shades.flatten each).congr ?_
  simp only [List.mem_flatMap]
  constructor
  · rintro ⟨item, listed, field, member, twice⟩
    exact ⟨field, ⟨item, listed, member⟩, twice⟩
  · rintro ⟨field, ⟨item, listed, member⟩, twice⟩
    exact ⟨item, listed, field, member, twice⟩

variable (each : List.Forall₂ (fun item text => SendsFields naming (fieldsOf item) text)
  items texts)

include each

private theorem sendsFields_join {separator : List Char}
    (check : (isTail separator && isLead separator && spellsTo separator []) = true) :
    SendsFields naming (items.flatMap fieldsOf) (join (String.ofList separator) texts) := by
  have whole := Writes.join check each
  rw [SendsFields, List.map_flatMap]
  refine whole.imp ?_
  rintro _ ⟨bounds, all, rfl⟩
  exact shades_fields all

theorem sendsFields_list : SendsFields naming (items.flatMap fieldsOf) (list texts) := by
  have whole := Writes.list each
  rw [SendsFields, List.map_flatMap]
  refine whole.imp ?_
  rintro _ ⟨bounds, all, rfl⟩
  exact shades_fields all

end Several

/-! ### Paths -/

/-- The field that stands for a piece of the path. -/
def RequestParameters.pieceFields (parameters : RequestParameters) : Piece → List ParameterField
  | .literal _ => []
  | .variable name => (parameters.path.find? fun entry => entry.parameter.name == name).toList

def RequestParameters.segmentFields (parameters : RequestParameters) (segment : String) :
    List ParameterField :=
  (Piece.ofTemplate segment).flatMap parameters.pieceFields

section Paths

variable {valid : Helpers → Prop} (stores : naming.Stores valid) (named : naming.NamesTidy)
  (components : naming.CoversComponents) {parameters : RequestParameters}
  (holds : ∀ field ∈ parameters.fields, naming.HoldsField field)

include stores named components holds

theorem pieceExpression_sends (piece : Piece) :
    Behaves policy valid (pieceExpression naming parameters piece)
      (SendsFields naming (parameters.pieceFields piece)) := by
  rcases piece with text | name
  · exact .pure (sendsFields_literal text)
  · unfold pieceExpression RequestParameters.pieceFields
    dsimp only
    split
    case h_1 field found =>
      have listed : field ∈ parameters.fields :=
        List.mem_append_left _ (List.mem_append_left _ (List.mem_of_find?_eq_some found))
      have field := holds field listed
      rw [found]
      exact (interpolation_sends stores field.small named components field.covers).imp
        fun _ sends => sends.sendsFields
    case h_2 absent =>
      rw [absent]
      exact .pure (sendsFields_literal _)

theorem segmentExpression_sends (segment : String) :
    Behaves policy valid (segmentExpression naming parameters segment)
      (SendsFields naming (parameters.segmentFields segment)) := by
  unfold segmentExpression RequestParameters.segmentFields
  split
  case h_1 none =>
    rw [none]
    exact .pure (sendsFields_literal "")
  case h_2 =>
    exact .map (.traverseOf fun piece _ =>
      pieceExpression_sends stores named components holds piece)
      fun _ sent => sendsFields_join sent (by decide)

end Paths

end ElmClient.Elm
