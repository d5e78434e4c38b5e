/-
Uniting the fields of objects. A key keeps its first position; it is required if
any contribution requires it, its documentation is the first one present, and
its shape is the last one, except that two objects are united in turn.
-/

import ElmClient.Shape

namespace ElmClient.Field

mutual

def uniteShapes : Shape → Shape → Shape
  | .object present, .object incoming => .object (uniteWithin present incoming)
  | _, incoming => incoming

/-- Lay the fields that are there on both sides over one another, and append
the incoming fields that are new. -/
def uniteWithin : List (FieldOf Shape) → List (FieldOf Shape) → List (FieldOf Shape)
  | [], incoming => incoming
  | ⟨key, required, doc, shape⟩ :: rest, incoming =>
      match find? key incoming with
      | none => ⟨key, required, doc, shape⟩ :: uniteWithin rest incoming
      | some field =>
          ⟨key, required || field.required, doc.or field.doc, uniteShapes shape field.shape⟩
            :: uniteWithin rest (incoming.filter fun other => other.key != key)

end

def unite (present incoming : List Field) : List Field :=
  uniteWithin present incoming

def requireKeys (keys : List String) (fields : List Field) : List Field :=
  fields.map fun field =>
    if keys.contains field.key then { field with required := true } else field

end ElmClient.Field
