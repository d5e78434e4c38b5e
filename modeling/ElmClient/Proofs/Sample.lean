/-
Small parts of documents, for the inputs that general statements are applied to.
-/

import ElmClient.Document.Reader

namespace ElmClient

def Schema.bare : Schema :=
  { kind := none, format := none, title := none, description := none, enumeration := none
    constant := none, nullable := none, items := none, properties := [], required := []
    additional := none, allOf := none, anyOf := none, oneOf := none, deprecated := false }

def Schema.oneOfTexts (texts : List String) : Schema :=
  { Schema.bare with kind := some (.one "string"), enumeration := some (texts.map .string) }

/-- An object with properties that may be absent. -/
def Schema.record (properties : List (String × RefOr Schema)) : Schema :=
  { Schema.bare with kind := some (.one "object"), properties := properties }

def Schema.recordOf (key kind : String) : RefOr Schema :=
  .inline (Schema.record [(key, .inline { Schema.bare with kind := some (.one kind) })])

def Schema.merging (members : List (RefOr Schema)) : Schema :=
  { Schema.bare with allOf := some members }

def PathItem.reading (responses : List (String × RefOr Response)) : PathItem :=
  { summary := none, description := none, parameters := []
    get := some
      { operationId := none, summary := none, description := none, tags := [], parameters := []
        requestBody := none, responses := responses, security := none, deprecated := false }
    put := none, post := none, delete := none, options := none, head := none, patch := none
    trace := none }

/-- A path that is read by an operation of one id and posted to by one of another. -/
def PathItem.readingAndPosting (reader poster : String)
    (responses : List (String × RefOr Response)) : PathItem :=
  let plain := PathItem.reading responses
  let called := fun id => plain.get.map fun operation => { operation with operationId := some id }
  { plain with get := called reader, post := called poster }

def Parameter.inQuery (name : String) (schema : RefOr Schema) : Parameter :=
  { name := name, location := .query, required := true, description := none
    schema := some schema, content := [], deprecated := false }

def Document.ofParts (paths : List (String × PathItem)) (schemas : List (String × RefOr Schema)) :
    Document :=
  { openapi := "3.0.3", info := Info.empty, servers := [], paths := paths
    components := { Components.empty with schemas := schemas }, security := none }

end ElmClient
