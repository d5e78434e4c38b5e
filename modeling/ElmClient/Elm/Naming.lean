/-
What generated code calls things: the namespace, the final names of enums and
unions, the shapes of components by name, and the configured formats.
-/

import ElmClient.Config.Basic
import ElmClient.Elm.Declaration
import ElmClient.Registry.Declared
import ElmClient.Resolve.Api

namespace ElmClient.Elm

structure Naming where
  namespaceName : String
  declared : DeclaredTypes
  components : List (TypeName × Shape)
  formats : FormatRegistry

namespace Naming

def ofApi (config : Config) (api : Api) (declared : DeclaredTypes) : Naming :=
  { namespaceName := config.namespaceName
    declared := declared
    components := api.components.map fun component => (component.name, component.shape)
    formats := config.formats }

def qualified (naming : Naming) (group : Group) (name : String) : String :=
  group.moduleName naming.namespaceName ++ "." ++ name

def typeRef (naming : Naming) (name : TypeName) : String :=
  naming.qualified .types name.text

def decoderRef (naming : Naming) (name : TypeName) : String :=
  naming.qualified .decoders name.decoderName

def encoderRef (naming : Naming) (name : TypeName) : String :=
  naming.qualified .encoders name.encoderName

/-- The final form of a union that was resolved under a name. -/
def union (naming : Naming) (union : Union) : Union :=
  (naming.declared.union? union.name).getD union

def unionName (naming : Naming) (name : TypeName) : TypeName :=
  match naming.declared.union? name with
  | some union => union.name
  | none => name

def enumName? (naming : Naming) (values : List String) : Option TypeName :=
  naming.declared.enumName? values

def formatEntry? (naming : Naming) (primitive : Primitive) : Option FormatEntry :=
  primitive.format.bind (naming.formats.find? primitive.kind)

end Naming

def common (name : String) : String :=
  commonModule ++ "." ++ name

end ElmClient.Elm
