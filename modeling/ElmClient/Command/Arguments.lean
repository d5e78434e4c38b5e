/-
Arguments of a command. An option is written with two hyphens; its value is the
next argument or follows an equals sign. After two hyphens alone everything is
positional. An argument that begins with a hyphen is never a value.
-/

import ElmClient.Text.Edit

namespace ElmClient

structure OptionForm where
  name : String
  takesValue : Bool
  repeatable : Bool
deriving DecidableEq, Repr, Inhabited

/-- What was given: options with their values, and positional arguments. The value
of a switch is empty. -/
structure Arguments where
  options : List (String × String)
  positional : List String
deriving DecidableEq, Repr, Inhabited

namespace Arguments

inductive Word where
  | separator
  | option (name : String) (value : Option String)
  | short
  | plain
deriving DecidableEq, Repr

def wordOf (argument : String) : Word :=
  match argument.toList with
  | ['-', '-'] => .separator
  | '-' :: '-' :: rest =>
      let text := String.ofList rest
      match Text.splitOnce? '=' text with
      | some (name, value) => .option name (some value)
      | none => .option text none
  | '-' :: _ :: _ => .short
  | _ => .plain

def addOption (name value : String) (arguments : Arguments) : Arguments :=
  { arguments with options := (name, value) :: arguments.options }

def addPositional (value : String) (arguments : Arguments) : Arguments :=
  { arguments with positional := value :: arguments.positional }

/-- Read arguments; `pending` is an option whose value comes next. -/
def read? (forms : List OptionForm) : Option String → List String → Option Arguments
  | none, [] => some { options := [], positional := [] }
  | some _, [] => none
  | pending, argument :: rest =>
      match wordOf argument, pending with
      | .plain, none => (read? forms none rest).map (addPositional argument)
      | .plain, some name => (read? forms none rest).map (addOption name argument)
      | .separator, none => some { options := [], positional := rest }
      | .option name value, none =>
          match forms.find? (fun form => form.name == name), value with
          | some ⟨_, true, _⟩, none => read? forms (some name) rest
          | some ⟨_, true, _⟩, some value => (read? forms none rest).map (addOption name value)
          | some ⟨_, false, _⟩, none => (read? forms none rest).map (addOption name "")
          | _, _ => none
      | _, _ => none

def values (arguments : Arguments) (name : String) : List String :=
  (arguments.options.filter fun option => option.1 == name).map Prod.snd

def value? (arguments : Arguments) (name : String) : Option String :=
  (arguments.values name).head?

def respects (arguments : Arguments) (form : OptionForm) : Bool :=
  form.repeatable || (arguments.values form.name).length ≤ 1

def ofList? (forms : List OptionForm) (words : List String) : Option Arguments :=
  (read? forms none words).filter fun arguments => forms.all arguments.respects

end Arguments

end ElmClient
