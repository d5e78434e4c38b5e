/-
Runs. A run knows its policy and the path of the place it works at, keeps a log
of warnings and a store of what was found along the way, and ends with a value
or a fatal diagnostic. The path belongs to the place, so it is the same again
after any inner run, failed or not; warnings and store are kept on failure.
-/

import ElmClient.Registry.Basic

namespace ElmClient

structure Diagnostic where
  path : List String
  message : String
deriving DecidableEq, Repr, Inhabited

def Diagnostic.display (diagnostic : Diagnostic) : String :=
  match diagnostic.path with
  | [] => diagnostic.message
  | path => Text.join " > " path ++ ": " ++ diagnostic.message

inductive Verdict where
  | warn
  | fail
deriving DecidableEq, Repr

inductive Policy where
  | failOnUnsupported
  | generateTodos
deriving DecidableEq, Repr, Inhabited

namespace Policy

def judge : Policy → Diagnostic → Verdict
  | .failOnUnsupported, _ => .fail
  | .generateTodos, _ => .warn

def text : Policy → String
  | .failOnUnsupported => "fail-on-unsupported"
  | .generateTodos => "generate-todos"

def ofTodos (generateTodos : Bool) : Policy :=
  if generateTodos then .generateTodos else .failOnUnsupported

end Policy

structure Scope where
  policy : Policy
  path : List String
deriving DecidableEq, Repr

def Scope.root (policy : Policy) : Scope :=
  { policy := policy, path := [] }

def Scope.below (scope : Scope) (segment : String) : Scope :=
  { scope with path := scope.path ++ [segment] }

structure Log (σ : Type) where
  warnings : List Diagnostic
  store : σ
deriving Repr

def Log.starting {σ : Type} (store : σ) : Log σ :=
  { warnings := [], store := store }

def Log.warn {σ : Type} (diagnostic : Diagnostic) (log : Log σ) : Log σ :=
  { log with warnings := log.warnings ++ [diagnostic] }

abbrev Run (σ : Type) := ReaderT Scope (ExceptT Diagnostic (StateM (Log σ)))

namespace Run

variable {σ α β : Type}

/-- The outcome and the log of a run that starts with the given log. -/
def outcome (action : Run σ α) (scope : Scope) (log : Log σ) : Except Diagnostic α × Log σ :=
  ((action.run scope).run).run log

def diagnose (message : String) : Run σ Diagnostic := do
  return { path := (← read).path, message := message }

def fail (message : String) : Run σ α := do
  throw (← diagnose message)

/-- Go on with a placeholder under a warning, or end the run, as the policy says. -/
def placeholderOr (message : String) (placeholder : α) : Run σ α := do
  let diagnostic ← diagnose message
  match (← read).policy.judge diagnostic with
  | .warn =>
      modify (Log.warn diagnostic)
      return placeholder
  | .fail => throw diagnostic

def withPath (segment : String) (action : Run σ α) : Run σ α := fun scope =>
  action (scope.below segment)

def traverse (action : α → Run σ β) : List α → Run σ (List β)
  | [] => return []
  | item :: rest => do
      let result ← action item
      return result :: (← traverse action rest)

def traverseFrom (label : String) (action : α → Run σ β) : Nat → List α → Run σ (List β)
  | _, [] => return []
  | index, item :: rest => do
      let result ← withPath (label ++ "[" ++ toString index ++ "]") (action item)
      return result :: (← traverseFrom label action (index + 1) rest)

def traverseIndexed (label : String) (action : α → Run σ β) (items : List α) : Run σ (List β) :=
  traverseFrom label action 0 items

def getStore : Run σ σ := do
  return (← get).store

def setStore (store : σ) : Run σ Unit :=
  modify fun log => { log with store := store }

/-! ### Runs with a registry -/

def registerEnum (entry : EnumEntry) : Run Registry TypeName := do
  let (name, registry) := (← getStore).registerEnum entry
  setStore registry
  return name

def registerUnion (union : Union) (owner : Option TypeName) : Run Registry Union := do
  let (stored, registry) := (← getStore).registerUnion union owner
  setStore registry
  return stored

def takeRegistry : Run Registry Registry := do
  let registry ← getStore
  setStore Registry.empty
  return registry

def absorb (branch : Log Registry) : Run Registry Unit := do
  let log ← get
  let (registry, conflict) := log.store.merge branch.store
  set ({ warnings := log.warnings ++ branch.warnings, store := registry } : Log Registry)
  match conflict with
  | none => return ()
  | some name => fail ("union `" ++ name.text ++ "` is declared twice with different members")

end Run

end ElmClient
