/-
Components that lead back to themselves. Unions and enums are custom types of
their own and end every way; all other shapes are transparent. The search goes
depth first and enters a component once. Each step passes a pending reference or
exchanges it for those of a component not entered before, so the references that
are pending or still to be found become fewer.
-/

import ElmClient.Elm.Naming

namespace ElmClient.Elm

mutual

/-- The components that a shape refers to without passing through a union. -/
def directReferences : Shape → List TypeName
  | .ref target => [target.typeName]
  | .nullable inner => directReferences inner
  | .list inner => directReferences inner
  | .dict inner => directReferences inner
  | .object fields => fieldReferences fields
  | _ => []

def fieldReferences : List (FieldOf Shape) → List TypeName
  | [] => []
  | ⟨_, _, _, shape⟩ :: rest => directReferences shape ++ fieldReferences rest

end

def unseenReferences (visited : List TypeName) : List (TypeName × Shape) → Nat
  | [] => 0
  | (name, shape) :: rest =>
      (if visited.contains name then 0 else (directReferences shape).length)
        + unseenReferences visited rest

theorem unseenReferences_cons_le (name : TypeName) (visited : List TypeName)
    (components : List (TypeName × Shape)) :
    unseenReferences (name :: visited) components ≤ unseenReferences visited components := by
  induction components with
  | nil => exact Nat.le_refl 0
  | cons component rest ih =>
      obtain ⟨present, shape⟩ := component
      refine Nat.add_le_add ?_ ih
      by_cases seen : present ∈ visited
      · simp [seen]
      · simp only [List.contains_iff_mem, seen, if_false]
        split
        · exact Nat.zero_le _
        · exact Nat.le_refl _

namespace Naming

def componentReferences (naming : Naming) (name : TypeName) : List TypeName :=
  match Keyed.find? name naming.components with
  | some shape => directReferences shape
  | none => []

/-- Entering a component exchanges unseen references for pending ones. -/
theorem unseenReferences_enter (naming : Naming) {name : TypeName} {visited : List TypeName}
    (fresh : ¬ visited.contains name = true) :
    (naming.componentReferences name).length
        + unseenReferences (name :: visited) naming.components
      ≤ unseenReferences visited naming.components := by
  unfold componentReferences
  induction naming.components with
  | nil => exact Nat.le_refl 0
  | cons component rest ih =>
      obtain ⟨present, shape⟩ := component
      by_cases same : present = name
      · subst same
        have later := unseenReferences_cons_le present visited rest
        simp only [Keyed.find?, unseenReferences, List.contains_cons, beq_self_eq_true,
          Bool.true_or, if_true, if_neg fresh]
        omega
      · have other : (present == name) = false := beq_eq_false_iff_ne.mpr same
        simp only [Keyed.find?, unseenReferences, List.contains_cons, if_neg same, other,
          Bool.false_or]
        omega

/-- Whether the target is met on the ways that begin with the pending references,
the first of them first. What was visited is not entered again. -/
def reaches (naming : Naming) (target : TypeName) (visited : List TypeName) :
    List TypeName → Bool
  | [] => false
  | name :: pending =>
      if name = target then true
      else if visited.contains name then naming.reaches target visited pending
      else naming.reaches target (name :: visited) (naming.componentReferences name ++ pending)
termination_by pending => unseenReferences visited naming.components + pending.length
decreasing_by
  · rw [List.length_cons]
    omega
  · case _ fresh =>
      have exchanged := naming.unseenReferences_enter fresh
      rw [List.length_append, List.length_cons]
      omega

def isRecursive (naming : Naming) (name : TypeName) (shape : Shape) : Bool :=
  naming.reaches name [] (directReferences shape)

end Naming

end ElmClient.Elm
