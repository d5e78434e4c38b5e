/-
What the basic runs end with. A run is opened step by step with these equations,
so that no later proof looks through the layers of the monad.
-/

import ElmClient.Run
import Mathlib.Data.List.Forall2

namespace ElmClient.Run

variable {σ α β : Type}

theorem outcome_pure (value : α) (scope : Scope) (log : Log σ) :
    (pure value : Run σ α).outcome scope log = (.ok value, log) := rfl

theorem outcome_bind (action : Run σ α) (next : α → Run σ β) (scope : Scope) (log : Log σ) :
    (action >>= next).outcome scope log =
      match action.outcome scope log with
      | (.ok value, reached) => (next value).outcome scope reached
      | (.error diagnostic, reached) => (.error diagnostic, reached) := by
  change (match action.outcome scope log with
    | (ended, reached) =>
        (ExceptT.bindCont (fun value => (next value).run scope) ended).run reached) = _
  rcases action.outcome scope log with ⟨_ | _, reached⟩ <;> rfl

/-- A run in two parts that ends with a value went through the value of its first part. -/
theorem parts_of_outcome_bind {action : Run σ α} {next : α → Run σ β} {scope : Scope}
    {log reached : Log σ} {value : β}
    (equal : (action >>= next).outcome scope log = (.ok value, reached)) :
    ∃ found middle, action.outcome scope log = (.ok found, middle) ∧
      (next found).outcome scope middle = (.ok value, reached) := by
  rw [outcome_bind] at equal
  cases ended : action.outcome scope log with
  | mk outcome middle =>
      rw [ended] at equal
      cases outcome with
      | error diagnostic => cases equal
      | ok found => exact ⟨found, middle, rfl, equal⟩

theorem outcome_fail (message : String) (scope : Scope) (log : Log σ) :
    (fail message : Run σ α).outcome scope log = (.error ⟨scope.path, message⟩, log) := rfl

theorem outcome_placeholderOr (message : String) (placeholder : α) (scope : Scope)
    (log : Log σ) :
    (placeholderOr message placeholder).outcome scope log =
      match scope.policy with
      | .generateTodos => (.ok placeholder, log.warn ⟨scope.path, message⟩)
      | .failOnUnsupported => (.error ⟨scope.path, message⟩, log) := by
  rcases scope with ⟨_ | _, path⟩ <;> rfl

theorem outcome_registerEnum (entry : EnumEntry) (scope : Scope) (log : Log Registry) :
    (registerEnum entry).outcome scope log =
      (.ok (log.store.registerEnum entry).1,
        { log with store := (log.store.registerEnum entry).2 }) := rfl

theorem outcome_registerUnion (union : Union) (owner : Option TypeName) (scope : Scope)
    (log : Log Registry) :
    (registerUnion union owner).outcome scope log =
      (.ok (log.store.registerUnion union owner).1,
        { log with store := (log.store.registerUnion union owner).2 }) := rfl

theorem succeeds_of_isOk {action : Run σ α} {scope : Scope} {log : Log σ}
    (isOk : (action.outcome scope log).1.isOk = true) :
    ∃ value reached, action.outcome scope log = (.ok value, reached) := by
  cases ended : action.outcome scope log with
  | mk outcome reached =>
      rw [ended] at isOk
      cases outcome with
      | error diagnostic => cases isOk
      | ok value => exact ⟨value, reached, rfl⟩

/-! ### What values satisfy -/

theorem all_of_forall₂ {holds : β → Prop} {items : List α} {values : List β}
    (related : List.Forall₂ (fun _ value => holds value) items values) :
    ∀ value ∈ values, holds value := by
  induction related with
  | nil => exact fun value member => absurd member List.not_mem_nil
  | cons first _ ih => exact List.forall_mem_cons.mpr ⟨first, ih⟩

theorem flatMap_eq_of_forall₂ {α β γ : Type} {names : β → List γ} {expected : α → List γ}
    {items : List α} {lists : List β}
    (related : List.Forall₂ (fun item list => names list = expected item) items lists) :
    lists.flatMap names = items.flatMap expected := by
  induction related with
  | nil => rfl
  | cons first _ ih => rw [List.flatMap_cons, List.flatMap_cons, first, ih]

/-- Whatever the run begins with, the value it ends with is as described. -/
def Returns (action : Run σ α) (described : α → Prop) : Prop :=
  ∀ scope log value reached, action.outcome scope log = (.ok value, reached) → described value

namespace Returns

theorem pure {value : α} {described : α → Prop} (holds : described value) :
    Returns (Pure.pure value : Run σ α) described := by
  intro scope log ended reached equal
  rw [outcome_pure] at equal
  cases equal
  exact holds

theorem withPath (segment : String) {action : Run σ α} {described : α → Prop}
    (inner : Returns action described) : Returns (Run.withPath segment action) described :=
  fun scope => inner (scope.below segment)

theorem bind {action : Run σ α} {next : α → Run σ β} {first : α → Prop} {described : β → Prop}
    (head : Returns action first)
    (tail : ∀ value, first value → Returns (next value) described) :
    Returns (action >>= next) described := by
  intro scope log value reached equal
  obtain ⟨found, middle, ended, continued⟩ := parts_of_outcome_bind equal
  exact tail found (head scope log found middle ended) scope middle value reached continued

theorem any (action : Run σ α) : Returns action fun _ => True :=
  fun _ _ _ _ _ => trivial

theorem map {action : Run σ α} {convert : α → β} {first : α → Prop} {described : β → Prop}
    (head : Returns action first) (converts : ∀ value, first value → described (convert value)) :
    Returns (action >>= fun value => Pure.pure (convert value)) described :=
  bind head fun value holds => pure (converts value holds)

theorem traverseOf {action : α → Run σ β} {related : α → β → Prop} {items : List α}
    (each : ∀ item ∈ items, Returns (action item) (related item)) :
    Returns (Run.traverse action items) (List.Forall₂ related items) := by
  induction items with
  | nil => exact pure List.Forall₂.nil
  | cons item rest ih =>
      obtain ⟨head, tail⟩ := List.forall_mem_cons.mp each
      rw [Run.traverse]
      refine bind head fun value first => ?_
      refine bind (ih tail) fun values later => ?_
      exact pure (List.Forall₂.cons first later)

theorem traverse {action : α → Run σ β} {related : α → β → Prop}
    (each : ∀ item, Returns (action item) (related item)) (items : List α) :
    Returns (Run.traverse action items) (List.Forall₂ related items) :=
  traverseOf fun item _ => each item

theorem traverseFromOf (label : String) {action : α → Run σ β} {related : α → β → Prop}
    (index : Nat) {items : List α} (each : ∀ item ∈ items, Returns (action item) (related item)) :
    Returns (Run.traverseFrom label action index items) (List.Forall₂ related items) := by
  induction items generalizing index with
  | nil => exact pure List.Forall₂.nil
  | cons item rest ih =>
      obtain ⟨head, tail⟩ := List.forall_mem_cons.mp each
      rw [Run.traverseFrom]
      refine bind (withPath _ head) fun value first => ?_
      refine bind (ih (index + 1) tail) fun values later => ?_
      exact pure (List.Forall₂.cons first later)

theorem traverseIndexedOf (label : String) {action : α → Run σ β} {related : α → β → Prop}
    {items : List α} (each : ∀ item ∈ items, Returns (action item) (related item)) :
    Returns (Run.traverseIndexed label action items) (List.Forall₂ related items) :=
  traverseFromOf label 0 each

theorem traverseIndexed (label : String) {action : α → Run σ β} {related : α → β → Prop}
    (each : ∀ item, Returns (action item) (related item)) (items : List α) :
    Returns (Run.traverseIndexed label action items) (List.Forall₂ related items) :=
  traverseIndexedOf label fun item _ => each item

theorem fail {message : String} {described : α → Prop} :
    Returns (Run.fail message : Run σ α) described := by
  intro scope log value reached equal
  rw [outcome_fail] at equal
  cases equal

theorem placeholderOr {message : String} {placeholder : α} {described : α → Prop}
    (holds : described placeholder) :
    Returns (Run.placeholderOr message placeholder : Run σ α) described := by
  intro scope log value reached equal
  rw [outcome_placeholderOr] at equal
  split at equal
  · cases equal
    exact holds
  · cases equal

theorem and {action : Run σ α} {first second : α → Prop} (left : Returns action first)
    (right : Returns action second) : Returns action fun value => first value ∧ second value :=
  fun scope log value reached equal =>
    ⟨left scope log value reached equal, right scope log value reached equal⟩

theorem imp {action : Run σ α} {first described : α → Prop} (inner : Returns action first)
    (implies : ∀ value, first value → described value) : Returns action described :=
  fun scope log value reached equal => implies value (inner scope log value reached equal)

theorem bind_congr {action : Run σ α} {next other : α → Run σ β} {first : α → Prop}
    (head : Returns action first) (same : ∀ value, first value → next value = other value) :
    (action >>= next) = action >>= other := by
  funext scope log
  change (action >>= next).outcome scope log = (action >>= other).outcome scope log
  rw [outcome_bind, outcome_bind]
  cases ended : action.outcome scope log with
  | mk outcome middle =>
      cases outcome with
      | error diagnostic => rfl
      | ok value =>
          have equal := same value (head scope log value middle ended)
          dsimp only
          rw [equal]

end Returns

end ElmClient.Run
