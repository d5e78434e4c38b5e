/-
Properties that composed runs have when their parts do. What is shown for every such
property at once holds of the policy, of the store, and of whatever else runs pass on.
-/

import ElmClient.Proofs.Run

namespace ElmClient.Run

variable {σ α β : Type}

structure Composed (Holds : ∀ {α : Type}, Run σ α → Prop) : Prop where
  pure : ∀ {α : Type} (value : α), Holds (Pure.pure value : Run σ α)
  withPath : ∀ {α : Type} (segment : String) {action : Run σ α},
    Holds action → Holds (Run.withPath segment action)
  bind : ∀ {α β : Type} {action : Run σ α} {next : α → Run σ β},
    Holds action → (∀ value, Holds (next value)) → Holds (action >>= next)

/-- The basic runs that leave the store alone have the property, and it is kept in
composing runs. -/
structure Closed (Holds : ∀ {α : Type}, Run σ α → Prop) : Prop extends Composed Holds where
  fail : ∀ {α : Type} (message : String), Holds (Run.fail message : Run σ α)
  placeholderOr : ∀ {α : Type} (message : String) (placeholder : α),
    Holds (Run.placeholderOr message placeholder : Run σ α)

namespace Composed

variable {Holds : ∀ {α : Type}, Run σ α → Prop} (closed : Composed Holds)

include closed

theorem map {action : Run σ α} (convert : α → β) (head : Holds action) :
    Holds (action >>= fun value => Pure.pure (convert value)) :=
  closed.bind head fun value => closed.pure (convert value)

theorem traverseOf {action : α → Run σ β} {items : List α}
    (each : ∀ item ∈ items, Holds (action item)) : Holds (Run.traverse action items) := by
  induction items with
  | nil => exact closed.pure []
  | cons item rest ih =>
      obtain ⟨head, tail⟩ := List.forall_mem_cons.mp each
      exact closed.bind head fun result => closed.map (result :: ·) (ih tail)

theorem traverse {action : α → Run σ β} (each : ∀ item, Holds (action item)) (items : List α) :
    Holds (Run.traverse action items) :=
  closed.traverseOf fun item _ => each item

theorem traverseFromOf (label : String) {action : α → Run σ β} (index : Nat) {items : List α}
    (each : ∀ item ∈ items, Holds (action item)) :
    Holds (Run.traverseFrom label action index items) := by
  induction items generalizing index with
  | nil => exact closed.pure []
  | cons item rest ih =>
      obtain ⟨head, tail⟩ := List.forall_mem_cons.mp each
      refine closed.bind (closed.withPath _ head) fun result => ?_
      exact closed.map (result :: ·) (ih (index + 1) tail)

theorem traverseIndexedOf (label : String) {action : α → Run σ β} {items : List α}
    (each : ∀ item ∈ items, Holds (action item)) :
    Holds (Run.traverseIndexed label action items) :=
  closed.traverseFromOf label 0 each

theorem traverseIndexed (label : String) {action : α → Run σ β}
    (each : ∀ item, Holds (action item)) (items : List α) :
    Holds (Run.traverseIndexed label action items) :=
  closed.traverseIndexedOf label fun item _ => each item

end Composed

/-! ### Stores -/

/-- A valid store is valid afterwards, however the run ends. -/
def Maintains (valid : σ → Prop) (action : Run σ α) : Prop :=
  ∀ scope log, valid log.store → valid (action.outcome scope log).2.store

/-- Where the store is valid at the start, the value of a success is as described. -/
def ReturnsFrom (valid : σ → Prop) (action : Run σ α) (described : α → Prop) : Prop :=
  ∀ scope log value reached, valid log.store → action.outcome scope log = (.ok value, reached) →
    described value

variable {valid : σ → Prop}

namespace Maintains

theorem getStore : Maintains valid (Run.getStore : Run σ σ) :=
  fun _ _ validLog => validLog

theorem bindOf {action : Run σ α} {next : α → Run σ β} {first : α → Prop}
    (head : Maintains valid action) (returns : Returns action first)
    (tail : ∀ value, first value → Maintains valid (next value)) :
    Maintains valid (action >>= next) := by
  intro scope log validLog
  rw [outcome_bind]
  have validMiddle := head scope log validLog
  cases ended : action.outcome scope log with
  | mk outcome middle =>
      rw [ended] at validMiddle
      cases outcome with
      | error diagnostic => exact validMiddle
      | ok value => exact tail value (returns scope log value middle ended) scope middle validMiddle

theorem bind {action : Run σ α} {next : α → Run σ β} (head : Maintains valid action)
    (tail : ∀ value, Maintains valid (next value)) : Maintains valid (action >>= next) :=
  head.bindOf (Returns.any action) fun value _ => tail value

theorem closed : Closed (fun {_} (action : Run σ _) => Maintains valid action) where
  pure _ _ _ validLog := validLog
  fail _ _ _ validLog := validLog
  placeholderOr message placeholder scope log validLog := by
    rw [outcome_placeholderOr]
    split <;> exact validLog
  withPath segment _ inner scope := inner (scope.below segment)
  bind := bind

end Maintains

theorem ReturnsFrom.bind {action : Run σ α} {next : α → Run σ β} {first : α → Prop}
    {described : β → Prop} (maintains : Maintains valid action) (head : Returns action first)
    (tail : ∀ value, first value → ReturnsFrom valid (next value) described) :
    ReturnsFrom valid (action >>= next) described := by
  intro scope log value reached validLog equal
  obtain ⟨found, middle, ended, continued⟩ := parts_of_outcome_bind equal
  have validMiddle := maintains scope log validLog
  rw [ended] at validMiddle
  have holds := head scope log found middle ended
  exact tail found holds scope middle value reached validMiddle continued

theorem ReturnsFrom.map {action : Run σ α} {convert : α → β} {first : α → Prop}
    {described : β → Prop} (head : ReturnsFrom valid action first)
    (converts : ∀ value, first value → described (convert value)) :
    ReturnsFrom valid (action >>= fun value => Pure.pure (convert value)) described := by
  intro scope log value reached validLog equal
  obtain ⟨found, middle, ended, continued⟩ := parts_of_outcome_bind equal
  have holds := head scope log found middle validLog ended
  cases continued
  exact converts found holds

/-! ### Policies -/

section Policies

variable {policy : Policy}

/-- Under the policy a valid store is valid afterwards, and the value of a success is as
described. -/
def Behaves (policy : Policy) (valid : σ → Prop) (action : Run σ α) (described : α → Prop) :
    Prop :=
  ∀ scope log, scope.policy = policy → valid log.store →
    valid (action.outcome scope log).2.store ∧
      ∀ value, (action.outcome scope log).1 = .ok value → described value

def Succeeds (policy : Policy) (action : Run σ α) : Prop :=
  ∀ scope log, scope.policy = policy →
    ∃ value reached, action.outcome scope log = (.ok value, reached)

namespace Behaves

theorem pure {value : α} {described : α → Prop} (holds : described value) :
    Behaves policy valid (Pure.pure value : Run σ α) described := by
  intro scope log _ validLog
  refine ⟨validLog, fun found equal => ?_⟩
  rw [outcome_pure] at equal
  exact Except.ok.inj equal ▸ holds

theorem fail {message : String} {described : α → Prop} :
    Behaves policy valid (Run.fail message : Run σ α) described :=
  fun _ _ _ validLog => ⟨validLog, nofun⟩

theorem placeholderOr {message : String} {placeholder : α} {described : α → Prop}
    (holds : policy = .generateTodos → described placeholder) :
    Behaves policy valid (Run.placeholderOr message placeholder : Run σ α) described := by
  intro scope log equal validLog
  rw [outcome_placeholderOr, equal]
  cases policy with
  | failOnUnsupported => exact ⟨validLog, nofun⟩
  | generateTodos => exact ⟨validLog, fun value same => Except.ok.inj same ▸ holds rfl⟩

theorem getStore : Behaves policy valid (Run.getStore : Run σ σ) valid :=
  fun _ _ _ validLog => ⟨validLog, fun _ same => Except.ok.inj same ▸ validLog⟩

theorem setStore {store : σ} (validStore : valid store) :
    Behaves policy valid (Run.setStore store) fun _ => True :=
  fun _ _ _ _ => ⟨validStore, fun _ _ => trivial⟩

theorem bind {action : Run σ α} {next : α → Run σ β} {first : α → Prop} {described : β → Prop}
    (head : Behaves policy valid action first)
    (tail : ∀ value, first value → Behaves policy valid (next value) described) :
    Behaves policy valid (action >>= next) described := by
  intro scope log equal validLog
  rw [outcome_bind]
  obtain ⟨validMiddle, holds⟩ := head scope log equal validLog
  cases ended : action.outcome scope log with
  | mk outcome middle =>
      rw [ended] at validMiddle holds
      cases outcome with
      | error diagnostic => exact ⟨validMiddle, nofun⟩
      | ok value => exact tail value (holds value rfl) scope middle equal validMiddle

theorem map {action : Run σ α} {convert : α → β} {first : α → Prop} {described : β → Prop}
    (head : Behaves policy valid action first)
    (converts : ∀ value, first value → described (convert value)) :
    Behaves policy valid (action >>= fun value => Pure.pure (convert value)) described :=
  bind head fun value holds => pure (converts value holds)

theorem imp {action : Run σ α} {first described : α → Prop}
    (inner : Behaves policy valid action first)
    (implies : ∀ value, first value → described value) : Behaves policy valid action described := by
  intro scope log equal validLog
  obtain ⟨validLater, holds⟩ := inner scope log equal validLog
  exact ⟨validLater, fun value same => implies value (holds value same)⟩

theorem and_returns {action : Run σ α} {first second : α → Prop}
    (inner : Behaves policy valid action first) (returns : Returns action second) :
    Behaves policy valid action fun value => first value ∧ second value := by
  intro scope log equal validLog
  obtain ⟨validLater, holds⟩ := inner scope log equal validLog
  refine ⟨validLater, fun value same => ⟨holds value same, ?_⟩⟩
  exact returns scope log value _ (Prod.ext same rfl)

theorem withPath (segment : String) {action : Run σ α} {described : α → Prop}
    (inner : Behaves policy valid action described) :
    Behaves policy valid (Run.withPath segment action) described :=
  fun scope => inner (scope.below segment)

theorem ofReturns {action : Run σ α} {described : α → Prop} (maintains : Maintains valid action)
    (returns : Returns action described) : Behaves policy valid action described :=
  fun scope log _ validLog => ⟨maintains scope log validLog, fun value same =>
    returns scope log value _ (Prod.ext same rfl)⟩

theorem traverseValues {action : α → Run σ β} {described : β → Prop} {items : List α}
    (each : ∀ item ∈ items, Behaves policy valid (action item) described) :
    Behaves policy valid (Run.traverse action items)
      fun values => ∀ value ∈ values, described value := by
  induction items with
  | nil => exact pure nofun
  | cons item rest ih =>
      obtain ⟨head, tail⟩ := List.forall_mem_cons.mp each
      refine bind head fun value first => ?_
      exact map (ih tail) fun values later => List.forall_mem_cons.mpr ⟨first, later⟩

theorem traverseOf {action : α → Run σ β} {described : α → β → Prop} {items : List α}
    (each : ∀ item ∈ items, Behaves policy valid (action item) (described item)) :
    Behaves policy valid (Run.traverse action items) (List.Forall₂ described items) := by
  induction items with
  | nil => exact pure .nil
  | cons item rest ih =>
      obtain ⟨head, tail⟩ := List.forall_mem_cons.mp each
      exact bind head fun value first => map (ih tail) fun values later => .cons first later

theorem traverse {action : α → Run σ β} {holds : α → Prop} {items : List α}
    (each : ∀ item ∈ items, Behaves policy valid (action item) fun _ => holds item) :
    Behaves policy valid (Run.traverse action items) fun _ => ∀ item ∈ items, holds item := by
  induction items with
  | nil => exact pure nofun
  | cons item rest ih =>
      obtain ⟨head, tail⟩ := List.forall_mem_cons.mp each
      refine bind head fun value first => ?_
      exact map (ih tail) fun values later => List.forall_mem_cons.mpr ⟨first, later⟩

end Behaves

namespace Succeeds

theorem pure (value : α) : Succeeds policy (Pure.pure value : Run σ α) :=
  fun _ log _ => ⟨value, log, rfl⟩

theorem placeholderOr {message : String} {placeholder : α} (lenient : policy = .generateTodos) :
    Succeeds policy (Run.placeholderOr message placeholder : Run σ α) := by
  intro scope log equal
  rw [outcome_placeholderOr, equal, lenient]
  exact ⟨placeholder, _, rfl⟩

theorem getStore : Succeeds policy (Run.getStore : Run σ σ) :=
  fun _ log _ => ⟨log.store, log, rfl⟩

theorem setStore (store : σ) : Succeeds policy (Run.setStore store) :=
  fun _ _ _ => ⟨(), _, rfl⟩

theorem bind {action : Run σ α} {next : α → Run σ β} {first : α → Prop}
    (head : Succeeds policy action) (returns : Returns action first)
    (tail : ∀ value, first value → Succeeds policy (next value)) :
    Succeeds policy (action >>= next) := by
  intro scope log equal
  obtain ⟨value, middle, ended⟩ := head scope log equal
  rw [outcome_bind, ended]
  exact tail value (returns scope log value middle ended) scope middle equal

theorem map {action : Run σ α} (convert : α → β) (head : Succeeds policy action) :
    Succeeds policy (action >>= fun value => Pure.pure (convert value)) :=
  bind head (Returns.any _) fun value _ => pure (convert value)

theorem traverse {action : α → Run σ β} {items : List α}
    (each : ∀ item ∈ items, Succeeds policy (action item)) :
    Succeeds policy (Run.traverse action items) := by
  induction items with
  | nil => exact pure []
  | cons item rest ih =>
      obtain ⟨head, tail⟩ := List.forall_mem_cons.mp each
      refine bind head (Returns.any _) fun value _ => ?_
      exact map (value :: ·) (ih tail)

end Succeeds

end Policies

end ElmClient.Run
