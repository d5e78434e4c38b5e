/-
Runs that can be repeated. What a run has registered stays, so at any later moment the
same run finds it: it ends with the same value and registers nothing. Composed runs can
be repeated when their parts can.
-/

import ElmClient.Proofs.Sound.Run

namespace ElmClient.Run

variable {α β : Type}

/-- A run that ends with the given value and registers nothing, or fails for a reason that
excuses it. -/
def Recalls (excused : String → Prop) (value : α) (again : Run Registry α) (scope : Scope)
    (log : Log Registry) : Prop :=
  (∃ last, again.outcome scope log = (.ok value, last) ∧ last.store = log.store) ∨
    ∃ diagnostic last, again.outcome scope log = (.error diagnostic, last) ∧
      excused diagnostic.message

def Grows (action : Run Registry α) : Prop :=
  ∀ scope log, log.store.Distinct →
    (action.outcome scope log).2.store.Distinct ∧
      log.store.Within (action.outcome scope log).2.store

/-- A run adds to the registry, and what it ends with is as described and is what `again`
ends with at every later moment. -/
structure Repeats (excused : String → Prop) (action again : Run Registry α)
    (described : α → Prop) : Prop where
  grows : Grows action
  returns : Returns action described
  recalls : ∀ scope log value reached, log.store.Distinct →
    action.outcome scope log = (.ok value, reached) →
      ∀ other later, other.policy = scope.policy → later.store.Distinct →
        reached.store.Within later.store → Recalls excused value again other later

namespace Repeats

variable {excused : String → Prop}

/-- What registers nothing and depends on nothing registered. -/
theorem pure {value : α} {described : α → Prop} (holds : described value) :
    Repeats excused (Pure.pure value) (Pure.pure value) described where
  grows scope log distinct := ⟨distinct, .refl _⟩
  returns := .pure holds
  recalls := by
    intro scope log ended reached distinct equal other later samePolicy laterDistinct within
    rw [outcome_pure] at equal
    cases equal
    exact Or.inl ⟨later, rfl, rfl⟩

theorem fail {message : String} {again : Run Registry α} {described : α → Prop} :
    Repeats excused (Run.fail message) again described where
  grows scope log distinct := ⟨distinct, .refl _⟩
  returns := .fail
  recalls := by
    intro scope log value reached distinct equal
    rw [outcome_fail] at equal
    cases equal

theorem failing {action again : Run Registry α} {described : α → Prop} {message : String}
    (allowed : excused message) (itself : Repeats excused action again described) :
    Repeats excused action (Run.fail message) described where
  grows := itself.grows
  returns := itself.returns
  recalls _ _ _ _ _ _ other later _ _ _ :=
    Or.inr ⟨⟨other.path, message⟩, later, outcome_fail message other later, allowed⟩

theorem placeholderOr {message : String} {placeholder : α} {described : α → Prop}
    (holds : described placeholder) :
    Repeats excused (Run.placeholderOr message placeholder)
      (Run.placeholderOr message placeholder) described where
  grows := by
    intro scope log distinct
    rw [outcome_placeholderOr]
    split
    · exact ⟨distinct, .refl _⟩
    · exact ⟨distinct, .refl _⟩
  returns := .placeholderOr holds
  recalls := by
    intro scope log value reached distinct equal other later samePolicy laterDistinct within
    refine Or.inl ⟨later.warn ⟨other.path, message⟩, ?_, rfl⟩
    rw [outcome_placeholderOr] at equal ⊢
    rw [samePolicy]
    split at equal
    · cases equal
      rfl
    · cases equal

theorem withPath (segment other : String) {action again : Run Registry α}
    {described : α → Prop} (inner : Repeats excused action again described) :
    Repeats excused (Run.withPath segment action) (Run.withPath other again) described where
  grows scope := inner.grows (scope.below segment)
  returns := inner.returns.withPath segment
  recalls scope log value reached distinct equal place later samePolicy :=
    inner.recalls (scope.below segment) log value reached distinct equal (place.below other) later
      samePolicy

theorem imp {action again : Run Registry α} {first described : α → Prop}
    (inner : Repeats excused action again first)
    (implies : ∀ value, first value → described value) :
    Repeats excused action again described where
  grows := inner.grows
  returns := inner.returns.imp implies
  recalls := inner.recalls

/-- The second part goes on from where the first part was recalled, with the same value
and the same registry. -/
theorem bind {action again : Run Registry α} {next nextAgain : α → Run Registry β}
    {first : α → Prop} {described : β → Prop} (head : Repeats excused action again first)
    (tail : ∀ value, first value → Repeats excused (next value) (nextAgain value) described) :
    Repeats excused (action >>= next) (again >>= nextAgain) described where
  grows := by
    intro scope log distinct
    rw [outcome_bind]
    have headGrows := head.grows scope log distinct
    cases ended : action.outcome scope log with
    | mk outcome middle =>
        rw [ended] at headGrows
        cases outcome with
        | error diagnostic => exact headGrows
        | ok value =>
            have holds := head.returns scope log value middle ended
            obtain ⟨reachedDistinct, further⟩ := (tail value holds).grows scope middle headGrows.1
            exact ⟨reachedDistinct, headGrows.2.trans further⟩
  returns := .bind head.returns fun value holds => (tail value holds).returns
  recalls := by
    intro scope log value reached distinct equal other later samePolicy laterDistinct within
    obtain ⟨found, middle, ended, continued⟩ := parts_of_outcome_bind equal
    have headGrows := head.grows scope log distinct
    rw [ended] at headGrows
    have tailRepeats := tail found (head.returns scope log found middle ended)
    have further := (tailRepeats.grows scope middle headGrows.1).2
    rw [continued] at further
    rcases head.recalls scope log found middle distinct ended other later samePolicy
        laterDistinct (further.trans within) with
      ⟨last, recalled, unchanged⟩ | ⟨diagnostic, last, failed, allowed⟩
    · rw [← unchanged] at laterDistinct within
      unfold Recalls
      rw [outcome_bind, recalled, ← unchanged]
      exact tailRepeats.recalls scope middle value reached headGrows.1 continued other last
        samePolicy laterDistinct within
    · refine Or.inr ⟨diagnostic, last, ?_, allowed⟩
      rw [outcome_bind, failed]

theorem map {action again : Run Registry α} {convert : α → β} {first : α → Prop}
    {described : β → Prop} (head : Repeats excused action again first)
    (converts : ∀ value, first value → described (convert value)) :
    Repeats excused (action >>= fun value => Pure.pure (convert value))
      (again >>= fun value => Pure.pure (convert value)) described :=
  bind head fun value holds => pure (converts value holds)

/-! ### Lists -/

theorem traverse {action again : α → Run Registry β} {related : α → β → Prop} {items : List α}
    (each : ∀ item ∈ items, Repeats excused (action item) (again item) (related item)) :
    Repeats excused (Run.traverse action items) (Run.traverse again items)
      (List.Forall₂ related items) := by
  induction items with
  | nil => exact pure .nil
  | cons item rest ih =>
      obtain ⟨first, others⟩ := List.forall_mem_cons.mp each
      rw [Run.traverse, Run.traverse]
      exact bind first fun value holds => map (ih others) fun values later => .cons holds later

theorem traverseFrom (label : String) {action again : α → Run Registry β}
    {related : α → β → Prop} {items : List α} (index : Nat)
    (each : ∀ item ∈ items, Repeats excused (action item) (again item) (related item)) :
    Repeats excused (Run.traverseFrom label action index items)
      (Run.traverseFrom label again index items) (List.Forall₂ related items) := by
  induction items generalizing index with
  | nil => exact pure .nil
  | cons item rest ih =>
      obtain ⟨first, others⟩ := List.forall_mem_cons.mp each
      rw [Run.traverseFrom, Run.traverseFrom]
      exact bind (withPath _ _ first) fun value holds =>
        map (ih (index + 1) others) fun values later => .cons holds later

theorem traverseIndexed (label : String) {action again : α → Run Registry β}
    {related : α → β → Prop} {items : List α}
    (each : ∀ item ∈ items, Repeats excused (action item) (again item) (related item)) :
    Repeats excused (Run.traverseIndexed label action items)
      (Run.traverseIndexed label again items) (List.Forall₂ related items) :=
  traverseFrom label 0 each

end Repeats

end ElmClient.Run
