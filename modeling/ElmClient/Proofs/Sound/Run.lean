/-
What runs ensure. A run may lose nothing that is registered; so what is known about the
registry at some point is stated for every registry reached later, and a fact about an
earlier value needs no proof that later steps keep it.
-/

import ElmClient.Proofs.Registry.Registering
import ElmClient.Proofs.Run

namespace ElmClient.Run

variable {α β : Type}

/-- Where `known` holds from the start on, a success leaves a valid registry that has
lost nothing, and `result` holds of the value from then on. -/
def Ensures (valid known : Registry → Prop) (action : Run Registry α)
    (result : Registry → α → Prop) : Prop :=
  ∀ scope log value reached,
    valid log.store → (∀ later, log.store.Within later → known later) →
      action.outcome scope log = (.ok value, reached) →
        valid reached.store ∧ log.store.Within reached.store ∧
          ∀ later, reached.store.Within later → result later value

namespace Ensures

variable {valid known : Registry → Prop}

theorem pure {value : α} {result : Registry → α → Prop}
    (holds : ∀ later, known later → result later value) :
    Ensures valid known (Pure.pure value) result := by
  intro scope log ended reached validLog knownLater equal
  rw [outcome_pure] at equal
  cases equal
  exact ⟨validLog, .refl _, fun later within => holds later (knownLater later within)⟩

theorem fail {message : String} {result : Registry → α → Prop} :
    Ensures valid known (Run.fail message) result := by
  intro scope log value reached validLog knownLater equal
  rw [outcome_fail] at equal
  cases equal

theorem placeholderOr {message : String} {placeholder : α} {result : Registry → α → Prop}
    (holds : ∀ later, known later → result later placeholder) :
    Ensures valid known (Run.placeholderOr message placeholder) result := by
  intro scope log value reached validLog knownLater equal
  rw [outcome_placeholderOr] at equal
  split at equal
  · cases equal
    exact ⟨validLog, .refl _, fun later within => holds later (knownLater later within)⟩
  · cases equal

theorem withPath (segment : String) {action : Run Registry α} {result : Registry → α → Prop}
    (inner : Ensures valid known action result) :
    Ensures valid known (Run.withPath segment action) result :=
  fun scope => inner (scope.below segment)

theorem imp {action : Run Registry α} {first second : Registry → α → Prop}
    (inner : Ensures valid known action first)
    (implies : ∀ later value, known later → first later value → second later value) :
    Ensures valid known action second := by
  intro scope log value reached validLog knownLater equal
  obtain ⟨validReached, grown, holds⟩ := inner scope log value reached validLog knownLater equal
  refine ⟨validReached, grown, fun later within => ?_⟩
  exact implies later value (knownLater later (grown.trans within)) (holds later within)

theorem given {action : Run Registry α} {result : Registry → α → Prop} {fact : Prop}
    (follows : ∀ later, known later → fact) (inner : fact → Ensures valid known action result) :
    Ensures valid known action result := fun scope log value reached validLog knownLater =>
  inner (follows log.store (knownLater log.store (.refl _))) scope log value reached validLog
    knownLater

theorem weaken {action : Run Registry α} {more : Registry → Prop}
    {result : Registry → α → Prop} (inner : Ensures valid known action result)
    (implies : ∀ later, more later → known later) : Ensures valid more action result :=
  fun scope log value reached validLog moreLater =>
    inner scope log value reached validLog fun later within =>
      implies later (moreLater later within)

theorem bind {action : Run Registry α} {next : α → Run Registry β}
    {first : Registry → α → Prop} {result : Registry → β → Prop}
    (head : Ensures valid known action first)
    (tail : ∀ value,
      Ensures valid (fun later => known later ∧ first later value) (next value) result) :
    Ensures valid known (action >>= next) result := by
  intro scope log value reached validLog knownLater equal
  obtain ⟨found, middle, ended, continued⟩ := parts_of_outcome_bind equal
  obtain ⟨validMiddle, grown, holds⟩ := head scope log found middle validLog knownLater ended
  obtain ⟨validReached, further, result⟩ := tail found scope middle value reached validMiddle
    (fun later within => ⟨knownLater later (grown.trans within), holds later within⟩) continued
  exact ⟨validReached, grown.trans further, result⟩

theorem map {action : Run Registry α} {convert : α → β} {first : Registry → α → Prop}
    {result : Registry → β → Prop} (head : Ensures valid known action first)
    (converts : ∀ later value, known later → first later value → result later (convert value)) :
    Ensures valid known (action >>= fun value => Pure.pure (convert value)) result :=
  bind head fun value => pure fun later both => converts later value both.1 both.2

/-! ### Lists -/

theorem traverse {action : α → Run Registry β} {result : Registry → α → β → Prop}
    {items : List α}
    (each : ∀ item ∈ items, ∀ known, Ensures valid known (action item)
      fun later value => result later item value) :
    Ensures valid known (Run.traverse action items)
      fun later values => List.Forall₂ (result later) items values := by
  induction items generalizing known with
  | nil => exact pure fun _ _ => .nil
  | cons item rest ih =>
      have later := fun other member => each other (List.mem_cons_of_mem _ member)
      apply bind (each item List.mem_cons_self known)
      intro value
      exact map (ih later) fun _ _ both related => .cons both.2 related

theorem traverseFrom (label : String) {action : α → Run Registry β}
    {result : Registry → α → β → Prop} {items : List α} (index : Nat)
    (each : ∀ item ∈ items, ∀ known, Ensures valid known (action item)
      fun later value => result later item value) :
    Ensures valid known (Run.traverseFrom label action index items)
      fun later values => List.Forall₂ (result later) items values := by
  induction items generalizing known index with
  | nil => exact pure fun _ _ => .nil
  | cons item rest ih =>
      have later := fun other member => each other (List.mem_cons_of_mem _ member)
      apply bind (withPath _ (each item List.mem_cons_self known))
      intro value
      exact map (ih (index + 1) later) fun _ _ both related => .cons both.2 related

theorem traverseIndexed (label : String) {action : α → Run Registry β}
    {result : Registry → α → β → Prop} {items : List α}
    (each : ∀ item ∈ items, ∀ known, Ensures valid known (action item)
      fun later value => result later item value) :
    Ensures valid known (Run.traverseIndexed label action items)
      fun later values => List.Forall₂ (result later) items values :=
  traverseFrom label 0 each

end Ensures

end ElmClient.Run
