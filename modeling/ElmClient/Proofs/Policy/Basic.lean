/-
The policy and the outcome of a run. A run is uniform when the policy decides
nothing but what becomes of an unsupported construct: while the lenient run logs
no warning both policies give one outcome, and as soon as it logs one the strict
run has ended with that very diagnostic. Composed runs are uniform when their
parts are.
-/

import ElmClient.Proofs.Closed.Run
import ElmClient.Proofs.Run

namespace ElmClient.Run

variable {σ α β : Type}

/-- A strict and a lenient outcome of one run that began with the given warnings. -/
inductive Corresponds (logged : List Diagnostic) :
    Except Diagnostic α × Log σ → Except Diagnostic α × Log σ → Prop where
  | silent {outcome : Except Diagnostic α × Log σ}
      (quiet : outcome.2.warnings = logged) : Corresponds logged outcome outcome
  | warned {strict lenient : Except Diagnostic α × Log σ}
      (first : Diagnostic) (later : List Diagnostic)
      (warnings : lenient.2.warnings = logged ++ first :: later)
      (ended : strict.1 = .error first) : Corresponds logged strict lenient

/-- The policy decides only between warning and failing. -/
def Uniform (action : Run σ α) : Prop :=
  ∀ (path : List String) (log : Log σ),
    Corresponds log.warnings (action.outcome ⟨.failOnUnsupported, path⟩ log)
      (action.outcome ⟨.generateTodos, path⟩ log)

theorem Corresponds.extends {logged : List Diagnostic}
    {strict lenient : Except Diagnostic α × Log σ} (related : Corresponds logged strict lenient) :
    ∃ further, lenient.2.warnings = logged ++ further := by
  cases related with
  | silent quiet => exact ⟨[], by rw [quiet, List.append_nil]⟩
  | warned first later warnings ended => exact ⟨first :: later, warnings⟩

namespace Uniform

theorem pure (value : α) : Uniform (Pure.pure value : Run σ α) := by
  intro path log
  exact .silent rfl

theorem fail (message : String) : Uniform (Run.fail message : Run σ α) := by
  intro path log
  exact .silent rfl

theorem placeholderOr (message : String) (placeholder : α) :
    Uniform (Run.placeholderOr message placeholder : Run σ α) := by
  intro path log
  exact .warned ⟨path, message⟩ [] rfl rfl

theorem withPath (segment : String) {action : Run σ α} (inner : Uniform action) :
    Uniform (Run.withPath segment action) := by
  intro path log
  exact inner (path ++ [segment]) log

theorem getStore : Uniform (Run.getStore : Run σ σ) := by
  intro path log
  exact .silent rfl

theorem setStore (store : σ) : Uniform (Run.setStore store) := by
  intro path log
  exact .silent rfl

theorem registerEnum (entry : EnumEntry) : Uniform (Run.registerEnum entry) := by
  intro path log
  exact .silent rfl

theorem registerUnion (union : Union) (owner : Option TypeName) :
    Uniform (Run.registerUnion union owner) := by
  intro path log
  exact .silent rfl

/-- After a warning of the first part the strict run is over, and whatever the
lenient run does next leaves that warning the first one. -/
theorem bindOf {action : Run σ α} {next : α → Run σ β} {first : α → Prop}
    (head : Uniform action) (returns : Returns action first)
    (tail : ∀ value, first value → Uniform (next value)) : Uniform (action >>= next) := by
  intro path log
  rw [outcome_bind, outcome_bind]
  have related := head path log
  have described := returns ⟨.generateTodos, path⟩ log
  generalize action.outcome ⟨.failOnUnsupported, path⟩ log = strict at related
  generalize action.outcome ⟨.generateTodos, path⟩ log = lenient at related described
  cases related with
  | silent quiet =>
      rcases strict with ⟨diagnostic | value, reached⟩
      · exact .silent quiet
      · have continued := tail value (described value reached rfl) path reached
        rw [show reached.warnings = log.warnings from quiet] at continued
        exact continued
  | warned first later warnings ended =>
      rcases strict with ⟨diagnostic | value, stopped⟩
      · cases ended
        rcases lenient with ⟨_ | value, reached⟩
        · exact .warned first later warnings rfl
        · obtain ⟨further, extended⟩ :=
            (tail value (described value reached rfl) path reached).extends
          refine .warned first (later ++ further) ?_ rfl
          rw [extended, show reached.warnings = log.warnings ++ first :: later from warnings]
          simp
      · cases ended

theorem bind {action : Run σ α} {next : α → Run σ β} (head : Uniform action)
    (tail : ∀ value, Uniform (next value)) : Uniform (action >>= next) :=
  head.bindOf (Returns.any action) fun value _ => tail value

theorem closed : Closed (fun {_} (action : Run σ _) => Uniform action) where
  pure := pure
  fail := fail
  placeholderOr := placeholderOr
  withPath := withPath
  bind := bind

theorem map {action : Run σ α} (convert : α → β) (head : Uniform action) :
    Uniform (action >>= fun value => Pure.pure (convert value)) :=
  closed.map convert head

theorem traverse {action : α → Run σ β} (each : ∀ item, Uniform (action item)) (items : List α) :
    Uniform (Run.traverse action items) :=
  closed.traverse each items

end Uniform

end ElmClient.Run
