/-
The stages of a client. Resolving gives the shapes and the registry; declaring goes on
with the warnings of resolving.
-/

import ElmClient.Client
import ElmClient.Proofs.Run

namespace ElmClient.Client

open Elm

def declared (config : Config) (document : Document) (api : Api) (log : Log Registry) :
    Except Diagnostic (List Grouped) × Log Helpers :=
  (declare (Naming.ofApi config api (declaredTypes api log.store)) config document api).outcome
    (scope config) { warnings := log.warnings, store := [] }

def packed (config : Config) (api : Api) :
    Except Diagnostic (List Grouped) × Log Helpers → Except Diagnostic Client
  | (.error diagnostic, _) => .error diagnostic
  | (.ok declarations, finished) =>
      .ok {
        declarations := declarations, warnings := finished.warnings
        packages := Packages.required config api }

/-- A client in two stages: resolving, then declaring. -/
theorem ofDocument_eq (config : Config) (document : Document) :
    ofDocument config document =
      match document.resolve.outcome (scope config) (Log.starting Registry.empty) with
      | (.error diagnostic, _) => .error diagnostic
      | (.ok api, log) => packed config api (declared config document api log) := by
  unfold ofDocument declared
  rcases document.resolve.outcome (scope config) (Log.starting Registry.empty) with
    ⟨_ | api, log⟩
  · rfl
  · dsimp only
    generalize (declare _ config document api).outcome _ _ = finished
    rcases finished with ⟨_ | declarations, finished⟩ <;> rfl

theorem ofDocument_ok {config : Config} {document : Document} {client : Client}
    (generated : ofDocument config document = .ok client) :
    ∃ api log declarations finished,
      document.resolve.outcome (scope config) (Log.starting Registry.empty) = (.ok api, log) ∧
        declared config document api log = (.ok declarations, finished) ∧
        client =
          { declarations := declarations, warnings := finished.warnings
            packages := Packages.required config api } := by
  rw [ofDocument_eq] at generated
  split at generated
  case h_1 => contradiction
  case h_2 api log resolved =>
    cases ended : declared config document api log with
    | mk outcome finished =>
        rw [ended] at generated
        cases outcome with
        | error diagnostic => contradiction
        | ok declarations =>
            exact ⟨api, log, declarations, finished, resolved, ended,
              (Except.ok.inj generated).symm⟩

theorem ofDocument_declared {config : Config} {document : Document} {client : Client} {api : Api}
    {log : Log Registry}
    (resolved : document.resolve.outcome (scope config) (Log.starting Registry.empty) =
      (.ok api, log))
    (generated : ofDocument config document = .ok client) :
    ∃ finished, declared config document api log = (.ok client.declarations, finished) := by
  obtain ⟨found, store, declarations, finished, same, ended, rfl⟩ := ofDocument_ok generated
  rw [resolved] at same
  obtain ⟨sameApi, rfl⟩ := Prod.mk.inj same
  obtain rfl := Except.ok.inj sameApi
  exact ⟨finished, ended⟩

end ElmClient.Client
