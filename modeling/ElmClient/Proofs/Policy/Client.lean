/-
Generating with and without todos. The switch decides only whether an unsupported
construct is warned of or ends the run; it never changes what is generated. Resolving is
uniform in it: basic runs and unions are, and nothing else looks at the policy.
-/

import ElmClient.Proofs.Client
import ElmClient.Proofs.Closed.Elm
import ElmClient.Proofs.Closed.Resolve
import ElmClient.Proofs.Policy.Basic
import ElmClient.Proofs.Sample

namespace ElmClient

namespace Resolve

open Run (Uniform)

theorem registeredUnion_uniform (site : Site) (owner : Option TypeName)
    (variants : List Variant) : Uniform (registeredUnion site owner variants) :=
  Uniform.map _ (Uniform.registerUnion _ _)

private theorem uniform_unionsClosed (document : Document) :
    UnionsClosed document (fun {_} (action : Run Registry _) => Uniform action) where
  toClosed := Uniform.closed
  bindOf := Uniform.bindOf
  registerEnum := Uniform.registerEnum
  unionOf inner site owner keyword schema members _ _ each := by
    refine Uniform.bind (Uniform.closed.traverseIndexedOf _ fun entry labelled => ?_)
      fun variants => registeredUnion_uniform site owner variants
    exact Uniform.map _ (each _ entry.1 (List.of_mem_zip labelled).1)
  kindUnion inner site schema _ each := by
    refine Uniform.bind (Uniform.withPath _ (Uniform.traverse (fun kind => ?_) _))
      fun variants => registeredUnion_uniform site _ variants
    exact Uniform.map _ (each _ kind)

end Resolve

theorem Document.resolve_uniform (document : Document) : Run.Uniform document.resolve :=
  document.resolve_closed (Resolve.uniform_unionsClosed document)

end ElmClient

namespace ElmClient.Client

open Elm
open Run (Uniform Corresponds)

private theorem uniform_helperClosed :
    HelperClosed (fun {_} (action : Run Helpers _) => Uniform action) where
  toClosed := Uniform.closed
  getStore := Uniform.getStore
  remember _ _ := Uniform.bind Uniform.getStore fun _ => Uniform.setStore _

theorem declare_uniform (naming : Naming) (config : Config) (document : Document) (api : Api) :
    Uniform (declare naming config document api) :=
  declare_closed uniform_helperClosed naming config document api

def withTodos (config : Config) (generateTodos : Bool) : Config :=
  { config with generateTodos := generateTodos }

/-- What the strict run gives, where the lenient run gives the second result. -/
inductive Matches : Except Diagnostic Client → Except Diagnostic Client → Prop where
  | failed (strict lenient : Diagnostic) : Matches (.error strict) (.error lenient)
  | silent (client : Client) (quiet : client.warnings = []) : Matches (.ok client) (.ok client)
  | warned (client : Client) (first : Diagnostic) (later : List Diagnostic)
      (warnings : client.warnings = first :: later) : Matches (.error first) (.ok client)

private theorem declared_corresponds (config : Config) (document : Document) (api : Api)
    (log : Log Registry) :
    Corresponds log.warnings (declared (withTodos config false) document api log)
      (declared (withTodos config true) document api log) :=
  declare_uniform (Naming.ofApi config api (declaredTypes api log.store)) config document api
    [] ⟨log.warnings, []⟩

theorem ofDocument_matches (config : Config) (document : Document) :
    Matches (ofDocument (withTodos config false) document)
      (ofDocument (withTodos config true) document) := by
  rw [ofDocument_eq, ofDocument_eq]
  have resolving : Corresponds [] _ _ :=
    document.resolve_uniform [] (Log.starting Registry.empty)
  change Corresponds [] (document.resolve.outcome (scope (withTodos config false)) _)
    (document.resolve.outcome (scope (withTodos config true)) _) at resolving
  generalize document.resolve.outcome (scope (withTodos config false)) _ = strict at resolving
  generalize document.resolve.outcome (scope (withTodos config true)) _ = lenient at resolving
  cases resolving with
  | silent quiet =>
      rcases strict with ⟨diagnostic | api, log⟩
      · exact .failed diagnostic diagnostic
      · have declaring := declared_corresponds config document api log
        rw [show log.warnings = [] from quiet] at declaring
        dsimp only
        generalize declared (withTodos config false) document api log = strict at declaring
        generalize declared (withTodos config true) document api log = lenient at declaring
        cases declaring with
        | silent quiet =>
            rcases strict with ⟨diagnostic | declarations, finished⟩
            · exact .failed diagnostic diagnostic
            · exact .silent _ quiet
        | warned first later warnings ended =>
            rcases strict with ⟨diagnostic | declarations, stopped⟩
            · cases ended
              rcases lenient with ⟨diagnostic | declarations, finished⟩
              · exact .failed first diagnostic
              · exact .warned _ first later warnings
            · cases ended
  | warned first later warnings ended =>
      rcases strict with ⟨diagnostic | api, stopped⟩
      · cases ended
        rcases lenient with ⟨diagnostic | api, log⟩
        · exact .failed first diagnostic
        · -- Declaring only adds to the warnings of resolving.
          obtain ⟨further, extended⟩ :=
            (declared_corresponds config document api log).extends
          rw [show log.warnings = first :: later from warnings] at extended
          dsimp only
          generalize declared (withTodos config true) document api log = lenient at extended
          rcases lenient with ⟨diagnostic | declarations, finished⟩
          · exact .failed first diagnostic
          · exact .warned _ first (later ++ further) extended
      · cases ended

/-- The switch for todos never changes what is generated. A strict success is
without warnings and is the lenient result; a lenient success without warnings is
the strict result; and where the lenient run warns, the strict run fails with its
first warning. -/
theorem todos_decide_only_failure (config : Config) (document : Document) :
    (∀ client, ofDocument (withTodos config false) document = .ok client →
        client.warnings = [] ∧ ofDocument (withTodos config true) document = .ok client) ∧
      (∀ client, ofDocument (withTodos config true) document = .ok client →
        client.warnings = [] → ofDocument (withTodos config false) document = .ok client) ∧
      ∀ client first later, ofDocument (withTodos config true) document = .ok client →
        client.warnings = first :: later →
          ofDocument (withTodos config false) document = .error first := by
  have related := ofDocument_matches config document
  generalize ofDocument (withTodos config false) document = strict at related
  generalize ofDocument (withTodos config true) document = lenient at related
  cases related with
  | failed strict lenient =>
      exact ⟨nofun, nofun, nofun⟩
  | silent client quiet =>
      refine ⟨?_, ?_, ?_⟩
      · intro found same
        cases same
        exact ⟨quiet, rfl⟩
      · intro found same _
        exact same
      · intro found first later same warnings
        cases same
        rw [quiet] at warnings
        cases warnings
  | warned client first later warnings =>
      refine ⟨nofun, ?_, ?_⟩
      · intro found same quiet
        cases same
        rw [warnings] at quiet
        cases quiet
      · intro found other further same logged
        cases same
        rw [warnings] at logged
        cases logged
        rfl

/-- A component of a format alone is warned of, and refused with the same diagnostic. -/
theorem todos_decide_only_failure_format :
    let document :=
      Document.ofParts [] [("Odd", .inline { Schema.bare with format := some "odd" })]
    ∃ client first later,
      ofDocument (withTodos Config.default true) document = .ok client ∧
        client.warnings = first :: later ∧
        ofDocument (withTodos Config.default false) document = .error first := by
  intro document
  have warned : (match ofDocument (withTodos Config.default true) document with
      | .ok client => client.warnings.length
      | .error _ => 0) = 1 := by
    decide +kernel
  split at warned
  case h_1 client generated =>
    cases warnings : client.warnings with
    | nil =>
        rw [warnings] at warned
        contradiction
    | cons first later =>
        have refused := (todos_decide_only_failure Config.default document).2.2 client first later
        exact ⟨client, first, later, generated, warnings, refused generated warnings⟩
  case h_2 => contradiction

end ElmClient.Client
