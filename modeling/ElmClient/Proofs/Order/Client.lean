/-
Clients of documents that list their maps in different orders. Declaring looks
security schemes up by their names, and takes everything else that is in a map from the
resolved document.
-/

import ElmClient.Client
import ElmClient.Proofs.Order.Resolve
import ElmClient.Proofs.Sample

namespace ElmClient

namespace Elm

section Documents

variable {σ : Type} {left right : Document} (same : left.Reordered right)

include same

theorem addScheme_reordered :
    (Authorization.addScheme left : Authorization.Progress → String → Run σ _) =
      Authorization.addScheme right := by
  funext progress name
  rw [Authorization.addScheme, Authorization.addScheme, same.components.securitySchemes.find?_eq]

theorem addSchemes_reordered :
    (Authorization.addSchemes left : Authorization.Progress → List String → Run σ _) =
      Authorization.addSchemes right := by
  funext progress names
  induction names generalizing progress with
  | nil => rfl
  | cons name rest ih =>
      rw [Authorization.addSchemes, Authorization.addSchemes, addScheme_reordered same]
      exact bind_congr fun reached => ih reached

private theorem authorization_reordered (endpoint : Endpoint) :
    (Authorization.ofEndpoint left endpoint : Run σ Authorization) =
      Authorization.ofEndpoint right endpoint := by
  have names : (Authorization.schemeNames left endpoint : Run σ (List String)) =
      Authorization.schemeNames right endpoint := by
    unfold Authorization.schemeNames
    rw [← same.rest]
  rw [Authorization.ofEndpoint, Authorization.ofEndpoint, names, addSchemes_reordered same]

private theorem request_reordered (naming : Naming) (base : BaseUrl) (endpoint : Endpoint) :
    Request.ofEndpoint naming left base endpoint =
      Request.ofEndpoint naming right base endpoint := by
  simp only [Request.ofEndpoint, authorization_reordered same]

private theorem servers_reordered (naming : Naming) (mode : ServerMode) :
    ServerPlan.ofMode naming left mode = ServerPlan.ofMode naming right mode := by
  cases mode with
  | fromDocument => rw [ServerPlan.ofMode, ServerPlan.ofMode, ← same.rest]
  | single url => rfl
  | multiple servers => rfl

end Documents

end Elm

namespace Client

theorem declare_reordered {left right : Document} (same : left.Reordered right)
    (naming : Elm.Naming) (config : Config) (api : Api) :
    declare naming config left api = declare naming config right api := by
  have endpoints : ofEndpoint naming config left = ofEndpoint naming config right := by
    funext base endpoint
    rw [ofEndpoint, ofEndpoint, Elm.request_reordered same]
  rw [declare, declare, endpoints, Elm.servers_reordered same]

/-- The order in which a document lists its paths, its components and the responses of
its operations decides neither the client nor the diagnostic. -/
theorem ofDocument_reordered (config : Config) {left right : Document}
    (same : left.Reordered right) : ofDocument config left = ofDocument config right := by
  unfold ofDocument
  rw [Document.resolve_reordered same]
  simp only [declare_reordered same]

/-- Two components that hold the same enum, a path with two responses, and all of it
listed the other way round. -/
theorem ofDocument_listed_backwards :
    let kinds : RefOr Schema := .inline (Schema.oneOfTexts ["cat", "dog"])
    let pet := ("Pet", RefOr.inline (Schema.record [("kind", kinds)]))
    let visit := ("Visit", RefOr.inline (Schema.record [("patient", kinds)]))
    let found := ("200", RefOr.inline (⟨"Found", []⟩ : Response))
    let missing := ("404", RefOr.inline (⟨"Missing", []⟩ : Response))
    let left := Document.ofParts
      [("/pets", PathItem.reading [found, missing]), ("/visits", PathItem.reading [found])]
      [pet, visit]
    let right := Document.ofParts
      [("/visits", PathItem.reading [found]), ("/pets", PathItem.reading [missing, found])]
      [visit, pet]
    left.Reordered right ∧
      ofDocument Config.default left = ofDocument Config.default right := by
  intro kinds pet visit found missing left right
  have responses : Status.Reordered [found, missing] [missing, found] :=
    ⟨List.Perm.swap _ _ _, by decide⟩
  have unchanged : PathItem.Reordered (PathItem.reading [found]) (PathItem.reading [found]) :=
    ⟨rfl, rfl, rfl, .some ⟨rfl, Or.inl rfl⟩, .none, .none, .none, .none, .none, .none, .none⟩
  have exchanged : PathItem.Reordered (PathItem.reading [found, missing])
      (PathItem.reading [missing, found]) :=
    ⟨rfl, rfl, rfl, .some ⟨rfl, Or.inr responses⟩, .none, .none, .none, .none, .none, .none, .none⟩
  have reordered : left.Reordered right :=
    { rest := rfl
      paths := ⟨[("/visits", PathItem.reading [found]),
          ("/pets", PathItem.reading [found, missing])],
        ⟨List.Perm.swap _ _ _, by decide⟩, .cons ⟨rfl, unchanged⟩ (.cons ⟨rfl, exchanged⟩ .nil)⟩
      components :=
        { schemas := ⟨List.Perm.swap _ _ _, by decide⟩
          responses := ⟨.refl _, by decide⟩
          parameters := ⟨.refl _, by decide⟩
          requestBodies := ⟨.refl _, by decide⟩
          securitySchemes := ⟨.refl _, by decide⟩ } }
  exact ⟨reordered, ofDocument_reordered Config.default reordered⟩

end Client

end ElmClient
