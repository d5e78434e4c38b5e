/-
Resolving again. Whatever is resolved between two visits of a schema at a site, the
second visit ends as the first one did and registers nothing. So what several operations
or components share has one shape, and every enum and union has one entry.
-/

import ElmClient.Proofs.Again.Resolve
import ElmClient.Proofs.Sample

namespace ElmClient

namespace Resolve

open Run

/-! ### Moments of a run -/

/-- A moment of a run and a later one. In between schemas are resolved, whether that
succeeds or not; inside of one, there are warnings, and enums and unions are registered. -/
inductive Follows (schemas : SchemaMap) (policy : Policy) (start : Log Registry) :
    Log Registry → Prop
  | now : Follows schemas policy start start
  | resolved {log : Log Registry} (before : Follows schemas policy start log) (levels : Nat)
      (path : List String) (site : Site) {schema : RefOr Schema} (once : Schema.KeysOnce schema) :
      Follows schemas policy start
        ((schemaWithin schemas levels site schema).outcome ⟨policy, path⟩ log).2
  | warned {log : Log Registry} (before : Follows schemas policy start log)
      (diagnostic : Diagnostic) : Follows schemas policy start (log.warn diagnostic)
  | enum {log : Log Registry} (before : Follows schemas policy start log) (entry : EnumEntry) :
      Follows schemas policy start { log with store := (log.store.registerEnum entry).2 }
  | union {log : Log Registry} (before : Follows schemas policy start log) {union : Union}
      (comparable : union.Comparable) (owner : Option TypeName) :
      Follows schemas policy start { log with store := (log.store.registerUnion union owner).2 }

/-- Whenever the first run ended with a value, the second one ends with it at every later
moment and registers nothing, or fails for a reason that excuses it. -/
def RecalledBy {α : Type} (schemas : SchemaMap) (policy : Policy) (excused : String → Prop)
    (first again : Run Registry α) : Prop :=
  ∀ moment reached later value path otherPath,
    Follows schemas policy (Log.starting Registry.empty) moment →
      first.outcome ⟨policy, path⟩ moment = (.ok value, reached) →
        Follows schemas policy reached later →
          Recalls excused value again ⟨policy, otherPath⟩ later

section Moments

variable {schemas : SchemaMap} {policy : Policy}
variable (components : ∀ entry ∈ schemas, Schema.KeysOnce entry.2)

include components

theorem schemaWithin_repeats (levels other : Nat) (site : Site) {schema : RefOr Schema}
    (once : Schema.KeysOnce schema) :
    RepeatsShape (fun message => other < levels ∧ message = endlessMessage)
      (schemaWithin schemas levels site schema) (schemaWithin schemas other site schema) :=
  (within_repeat components levels other fun less => ⟨less, rfl⟩).schema site schema once

theorem contributionWithin_repeats (text : String) (levels other : Nat)
    (expanding others : List TypeName) (site place : Site) :
    RepeatsContribution
      (fun message => other < levels ∧ message = endlessMessage ∨
        ¬ others ⊆ expanding ∧ ∃ names, message = cycleMessage names)
      (contributionWithin schemas levels expanding site (.reference text))
      (contributionWithin schemas other others place (.reference text)) := by
  have samePlace : contributionWithin schemas other others place (.reference text) =
      contributionWithin schemas other others site (.reference text) := by
    cases other <;> rfl
  rw [samePlace]
  refine (within_repeat components levels other fun less => Or.inl ⟨less, rfl⟩).contribution
    expanding others site _ ?_ (Schema.keysOnce_reference text)
  by_cases subset : others ⊆ expanding
  · exact Or.inl subset
  · exact Or.inr fun names => Or.inr ⟨subset, names, rfl⟩

private theorem Follows.grows {start later : Log Registry}
    (follows : Follows schemas policy start later)
    (distinct : start.store.Distinct) :
    later.store.Distinct ∧ start.store.Within later.store := by
  induction follows with
  | now => exact ⟨distinct, .refl _⟩
  | resolved before levels path site once ih =>
      obtain ⟨reachedDistinct, further⟩ :=
        (schemaWithin_repeats components levels levels site once).grows ⟨policy, path⟩ _ ih.1
      exact ⟨reachedDistinct, ih.2.trans further⟩
  | warned before diagnostic ih => exact ih
  | enum before entry ih =>
      obtain ⟨reachedDistinct, further⟩ := Registry.registerEnum_grows ih.1 entry
      exact ⟨reachedDistinct, ih.2.trans further⟩
  | union before comparable owner ih =>
      obtain ⟨reachedDistinct, further⟩ := Registry.registerUnion_grows ih.1 _ owner
      exact ⟨reachedDistinct, ih.2.trans further⟩

private theorem recalledBy_of_repeats {α : Type} {excused : String → Prop}
    {first again : Run Registry α}
    {described : α → Prop} (repeats : Repeats excused first again described) :
    RecalledBy schemas policy excused first again := by
  intro moment reached later value path otherPath reachable ended follows
  have distinct := (reachable.grows components ⟨List.nodup_nil, List.nodup_nil⟩).1
  have reachedDistinct := (repeats.grows ⟨policy, path⟩ moment distinct).1
  rw [ended] at reachedDistinct
  obtain ⟨laterDistinct, within⟩ := follows.grows components reachedDistinct
  exact repeats.recalls _ moment value reached distinct ended _ later rfl laterDistinct within

end Moments

/-! ### What operations share -/

section Shared

variable {excused : String → Prop} {source : Source}

/-- Behind a reference is an inline component, known by the first name on the way. -/
def Behind {α : Type} (components : List (String × RefOr α)) (found : Option String × α) : Prop :=
  (∃ origin, found.1 = some origin) ∧ ∃ entry ∈ components, entry.2 = .inline found.2

theorem follow_repeats {α : Type} (component : Section) (components : List (String × RefOr α))
    (looks : Nat) (origin : Option String) {item : RefOr α}
    (listed : ∀ found, item = .inline found →
      (∃ name, origin = some name) ∧ ∃ entry ∈ components, entry.2 = .inline found) :
    Repeats excused (follow component components looks origin item)
      (follow component components looks origin item) (Behind components) := by
  induction looks generalizing origin item with
  | zero => exact .fail
  | succ looks ih =>
      cases item with
      | inline item => exact .pure (listed item rfl)
      | reference text =>
          unfold follow
          refine .bind (parseReference_repeats text) fun reference _ => ?_
          split
          · exact .fail
          · split
            · exact .fail
            case h_2 next found =>
              refine ih _ fun inner inlined => ⟨⟨_, rfl⟩, _, Keyed.mem_of_find? found, inlined⟩

theorem lookup_repeats {α : Type} (component : Section) (components : List (String × RefOr α))
    (text : String) :
    Repeats excused (lookup component components (.reference text))
      (lookup component components (.reference text)) (Behind components) :=
  follow_repeats component components _ none nofun

private theorem source_repeats
    (components : ∀ entry ∈ source.components.schemas, Schema.KeysOnce entry.2)
    (site : Site) {schema : RefOr Schema} (once : Schema.KeysOnce schema) :
    RepeatsShape excused (source.schema site schema) (source.schema site schema) :=
  (within_repeat components source.levels source.levels fun less =>
    absurd less (Nat.lt_irrefl _)).schema site schema once

variable (components : ∀ entry ∈ source.components.schemas, Schema.KeysOnce entry.2)

include components

theorem selectedPayload_repeats (site : Site) {content : List (String × MediaType)}
    (once : ∀ schema ∈ MediaType.schemas content, Schema.KeysOnce schema)
    {name : String} {media : MediaType} (listed : (name, media) ∈ content) :
    Repeats excused (selectedPayload source site name media)
      (selectedPayload source site name media) fun _ => True := by
  refine .withPath _ _ (.withPath _ _ ?_)
  unfold payload
  split
  · split
    case h_1 schema present =>
      have schemaOnce := once schema (List.mem_filterMap.mpr ⟨_, listed, present⟩)
      exact .map (.withPath _ _ (source_repeats components site schemaOnce)) fun _ _ => trivial
    · exact .pure trivial
  · exact .pure trivial
  · exact .pure trivial

private theorem bodyPayload_repeats (site : Site) {content : List (String × MediaType)}
    (once : ∀ schema ∈ MediaType.schemas content, Schema.KeysOnce schema) :
    Repeats excused (bodyPayload source site content) (bodyPayload source site content)
      fun _ => True := by
  unfold bodyPayload
  split
  case h_1 name media selected =>
    have listed := MediaType.mem_of_select? selected
    exact .map (selectedPayload_repeats components site once listed) fun _ _ => trivial
  · split
    · exact .pure trivial
    · have placeholder : ∀ message, Repeats excused
          (Run.placeholderOr message (Payload.json .anyJson))
          (Run.placeholderOr message (Payload.json .anyJson)) fun _ => True :=
        fun message => .placeholderOr trivial
      exact .map (placeholder _) fun _ _ => trivial

private theorem responsePayload_repeats (site : Site) {content : List (String × MediaType)}
    (once : ∀ schema ∈ MediaType.schemas content, Schema.KeysOnce schema) :
    Repeats excused (responsePayload source site content) (responsePayload source site content)
      fun _ => True := by
  unfold responsePayload
  split
  case h_1 name media selected =>
    exact selectedPayload_repeats components site once (MediaType.mem_of_select? selected)
  · split
    · exact .pure trivial
    · exact .placeholderOr trivial

theorem parameterShape_repeats (site : Site) {parameter : Parameter}
    (once : ∀ schema ∈ parameter.schemas, Schema.KeysOnce schema) :
    RepeatsShape excused (parameterShape source site parameter)
      (parameterShape source site parameter) := by
  unfold parameterShape
  split
  case h_1 schema present =>
    have listed : schema ∈ parameter.schemas :=
      List.mem_append_left _ (Option.mem_toList.mpr present)
    exact .withPath _ _ (source_repeats components site (once schema listed))
  · split
    case h_1 schema present =>
      obtain ⟨entry, inContent, found⟩ := List.exists_of_findSome?_eq_some present
      have listed : schema ∈ parameter.schemas :=
        List.mem_append_right _ (List.mem_filterMap.mpr ⟨entry, inContent, found⟩)
      exact .withPath _ _ (source_repeats components site (once schema listed))
    · exact .placeholderOr (flat_once rfl nofun)

theorem parameter_repeats (origin : String) {declared : Parameter}
    (once : ∀ schema ∈ declared.schemas, Schema.KeysOnce schema) (first second : TypeName) :
    Repeats excused (parameter source first (some origin, declared))
      (parameter source second (some origin, declared)) fun _ => True :=
  .withPath _ _ (.map (parameterShape_repeats components _ once) fun _ _ => trivial)

theorem body_repeats
    (once : ∀ entry ∈ source.components.requestBodies, ∀ body, entry.2 = .inline body →
      ∀ schema ∈ MediaType.schemas body.content, Schema.KeysOnce schema)
    (text : String) (first second : TypeName) :
    Repeats excused (body source first (.reference text)) (body source second (.reference text))
      fun _ => True := by
  rw [body_eq, body_eq]
  refine .bind (lookup_repeats _ _ text) fun found behind => ?_
  obtain ⟨⟨origin, known⟩, entry, listed, inlined⟩ := behind
  rw [known]
  exact .map (bodyPayload_repeats components _ (once entry listed found.2 inlined))
    fun _ _ => trivial

omit components in
theorem withPath_map {α β : Type} (segment : String) (action : Run Registry α) (convert : α → β) :
    (Run.withPath segment action >>= fun value => pure (convert value)) =
      Run.withPath segment (action >>= fun value => pure (convert value)) := rfl

def responseContent (source : Source) (operationName : TypeName)
    (entry : String × RefOr Response) : Run Registry (Payload × Option String) := do
  let resolved ← response source operationName entry
  return (resolved.payload, resolved.doc)

private theorem responseContent_repeats
    (once : ∀ entry ∈ source.components.responses, ∀ response, entry.2 = .inline response →
      ∀ schema ∈ MediaType.schemas response.content, Schema.KeysOnce schema)
    (text : String) (status other : String) (first second : TypeName) :
    Repeats excused (responseContent source first (status, .reference text))
      (responseContent source second (other, .reference text)) fun _ => True := by
  have content_eq : ∀ (name : TypeName) (status : String),
      responseContent source name (status, .reference text) = Run.withPath status do
        let found ← lookup .responses source.components.responses (.reference text)
        let payload ← responsePayload source
          (originSite found.1 (name.child ("Response" ++ status))) found.2.content
        return (payload,
          if found.2.description.isEmpty then none else some found.2.description) := by
    intro name status
    unfold responseContent
    rw [response_eq, withPath_map]
    simp only [bind_assoc, pure_bind]
  rw [content_eq, content_eq]
  refine .withPath _ _ (.bind (lookup_repeats _ _ text) fun found behind => ?_)
  obtain ⟨⟨origin, known⟩, entry, listed, inlined⟩ := behind
  rw [known]
  exact .map (responsePayload_repeats components _ (once entry listed found.2 inlined))
    fun _ _ => trivial

end Shared

end Resolve

open Resolve

/-- However a run over the document went on, a second visit ends as the first one did and
registers nothing. -/
structure Document.Recalled (document : Document) (policy : Policy) : Prop where
  /-- With fewer levels than before the second visit may end on the last level. -/
  schemas : ∀ site schema levels other, Schema.KeysOnce schema →
    RecalledBy document.components.schemas policy
      (fun message => other < levels ∧ message = endlessMessage)
      (schemaWithin document.components.schemas levels site schema)
      (schemaWithin document.components.schemas other site schema)
  /-- A reference contributes the same fields wherever it is merged, unless it closes a
  cycle there. -/
  inherited : ∀ text levels other expanding others site place,
    RecalledBy document.components.schemas policy
      (fun message => other < levels ∧ message = endlessMessage ∨
        ¬ others ⊆ expanding ∧ ∃ names, message = cycleMessage names)
      (contributionWithin document.components.schemas levels expanding site (.reference text))
      (contributionWithin document.components.schemas other others place (.reference text))
  bodies : ∀ text operation other,
    RecalledBy document.components.schemas policy (fun _ => False)
      (body (.ofDocument document) operation (.reference text))
      (body (.ofDocument document) other (.reference text))
  responses : ∀ text status otherStatus operation other,
    RecalledBy document.components.schemas policy (fun _ => False)
      (responseContent (.ofDocument document) operation (status, .reference text))
      (responseContent (.ofDocument document) other (otherStatus, .reference text))
  parameters : ∀ origin declared operation other,
    (∀ schema ∈ declared.schemas, Schema.KeysOnce schema) →
      RecalledBy document.components.schemas policy (fun _ => False)
        (parameter (.ofDocument document) operation (some origin, declared))
        (parameter (.ofDocument document) other (some origin, declared))
  /-- One entry for every set of values and for every union name. -/
  entries : ∀ log, Follows document.components.schemas policy (Log.starting Registry.empty) log →
    log.store.Distinct

/-- Resolving is idempotent: what was resolved once is resolved alike at every later moment
of the run. -/
theorem Document.resolves_again (document : Document) (once : document.components.KeysOnce)
    (policy : Policy) : document.Recalled policy where
  schemas site _ levels other schemaOnce :=
    recalledBy_of_repeats once.schemas
      (schemaWithin_repeats once.schemas levels other site schemaOnce)
  inherited text levels other expanding others site place :=
    recalledBy_of_repeats once.schemas
      (contributionWithin_repeats once.schemas text levels other expanding others site place)
  bodies text operation other :=
    recalledBy_of_repeats once.schemas
      (body_repeats once.schemas once.requestBodies text operation other)
  responses text status otherStatus operation other :=
    recalledBy_of_repeats once.schemas
      (responseContent_repeats once.schemas once.responses text status otherStatus operation other)
  parameters origin _ operation other declaredOnce :=
    recalledBy_of_repeats once.schemas
      (parameter_repeats once.schemas origin declaredOnce operation other)
  entries _ follows := (follows.grows once.schemas ⟨List.nodup_nil, List.nodup_nil⟩).1

def Shape.unionName? : Shape → Option TypeName
  | .union name _ => some name
  | _ => none

theorem Shape.union_of_unionName? {shape : Shape} {name : TypeName}
    (named : shape.unionName? = some name) : ∃ variants, shape = .union name variants := by
  cases shape with
  | union stored variants =>
      obtain rfl := Option.some.inj named
      exact ⟨variants, rfl⟩
  | _ => contradiction

/-- Two unions want the name of one site. Whatever of them is resolved afterwards, the
second one is found under the number it was given. -/
theorem Document.resolves_again_numbered :
    let kindsOf := fun kinds => { Schema.bare with kind := some (.many kinds) }
    let texts := RefOr.inline (kindsOf ["string", "boolean"])
    let numbers := RefOr.inline (kindsOf ["integer", "boolean"])
    let schemas : SchemaMap := [("Pet", texts)]
    let document := Document.ofParts [] schemas
    let site := Site.component ⟨"Pet"⟩
    let scope := Scope.root .failOnUnsupported
    let visit := schemaWithin schemas document.levels site
    let moment := ((visit texts).outcome scope (Log.starting Registry.empty)).2
    document.components.KeysOnce ∧
      ∃ variants reached, (visit numbers).outcome scope moment =
          (.ok (.union ⟨"Pet2"⟩ variants), reached) ∧
        ∀ later, Follows schemas .failOnUnsupported reached later →
          ∃ last, (visit numbers).outcome scope later = (.ok (.union ⟨"Pet2"⟩ variants), last) ∧
            last.store = later.store := by
  intro kindsOf texts numbers schemas document site scope visit moment
  have textsOnce : Schema.KeysOnce texts := Schema.keysOnce_leaf rfl rfl rfl
  have numbersOnce : Schema.KeysOnce numbers := Schema.keysOnce_leaf rfl rfl rfl
  have once : document.components.KeysOnce :=
    ⟨List.forall_mem_singleton.mpr textsOnce, nofun, nofun⟩
  have numbered : ((visit numbers).outcome scope moment).1.toOption.bind Shape.unionName? =
      some ⟨"Pet2"⟩ := by
    decide
  cases first : (visit numbers).outcome scope moment with
  | mk outcome reached =>
      rw [first] at numbered
      cases outcome with
      | error diagnostic => contradiction
      | ok shape =>
          obtain ⟨variants, rfl⟩ := Shape.union_of_unionName? numbered
          refine ⟨once, variants, reached, rfl, fun later follows => ?_⟩
          have recalled := (document.resolves_again once .failOnUnsupported).schemas site numbers
            document.levels document.levels numbersOnce moment reached later _ [] []
            (.resolved .now _ [] site textsOnce) first follows
          rcases recalled with unchanged | ⟨_, _, _, fewer, _⟩
          · exact unchanged
          · exact absurd fewer (Nat.lt_irrefl _)

end ElmClient
