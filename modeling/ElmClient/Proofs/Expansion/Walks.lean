/-
Ways from component to component. Merging a component takes it along every way through
`allOf`, so it cannot succeed where a way leads back to a component that it passed. A cycle is
only reported when the components under expansion are such a way. Resolving schemas fails for
ordinary reasons, apart from components that are merged into themselves and from schemas for
which no levels are left.
-/

import ElmClient.Proofs.Again.Resolve
import ElmClient.Proofs.Closed.Schema
import Mathlib.Data.List.Chain
import Mathlib.Logic.Relation

namespace ElmClient

namespace Run

variable {σ α β : Type} {allowed : String → Prop}

/-- Whatever the run begins with, it fails with allowed messages only. -/
def FailsWith (allowed : String → Prop) (action : Run σ α) : Prop :=
  ∀ scope log diagnostic reached, action.outcome scope log = (.error diagnostic, reached) →
    allowed diagnostic.message

namespace FailsWith

theorem pure (value : α) : FailsWith allowed (Pure.pure value : Run σ α) := by
  intro scope log diagnostic reached equal
  rw [outcome_pure] at equal
  cases equal

theorem fail {message : String} (holds : allowed message) :
    FailsWith allowed (Run.fail message : Run σ α) := by
  intro scope log diagnostic reached equal
  rw [outcome_fail] at equal
  cases equal
  exact holds

theorem placeholderOr {message : String} (placeholder : α) (holds : allowed message) :
    FailsWith allowed (Run.placeholderOr message placeholder : Run σ α) := by
  intro scope log diagnostic reached equal
  rw [outcome_placeholderOr] at equal
  split at equal
  · cases equal
  · cases equal
    exact holds

theorem bindOf {action : Run σ α} {next : α → Run σ β} {first : α → Prop}
    (head : FailsWith allowed action) (returns : Returns action first)
    (tail : ∀ value, first value → FailsWith allowed (next value)) :
    FailsWith allowed (action >>= next) := by
  intro scope log diagnostic reached equal
  rw [outcome_bind] at equal
  cases ended : action.outcome scope log with
  | mk outcome middle =>
      rw [ended] at equal
      cases outcome with
      | error found =>
          cases equal
          exact head scope log _ _ ended
      | ok value =>
          exact tail value (returns scope log value middle ended) scope middle diagnostic reached
            equal

theorem imp {action : Run σ α} {other : String → Prop} (inner : FailsWith allowed action)
    (implies : ∀ message, allowed message → other message) : FailsWith other action :=
  fun scope log diagnostic reached equal =>
    implies _ (inner scope log diagnostic reached equal)

theorem composed : Composed (fun {_} (action : Run σ _) => FailsWith allowed action) where
  pure := pure
  withPath segment _ inner scope := inner (scope.below segment)
  bind head tail := head.bindOf (Returns.any _) fun value _ => tail value

end FailsWith

end Run

namespace Resolve

open Run

variable {allowed : String → Prop}

theorem registeredUnion_failsWith (site : Site) (owner : Option TypeName)
    (variants : List Variant) : FailsWith allowed (registeredUnion site owner variants) := by
  have registered : FailsWith allowed (Run.registerUnion ⟨site.name, variants⟩ owner) := by
    intro scope log diagnostic reached equal
    rw [outcome_registerUnion] at equal
    cases equal
  exact FailsWith.composed.map _ registered

theorem failsWith_resolving (ordinary : ∀ message, Ordinary message → allowed message) :
    Resolving (fun _ => True) (fun {_} (action : Run Registry _) => FailsWith allowed action) where
  toComposed := FailsWith.composed
  bindOf := FailsWith.bindOf
  fail reason := FailsWith.fail (ordinary _ reason)
  placeholderOr placeholder reason := FailsWith.placeholderOr placeholder (ordinary _ reason)
  registerEnum entry := by
    intro scope log diagnostic reached equal
    rw [outcome_registerEnum] at equal
    cases equal
  unionOf inner site owner keyword schema members _ _ each := by
    refine FailsWith.composed.bind (FailsWith.composed.traverseIndexedOf _ fun entry labelled => ?_)
      fun variants => registeredUnion_failsWith site owner variants
    exact FailsWith.composed.map _ (each _ entry.1 (List.of_mem_zip labelled).1)
  kindUnion inner site schema _ each := by
    refine FailsWith.composed.bind
      (FailsWith.composed.withPath _ (FailsWith.composed.traverse (fun kind => ?_) _))
      fun variants => registeredUnion_failsWith site _ variants
    exact FailsWith.composed.map _ (each _ kind)

end Resolve

end ElmClient

namespace ElmClient.Resolve

open Run

/-! ### Ways -/

/-- The text is a reference that the schema is, or one in its `allOf`, directly or in inline
members at any depth. -/
inductive Inherits (text : String) : RefOr Schema → Prop
  | itself : Inherits text (.reference text)
  | member {schema : Schema} {member : RefOr Schema} (listed : member ∈ schema.allOf.getD [])
      (below : Inherits text member) : Inherits text (.inline schema)

def Extends (schemas : SchemaMap) (raw next : String) : Prop :=
  ∃ schema text, Keyed.find? raw schemas = some schema ∧ Inherits text schema ∧
    RefersTo schemas text next

/-- As before, but a lone alternative is looked into as well; it stands for the schema. -/
inductive Takes (text : String) : RefOr Schema → Prop
  | itself : Takes text (.reference text)
  | member {schema : Schema} {member : RefOr Schema} (listed : member ∈ schema.allOf.getD [])
      (below : Takes text member) : Takes text (.inline schema)
  | alternative {schema only : Schema} (lone : [.inline only] ∈ schema.alternatives)
      (below : Takes text (.inline only)) : Takes text (.inline schema)

def TakesIn (schemas : SchemaMap) (raw next : String) : Prop :=
  ∃ schema text, Keyed.find? raw schemas = some schema ∧ Takes text schema ∧
    RefersTo schemas text next

/-! ### Merges that succeed -/

/-- Every way from here ends. -/
def Grounded (schemas : SchemaMap) (schema : RefOr Schema) : Prop :=
  ∀ text next, Inherits text schema → RefersTo schemas text next →
    Acc (Function.swap (Extends schemas)) next

section Grounded

variable {schemas : SchemaMap}

private theorem grounded_inline {schema : Schema}
    (members : ∀ member ∈ schema.allOf.getD [], Grounded schemas member) :
    Grounded schemas (.inline schema) := by
  intro text next inherits refers
  cases inherits with
  | member listed below => exact members _ listed text next below refers

private theorem acc_of_grounded {raw : String} {schema : RefOr Schema}
    (found : Keyed.find? raw schemas = some schema) (grounded : Grounded schemas schema) :
    Acc (Function.swap (Extends schemas)) raw := by
  refine .intro raw fun next step => ?_
  obtain ⟨target, text, also, inherits, refers⟩ := step
  rw [found] at also
  obtain rfl := Option.some.inj also
  exact grounded text next inherits refers

theorem mergedFields_grounded {inner : Inner} {expanding : List TypeName} {schema : Schema}
    (site : Site) (each : ∀ member ∈ schema.allOf.getD [],
      Returns (inner.contribution expanding site member) fun _ => Grounded schemas member) :
    Returns (mergedFields inner expanding site schema)
      fun _ => Grounded schemas (.inline schema) := by
  have members : Returns (memberContributions inner expanding site schema) fun _ =>
      ∀ member ∈ schema.allOf.getD [], Grounded schemas member := by
    unfold memberContributions
    split
    case h_1 listed allOf =>
      rw [allOf] at each ⊢
      exact (Returns.traverseIndexedOf "allOf" each).imp fun _ related =>
        all_of_forall₂ related.flip
    case h_2 none =>
      rw [none]
      exact .pure nofun
  rw [mergedFields_eq]
  exact .bind members fun _ grounded => .map (.any _) fun _ _ => grounded_inline grounded

/-- A contribution that is returned took every way from its schema to the end. -/
theorem contributionWithin_grounded (levels : Nat) (expanding : List TypeName) (site : Site)
    (schema : RefOr Schema) :
    Returns (contributionWithin schemas levels expanding site schema)
      fun _ => Grounded schemas schema := by
  induction levels generalizing expanding site schema with
  | zero => exact .fail
  | succ levels ih =>
      unfold contributionWithin
      cases schema with
      | inline schema =>
          have none_grounded (none : schema.allOf = none) : Grounded schemas (.inline schema) := by
            refine grounded_inline ?_
            rw [none]
            intro members present
            cases present
          change Returns (inlineContribution _ _ _ _ schema) _
          unfold inlineContribution
          split
          case isTrue unconstrained =>
            simp only [Schema.isUnconstrained, Bool.and_eq_true, Option.isNone_iff_eq_none]
              at unconstrained
            exact .pure (none_grounded unconstrained.1.1.2)
          · split
            · exact .map (mergedFields_grounded site fun member _ => ih expanding site member)
                fun _ grounded => grounded
            case isFalse simple =>
              have none : schema.allOf = none := by simpa using simple
              exact (Returns.any _).imp fun _ _ => none_grounded none
      | reference text =>
          refine .bind (schemaReference_refersTo schemas text) fun reference refers => ?_
          dsimp only
          split
          · exact .fail
          · split
            · exact .fail
            case h_2 target found =>
              refine (ih _ _ target).imp fun _ grounded other next inherits also => ?_
              cases inherits with
              | itself =>
                  have same := refers.2.parsed.symm.trans also.parsed
                  simp only [Except.ok.injEq, Reference.mk.injEq, true_and] at same
                  rw [← same]
                  exact acc_of_grounded found grounded

end Grounded

section Accessible

variable {α : Type} {step : α → α → Prop} {start turn : α}
  (accessible : Acc (Function.swap step) start)

include accessible

private theorem acc_of_reflTransGen (way : Relation.ReflTransGen step start turn) :
    Acc (Function.swap step) turn := by
  induction way with
  | refl => exact accessible
  | tail _ last ih => exact ih.inv last

private theorem not_transGen_of_acc : ¬ Relation.TransGen step start start := by
  induction accessible with
  | intro start _ ih =>
      intro cycle
      obtain ⟨next, first, rest⟩ := Relation.TransGen.head'_iff.mp cycle
      exact ih next first (Relation.TransGen.tail' rest first)

end Accessible

theorem mergedFields_of_cycle {schemas : SchemaMap} {raw turn : String} {schema : Schema}
    (found : Keyed.find? raw schemas = some (.inline schema))
    (way : Relation.ReflTransGen (Extends schemas) raw turn)
    (cycle : Relation.TransGen (Extends schemas) turn turn) (levels : Nat)
    (expanding : List TypeName) (site : Site) :
    Returns (mergedFields ⟨schemaWithin schemas levels, contributionWithin schemas levels⟩ expanding
      site schema) fun _ => False := by
  refine (mergedFields_grounded site fun member _ =>
    contributionWithin_grounded levels expanding site member).imp fun _ grounded => ?_
  have accessible := acc_of_reflTransGen (acc_of_grounded found grounded) way
  exact not_transGen_of_acc accessible cycle

/-! ### Reported cycles -/

/-- The components are a way, and so they are with any component behind them that the schema
takes in. -/
structure Led (schemas : SchemaMap) (walk : List String) (schema : RefOr Schema) : Prop where
  way : List.IsChain (TakesIn schemas) walk
  further : ∀ text next, Takes text schema → RefersTo schemas text next →
    List.IsChain (TakesIn schemas) (walk ++ [next])

def LedSite (schemas : SchemaMap) (site : Site) (schema : RefOr Schema) : Prop :=
  ∃ walk : List String, walk.map TypeName.ofRaw = site.owner.toList ∧
    ∀ part, schema = .inline part → Led schemas walk schema

def LedMember (schemas : SchemaMap) (expanding : List TypeName) (site : Site)
    (schema : RefOr Schema) : Prop :=
  (∃ walk : List String, walk.map TypeName.ofRaw = expanding ∧ Led schemas walk schema) ∧
    LedSite schemas site schema

/-- If the message reports a cycle, the names in it are those of a way of components, of
which the last one occurred before. -/
def ReportsWalk (schemas : SchemaMap) (message : String) : Prop :=
  "`allOf` reference cycle: ".toList <+: message.toList →
    ∃ walk last, message = cycleMessage ((walk ++ [last]).map TypeName.ofRaw) ∧
      List.IsChain (TakesIn schemas) (walk ++ [last]) ∧ last ∈ walk

section Reports

variable {schemas : SchemaMap} {walk : List String}

private theorem Led.of_nil (schema : RefOr Schema) : Led schemas [] schema :=
  ⟨.nil, fun _ next _ _ => .singleton next⟩

private theorem Led.member {schema : Schema} (led : Led schemas walk (.inline schema))
    {member : RefOr Schema} (listed : member ∈ schema.allOf.getD []) : Led schemas walk member :=
  ⟨led.way, fun text next takes => led.further text next (.member listed takes)⟩

private theorem Led.target {raw : String} {target : RefOr Schema}
    (way : List.IsChain (TakesIn schemas) (walk ++ [raw]))
    (found : Keyed.find? raw schemas = some target) : Led schemas (walk ++ [raw]) target := by
  refine ⟨way, fun text next takes refers => List.isChain_append.mpr ⟨way, .singleton next, ?_⟩⟩
  intro last isLast first isFirst
  rw [List.getLast?_concat] at isLast
  obtain rfl := Option.some.inj isLast
  obtain rfl := Option.some.inj isFirst
  exact ⟨target, text, found, takes, refers⟩

theorem ledSite_unowned (name : TypeName) (schema : RefOr Schema) :
    LedSite schemas (Site.unowned name) schema :=
  ⟨[], rfl, fun _ _ => .of_nil schema⟩

theorem ledSite_component {raw : String} {schema : RefOr Schema}
    (found : Keyed.find? raw schemas = some schema) :
    LedSite schemas (Site.component (TypeName.ofRaw raw)) schema := by
  have led : Led schemas ([] ++ [raw]) schema := Led.target (.singleton raw) found
  exact ⟨[raw], rfl, fun _ _ => led⟩

private theorem LedSite.member {site : Site} {schema : Schema}
    (led : LedSite schemas site (.inline schema))
    {member : RefOr Schema} (listed : member ∈ schema.allOf.getD []) :
    LedSite schemas site member := by
  obtain ⟨walk, owner, inline⟩ := led
  exact ⟨walk, owner, fun _ _ => (inline schema rfl).member listed⟩

private theorem mem_keys_of_way {last : String}
    (way : List.IsChain (TakesIn schemas) (walk ++ [last])) :
    ∀ raw ∈ walk, raw ∈ Keyed.keys schemas := by
  induction walk with
  | nil => exact nofun
  | cons first rest ih =>
      obtain ⟨next, others, equal⟩ : ∃ next others, rest ++ [last] = next :: others := by
        cases rest <;> exact ⟨_, _, rfl⟩
      rw [List.cons_append, equal] at way
      obtain ⟨⟨schema, text, found, -⟩, later⟩ := List.isChain_cons_cons.mp way
      refine List.forall_mem_cons.mpr ⟨?_, ih (equal ▸ later)⟩
      exact List.mem_map_of_mem (Keyed.mem_of_find? found)

variable (distinct : ((Keyed.keys schemas).map TypeName.ofRaw).Nodup)

include distinct

/-- A component is only found under expansion if the way came through it. -/
theorem reportsWalk_of_repeated {text next : String} (led : Led schemas walk (.reference text))
    (refers : RefersTo schemas text next)
    (repeated : TypeName.ofRaw next ∈ walk.map TypeName.ofRaw) :
    ReportsWalk schemas (cycleMessage ((walk ++ [next]).map TypeName.ofRaw)) := by
  have way := led.further text next .itself refers
  obtain ⟨raw, inWalk, same⟩ := List.mem_map.mp repeated
  have inKeys := mem_keys_of_way way raw inWalk
  obtain rfl := List.inj_on_of_nodup_map distinct inKeys refers.listed same
  exact fun _ => ⟨walk, raw, rfl, way, inWalk⟩

private theorem led_plan : Plan schemas (fun _ => True)
    (fun {_} (action : Run Registry _) => FailsWith (ReportsWalk schemas) action)
    (fun _ => LedSite schemas) fun _ => LedMember schemas where
  permitted _ := trivial
  apart _ _ name := ledSite_unowned name _
  only := by
    rintro _ site schema member ⟨walk, owner, inline⟩ lone
    refine ⟨walk, owner, ?_⟩
    rintro only rfl
    have led := inline schema rfl
    exact ⟨led.way, fun text next takes => led.further text next (.alternative lone takes)⟩
  member := by
    intro _ site schema member atSite listed
    have inside := atSite.member listed
    obtain ⟨walk, owner, inline⟩ := atSite
    exact ⟨inside, ⟨walk, owner, (inline schema rfl).member listed⟩, inside⟩
  further := by
    rintro _ expanding site schema member ⟨⟨walk, names, led⟩, atSite⟩ listed
    exact ⟨⟨walk, names, led.member listed⟩, atSite.member listed⟩
  own _ _ name := ledSite_unowned name _
  alone under _ := under.2
  follow := by
    rintro _ _ site text raw target ⟨⟨walk, rfl, led⟩, -⟩ refers - found
    have way := led.further text raw .itself refers
    exact ⟨⟨walk ++ [raw], List.map_append, Led.target way found⟩, ledSite_component found⟩
  cycle := by
    rintro _ _ site text raw ⟨⟨walk, rfl, led⟩, -⟩ refers repeated
    have reports := reportsWalk_of_repeated distinct led refers repeated
    rw [List.map_append] at reports
    exact FailsWith.fail reports
  endlessSchema _ := FailsWith.fail fun report => absurd report (by decide)
  endlessContribution _ := FailsWith.fail fun report => absurd report (by decide)

/-- Whatever is resolved at a component's site or at one of no component, a cycle that is
reported is one. -/
theorem schemaWithin_reportsWalk (levels : Nat) {site : Site} {schema : RefOr Schema}
    (led : LedSite schemas site schema) :
    FailsWith (ReportsWalk schemas) (schemaWithin schemas levels site schema) :=
  (within_holds (failsWith_resolving fun _ ordinary report => absurd report ordinary.noCycle)
    (led_plan distinct) levels).1 site schema led

end Reports

end ElmClient.Resolve
