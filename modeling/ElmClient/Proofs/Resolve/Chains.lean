/-
Chains of references. A chain that ends passes no component twice, so it is no longer than the
list of components; every longer one goes on for ever. Looking up an item looks at one item
more than there are components and so tells how its chain ends.
-/

import ElmClient.Proofs.Keyed
import ElmClient.Proofs.Run
import ElmClient.Resolve.Site
import Mathlib.Data.List.Perm.Subperm
import Mathlib.Logic.Function.Iterate

namespace ElmClient.Resolve

open Run

variable {α : Type}

/-! ### Chains -/

section Chains

variable (sections : Section → Prop) (components : List (String × RefOr α))

/-- The text refers to a component, in one of the sections, whose entry is `next`. -/
structure Passes (text name : String) (next : RefOr α) : Prop where
  parsed : ∃ component, sections component ∧ Reference.parse text = .ok ⟨component, name⟩
  found : Keyed.find? name components = some next

/-- References lead from an item over the components of the names to the last item. -/
inductive Chain : RefOr α → List String → RefOr α → Prop
  | start (item : RefOr α) : Chain item [] item
  | step {text name : String} {next last : RefOr α} {names : List String}
      (passes : Passes sections components text name next) (rest : Chain next names last) :
      Chain (.reference text) (name :: names) last

def Ends (item : RefOr α) : Prop :=
  ∀ text name next, item = .reference text → ¬ Passes sections components text name next

/-- References lead on and on from the item. -/
def LeadsOn (item : RefOr α) : Prop :=
  ∃ items : Nat → RefOr α, items 0 = item ∧ ∀ position, ∃ text name,
    items position = .reference text ∧
      Passes sections components text name (items (position + 1))

end Chains

section Lengths

variable {sections : Section → Prop} {components : List (String × RefOr α)}
  {item last : RefOr α} {names : List String}

private theorem Passes.unique {text name other : String} {next further : RefOr α}
    (passes : Passes sections components text name next)
    (also : Passes sections components text other further) : name = other ∧ next = further := by
  obtain ⟨_, _, parsed⟩ := passes.parsed
  obtain ⟨_, _, alsoParsed⟩ := also.parsed
  have same := parsed.symm.trans alsoParsed
  injection same with same
  injection same with _ name
  subst name
  have found := passes.found.symm.trans also.found
  exact ⟨rfl, Option.some.inj found⟩

theorem ends_inline (value : α) : Ends sections components (.inline value) := by
  intro text name next impossible
  cases impossible

theorem Chain.unique {other : RefOr α} {others : List String}
    (chain : Chain sections components item names last) (ends : Ends sections components last)
    (also : Chain sections components item others other)
    (alsoEnds : Ends sections components other) : names = others ∧ last = other := by
  induction chain generalizing others with
  | start item =>
      cases also with
      | start => exact ⟨rfl, rfl⟩
      | step passes rest => exact absurd passes (ends _ _ _ rfl)
  | step passes rest ih =>
      cases also with
      | start => exact absurd passes (alsoEnds _ _ _ rfl)
      | step alsoPasses alsoRest =>
          obtain ⟨rfl, rfl⟩ := passes.unique alsoPasses
          obtain ⟨rfl, rfl⟩ := ih ends alsoRest
          exact ⟨rfl, rfl⟩

private theorem Chain.tail_of_mem {name : String}
    (chain : Chain sections components item names last)
    (member : name ∈ names) :
    ∃ next tail, Keyed.find? name components = some next ∧
      Chain sections components next tail last ∧ tail.length < names.length := by
  induction chain with
  | start item => exact absurd member List.not_mem_nil
  | step passes rest ih =>
      rcases List.mem_cons.mp member with rfl | later
      · exact ⟨_, _, passes.found, rest, Nat.lt_succ_self _⟩
      · obtain ⟨next, tail, found, further, shorter⟩ := ih later
        exact ⟨next, tail, found, further, Nat.lt_succ_of_lt shorter⟩

/-- A component passed twice would give two chains of different lengths. -/
theorem Chain.nodup (chain : Chain sections components item names last)
    (ends : Ends sections components last) : names.Nodup := by
  induction chain with
  | start item => exact List.nodup_nil
  | @step text name next last names passes rest ih =>
      rw [List.nodup_cons]
      refine ⟨fun again => ?_, ih ends⟩
      obtain ⟨other, tail, found, further, shorter⟩ := rest.tail_of_mem again
      rw [passes.found] at found
      obtain rfl := Option.some.inj found
      obtain ⟨rfl, -⟩ := rest.unique ends further ends
      exact absurd shorter (Nat.lt_irrefl _)

private theorem Chain.length_le (chain : Chain sections components item names last)
    (ends : Ends sections components last) : names.length ≤ components.length := by
  have listed : names ⊆ Keyed.keys components := by
    intro name member
    obtain ⟨next, _, found, _⟩ := chain.tail_of_mem member
    exact List.mem_map_of_mem (Keyed.mem_of_find? found)
  have fits := ((chain.nodup ends).subperm listed).length_le
  rwa [Keyed.keys, List.length_map] at fits

private theorem chain_within (looks : Nat) (item : RefOr α) :
    (∃ names last, Chain sections components item names last ∧
      Ends sections components last ∧ names.length < looks) ∨
    ∃ names last, Chain sections components item names last ∧ names.length = looks := by
  induction looks generalizing item with
  | zero => exact Or.inr ⟨[], item, .start item, rfl⟩
  | succ looks ih =>
      by_cases ends : Ends sections components item
      · exact Or.inl ⟨[], item, .start item, ends, Nat.zero_lt_succ looks⟩
      · simp only [Ends, not_forall, not_not] at ends
        obtain ⟨text, name, next, rfl, passes⟩ := ends
        rcases ih next with ⟨names, last, chain, ends, short⟩ | ⟨names, last, chain, long⟩
        · exact Or.inl ⟨name :: names, last, .step passes chain, ends, Nat.succ_lt_succ short⟩
        · exact Or.inr ⟨name :: names, last, .step passes chain, congrArg Nat.succ long⟩

private theorem leadsOn_of_unending
    (goesOn : ∀ names last, Chain sections components item names last →
      ¬ Ends sections components last) : LeadsOn sections components item := by
  let Unending := { start : RefOr α // ∀ names last,
    Chain sections components start names last → ¬ Ends sections components last }
  have onward : ∀ start : Unending, ∃ (next : Unending) (text name : String),
      start.val = .reference text ∧ Passes sections components text name next.val := by
    rintro ⟨start, goesOn⟩
    have unending := goesOn [] start (.start start)
    simp only [Ends, not_forall, not_not] at unending
    obtain ⟨text, name, next, rfl, passes⟩ := unending
    refine ⟨⟨next, fun names last chain => ?_⟩, text, name, rfl, passes⟩
    exact goesOn (name :: names) last (.step passes chain)
  choose next text name isReference passes using onward
  let reached := fun position => next^[position] ⟨item, goesOn⟩
  refine ⟨fun position => (reached position).val, rfl, fun position => ?_⟩
  have after : reached (position + 1) = next (reached position) :=
    Function.iterate_succ_apply' next position _
  dsimp only
  rw [after]
  exact ⟨_, _, isReference _, passes _⟩

theorem LeadsOn.not_ends (endless : LeadsOn sections components item)
    (chain : Chain sections components item names last) : ¬ Ends sections components last := by
  induction chain with
  | start item =>
      intro ends
      obtain ⟨items, rfl, onward⟩ := endless
      obtain ⟨text, name, isReference, passes⟩ := onward 0
      exact ends text name _ isReference passes
  | step passes rest ih =>
      apply ih
      obtain ⟨items, first, onward⟩ := endless
      obtain ⟨text, name, isReference, also⟩ := onward 0
      rw [first] at isReference
      cases isReference
      obtain ⟨rfl, rfl⟩ := passes.unique also
      exact ⟨fun position => items (position + 1), rfl, fun position => onward (position + 1)⟩

/-- A chain either ends within the number of components or never. -/
theorem ends_or_leadsOn (sections : Section → Prop) (components : List (String × RefOr α))
    (item : RefOr α) :
    (∃ names last, Chain sections components item names last ∧
      Ends sections components last ∧ names.length ≤ components.length) ∨
    LeadsOn sections components item := by
  by_cases finite : ∃ names last, Chain sections components item names last ∧
      Ends sections components last
  · obtain ⟨names, last, chain, ends⟩ := finite
    exact Or.inl ⟨names, last, chain, ends, chain.length_le ends⟩
  · refine Or.inr (leadsOn_of_unending fun names last chain ends => ?_)
    exact finite ⟨names, last, chain, ends⟩

theorem LeadsOn.long (endless : LeadsOn sections components item) (looks : Nat) :
    ∃ names last, Chain sections components item names last ∧ names.length = looks := by
  rcases chain_within looks item with ⟨names, last, chain, ends, -⟩ | long
  · exact absurd ends (endless.not_ends chain)
  · exact long

end Lengths

/-! ### Looking up -/

section Lookup

variable {σ : Type} {component : Section} {components : List (String × RefOr α)}
  {item last : RefOr α} {names : List String}

def refusal (component : Section) (text : String) : String :=
  match Reference.parse text with
  | .error malformed => malformed.message
  | .ok reference =>
      if reference.component ≠ component then
        "`" ++ text ++ "` points into `" ++ reference.component.text ++ "` where `"
          ++ component.text ++ "` was expected"
      else "reference to missing component `" ++ text ++ "`"

def loopMessage (component : Section) : String :=
  "reference cycle between `" ++ component.text ++ "` components"

private theorem refusal_ne_loopMessage (component : Section) (text : String) :
    refusal component text ≠ loopMessage component := by
  have begins : (loopMessage component).toList.take 11 = "reference c".toList := by
    cases component <;> decide
  intro same
  rw [← same] at begins
  unfold refusal Reference.Malformed.message at begins
  split at begins
  · split at begins <;>
      simp [String.toList_append] at begins
  · split at begins <;>
      simp [String.toList_append] at begins

theorem Chain.follow_eq (chain : Chain (· = component) components item names last) (looks : Nat)
    (origin : Option String) :
    (follow component components (names.length + looks) origin item : Run σ (Option String × α)) =
      follow component components looks (origin.or names.head?) last := by
  induction chain generalizing origin with
  | start item => rw [List.length_nil, Nat.zero_add, List.head?_nil, Option.or_none]
  | @step text name next last names passes rest ih =>
      obtain ⟨_, rfl, parsed⟩ := passes.parsed
      have first : origin.or (some name) = some (origin.getD name) := by cases origin <;> rfl
      rw [List.length_cons, Nat.add_right_comm, follow]
      simp [parseReference, parsed, passes.found, ih, first]

theorem follow_ends {text : String}
    (ends : Ends (· = component) components (.reference text)) (looks : Nat)
    (origin : Option String) :
    (follow component components (looks + 1) origin (.reference text) :
      Run σ (Option String × α)) = Run.fail (refusal component text) := by
  unfold follow refusal parseReference
  cases parsed : Reference.parse text with
  | error malformed => rfl
  | ok reference =>
      rw [pure_bind]
      by_cases same : reference.component = component
      · have missing : Keyed.find? reference.name components = none := by
          cases found : Keyed.find? reference.name components with
          | none => rfl
          | some next =>
              exact absurd ⟨⟨component, rfl, same ▸ parsed⟩, found⟩ (ends text _ next rfl)
        simp [same, missing]
      · simp [same]

/-- How looking up an item ends, by the chain of references that begins there. -/
structure LooksUp (component : Section) (components : List (String × RefOr α)) (item : RefOr α)
    (scope : Scope) (log : Log σ) : Prop where
  found : ∀ origin value,
    ((lookup component components item).outcome scope log).1 = .ok (origin, value) ↔
      ∃ names, Chain (· = component) components item names (.inline value) ∧
        origin = names.head?
  endless :
    ((lookup component components item).outcome scope log).1 =
        .error ⟨scope.path, loopMessage component⟩ ↔
      LeadsOn (· = component) components item
  /-- Every other failure is about the reference that leads nowhere. -/
  refused : ∀ diagnostic, diagnostic ≠ ⟨scope.path, loopMessage component⟩ →
    (((lookup component components item).outcome scope log).1 = .error diagnostic ↔
      ∃ names text, Chain (· = component) components item names (.reference text) ∧
        Ends (· = component) components (.reference text) ∧
          diagnostic = ⟨scope.path, refusal component text⟩)
  unchanged : ((lookup component components item).outcome scope log).2 = log
  /-- A chain that ends passes no component twice. -/
  short : ∀ names last, Chain (· = component) components item names last →
    Ends (· = component) components last → names.Nodup ∧ names.length ≤ components.length
  /-- More looks change nothing. -/
  enough : ∀ more,
    (follow component components (components.length + 1 + more) none item).outcome scope log =
      (lookup component components item).outcome scope log

theorem outcome_follow_ends (chain : Chain (· = component) components item names last)
    (ends : Ends (· = component) components last) {looks : Nat} (short : names.length < looks)
    (scope : Scope) (log : Log σ) :
    (follow component components looks none item).outcome scope log =
      match last with
      | .inline value => (.ok (names.head?, value), log)
      | .reference text => (.error ⟨scope.path, refusal component text⟩, log) := by
  obtain ⟨spare, rfl⟩ : ∃ spare, looks = names.length + (spare + 1) :=
    ⟨looks - names.length - 1, by omega⟩
  rw [chain.follow_eq, Option.none_or]
  cases last with
  | inline value => rfl
  | reference text => rw [follow_ends ends, outcome_fail]

theorem outcome_follow_leadsOn (endless : LeadsOn (· = component) components item) (looks : Nat)
    (scope : Scope) (log : Log σ) :
    (follow component components looks none item).outcome scope log =
      (.error ⟨scope.path, loopMessage component⟩, log) := by
  obtain ⟨names, last, chain, rfl⟩ := endless.long looks
  have spent : (follow component components (names.length + 0) none item :
      Run σ (Option String × α)) = follow component components 0 (none.or names.head?) last :=
    chain.follow_eq 0 none
  rw [Nat.add_zero] at spent
  rw [spent]
  rfl

theorem follow_cases (component : Section) (components : List (String × RefOr α))
    (item : RefOr α) {looks : Nat} (many : components.length < looks) (scope : Scope)
    (log : Log σ) :
    (∃ names value, Chain (· = component) components item names (.inline value) ∧
      (follow component components looks none item).outcome scope log =
        (.ok (names.head?, value), log)) ∨
    (∃ names text, Chain (· = component) components item names (.reference text) ∧
      Ends (· = component) components (.reference text) ∧
        (follow component components looks none item).outcome scope log =
          (.error ⟨scope.path, refusal component text⟩, log)) ∨
    (LeadsOn (· = component) components item ∧
      (follow component components looks none item).outcome scope log =
        (.error ⟨scope.path, loopMessage component⟩, log)) := by
  rcases ends_or_leadsOn (· = component) components item with
    ⟨names, last, chain, ends, few⟩ | endless
  · have ended := outcome_follow_ends chain ends (Nat.lt_of_le_of_lt few many) scope log
    cases last with
    | inline value => exact Or.inl ⟨names, value, chain, ended⟩
    | reference text => exact Or.inr (Or.inl ⟨names, text, chain, ends, ended⟩)
  · exact Or.inr (Or.inr ⟨endless, outcome_follow_leadsOn endless looks scope log⟩)

theorem follow_stable (component : Section) (components : List (String × RefOr α))
    (item : RefOr α) {looks more : Nat} (many : components.length < looks)
    (also : components.length < more) (scope : Scope) (log : Log σ) :
    (follow component components looks none item).outcome scope log =
      (follow component components more none item).outcome scope log := by
  rcases ends_or_leadsOn (· = component) components item with
    ⟨names, last, chain, ends, few⟩ | endless
  · rw [outcome_follow_ends chain ends (Nat.lt_of_le_of_lt few many),
      outcome_follow_ends chain ends (Nat.lt_of_le_of_lt few also)]
  · rw [outcome_follow_leadsOn endless, outcome_follow_leadsOn endless]

/-- Looking up is exact: it finds the inline item wherever the chain of references has one, and
it reports a cycle exactly where the chain has no end. -/
theorem lookup_exact (component : Section) (components : List (String × RefOr α))
    (item : RefOr α) (scope : Scope) (log : Log σ) :
    LooksUp component components item scope log := by
  have cases := follow_cases component components item (Nat.lt_succ_self _) scope log
  constructor
  case found =>
    intro origin value
    constructor
    · intro equal
      rcases cases with ⟨names, other, chain, ended⟩ | ⟨_, _, _, _, ended⟩ | ⟨_, ended⟩
      · rw [lookup, ended] at equal
        cases equal
        exact ⟨names, chain, rfl⟩
      · rw [lookup, ended] at equal
        cases equal
      · rw [lookup, ended] at equal
        cases equal
    · rintro ⟨names, chain, rfl⟩
      have ends : Ends (· = component) components (.inline value) := ends_inline value
      have few := chain.length_le ends
      rw [lookup, outcome_follow_ends chain ends (Nat.lt_succ_of_le few)]
  case endless =>
    constructor
    · intro equal
      rcases cases with ⟨_, _, _, ended⟩ | ⟨_, text, _, _, ended⟩ | ⟨endless, _⟩
      · rw [lookup, ended] at equal
        cases equal
      · rw [lookup, ended] at equal
        injection equal with equal
        injection equal with _ message
        exact absurd message (refusal_ne_loopMessage component text)
      · exact endless
    · intro endless
      rw [lookup, outcome_follow_leadsOn endless]
  case refused =>
    intro diagnostic other
    constructor
    · intro equal
      rcases cases with ⟨_, _, _, ended⟩ | ⟨names, text, chain, ends, ended⟩ | ⟨_, ended⟩
      · rw [lookup, ended] at equal
        cases equal
      · rw [lookup, ended] at equal
        cases equal
        exact ⟨names, text, chain, ends, rfl⟩
      · rw [lookup, ended] at equal
        cases equal
        exact absurd rfl other
    · rintro ⟨names, text, chain, ends, rfl⟩
      have few := chain.length_le ends
      rw [lookup, outcome_follow_ends chain ends (Nat.lt_succ_of_le few)]
  case unchanged =>
    rcases cases with ⟨_, _, _, ended⟩ | ⟨_, _, _, _, ended⟩ | ⟨_, ended⟩ <;> rw [lookup, ended]
  case short =>
    intro names last chain ends
    exact ⟨chain.nodup ends, chain.length_le ends⟩
  case enough =>
    intro more
    exact follow_stable component components item (by omega) (by omega) scope log

end Lookup

end ElmClient.Resolve
