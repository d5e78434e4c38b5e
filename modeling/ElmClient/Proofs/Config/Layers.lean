/-
Layers of formats. A registry lists kinds and formats by their names, so it is determined by
what is found in it. What is put over another registry has all formats of that one, and put
over it once more it stays as it is.
-/

import ElmClient.Config.Basic
import ElmClient.Proofs.Keyed
import Mathlib.Data.String.Basic

namespace ElmClient.FormatRegistry

variable {α : Type}

/-! ### Entries sorted by name -/

theorem find?_insertSorted (name other : String) (value : α) (entries : List (String × α)) :
    Keyed.find? other (insertSorted name value entries) =
      if name = other then some value else Keyed.find? other entries := by
  induction entries with
  | nil => rfl
  | cons entry rest ih =>
      obtain ⟨present, former⟩ := entry
      unfold insertSorted
      split
      · rfl
      · split
        case isTrue same =>
          subst same
          by_cases found : present = other <;> simp [Keyed.find?, found]
        case isFalse different =>
          rw [Keyed.find?, Keyed.find?, ih]
          split
          case isTrue found => rw [if_neg fun same => different (found.trans same.symm)]
          case isFalse => rfl

private theorem mem_keys_insertSorted {name other : String} {value : α}
    {entries : List (String × α)}
    (member : other ∈ Keyed.keys (insertSorted name value entries)) :
    other = name ∨ other ∈ Keyed.keys entries := by
  rw [← Keyed.contains_iff_mem_keys, Keyed.contains, find?_insertSorted] at member
  by_cases same : name = other
  · exact Or.inl same.symm
  · rw [if_neg same] at member
    exact Or.inr ((Keyed.contains_iff_mem_keys other entries).mp member)

/-- Each name comes before those behind it. -/
def Ascending (entries : List (String × α)) : Prop :=
  (Keyed.keys entries).Pairwise (· < ·)

theorem Ascending.find?_eq_none {entry : String × α} {entries : List (String × α)}
    (ascending : Ascending (entry :: entries)) {name : String} (early : name ≤ entry.1) :
    Keyed.find? name entries = none := by
  refine Keyed.find?_eq_none_iff.mpr fun later => ?_
  exact absurd ((List.pairwise_cons.mp ascending).1 name later) (not_lt.mpr early)

private theorem Ascending.insertSorted {entries : List (String × α)} (ascending : Ascending entries)
    (name : String) (value : α) : Ascending (insertSorted name value entries) := by
  induction entries with
  | nil => exact List.pairwise_singleton _ _
  | cons entry rest ih =>
      obtain ⟨present, former⟩ := entry
      obtain ⟨first, later⟩ := List.pairwise_cons.mp ascending
      unfold FormatRegistry.insertSorted
      split
      case isTrue early =>
        refine List.pairwise_cons.mpr ⟨fun other member => ?_, ascending⟩
        rcases List.mem_cons.mp member with rfl | behind
        · exact early
        · exact lt_trans early (first other behind)
      case isFalse notEarly =>
        split
        case isTrue same =>
          subst same
          exact ascending
        case isFalse different =>
          refine List.pairwise_cons.mpr ⟨fun other member => ?_, ih later⟩
          rcases mem_keys_insertSorted member with rfl | behind
          · exact lt_of_le_of_ne (not_lt.mp notEarly) different
          · exact first other behind

private theorem Ascending.ext {left right : List (String × α)} (leftAscending : Ascending left)
    (rightAscending : Ascending right)
    (same : ∀ name, Keyed.find? name left = Keyed.find? name right) : left = right := by
  induction left generalizing right with
  | nil =>
      cases right with
      | nil => rfl
      | cons entry rest =>
          have found := same entry.1
          rw [Keyed.find?, Keyed.find?, if_pos rfl] at found
          contradiction
  | cons entry rest ih =>
      cases right with
      | nil =>
          have found := same entry.1
          rw [Keyed.find?, Keyed.find?, if_pos rfl] at found
          contradiction
      | cons other others =>
          have sameName : entry.1 = other.1 := by
            rcases lt_trichotomy entry.1 other.1 with early | equal | late
            · have found := same entry.1
              rw [Keyed.find?, Keyed.find?, if_pos rfl, if_neg early.ne',
                rightAscending.find?_eq_none early.le] at found
              contradiction
            · exact equal
            · have found := same other.1
              rw [Keyed.find?, Keyed.find?, if_pos rfl, if_neg late.ne',
                leftAscending.find?_eq_none late.le] at found
              contradiction
          have sameValue : entry.2 = other.2 := by
            have found := same entry.1
            rw [Keyed.find?, Keyed.find?, if_pos rfl, if_pos sameName.symm] at found
            exact Option.some.inj found
          have sameRest : rest = others := by
            refine ih (List.pairwise_cons.mp leftAscending).2
              (List.pairwise_cons.mp rightAscending).2 fun name => ?_
            by_cases first : entry.1 = name
            · rw [leftAscending.find?_eq_none first.ge,
                rightAscending.find?_eq_none (sameName ▸ first.ge)]
            · have found := same name
              rwa [Keyed.find?, Keyed.find?, if_neg first, if_neg (sameName ▸ first)] at found
          rw [sameRest, Prod.ext sameName sameValue]

/-! ### Formats of one kind -/

def lay (entries present : List (String × α)) : List (String × α) :=
  entries.foldl (fun layered entry => FormatRegistry.insertSorted entry.1 entry.2 layered) present

private theorem Ascending.lay {present : List (String × α)} (ascending : Ascending present)
    (entries : List (String × α)) : Ascending (lay entries present) := by
  induction entries generalizing present with
  | nil => exact ascending
  | cons entry rest ih => exact ih (ascending.insertSorted entry.1 entry.2)

private theorem isSome_find?_lay {present : List (String × α)} {name : String}
    (found : (Keyed.find? name present).isSome = true) (entries : List (String × α)) :
    (Keyed.find? name (lay entries present)).isSome = true := by
  induction entries generalizing present with
  | nil => exact found
  | cons entry rest ih =>
      refine ih ?_
      rw [find?_insertSorted]
      split
      · rfl
      · exact found

theorem find?_lay {entries : List (String × α)} (ascending : Ascending entries)
    (present : List (String × α)) (name : String) :
    Keyed.find? name (lay entries present) =
      (Keyed.find? name entries).or (Keyed.find? name present) := by
  induction entries generalizing present with
  | nil => rfl
  | cons entry rest ih =>
      change Keyed.find? name (lay rest (insertSorted entry.1 entry.2 present)) = _
      rw [ih (List.pairwise_cons.mp ascending).2, find?_insertSorted, Keyed.find?]
      by_cases same : entry.1 = name
      · rw [ascending.find?_eq_none same.ge, if_pos same, if_pos same, Option.none_or,
          Option.some_or]
      · rw [if_neg same, if_neg same]

private theorem lay_eq_self {entries present : List (String × α)} (ascending : Ascending entries)
    (presentAscending : Ascending present)
    (covered : ∀ name, (Keyed.find? name present).isSome = true →
      (Keyed.find? name entries).isSome = true) : lay entries present = entries := by
  refine (presentAscending.lay entries).ext ascending fun name => ?_
  rw [find?_lay ascending]
  cases found : Keyed.find? name entries with
  | some value => rfl
  | none =>
      rw [Option.none_or, ← Option.not_isSome_iff_eq_none]
      intro there
      have covers := covered name there
      rw [found] at covers
      contradiction

/-! ### Registries -/

structure Ordered (registry : FormatRegistry) : Prop where
  kinds : Ascending registry.kinds
  formats : ∀ kind formats, Keyed.find? kind registry.kinds = some formats → Ascending formats

def Covers (registry base : FormatRegistry) : Prop :=
  ∀ kind present, Keyed.find? kind base.kinds = some present →
    ∃ formats, Keyed.find? kind registry.kinds = some formats ∧
      ∀ name, (Keyed.find? name present).isSome = true → (Keyed.find? name formats).isSome = true

variable {registry base : FormatRegistry}

theorem find?_layerKind (registry : FormatRegistry) (kind other : String)
    (formats : List (String × FormatEntry)) :
    Keyed.find? other (registry.layerKind kind formats).kinds =
      if kind = other then some (lay formats ((Keyed.find? kind registry.kinds).getD []))
      else Keyed.find? other registry.kinds :=
  find?_insertSorted ..

private theorem Ordered.present (ordered : registry.Ordered) (kind : String) :
    Ascending ((Keyed.find? kind registry.kinds).getD []) := by
  cases found : Keyed.find? kind registry.kinds with
  | none => exact List.Pairwise.nil
  | some formats => exact ordered.formats kind formats found

private theorem Ordered.layerKind (ordered : registry.Ordered) (kind : String)
    (formats : List (String × FormatEntry)) : (registry.layerKind kind formats).Ordered := by
  refine ⟨ordered.kinds.insertSorted _ _, fun other found within => ?_⟩
  rw [find?_layerKind] at within
  split at within
  · obtain rfl := Option.some.inj within
    exact (ordered.present kind).lay formats
  · exact ordered.formats other found within

private theorem Covers.refl (base : FormatRegistry) : base.Covers base :=
  fun _ present found => ⟨present, found, fun _ there => there⟩

private theorem Covers.layerKind (covers : registry.Covers base) (kind : String)
    (formats : List (String × FormatEntry)) : (registry.layerKind kind formats).Covers base := by
  intro other present found
  obtain ⟨own, there, names⟩ := covers other present found
  rw [find?_layerKind]
  by_cases same : kind = other
  · subst same
    rw [if_pos rfl, there]
    exact ⟨_, rfl, fun name inPresent => isSome_find?_lay (names name inPresent) formats⟩
  · rw [if_neg same]
    exact ⟨own, there, names⟩

private theorem ordered_layer (ordered : registry.Ordered) (covers : registry.Covers base)
    (kinds : List (String × List (String × FormatEntry))) :
    (registry.layer kinds).Ordered ∧ (registry.layer kinds).Covers base := by
  induction kinds generalizing registry with
  | nil => exact ⟨ordered, covers⟩
  | cons kind rest ih =>
      exact ih (ordered.layerKind kind.1 kind.2) (covers.layerKind kind.1 kind.2)

theorem find?_layer {kinds : List (String × List (String × FormatEntry))}
    (ascending : Ascending kinds) (base : FormatRegistry) (kind : String) :
    Keyed.find? kind (base.layer kinds).kinds =
      ((Keyed.find? kind kinds).map fun formats =>
        lay formats ((Keyed.find? kind base.kinds).getD [])).or (Keyed.find? kind base.kinds) := by
  induction kinds generalizing base with
  | nil => rfl
  | cons first rest ih =>
      change Keyed.find? kind ((base.layerKind first.1 first.2).layer rest).kinds = _
      rw [ih (List.pairwise_cons.mp ascending).2, find?_layerKind, Keyed.find?]
      by_cases same : first.1 = kind
      · subst same
        rw [ascending.find?_eq_none (le_refl _), if_pos rfl, if_pos rfl]
        rfl
      · rw [if_neg same, if_neg same]

/-- A registry that has everything of a base is not changed by putting it over the base. -/
theorem layer_eq_self (baseOrdered : base.Ordered) (ordered : registry.Ordered)
    (covers : registry.Covers base) : base.layer registry.kinds = registry := by
  have same : (base.layer registry.kinds).kinds = registry.kinds := by
    refine (ordered_layer baseOrdered (.refl base) _).1.kinds.ext ordered.kinds fun kind => ?_
    rw [find?_layer ordered.kinds]
    cases found : Keyed.find? kind registry.kinds with
    | none =>
        cases present : Keyed.find? kind base.kinds with
        | none => rfl
        | some formats =>
            obtain ⟨own, there, -⟩ := covers kind formats present
            rw [found] at there
            contradiction
    | some formats =>
        rw [Option.map_some, Option.some_or]
        refine congrArg some (lay_eq_self (ordered.formats kind formats found)
          (baseOrdered.present kind) fun name there => ?_)
        cases present : Keyed.find? kind base.kinds with
        | none =>
            rw [present] at there
            contradiction
        | some listed =>
            rw [present] at there
            obtain ⟨own, inOwn, names⟩ := covers kind listed present
            obtain rfl := Option.some.inj (found.symm.trans inOwn)
            exact names name there
  exact congrArg FormatRegistry.mk same

theorem builtIn_ordered : builtIn.Ordered := by
  refine ⟨List.pairwise_singleton _ _, fun kind formats found => ?_⟩
  rw [builtIn, Keyed.find?] at found
  split at found
  · obtain rfl := Option.some.inj found
    unfold Ascending
    decide
  · contradiction

theorem layer_builtIn_again (kinds : List (String × List (String × FormatEntry))) :
    builtIn.layer (builtIn.layer kinds).kinds = builtIn.layer kinds := by
  obtain ⟨ordered, covers⟩ := ordered_layer builtIn_ordered (.refl builtIn) kinds
  exact layer_eq_self builtIn_ordered ordered covers

end ElmClient.FormatRegistry
