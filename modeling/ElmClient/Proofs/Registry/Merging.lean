/-
Merging registries. Entries are sorted by what identifies them, so merging looks every entry
of the other side up and adds it if nothing is there. The unions of the other side are taken
in the order of their names, up to the first that differs from the one stored under its name.
-/

import ElmClient.Proofs.Registry.History
import Mathlib.Data.List.Find
import Mathlib.Data.List.TakeWhile

namespace ElmClient

/-! ### Entries sorted by a key -/

namespace Sorted

theorem takeWhile_congr {α : Type} {test other : α → Bool} {items : List α}
    (alike : ∀ item ∈ items, test item = other item) :
    items.takeWhile test = items.takeWhile other := by
  induction items with
  | nil => rfl
  | cons item rest ih =>
      obtain ⟨first, later⟩ := List.forall_mem_cons.mp alike
      rw [List.takeWhile_cons, List.takeWhile_cons, first, ih later]

section Keys

variable {α κ : Type} [LinearOrder κ] {key : α → κ} {before : α → α → Bool}

def Ascending (key : α → κ) (entries : List α) : Prop :=
  entries.Pairwise fun left right => key left < key right

private theorem Ascending.nodup {entries : List α} (ascending : Ascending key entries) :
    (entries.map key).Nodup := by
  apply List.Nodup.of_map id
  simp only [List.map_id]
  exact List.pairwise_map.mpr (ascending.imp fun low => ne_of_lt low)

theorem Ascending.keys_eq {left right : List α} (leftAscending : Ascending key left)
    (rightAscending : Ascending key right)
    (alike : ∀ wanted, wanted ∈ left.map key ↔ wanted ∈ right.map key) :
    left.map key = right.map key := by
  have listed : (left.map key).Perm (right.map key) := by
    rw [List.perm_ext_iff_of_nodup leftAscending.nodup rightAscending.nodup]
    exact alike
  apply listed.eq_of_pairwise _ (List.pairwise_map.mpr leftAscending)
    (List.pairwise_map.mpr rightAscending)
  intro first second _ _ low high
  exact absurd (lt_trans low high) (lt_irrefl first)

omit [LinearOrder κ] in
private theorem forall₂_of_keys_eq {related : α → α → Prop} {left right : List α}
    (keys : left.map key = right.map key)
    (alike : ∀ one ∈ left, ∀ other ∈ right, key one = key other → related one other) :
    List.Forall₂ related left right := by
  induction left generalizing right with
  | nil =>
      obtain rfl : right = [] := List.map_eq_nil_iff.mp keys.symm
      exact .nil
  | cons first rest ih =>
      obtain ⟨second, others, rfl, sameKey, tail⟩ := List.map_eq_cons_iff.mp keys.symm
      apply List.Forall₂.cons
      · exact alike first List.mem_cons_self second List.mem_cons_self sameKey.symm
      · apply ih tail.symm
        intro one oneLater other otherLater
        exact alike one (List.mem_cons_of_mem _ oneLater) other (List.mem_cons_of_mem _ otherLater)

variable (orders : ∀ left right, before left right = true ↔ key left < key right)

include orders

private theorem ascending_insert {entries : List α} (ascending : Ascending key entries)
    (entry : α) :
    Ascending key (insert before entry entries) := by
  have sorted : (insert before entry entries).Pairwise fun left right =>
      before left right = true := by
    apply insert_pairwise
    · intro first second third
      rw [orders, orders, orders]
      exact lt_trans
    · exact ascending.imp fun low => (orders _ _).mpr low
  exact sorted.imp fun low => (orders _ _).mp low

private theorem ascending_insertAll {entries : List α} (ascending : Ascending key entries)
    (others : List α) : Ascending key (insertAll before others entries) := by
  induction others generalizing entries with
  | nil => exact ascending
  | cons entry rest ih => exact ih (ascending_insert orders ascending entry)

omit orders [LinearOrder κ] in
private theorem mem_of_mem_insertAll {other : α} {others entries : List α}
    (member : other ∈ insertAll before others entries) : other ∈ others ∨ other ∈ entries := by
  induction others generalizing entries with
  | nil => exact Or.inr member
  | cons entry rest ih =>
      rcases ih member with later | inserted
      · exact Or.inl (List.mem_cons_of_mem _ later)
      · rcases mem_of_mem_insert inserted with rfl | present
        · exact Or.inl List.mem_cons_self
        · exact Or.inr present

theorem insert_present {entry present : α} {entries : List α}
    (ascending : Ascending key entries) (member : present ∈ entries)
    (sameKey : key present = key entry) : insert before entry entries = entries := by
  induction entries with
  | nil => exact absurd member List.not_mem_nil
  | cons head tail ih =>
      obtain ⟨headFirst, tailAscending⟩ := List.pairwise_cons.mp ascending
      rw [insert]
      rcases List.mem_cons.mp member with rfl | inTail
      · simp [orders, sameKey]
      · have low : key head < key entry := sameKey ▸ headFirst present inTail
        have notBefore : ¬ before entry head = true := by
          rw [orders]
          exact low.asymm
        rw [if_neg notBefore, if_pos ((orders _ _).mpr low), ih tailAscending inTail]

theorem insertAll_present {entries others : List α} (ascending : Ascending key entries)
    (present : ∀ entry ∈ others, ∃ stored ∈ entries, key stored = key entry) :
    insertAll before others entries = entries := by
  induction others with
  | nil => rfl
  | cons entry rest ih =>
      obtain ⟨⟨stored, member, sameKey⟩, later⟩ := List.forall_mem_cons.mp present
      rw [insertAll, List.foldl_cons, insert_present orders ascending member sameKey]
      exact ih later

variable {wanted : κ} {selects : α → Bool}

theorem find?_insert (selected : ∀ entry, selects entry = true ↔ key entry = wanted)
    {entries : List α} (ascending : Ascending key entries) (entry : α) :
    (insert before entry entries).find? selects =
      (entries.find? selects).or ([entry].find? selects) := by
  induction entries with
  | nil => simp [insert]
  | cons head tail ih =>
      obtain ⟨headFirst, tailAscending⟩ := List.pairwise_cons.mp ascending
      rw [insert]
      split
      case isTrue low =>
        rw [orders] at low
        by_cases chosen : key entry = wanted
        · have nowhere : (head :: tail).find? selects = none := by
            rw [List.find?_eq_none]
            intro other member
            rw [selected, ← chosen]
            rcases List.mem_cons.mp member with rfl | inTail
            · exact low.ne'
            · exact (low.trans (headFirst other inTail)).ne'
          rw [nowhere, Option.none_or, List.find?_cons_of_pos ((selected entry).mpr chosen),
            List.find?_cons_of_pos ((selected entry).mpr chosen)]
        · have skipped : ¬ selects entry = true := mt (selected entry).mp chosen
          rw [List.find?_cons_of_neg skipped, List.find?_cons_of_neg skipped, List.find?_nil,
            Option.or_none]
      case isFalse notBefore =>
        split
        case isTrue low =>
          rw [List.find?_cons, List.find?_cons, ih tailAscending]
          cases selects head <;> rfl
        case isFalse notBehind =>
          rw [orders] at notBefore notBehind
          have sameKey : key head = key entry :=
            le_antisymm (not_lt.mp notBefore) (not_lt.mp notBehind)
          by_cases chosen : key entry = wanted
          · have atHead : selects head = true := (selected head).mpr (sameKey.trans chosen)
            rw [List.find?_cons_of_pos atHead, Option.some_or]
          · have skipped : ¬ selects entry = true := mt (selected entry).mp chosen
            rw [List.find?_cons_of_neg skipped, List.find?_nil, Option.or_none]

theorem find?_insertAll (selected : ∀ entry, selects entry = true ↔ key entry = wanted)
    {entries : List α} (ascending : Ascending key entries) (others : List α) :
    (insertAll before others entries).find? selects =
      (entries.find? selects).or (others.find? selects) := by
  induction others generalizing entries with
  | nil => simp [insertAll]
  | cons entry rest ih =>
      have further := ih (ascending_insert orders ascending entry)
      rw [find?_insert orders selected ascending, Option.or_assoc, ← List.find?_append,
        List.singleton_append] at further
      exact further

private theorem mem_keys_insertAll {entries : List α} (ascending : Ascending key entries)
    (others : List α) :
    wanted ∈ (insertAll before others entries).map key ↔
      wanted ∈ entries.map key ∨ wanted ∈ others.map key := by
  have selected : ∀ entry, decide (key entry = wanted) = true ↔ key entry = wanted :=
    fun _ => decide_eq_true_iff
  have found := congrArg Option.isSome (find?_insertAll orders selected ascending others)
  rw [Option.isSome_or, Bool.eq_iff_iff, Bool.or_eq_true, List.find?_isSome, List.find?_isSome,
    List.find?_isSome] at found
  simpa using found

end Keys

end Sorted

/-! ### Merged enums -/

namespace EnumEntry

variable {entries others : List EnumEntry}

theorem before_iff (left right : EnumEntry) :
    before left right = true ↔ left.values < right.values :=
  decide_eq_true_iff

theorem find?_insertAll (ascending : Sorted.Ascending values entries) (wanted : List String) :
    find? wanted (Sorted.insertAll before others entries) =
      (find? wanted entries).or (find? wanted others) := by
  simp only [find?_eq]
  exact Sorted.find?_insertAll before_iff (fun _ => decide_eq_true_iff) ascending others

end EnumEntry

/-! ### Merged unions -/

namespace UnionEntry

def key (entry : UnionEntry) : String :=
  entry.union.name.text

variable {entries others : List UnionEntry}

theorem before_iff (left right : UnionEntry) : before left right = true ↔ left.key < right.key :=
  decide_eq_true_iff

theorem key_eq_iff {left right : UnionEntry} :
    left.key = right.key ↔ left.union.name = right.union.name := by
  rw [key, key, TypeName.mk.injEq]

theorem find?_insertAll (ascending : Sorted.Ascending key entries) (name : TypeName) :
    find? name (Sorted.insertAll before others entries) =
      (find? name entries).or (find? name others) := by
  simp only [find?_eq]
  apply Sorted.find?_insertAll before_iff _ ascending others
  · exact name.text
  · intro entry
    rw [decide_eq_true_iff, key, TypeName.mk.injEq]

theorem names_nodup (ascending : Sorted.Ascending key entries) :
    (entries.map fun entry => entry.union.name).Nodup := by
  have keys := ascending.nodup
  rw [show key = TypeName.text ∘ fun entry => entry.union.name from rfl, ← List.map_map] at keys
  exact keys.of_map

theorem clashes_insert {entry : UnionEntry} {union : Union}
    (ascending : Sorted.Ascending key entries) (other : entry.union.name ≠ union.name) :
    clashes (Sorted.insert before entry entries) union = clashes entries union := by
  have found : find? union.name (Sorted.insertAll before [entry] entries) =
      (find? union.name entries).or (find? union.name [entry]) := find?_insertAll ascending _
  rw [Sorted.insertAll, List.foldl_cons, List.foldl_nil, find?, if_neg other, find?,
    Option.or_none] at found
  rw [clashes, clashes, found]

end UnionEntry

namespace Registry

section Unions

variable {present others : List UnionEntry}

/-- The unions that are taken over, up to the first that clashes. -/
def takenOver (present others : List UnionEntry) : List UnionEntry :=
  others.takeWhile fun entry => !UnionEntry.clashes present entry.union

def firstClash? (present others : List UnionEntry) : Option UnionEntry :=
  others.find? fun entry => UnionEntry.clashes present entry.union

private theorem alike_of_clashes {other : List UnionEntry}
    (alike : ∀ entry ∈ others, UnionEntry.clashes present entry.union =
      UnionEntry.clashes other entry.union) :
    takenOver present others = takenOver other others ∧
      firstClash? present others = firstClash? other others := by
  constructor
  · apply Sorted.takeWhile_congr
    intro entry member
    rw [alike entry member]
  · exact List.find?_congr alike

theorem mergeUnions_clash {entry : UnionEntry} {rest : List UnionEntry}
    (clash : UnionEntry.clashes present entry.union = true) :
    mergeUnions present (entry :: rest) = (present, some entry.union.name) := by
  rw [mergeUnions]
  unfold UnionEntry.clashes at clash
  split at clash
  case h_1 stored found =>
    rw [found]
    simp only [Bool.not_eq_true'] at clash
    simp [clash, (UnionEntry.of_find? found).2]
  case h_2 => contradiction

theorem mergeUnions_accepted {entry : UnionEntry} {rest : List UnionEntry}
    (ascending : Sorted.Ascending UnionEntry.key present)
    (accepted : UnionEntry.clashes present entry.union = false) :
    mergeUnions present (entry :: rest) =
      mergeUnions (Sorted.insert UnionEntry.before entry present) rest := by
  rw [mergeUnions]
  unfold UnionEntry.clashes at accepted
  cases found : UnionEntry.find? entry.union.name present with
  | none => rfl
  | some stored =>
      obtain ⟨member, sameName⟩ := UnionEntry.of_find? found
      rw [found] at accepted
      have same : stored.union.same entry.union = true := by simpa using accepted
      rw [Sorted.insert_present UnionEntry.before_iff ascending member
        (UnionEntry.key_eq_iff.mpr sameName)]
      exact if_pos same

theorem mergeUnions_eq (ascending : Sorted.Ascending UnionEntry.key present)
    (apart : Sorted.Ascending UnionEntry.key others) :
    mergeUnions present others =
      (Sorted.insertAll UnionEntry.before (takenOver present others) present,
        (firstClash? present others).map fun entry => entry.union.name) := by
  induction others generalizing present with
  | nil => rfl
  | cons entry rest ih =>
      obtain ⟨entryFirst, restApart⟩ := List.pairwise_cons.mp apart
      by_cases clash : UnionEntry.clashes present entry.union = true
      · rw [mergeUnions_clash clash]
        simp [takenOver, firstClash?, clash, Sorted.insertAll]
      · rw [Bool.not_eq_true] at clash
        -- The entry that is added has another name than all the entries behind.
        have unchanged : ∀ later ∈ rest, UnionEntry.clashes
            (Sorted.insert UnionEntry.before entry present) later.union =
              UnionEntry.clashes present later.union := by
          intro later member
          apply UnionEntry.clashes_insert ascending
          intro sameName
          exact (entryFirst later member).ne (UnionEntry.key_eq_iff.mpr sameName)
        obtain ⟨taken, first⟩ := alike_of_clashes unchanged
        rw [mergeUnions_accepted ascending clash,
          ih (Sorted.ascending_insert UnionEntry.before_iff ascending entry) restApart,
          taken, first]
        simp [takenOver, firstClash?, clash, Sorted.insertAll]

end Unions

/-! ### Registries that are reached -/

/-- Entries are sorted by what identifies them, and every union equals itself. -/
structure Ordered (registry : Registry) : Prop where
  enums : Sorted.Ascending EnumEntry.values registry.enums
  unions : Sorted.Ascending UnionEntry.key registry.unions
  comparable : ∀ entry ∈ registry.unions, entry.union.Comparable

/-- A registry that registering, and merging what was registered elsewhere, lead to. -/
inductive Reachable : Registry → Prop where
  | empty : Reachable empty
  | enum {registry : Registry} (reached : Reachable registry) (texts : List String)
      (name : TypeName) (owner : Option TypeName) :
      Reachable (registry.registerEnum (enumEntry texts name owner)).2
  | union {registry : Registry} (reached : Reachable registry) {union : Union}
      (comparable : union.Comparable) (owner : Option TypeName) :
      Reachable (registry.registerUnion union owner).2
  | merged {left right : Registry} (leftReached : Reachable left)
      (rightReached : Reachable right) : Reachable (left.merge right).1

section Reached

variable {registry left right : Registry}

private theorem Ordered.distinct (ordered : registry.Ordered) : registry.Distinct :=
  ⟨ordered.enums.nodup, UnionEntry.names_nodup ordered.unions⟩

theorem registerEnum_ordered (ordered : registry.Ordered) (entry : EnumEntry) :
    (registry.registerEnum entry).2.Ordered := by
  unfold registerEnum
  split
  · exact ordered
  · exact ⟨Sorted.ascending_insert EnumEntry.before_iff ordered.enums entry, ordered.unions,
      ordered.comparable⟩

theorem registerUnion_ordered (ordered : registry.Ordered) {union : Union}
    (comparable : union.Comparable) (owner : Option TypeName) :
    (registry.registerUnion union owner).2.Ordered := by
  unfold registerUnion
  dsimp only
  split
  · exact ordered
  · refine ⟨ordered.enums, Sorted.ascending_insert UnionEntry.before_iff ordered.unions _, ?_⟩
    intro entry member
    rcases Sorted.mem_of_mem_insert member with rfl | present
    · exact placed_comparable comparable
    · exact ordered.comparable entry present

theorem merge_eq (leftOrdered : left.Ordered) (rightOrdered : right.Ordered) :
    left.merge right =
      (⟨Sorted.insertAll EnumEntry.before right.enums left.enums,
        Sorted.insertAll UnionEntry.before (takenOver left.unions right.unions) left.unions⟩,
      (firstClash? left.unions right.unions).map fun entry => entry.union.name) := by
  rw [merge, mergeUnions_eq leftOrdered.unions rightOrdered.unions]

theorem merge_ordered (leftOrdered : left.Ordered) (rightOrdered : right.Ordered) :
    (left.merge right).1.Ordered := by
  rw [merge_eq leftOrdered rightOrdered]
  refine ⟨Sorted.ascending_insertAll EnumEntry.before_iff leftOrdered.enums _,
    Sorted.ascending_insertAll UnionEntry.before_iff leftOrdered.unions _, ?_⟩
  intro entry member
  rcases Sorted.mem_of_mem_insertAll member with taken | present
  · exact rightOrdered.comparable entry ((List.takeWhile_prefix _).subset taken)
  · exact leftOrdered.comparable entry present

private theorem Reachable.ordered (reached : registry.Reachable) : registry.Ordered := by
  induction reached with
  | empty => exact ⟨List.Pairwise.nil, List.Pairwise.nil, by simp [Registry.empty]⟩
  | enum _ texts name owner ih => exact registerEnum_ordered ih _
  | union _ comparable owner ih => exact registerUnion_ordered ih comparable owner
  | merged _ _ leftIh rightIh => exact merge_ordered leftIh rightIh

end Reached

/-! ### Contested names -/

/-- The name has different unions on the two sides. -/
def Contested (left right : Registry) (name : TypeName) : Prop :=
  ∃ mine ∈ left.unions, ∃ theirs ∈ right.unions,
    mine.union.name = name ∧ theirs.union.name = name ∧ mine.union.same theirs.union = false

section Contested

variable {left right : Registry} {name : TypeName}

private theorem Contested.symm (rightOrdered : right.Ordered)
    (contested : Contested left right name) :
    Contested right left name := by
  obtain ⟨mine, mineStored, theirs, theirsStored, mineName, theirsName, differ⟩ := contested
  refine ⟨theirs, theirsStored, mine, mineStored, theirsName, mineName, ?_⟩
  by_contra same
  rw [Bool.not_eq_false] at same
  have comparable := rightOrdered.comparable theirs theirsStored
  have turned := Union.same_of_common comparable same (Union.same_self theirs.union comparable)
  rw [turned] at differ
  contradiction

private theorem contested_comm (leftOrdered : left.Ordered) (rightOrdered : right.Ordered) :
    Contested left right name ↔ Contested right left name :=
  ⟨Contested.symm rightOrdered, Contested.symm leftOrdered⟩

theorem clashes_iff_contested (leftOrdered : left.Ordered) (rightOrdered : right.Ordered)
    {entry : UnionEntry} (stored : entry ∈ right.unions) :
    UnionEntry.clashes left.unions entry.union = true ↔
      Contested left right entry.union.name := by
  unfold UnionEntry.clashes
  constructor
  · intro clash
    split at clash
    case h_1 mine found =>
      obtain ⟨mineStored, sameName⟩ := UnionEntry.of_find? found
      exact ⟨mine, mineStored, entry, stored, sameName, rfl, by simpa using clash⟩
    case h_2 => contradiction
  · rintro ⟨mine, mineStored, theirs, theirsStored, mineName, theirsName, differ⟩
    have itself : theirs = entry :=
      List.inj_on_of_nodup_map rightOrdered.distinct.unions theirsStored stored theirsName
    subst itself
    have found := UnionEntry.find?_of_mem leftOrdered.distinct.unions mineStored
    rw [mineName] at found
    rw [found]
    simp [differ]

private theorem conflict_iff (leftOrdered : left.Ordered) (rightOrdered : right.Ordered) :
    (left.merge right).2 = some name ↔
      Contested left right name ∧ ∀ other, Contested left right other → ¬ other < name := by
  have first : ∀ entry, firstClash? left.unions right.unions = some entry →
      Contested left right entry.union.name ∧
        ∀ other, Contested left right other → ¬ other < entry.union.name := by
    intro entry found
    obtain ⟨clash, earlier, behind, split, accepted⟩ :=
      List.find?_eq_some_iff_append.mp found
    have stored : entry ∈ right.unions := split ▸ List.mem_append_right _ List.mem_cons_self
    refine ⟨(clashes_iff_contested leftOrdered rightOrdered stored).mp clash, ?_⟩
    intro other contested
    obtain ⟨mine, mineStored, theirs, theirsStored, mineName, rfl, differ⟩ := contested
    have refused := (clashes_iff_contested leftOrdered rightOrdered theirsStored).mpr
      ⟨mine, mineStored, theirs, theirsStored, mineName, rfl, differ⟩
    have sorted := rightOrdered.unions
    rw [split] at theirsStored sorted
    rcases List.mem_append.mp theirsStored with before | later
    · have passed := accepted theirs before
      rw [refused] at passed
      contradiction
    · rcases List.mem_cons.mp later with rfl | further
      · exact lt_irrefl theirs.key
      · exact (List.rel_of_pairwise_cons (List.pairwise_append.mp sorted).2.1 further).asymm
  rw [merge_eq leftOrdered rightOrdered]
  constructor
  · intro stopped
    obtain ⟨entry, found, rfl⟩ := Option.map_eq_some_iff.mp stopped
    exact first entry found
  · rintro ⟨contested, lowest⟩
    obtain ⟨_, _, theirs, theirsStored, _, rfl, _⟩ := id contested
    have clash := (clashes_iff_contested leftOrdered rightOrdered theirsStored).mpr contested
    have some : (firstClash? left.unions right.unions).isSome = true :=
      List.find?_isSome.mpr ⟨theirs, theirsStored, clash⟩
    obtain ⟨entry, found⟩ := Option.isSome_iff_exists.mp some
    obtain ⟨entryContested, entryLowest⟩ := first entry found
    have sameText : entry.union.name.text = theirs.union.name.text :=
      le_antisymm (not_lt.mp (entryLowest _ contested)) (not_lt.mp (lowest _ entryContested))
    rw [found]
    exact congrArg Option.some (congrArg TypeName.mk sameText)

private theorem succeeds_iff (leftOrdered : left.Ordered) (rightOrdered : right.Ordered) :
    (left.merge right).2 = none ↔ ∀ name, ¬ Contested left right name := by
  rw [merge_eq leftOrdered rightOrdered, Option.map_eq_none_iff, firstClash?, List.find?_eq_none]
  constructor
  · intro accepted name contested
    obtain ⟨_, _, theirs, theirsStored, _, rfl, _⟩ := id contested
    exact accepted theirs theirsStored
      ((clashes_iff_contested leftOrdered rightOrdered theirsStored).mpr contested)
  · intro uncontested entry stored clash
    exact uncontested _ ((clashes_iff_contested leftOrdered rightOrdered stored).mp clash)

private theorem conflict_comm (leftOrdered : left.Ordered) (rightOrdered : right.Ordered) :
    (left.merge right).2 = (right.merge left).2 := by
  apply Option.ext
  intro name
  rw [conflict_iff leftOrdered rightOrdered, conflict_iff rightOrdered leftOrdered]
  simp only [contested_comm leftOrdered rightOrdered]

end Contested

/-! ### Merging exactly -/

/-- Without a conflict both sides are united, whichever is merged into the other. -/
structure Unites (left right : Registry) : Prop where
  enums : ∀ values, EnumEntry.find? values (left.merge right).1.enums =
    (EnumEntry.find? values left.enums).or (EnumEntry.find? values right.enums)
  unions : ∀ name, UnionEntry.find? name (left.merge right).1.unions =
    (UnionEntry.find? name left.unions).or (UnionEntry.find? name right.unions)
  sameEnums : (left.merge right).1.enums.map EnumEntry.values =
    (right.merge left).1.enums.map EnumEntry.values
  sameUnions : List.Forall₂ (fun one other => one.union.same other.union = true)
    (left.merge right).1.unions (right.merge left).1.unions
  again : (left.merge right).1.merge right = ((left.merge right).1, none)

/-- What becomes of two registries when the right one is merged into the left one. -/
structure MergesExactly (left right : Registry) : Prop where
  succeeds : (left.merge right).2 = none ↔ ∀ name, ¬ Contested left right name
  conflict : ∀ name, (left.merge right).2 = some name ↔
    Contested left right name ∧ ∀ other, Contested left right other → ¬ other < name
  turned : (left.merge right).2 = (right.merge left).2
  /-- Entries keep their names, owners and members, also if there is a conflict. -/
  kept : left.KeptIn (left.merge right).1
  united : (left.merge right).2 = none → Unites left right

section Merged

variable {left right : Registry}

theorem merge_keptIn (leftOrdered : left.Ordered) (rightOrdered : right.Ordered) :
    left.KeptIn (left.merge right).1 := by
  rw [merge_eq leftOrdered rightOrdered]
  constructor
  · intro values entry found
    rw [EnumEntry.find?_insertAll leftOrdered.enums, found, Option.some_or]
  · intro name entry found
    rw [UnionEntry.find?_insertAll leftOrdered.unions, found, Option.some_or]

theorem merge_of_succeeds (leftOrdered : left.Ordered) (rightOrdered : right.Ordered)
    (succeeded : (left.merge right).2 = none) :
    (left.merge right).1 =
      ⟨Sorted.insertAll EnumEntry.before right.enums left.enums,
        Sorted.insertAll UnionEntry.before right.unions left.unions⟩ := by
  have uncontested := (succeeds_iff leftOrdered rightOrdered).mp succeeded
  have all : takenOver left.unions right.unions = right.unions := by
    apply List.takeWhile_eq_self_iff.mpr
    intro entry stored
    rw [Bool.not_eq_true', ← Bool.not_eq_true,
      clashes_iff_contested leftOrdered rightOrdered stored]
    exact uncontested _
  rw [merge_eq leftOrdered rightOrdered, all]

theorem find?_union_merged (leftOrdered : left.Ordered) (rightOrdered : right.Ordered)
    (succeeded : (left.merge right).2 = none) (name : TypeName) :
    UnionEntry.find? name (left.merge right).1.unions =
      (UnionEntry.find? name left.unions).or (UnionEntry.find? name right.unions) := by
  rw [merge_of_succeeds leftOrdered rightOrdered succeeded]
  exact UnionEntry.find?_insertAll leftOrdered.unions name

theorem same_of_merged (leftOrdered : left.Ordered) (rightOrdered : right.Ordered)
    (succeeded : (left.merge right).2 = none) {one other : UnionEntry}
    (oneStored : one ∈ (left.merge right).1.unions)
    (otherStored : other ∈ (right.merge left).1.unions)
    (sameName : one.union.name = other.union.name) : one.union.same other.union = true := by
  have turned := succeeded
  rw [conflict_comm leftOrdered rightOrdered] at turned
  have oneFound := UnionEntry.find?_of_mem
    (merge_ordered leftOrdered rightOrdered).distinct.unions oneStored
  have otherFound := UnionEntry.find?_of_mem
    (merge_ordered rightOrdered leftOrdered).distinct.unions otherStored
  rw [find?_union_merged leftOrdered rightOrdered succeeded] at oneFound
  rw [find?_union_merged rightOrdered leftOrdered turned, ← sameName] at otherFound
  cases inLeft : UnionEntry.find? one.union.name left.unions with
  | none =>
      rw [inLeft, Option.none_or] at oneFound
      rw [inLeft, oneFound, Option.some_or] at otherFound
      cases otherFound
      exact Union.same_self _ (rightOrdered.comparable _ (UnionEntry.of_find? oneFound).1)
  | some mine =>
      rw [inLeft, Option.some_or] at oneFound
      cases oneFound
      obtain ⟨mineStored, -⟩ := UnionEntry.of_find? inLeft
      cases inRight : UnionEntry.find? one.union.name right.unions with
      | none =>
          rw [inRight, inLeft, Option.none_or] at otherFound
          cases otherFound
          exact Union.same_self _ (leftOrdered.comparable _ mineStored)
      | some theirs =>
          rw [inRight, Option.some_or] at otherFound
          cases otherFound
          obtain ⟨theirsStored, theirsName⟩ := UnionEntry.of_find? inRight
          by_contra differ
          rw [Bool.not_eq_true] at differ
          exact (succeeds_iff leftOrdered rightOrdered).mp succeeded one.union.name
            ⟨one, mineStored, other, theirsStored, rfl, theirsName, differ⟩

theorem merge_again (leftOrdered : left.Ordered) (rightOrdered : right.Ordered)
    (succeeded : (left.merge right).2 = none) :
    (left.merge right).1.merge right = ((left.merge right).1, none) := by
  have mergedOrdered := merge_ordered leftOrdered rightOrdered
  have uncontested : ((left.merge right).1.merge right).2 = none := by
    rw [succeeds_iff mergedOrdered rightOrdered]
    rintro name ⟨stored, member, theirs, theirsStored, rfl, theirsName, differ⟩
    have found := UnionEntry.find?_of_mem mergedOrdered.distinct.unions member
    rw [find?_union_merged leftOrdered rightOrdered succeeded] at found
    have theirsFound := UnionEntry.find?_of_mem rightOrdered.distinct.unions theirsStored
    rw [theirsName] at theirsFound
    cases inLeft : UnionEntry.find? stored.union.name left.unions with
    | none =>
        rw [inLeft, Option.none_or, theirsFound] at found
        cases found
        rw [Union.same_self _ (rightOrdered.comparable _ theirsStored)] at differ
        contradiction
    | some mine =>
        rw [inLeft, Option.some_or] at found
        cases found
        exact (succeeds_iff leftOrdered rightOrdered).mp succeeded _
          ⟨stored, (UnionEntry.of_find? inLeft).1, theirs, theirsStored, rfl, theirsName, differ⟩
  refine Prod.ext ?_ uncontested
  rw [merge_of_succeeds mergedOrdered rightOrdered uncontested]
  have enumsThere : ∀ entry ∈ right.enums, ∃ stored ∈ (left.merge right).1.enums,
      stored.values = entry.values := by
    rw [merge_of_succeeds leftOrdered rightOrdered succeeded]
    intro entry stored
    apply List.mem_map.mp
    rw [Sorted.mem_keys_insertAll EnumEntry.before_iff leftOrdered.enums]
    exact Or.inr (List.mem_map_of_mem stored)
  have unionsThere : ∀ entry ∈ right.unions, ∃ stored ∈ (left.merge right).1.unions,
      stored.key = entry.key := by
    rw [merge_of_succeeds leftOrdered rightOrdered succeeded]
    intro entry stored
    apply List.mem_map.mp
    rw [Sorted.mem_keys_insertAll UnionEntry.before_iff leftOrdered.unions]
    exact Or.inr (List.mem_map_of_mem stored)
  rw [Sorted.insertAll_present EnumEntry.before_iff mergedOrdered.enums enumsThere,
    Sorted.insertAll_present UnionEntry.before_iff mergedOrdered.unions unionsThere]

theorem merge_unites (leftOrdered : left.Ordered) (rightOrdered : right.Ordered)
    (succeeded : (left.merge right).2 = none) : Unites left right := by
  have turned := succeeded
  rw [conflict_comm leftOrdered rightOrdered] at turned
  have mergedOrdered := merge_ordered leftOrdered rightOrdered
  have otherOrdered := merge_ordered rightOrdered leftOrdered
  refine ⟨?_, find?_union_merged leftOrdered rightOrdered succeeded, ?_, ?_,
    merge_again leftOrdered rightOrdered succeeded⟩
  · intro values
    rw [merge_of_succeeds leftOrdered rightOrdered succeeded]
    exact EnumEntry.find?_insertAll leftOrdered.enums values
  · apply mergedOrdered.enums.keys_eq otherOrdered.enums
    rw [merge_of_succeeds leftOrdered rightOrdered succeeded,
      merge_of_succeeds rightOrdered leftOrdered turned]
    intro values
    rw [Sorted.mem_keys_insertAll EnumEntry.before_iff leftOrdered.enums,
      Sorted.mem_keys_insertAll EnumEntry.before_iff rightOrdered.enums, or_comm]
  · have names : (left.merge right).1.unions.map UnionEntry.key =
        (right.merge left).1.unions.map UnionEntry.key := by
      apply mergedOrdered.unions.keys_eq otherOrdered.unions
      rw [merge_of_succeeds leftOrdered rightOrdered succeeded,
        merge_of_succeeds rightOrdered leftOrdered turned]
      intro name
      rw [Sorted.mem_keys_insertAll UnionEntry.before_iff leftOrdered.unions,
        Sorted.mem_keys_insertAll UnionEntry.before_iff rightOrdered.unions, or_comm]
    apply Sorted.forall₂_of_keys_eq names
    intro one oneStored other otherStored sameKey
    exact same_of_merged leftOrdered rightOrdered succeeded oneStored otherStored
      (UnionEntry.key_eq_iff.mp sameKey)

/-- Registries can be merged into each other in either order, with the same result up to the
names of enums and the owners. -/
theorem merge_exact (leftReached : left.Reachable) (rightReached : right.Reachable) :
    MergesExactly left right where
  succeeds := succeeds_iff leftReached.ordered rightReached.ordered
  conflict _ := conflict_iff leftReached.ordered rightReached.ordered
  turned := conflict_comm leftReached.ordered rightReached.ordered
  kept := merge_keptIn leftReached.ordered rightReached.ordered
  united := merge_unites leftReached.ordered rightReached.ordered

end Merged

/-- One enum on both sides, and two unions of one name that differ. -/
theorem merge_exact_shapes :
    let shape (label : String) : Union := ⟨⟨"Shape"⟩, [⟨⟨label⟩, .unit, none⟩]⟩
    let left := ((empty.registerEnum (enumEntry ["x"] ⟨"Left"⟩ none)).2.registerUnion
      (shape "Shape_Circle") none).2
    let right := ((empty.registerEnum (enumEntry ["x"] ⟨"Right"⟩ none)).2.registerUnion
      (shape "Shape_Square") none).2
    MergesExactly left right ∧ (left.merge right).2 = some ⟨"Shape"⟩ := by
  intro shape left right
  have comparable : ∀ label, (shape label).Comparable := by
    intro label variant member inner within
    obtain rfl := List.mem_singleton.mp member
    obtain rfl := List.mem_singleton.mp within
    trivial
  refine ⟨merge_exact ?_ ?_, by decide⟩
  · exact .union (.enum .empty ["x"] ⟨"Left"⟩ none) (comparable _) none
  · exact .union (.enum .empty ["x"] ⟨"Right"⟩ none) (comparable _) none

end Registry

end ElmClient
