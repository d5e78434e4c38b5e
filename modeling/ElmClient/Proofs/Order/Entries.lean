/-
Maps listed in another order. A map holds a key once, so what is found under a key,
how many entries there are and how they are sorted by their keys does not depend on
the order in which they are listed.
-/

import ElmClient.Json.Basic
import ElmClient.Proofs.Keyed
import ElmClient.Proofs.Text.Case
import ElmClient.Media
import Mathlib.Data.List.Forall2
import Mathlib.Data.String.Basic

namespace ElmClient

/-! ### Sorting -/

namespace Sorted

variable {α κ : Type}

/-- Sorting by a total order of the keys that tells the items apart depends only on
which items there are. -/
theorem sortBy_eq_of_perm {before : κ → κ → Bool} {key : α → κ}
    (total : ∀ first second, before first second = false ∨ before second first = false)
    (trans : ∀ first second third, before second first = false →
      before third second = false → before third first = false)
    {left right : List α} (same : left.Perm right)
    (apart : ∀ first ∈ left, ∀ second ∈ left, before (key first) (key second) = false →
      before (key second) (key first) = false → first = second) :
    sortBy before key left = sortBy before key right := by
  have ordered : ∀ items : List α,
      (sortBy before key items).Pairwise
        fun first second => (!before (key second) (key first)) = true := by
    intro items
    apply List.pairwise_mergeSort
    · intro first second third low high
      rw [Bool.not_eq_true'] at low high ⊢
      exact trans _ _ _ low high
    · intro first second
      rcases total (key second) (key first) with low | high
      · rw [low]
        rfl
      · rw [high]
        exact Bool.or_true _
  have listed : (sortBy before key left).Perm (sortBy before key right) :=
    (List.mergeSort_perm _ _).trans (same.trans (List.mergeSort_perm _ _).symm)
  refine List.Perm.eq_of_pairwise ?_ (ordered left) (ordered right) listed
  intro first second inLeft inRight low high
  rw [Bool.not_eq_true'] at low high
  have firstMember : first ∈ left := List.mem_mergeSort.mp inLeft
  have secondMember : second ∈ left := same.mem_iff.mpr (List.mem_mergeSort.mp inRight)
  exact apart first firstMember second secondMember high low

end Sorted

/-! ### Maps -/

namespace Keyed

variable {α β κ : Type} [DecidableEq κ]

structure Reordered (left right : List (κ × α)) : Prop where
  perm : left.Perm right
  distinct : (keys left).Nodup

namespace Reordered

variable {left right : List (κ × α)}

omit [DecidableEq κ] in
theorem distinct_right (same : Reordered left right) : (keys right).Nodup :=
  (same.perm.map Prod.fst).nodup_iff.mp same.distinct

theorem find?_eq (same : Reordered left right) (key : κ) : find? key left = find? key right := by
  apply Option.ext
  intro value
  rw [find?_eq_some_iff same.distinct, find?_eq_some_iff same.distinct_right]
  exact same.perm.mem_iff

theorem contains_eq (same : Reordered left right) (key : κ) :
    contains key left = contains key right := by
  rw [contains, contains, same.find?_eq]

omit [DecidableEq κ] in
theorem length_eq (same : Reordered left right) : left.length = right.length :=
  same.perm.length_eq

end Reordered

def ReorderedBy (related : α → β → Prop) (left : List (κ × α)) (right : List (κ × β)) : Prop :=
  ∃ middle, Reordered left middle ∧
    List.Forall₂ (fun first second => first.1 = second.1 ∧ related first.2 second.2) middle right

end Keyed

namespace Sorted

variable {α β : Type}

theorem sortBy_text_reordered {left right : List (String × α)}
    (same : Keyed.Reordered left right) :
    sortBy (fun first second => decide (first < second)) Prod.fst left =
      sortBy (fun first second => decide (first < second)) Prod.fst right := by
  refine sortBy_eq_of_perm ?_ ?_ same.perm ?_
  · intro first second
    rcases String.le_total first second with low | high
    · exact Or.inr (decide_eq_false (String.not_lt.mpr low))
    · exact Or.inl (decide_eq_false (String.not_lt.mpr high))
  · intro first second third high low
    have highLe := String.not_lt.mp (of_decide_eq_false high)
    have lowLe := String.not_lt.mp (of_decide_eq_false low)
    exact decide_eq_false (String.not_lt.mpr (String.le_trans highLe lowLe))
  · intro first inLeft second alsoLeft high low
    have equal : first.1 = second.1 :=
      String.le_antisymm (String.not_lt.mp (of_decide_eq_false low))
        (String.not_lt.mp (of_decide_eq_false high))
    exact List.inj_on_of_nodup_map same.distinct inLeft alsoLeft equal

/-- Sorting looks at the keys only, so related entries stay side by side. -/
theorem forall₂_mergeSort {related : String × α → String × β → Prop}
    (keyed : ∀ first second, related first second → first.1 = second.1)
    {left : List (String × α)} {right : List (String × β)}
    (same : List.Forall₂ related left right) :
    List.Forall₂ related
      (left.mergeSort fun first second => decide (first.1 ≤ second.1))
      (right.mergeSort fun first second => decide (first.1 ≤ second.1)) := by
  obtain ⟨sameLength, paired⟩ := List.forall₂_iff_zip.mp same
  let pairs := left.zip right
  have lefts : pairs.map Prod.fst = left := List.map_fst_zip (Nat.le_of_eq sameLength)
  have rights : pairs.map Prod.snd = right := List.map_snd_zip (Nat.le_of_eq sameLength.symm)
  have keys : ∀ pair ∈ pairs, pair.1.1 = pair.2.1 := fun pair member =>
    keyed _ _ (paired member)
  let sorted := pairs.mergeSort fun first second => decide (first.1.1 ≤ second.1.1)
  have sortedLeft : sorted.map Prod.fst =
      left.mergeSort fun first second => decide (first.1 ≤ second.1) := by
    rw [← lefts]
    exact List.map_mergeSort fun _ _ _ _ => rfl
  have sortedRight : sorted.map Prod.snd =
      right.mergeSort fun first second => decide (first.1 ≤ second.1) := by
    rw [← rights]
    apply List.map_mergeSort
    intro first member second other
    rw [keys first member, keys second other]
  rw [← sortedLeft, ← sortedRight, List.forall₂_map_left_iff, List.forall₂_map_right_iff,
    List.forall₂_same]
  intro pair member
  exact paired (List.mem_mergeSort.mp member)

end Sorted

/-! ### Statuses -/

namespace Status

/-- The same responses in another order, no two of their statuses being alike when
the case of ASCII letters is ignored. -/
structure Reordered {α : Type} (left right : List (String × α)) : Prop where
  perm : left.Perm right
  distinct : (left.map fun entry => Text.lower entry.1).Nodup

private theorem not_before_iff (left right : String) :
    before left right = false ↔
      rank right < rank left ∨ rank left = rank right ∧ orderText right ≤ orderText left := by
  rw [before, Bool.or_eq_false_iff, Bool.and_eq_false_iff, decide_eq_false_iff_not,
    decide_eq_false_iff_not, String.not_lt, beq_eq_false_iff_ne]
  constructor
  · rintro ⟨notLess, different | low⟩
    · exact Or.inl (by omega)
    · rcases Nat.lt_or_eq_of_le (Nat.le_of_not_lt notLess) with less | equal
      · exact Or.inl less
      · exact Or.inr ⟨equal.symm, low⟩
  · rintro (less | ⟨equal, low⟩)
    · exact ⟨by omega, Or.inl (by omega)⟩
    · exact ⟨by omega, Or.inr low⟩

theorem lower_eq_of_alike {left right : String} (notBefore : before left right = false)
    (notBehind : before right left = false) : Text.lower left = Text.lower right := by
  have sameRank : rank left = rank right := by
    rcases (not_before_iff left right).mp notBefore with low | ⟨equal, _⟩
    · rcases (not_before_iff right left).mp notBehind with high | ⟨equal, _⟩
      · omega
      · exact equal.symm
    · exact equal
  have sameText : orderText left = orderText right := by
    rcases (not_before_iff left right).mp notBefore with low | ⟨_, low⟩
    · omega
    · rcases (not_before_iff right left).mp notBehind with high | ⟨_, high⟩
      · omega
      · exact String.le_antisymm high low
  rw [orderText, orderText, ← sameRank] at sameText
  split at sameText
  · exact Text.lower_eq_of_upper_eq sameText
  · rw [sameText]

theorem sort_reordered {α : Type} {left right : List (String × α)}
    (same : Reordered left right) : sort Prod.fst left = sort Prod.fst right := by
  refine Sorted.sortBy_eq_of_perm ?_ ?_ same.perm ?_
  · intro first second
    rw [not_before_iff, not_before_iff]
    rcases Nat.lt_trichotomy (rank first) (rank second) with less | equal | greater
    · exact Or.inr (Or.inl less)
    · rcases String.le_total (orderText first) (orderText second) with low | high
      · exact Or.inr (Or.inr ⟨equal.symm, low⟩)
      · exact Or.inl (Or.inr ⟨equal, high⟩)
    · exact Or.inl (Or.inl greater)
  · intro first second third
    rw [not_before_iff, not_before_iff, not_before_iff]
    rintro (greater | ⟨equal, high⟩) (further | ⟨same, higher⟩)
    · exact Or.inl (by omega)
    · exact Or.inl (by omega)
    · exact Or.inl (by omega)
    · exact Or.inr ⟨by omega, String.le_trans high higher⟩
  · intro first inLeft second alsoLeft notBefore notBehind
    exact List.inj_on_of_nodup_map same.distinct inLeft alsoLeft
      (lower_eq_of_alike notBefore notBehind)

end Status

end ElmClient
