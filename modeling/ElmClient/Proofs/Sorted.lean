/-
Inserting into sorted lists. An item that is not there yet is added once, and the list
stays sorted. The sorted texts of two lists are the same if the lists hold the same texts.
-/

import ElmClient.Sorted
import Mathlib.Data.String.Basic

namespace ElmClient.Sorted

variable {α : Type} {before : α → α → Bool}

theorem mem_of_mem_insert {item other : α} {items : List α}
    (member : other ∈ insert before item items) : other = item ∨ other ∈ items := by
  induction items with
  | nil => exact Or.inl (List.mem_singleton.mp member)
  | cons head tail ih =>
      rw [insert] at member
      split at member
      · exact List.mem_cons.mp member
      · split at member
        · rcases List.mem_cons.mp member with rfl | later
          · exact Or.inr List.mem_cons_self
          · rcases ih later with equal | present
            · exact Or.inl equal
            · exact Or.inr (List.mem_cons_of_mem _ present)
        · exact Or.inr member

theorem insert_perm {item : α} {items : List α}
    (apart : ∀ present ∈ items, before item present = true ∨ before present item = true) :
    (insert before item items).Perm (item :: items) := by
  induction items with
  | nil => exact .refl _
  | cons head tail ih =>
      rw [insert]
      split
      · exact .refl _
      case isFalse notBefore =>
        have behind := (apart head List.mem_cons_self).resolve_left notBefore
        rw [if_pos behind]
        have rest := ih fun present member => apart present (List.mem_cons_of_mem _ member)
        exact (rest.cons head).trans (.swap item head tail)

theorem insert_pairwise
    (trans : ∀ first second third, before first second = true → before second third = true →
      before first third = true)
    {item : α} {items : List α}
    (sorted : items.Pairwise fun left right => before left right = true) :
    (insert before item items).Pairwise fun left right => before left right = true := by
  induction items with
  | nil => exact List.pairwise_singleton _ _
  | cons head tail ih =>
      obtain ⟨headFirst, tailSorted⟩ := List.pairwise_cons.mp sorted
      rw [insert]
      split
      case isTrue first =>
        refine List.pairwise_cons.mpr ⟨fun other member => ?_, sorted⟩
        rcases List.mem_cons.mp member with rfl | later
        · exact first
        · exact trans _ _ _ first (headFirst other later)
      case isFalse =>
        split
        case isTrue behind =>
          refine List.pairwise_cons.mpr ⟨fun other member => ?_, ih tailSorted⟩
          rcases mem_of_mem_insert member with rfl | present
          · exact behind
          · exact headFirst other present
        case isFalse => exact sorted

/-! ### Texts -/

theorem texts_sorted (items : List String) : (texts items).Pairwise (· < ·) := by
  have inserted : ∀ present : List String,
      (present.Pairwise fun left right => decide (left < right) = true) →
        (insertAll (fun left right => decide (left < right)) items present).Pairwise
          fun left right => decide (left < right) = true := by
    induction items with
    | nil => exact fun present sorted => sorted
    | cons item rest ih =>
        intro present sorted
        apply ih
        apply insert_pairwise _ sorted
        intro first second third low high
        exact decide_eq_true (String.lt_trans (of_decide_eq_true low) (of_decide_eq_true high))
  exact (inserted [] List.Pairwise.nil).imp fun low => of_decide_eq_true low

private theorem mem_insert_iff {item other : α} {items : List α}
    (trichotomy : ∀ present ∈ items,
      before item present = true ∨ before present item = true ∨ item = present) :
    other ∈ insert before item items ↔ other = item ∨ other ∈ items := by
  refine ⟨mem_of_mem_insert, ?_⟩
  induction items with
  | nil => simp [insert]
  | cons head tail ih =>
      obtain ⟨atHead, later⟩ := List.forall_mem_cons.mp trichotomy
      rw [insert]
      split
      case isTrue => exact List.mem_cons.mpr
      case isFalse notBefore =>
        split
        case isTrue behind =>
          rintro (rfl | member)
          · exact List.mem_cons_of_mem _ (ih later (Or.inl rfl))
          · rcases List.mem_cons.mp member with rfl | inTail
            · exact List.mem_cons_self
            · exact List.mem_cons_of_mem _ (ih later (Or.inr inTail))
        case isFalse notBehind =>
          obtain rfl := (atHead.resolve_left notBefore).resolve_left notBehind
          rintro (rfl | member)
          · exact List.mem_cons_self
          · exact member

theorem mem_texts_iff {text : String} {items : List String} :
    text ∈ texts items ↔ text ∈ items := by
  have inserted : ∀ present : List String,
      text ∈ insertAll (fun left right => decide (left < right)) items present ↔
        text ∈ items ∨ text ∈ present := by
    induction items with
    | nil => simp [insertAll]
    | cons item rest ih =>
        intro present
        have stepped := ih (insert (fun left right => decide (left < right)) item present)
        rw [mem_insert_iff] at stepped
        · rw [insertAll, List.foldl_cons, ← insertAll, stepped, List.mem_cons]
          tauto
        · intro other _
          simp only [decide_eq_true_eq]
          exact (lt_trichotomy item other).imp_right Or.symm
  rw [texts, ofList, inserted, or_iff_left List.not_mem_nil]

theorem texts_eq_iff {left right : List String} :
    texts left = texts right ↔ ∀ text, text ∈ left ↔ text ∈ right := by
  constructor
  · intro equal text
    rw [← mem_texts_iff, equal, mem_texts_iff]
  · intro alike
    have once : ∀ items, (texts items).Nodup := fun items =>
      (texts_sorted items).imp fun low => ne_of_lt low
    have listed : (texts left).Perm (texts right) := by
      rw [List.perm_ext_iff_of_nodup (once left) (once right)]
      intro text
      rw [mem_texts_iff, mem_texts_iff]
      exact alike text
    exact listed.eq_of_pairwise (fun _ _ _ _ low high => absurd (lt_trans low high) (lt_irrefl _))
      (texts_sorted left) (texts_sorted right)

end ElmClient.Sorted
