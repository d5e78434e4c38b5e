/-
Numbered names are found. A search tries one candidate more than there are taken names,
so if only taken names are refused, what it ends with is not refused.
-/

import ElmClient.Fresh
import ElmClient.Name
import Mathlib.Data.List.Nodup
import Mathlib.Data.List.Perm.Subperm
import Std.Data.String.ToNat

namespace ElmClient

namespace Fresh

variable {α κ : Type}

/-! ### Searching -/

theorem search_first (refused : α → Bool) (base : α) (numbered : α → Nat → α)
    (tries attempt : Nat) :
    ∃ number ≤ tries,
      search refused base numbered tries attempt = candidate base numbered (attempt + number) ∧
        ∀ earlier < number, refused (candidate base numbered (attempt + earlier)) = true := by
  induction tries generalizing attempt with
  | zero => exact ⟨0, Nat.le_refl 0, rfl, fun _ few => absurd few (Nat.not_lt_zero _)⟩
  | succ tries ih =>
      rw [search]
      split
      case isTrue first =>
        obtain ⟨number, few, found, before⟩ := ih (attempt + 1)
        refine ⟨number + 1, Nat.succ_le_succ few, ?_, fun earlier less => ?_⟩
        · rw [found, Nat.add_assoc, Nat.add_comm 1]
        · cases earlier with
          | zero => exact first
          | succ earlier =>
              have skipped := before earlier (Nat.lt_of_succ_lt_succ less)
              rwa [Nat.add_assoc, Nat.add_comm 1] at skipped
      case isFalse first =>
        exact ⟨0, Nat.zero_le _, rfl, fun _ few => absurd few (Nat.not_lt_zero _)⟩

theorem search_candidate (refused : α → Bool) (base : α) (numbered : α → Nat → α)
    (tries attempt : Nat) :
    ∃ number, search refused base numbered tries attempt = candidate base numbered number := by
  obtain ⟨number, _, found, _⟩ := search_first refused base numbered tries attempt
  exact ⟨attempt + number, found⟩

/-- A search ends with the first candidate that is not refused. -/
theorem search_eq {refused : α → Bool} {base : α} {numbered : α → Nat → α} {tries number : Nat}
    (few : number ≤ tries) {attempt : Nat}
    (before : ∀ earlier < number, refused (candidate base numbered (attempt + earlier)) = true)
    (accepted : refused (candidate base numbered (attempt + number)) = false) :
    search refused base numbered tries attempt = candidate base numbered (attempt + number) := by
  induction number generalizing tries attempt with
  | zero =>
      cases tries with
      | zero => rfl
      | succ tries => exact if_neg (Bool.eq_false_iff.mp accepted)
  | succ number ih =>
      cases tries with
      | zero => exact absurd few (Nat.not_succ_le_zero number)
      | succ tries =>
          have next : ∀ further, attempt + (further + 1) = attempt + 1 + further := by omega
          have first : refused (candidate base numbered attempt) = true :=
            before 0 (Nat.zero_lt_succ number)
          rw [search, if_pos first, next number]
          rw [next number] at accepted
          refine ih (Nat.le_of_succ_le_succ few) (fun earlier less => ?_) accepted
          rw [← next earlier]
          exact before (earlier + 1) (Nat.succ_lt_succ less)

private theorem refused_of_search_refused {refused : α → Bool} {base : α} {numbered : α → Nat → α}
    {tries attempt : Nat}
    (last : refused (search refused base numbered tries attempt) = true) :
    ∀ further ≤ tries, refused (candidate base numbered (attempt + further)) = true := by
  induction tries generalizing attempt with
  | zero =>
      intro further few
      obtain rfl : further = 0 := Nat.le_zero.mp few
      exact last
  | succ tries ih =>
      rw [search] at last
      split at last
      case isTrue first =>
        intro further few
        cases further with
        | zero => exact first
        | succ further =>
            have later := ih last further (Nat.le_of_succ_le_succ few)
            rwa [Nat.add_assoc, Nat.add_comm 1] at later
      case isFalse first => exact absurd last first

theorem search_accepted (refused : α → Bool) (base : α) (numbered : α → Nat → α)
    (key : α → κ) (taken : List κ)
    (apart : Function.Injective fun number => key (candidate base numbered number))
    (onlyTaken : ∀ number, refused (candidate base numbered number) = true →
      key (candidate base numbered number) ∈ taken) :
    refused (search refused base numbered taken.length 0) = false := by
  rw [← Bool.not_eq_true]
  intro last
  have everyRefused := refused_of_search_refused last
  let tried := (List.range (taken.length + 1)).map fun number =>
    key (candidate base numbered number)
  have distinct : tried.Nodup := List.nodup_range.map apart
  have subset : tried ⊆ taken := by
    intro name member
    obtain ⟨number, inRange, rfl⟩ := List.mem_map.mp member
    have few := Nat.le_of_lt_succ (List.mem_range.mp inRange)
    have rejected := everyRefused number few
    rw [Nat.zero_add] at rejected
    exact onlyTaken number rejected
  have tooMany := (distinct.subperm subset).length_le
  rw [List.length_map, List.length_range] at tooMany
  omega

/-! ### Giving names in turn -/

section Assigning

variable [BEq α] [LawfulBEq α] {numbered : α → Nat → α}
variable (apart : ∀ base, Function.Injective (candidate base numbered))

include apart

theorem unused_not_mem (taken : List α) (base : α) : unused numbered taken base ∉ taken := by
  have accepted := search_accepted taken.contains base numbered id taken (apart base)
    fun _ refused => List.contains_iff_mem.mp refused
  rw [unused, ← List.contains_iff_mem, accepted]
  exact Bool.false_ne_true

theorem assignAfter_not_mem (taken bases : List α) :
    ∀ name ∈ assignAfter numbered taken bases, name ∉ taken := by
  induction bases generalizing taken with
  | nil => exact fun name member => absurd member List.not_mem_nil
  | cons base rest ih =>
      intro name member
      rw [assignAfter] at member
      rcases List.mem_cons.mp member with equal | later
      · rw [equal]
        exact unused_not_mem apart taken base
      · intro alreadyTaken
        exact ih _ name later (List.mem_cons_of_mem _ alreadyTaken)

theorem assignAfter_nodup (taken bases : List α) : (assignAfter numbered taken bases).Nodup := by
  induction bases generalizing taken with
  | nil => exact List.nodup_nil
  | cons base rest ih =>
      rw [assignAfter, List.nodup_cons]
      refine ⟨fun again => ?_, ih _⟩
      exact assignAfter_not_mem apart _ rest _ again List.mem_cons_self

omit apart [LawfulBEq α] in
theorem assignAfter_candidate (taken bases : List α) :
    ∀ name ∈ assignAfter numbered taken bases,
      ∃ base ∈ bases, ∃ number, name = candidate base numbered number := by
  induction bases generalizing taken with
  | nil => exact fun name member => absurd member List.not_mem_nil
  | cons base rest ih =>
      intro name member
      rw [assignAfter] at member
      rcases List.mem_cons.mp member with rfl | later
      · exact ⟨base, List.mem_cons_self, search_candidate _ base numbered _ _⟩
      · obtain ⟨found, inRest, number, equal⟩ := ih _ name later
        exact ⟨found, List.mem_cons_of_mem _ inRest, number, equal⟩

end Assigning

end Fresh

/-! ### Numbers behind a name -/

theorem Fresh.appendNumber_injective (base : String) :
    Function.Injective (Fresh.candidate base Fresh.appendNumber) := by
  have longer (number : Nat) : base ≠ Fresh.appendNumber base number := by
    intro equal
    have lengths := congrArg String.length equal
    have digits : 0 < (Nat.repr number).length := Nat.length_repr_pos
    simp only [Fresh.appendNumber, String.length_append, toString] at lengths
    omega
  intro first second equal
  cases first with
  | zero =>
      cases second with
      | zero => rfl
      | succ second => exact absurd equal (longer _)
  | succ first =>
      cases second with
      | zero => exact absurd equal.symm (longer _)
      | succ second =>
          have numbers := Nat.repr_injective ((String.append_right_inj _).mp equal)
          omega

/-! ### Numbered type names -/

theorem TypeName.withSuffix_text (name : TypeName) :
    ∃ gap, ∀ number, (name.withSuffix number).text = name.text ++ (gap ++ toString number) := by
  unfold withSuffix
  cases name.text.toList.getLast? with
  | none => exact ⟨"", fun number => by rw [String.empty_append]⟩
  | some last =>
      by_cases digit : last.isDigit
      · refine ⟨"_", fun number => ?_⟩
        simp only [digit, if_true, String.append_assoc]
      · refine ⟨"", fun number => ?_⟩
        simp only [digit, String.empty_append]
        rfl

theorem TypeName.candidate_injective (base : TypeName) :
    Function.Injective (Fresh.candidate base TypeName.withSuffix) := by
  obtain ⟨gap, numbered⟩ := base.withSuffix_text
  have longer : ∀ number, base ≠ base.withSuffix number := by
    intro number equal
    have texts := congrArg (fun name => name.text.length) equal
    have digits : 0 < (Nat.repr number).length := Nat.length_repr_pos
    simp only [numbered, String.length_append, toString] at texts
    omega
  intro first second equal
  cases first with
  | zero =>
      cases second with
      | zero => rfl
      | succ second => exact absurd equal (longer _)
  | succ first =>
      cases second with
      | zero => exact absurd equal.symm (longer _)
      | succ second =>
          have texts := congrArg TypeName.text equal
          rw [Fresh.candidate, Fresh.candidate, numbered, numbered,
            String.append_right_inj, String.append_right_inj] at texts
          have numbers := Nat.repr_injective texts
          omega

end ElmClient
