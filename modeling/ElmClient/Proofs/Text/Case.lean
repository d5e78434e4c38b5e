/-
The case of ASCII letters, counted in code points.
-/

import ElmClient.Text.Edit

namespace ElmClient.Text

theorem isAlpha_eq (character : Char) :
    character.isAlpha = (character.isUpper || character.isLower) :=
  rfl

theorem toNat_toUpper (character : Char) :
    character.toUpper.toNat =
      if 97 ≤ character.toNat ∧ character.toNat ≤ 122 then character.toNat - 32
      else character.toNat := by
  have range : ('a'.val ≤ character.val ∧ character.val ≤ 'z'.val) ↔
      97 ≤ character.toNat ∧ character.toNat ≤ 122 := Iff.rfl
  unfold Char.toUpper
  by_cases small : 'a'.val ≤ character.val ∧ character.val ≤ 'z'.val
  · rw [dif_pos small, if_pos (range.mp small)]
    have bounds := range.mp small
    change (character.val + ('A'.val - 'a'.val)).toNat = character.toNat - 32
    rw [UInt32.toNat_add]
    change (character.toNat + 4294967264) % 4294967296 = _
    omega
  · rw [dif_neg small, if_neg (fun within => small (range.mpr within))]

theorem toNat_toLower (character : Char) :
    character.toLower.toNat =
      if 65 ≤ character.toNat ∧ character.toNat ≤ 90 then character.toNat + 32
      else character.toNat := by
  have range : (character.val ≥ 'A'.val ∧ character.val ≤ 'Z'.val) ↔
      65 ≤ character.toNat ∧ character.toNat ≤ 90 := Iff.rfl
  unfold Char.toLower
  by_cases capital : character.val ≥ 'A'.val ∧ character.val ≤ 'Z'.val
  · rw [dif_pos capital, if_pos (range.mp capital)]
    have bounds := range.mp capital
    change (character.val + ('a'.val - 'A'.val)).toNat = character.toNat + 32
    rw [UInt32.toNat_add]
    change (character.toNat + 32) % 4294967296 = _
    omega
  · rw [dif_neg capital, if_neg (fun within => capital (range.mpr within))]

private theorem toLower_toUpper (character : Char) :
    character.toUpper.toLower = character.toLower := by
  apply Char.toNat_inj.mp
  rw [toNat_toLower, toNat_toLower, toNat_toUpper]
  by_cases small : 97 ≤ character.toNat ∧ character.toNat ≤ 122
  · rw [if_pos small, if_pos (by omega), if_neg (by omega)]
    omega
  · rw [if_neg small]

theorem lower_eq_of_upper_eq {left right : String} (same : upper left = upper right) :
    lower left = lower right := by
  have relower : ∀ text : String, lower text = lower (upper text) := by
    intro text
    simp only [lower, upper, String.toList_ofList, List.map_map]
    congr 1
    apply List.map_congr_left
    intro character _
    exact (toLower_toUpper character).symm
  rw [relower left, relower right, same]

theorem isUpper_iff (character : Char) :
    character.isUpper = true ↔ 65 ≤ character.toNat ∧ character.toNat ≤ 90 := by
  unfold Char.isUpper
  simp only [ge_iff_le, decide_eq_true_eq]
  exact Iff.rfl

theorem isLower_iff (character : Char) :
    character.isLower = true ↔ 97 ≤ character.toNat ∧ character.toNat ≤ 122 := by
  unfold Char.isLower
  simp only [ge_iff_le, Bool.and_eq_true, decide_eq_true_eq]
  exact Iff.rfl

theorem isDigit_iff (character : Char) :
    character.isDigit = true ↔ 48 ≤ character.toNat ∧ character.toNat ≤ 57 := by
  unfold Char.isDigit
  simp only [ge_iff_le, Bool.and_eq_true, decide_eq_true_eq]
  exact Iff.rfl

end ElmClient.Text
