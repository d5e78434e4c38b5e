/-
Pairs of characters in a text. Setting the two characters of a pair apart by a blank leaves
no such pair, and no pair that was not there.
-/

import ElmClient.Text.Edit

namespace ElmClient.Text

def hasPair (first second : Char) : List Char → Bool
  | [] => false
  | character :: rest =>
      (character == first && rest.head? == some second) || hasPair first second rest

theorem hasPair_append (first second : Char) (left right : List Char) :
    hasPair first second (left ++ right) =
      (hasPair first second left || hasPair first second right
        || (left.getLast? == some first && right.head? == some second)) := by
  induction left with
  | nil => simp [hasPair]
  | cons character rest ih =>
      rw [List.cons_append, hasPair, hasPair, ih]
      cases rest with
      | nil =>
          simp only [hasPair, List.nil_append, List.getLast?_nil, List.getLast?_singleton,
            List.head?_nil]
          cases right.head? <;> simp [Bool.or_comm]
      | cons next rest =>
          rw [List.getLast?_cons_cons, List.cons_append, List.head?_cons, List.head?_cons]
          simp only [Bool.or_assoc]

theorem hasPair_of_not_mem {first second : Char} {text : List Char} (noFirst : first ∉ text) :
    hasPair first second text = false := by
  induction text with
  | nil => rfl
  | cons character rest ih =>
      obtain ⟨other, later⟩ := not_or.mp (mt List.mem_cons.mpr noFirst)
      rw [hasPair, ih later, Bool.or_false, beq_false_of_ne (Ne.symm other), Bool.false_and]

theorem hasPair_of_split {first second : Char} (before behind : List Char) :
    hasPair first second (before ++ first :: second :: behind) = true := by
  rw [hasPair_append]
  simp [hasPair]

/-- A text between two others makes no pair with them where they meet it with other
characters. -/
theorem hasPair_framed {first second : Char} {front text back : List Char}
    (inFront : hasPair first second front = false) (inText : hasPair first second text = false)
    (inBack : hasPair first second back = false) (ends : front.getLast? ≠ some first)
    (begins : back.head? ≠ some second) :
    hasPair first second (front ++ text ++ back) = false := by
  have border : (front.getLast? == some first) = false := beq_false_of_ne ends
  have other : (back.head? == some second) = false := beq_false_of_ne begins
  rw [hasPair_append, hasPair_append, inFront, inText, inBack, border, other]
  simp

section Spaced

variable {first second : Char}

def spacePairs (first second : Char) (characters : List Char) : List Char :=
  replaceChars [first, second] [first, ' ', second] characters

private theorem spacePairs_pair (rest : List Char) :
    spacePairs first second (first :: second :: rest) =
      first :: ' ' :: second :: spacePairs first second rest := by
  simp [spacePairs, replaceChars, replaceFrom]

private theorem spacePairs_other {character : Char} {rest : List Char}
    (other : (character == first && rest.head? == some second) = false) :
    spacePairs first second (character :: rest) = character :: spacePairs first second rest := by
  have noPair : [first, second].isPrefixOf (character :: rest) = false := by
    cases rest with
    | nil => simp [List.isPrefixOf]
    | cons next rest =>
        rw [List.isPrefixOf, List.isPrefixOf, List.isPrefixOf, Bool.and_true,
          Bool.beq_comm (a := first), Bool.beq_comm (a := second)]
        exact other
  rw [spacePairs, replaceChars, replaceFrom, noPair]
  rfl

private theorem head?_spacePairs (characters : List Char) :
    (spacePairs first second characters).head? = characters.head? := by
  cases characters with
  | nil => rfl
  | cons character rest =>
      cases pair : character == first && rest.head? == some second with
      | false => rw [spacePairs_other pair, List.head?_cons, List.head?_cons]
      | true =>
          obtain ⟨same, next⟩ := Bool.and_eq_true_iff.mp pair
          obtain ⟨behind, rfl⟩ := List.head?_eq_some_iff.mp (eq_of_beq next)
          rw [eq_of_beq same, spacePairs_pair, List.head?_cons, List.head?_cons]

theorem hasPair_spacePairs_le {left right : Char} (leftInk : left ≠ ' ') (rightInk : right ≠ ' ')
    {characters : List Char} (none : hasPair left right characters = false) :
    hasPair left right (spacePairs first second characters) = false := by
  induction size : characters.length using Nat.strongRecOn generalizing characters with
  | _ bound ih =>
      cases characters with
      | nil => rfl
      | cons character rest =>
          obtain ⟨here, later⟩ := Bool.or_eq_false_iff.mp none
          cases pair : character == first && rest.head? == some second with
          | false =>
              have shorter := ih rest.length (by rw [← size]; exact Nat.lt_succ_self _) later rfl
              rw [spacePairs_other pair, hasPair, head?_spacePairs, here, shorter]
              rfl
          | true =>
              obtain ⟨same, next⟩ := Bool.and_eq_true_iff.mp pair
              obtain ⟨behind, rfl⟩ := List.head?_eq_some_iff.mp (eq_of_beq next)
              obtain ⟨border, rest⟩ := Bool.or_eq_false_iff.mp later
              have shorter := ih behind.length
                (by rw [← size, List.length_cons, List.length_cons]; omega) rest rfl
              rw [eq_of_beq same, spacePairs_pair]
              simp [hasPair, head?_spacePairs, border, shorter, leftInk.symm, rightInk.symm]

theorem hasPair_spacePairs (different : first ≠ second) (firstInk : first ≠ ' ')
    (secondInk : second ≠ ' ') (characters : List Char) :
    hasPair first second (spacePairs first second characters) = false := by
  induction size : characters.length using Nat.strongRecOn generalizing characters with
  | _ bound ih =>
      cases characters with
      | nil => rfl
      | cons character rest =>
          cases pair : character == first && rest.head? == some second with
          | false =>
              have shorter := ih rest.length (by rw [← size]; exact Nat.lt_succ_self _) rest rfl
              rw [spacePairs_other pair, hasPair, head?_spacePairs, pair, shorter]
              rfl
          | true =>
              obtain ⟨same, next⟩ := Bool.and_eq_true_iff.mp pair
              obtain ⟨behind, rfl⟩ := List.head?_eq_some_iff.mp (eq_of_beq next)
              have shorter := ih behind.length
                (by rw [← size, List.length_cons, List.length_cons]; omega) behind rfl
              rw [eq_of_beq same, spacePairs_pair]
              simp [hasPair, shorter, different.symm, firstInk.symm, secondInk.symm]

end Spaced

end ElmClient.Text
