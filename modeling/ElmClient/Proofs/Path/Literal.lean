/-
String literals are read back. The reader undoes the escapes of Elm one after another;
a literal that was written for a text gives the text.
-/

import ElmClient.Elm.Layout

namespace ElmClient.Elm

open Text

/-! ### Reading -/

def hexValue? (character : Char) : Option Nat :=
  let code := character.toNat
  if '0'.toNat ≤ code ∧ code ≤ '9'.toNat then some (code - '0'.toNat)
  else if 'A'.toNat ≤ code ∧ code ≤ 'F'.toNat then some (code - 'A'.toNat + 10)
  else none

def codedChar? (first second third fourth : Char) : Option Char := do
  return Char.ofNat ((← hexValue? first) * 4096 + (← hexValue? second) * 256
    + (← hexValue? third) * 16 + (← hexValue? fourth))

def escaped? : Char → Option Char
  | 'n' => some '\n'
  | 'r' => some '\r'
  | 't' => some '\t'
  | '"' => some '"'
  | '\\' => some '\\'
  | _ => none

/-- What a literal stands for from behind its opening quote on; its closing quote is the
last character. -/
def readContent? : List Char → Option (List Char)
  | [] => none
  | '"' :: rest => if rest.isEmpty then some [] else none
  | '\\' :: 'u' :: '\x7b' :: first :: second :: third :: fourth :: '\x7d' :: rest =>
      (codedChar? first second third fourth).bind fun character =>
        (readContent? rest).map (character :: ·)
  | '\\' :: letter :: rest =>
      (escaped? letter).bind fun character => (readContent? rest).map (character :: ·)
  | ['\\'] => none
  | character :: rest => (readContent? rest).map (character :: ·)

def readLiteral? (expression : String) : Option String :=
  match expression.toList with
  | '"' :: rest => (readContent? rest).map String.ofList
  | _ => none

/-! ### Reading what was written -/

theorem hexValue?_upperHexDigit {value : Nat} (small : value < 16) :
    hexValue? (upperHexDigit value) = some value := by
  revert value
  decide

private theorem codedChar?_upperHex4 {character : Char} (small : character.toNat < 65536) :
    codedChar? (upperHexDigit (character.toNat / 4096 % 16))
        (upperHexDigit (character.toNat / 256 % 16)) (upperHexDigit (character.toNat / 16 % 16))
        (upperHexDigit (character.toNat % 16)) = some character := by
  have digits : character.toNat / 4096 % 16 * 4096 + character.toNat / 256 % 16 * 256
      + character.toNat / 16 % 16 * 16 + character.toNat % 16 = character.toNat := by
    omega
  simp only [codedChar?, hexValue?_upperHexDigit (Nat.mod_lt _ (by decide : 0 < 16)),
    Option.bind_eq_bind, Option.bind_some, Option.pure_def, digits, Char.ofNat_toNat]

theorem isControl_small {character : Char} (control : isControl character = true) :
    character.toNat < 65536 := by
  unfold isControl at control
  simp only [Bool.or_eq_true, Bool.and_eq_true, decide_eq_true_eq] at control
  omega

private theorem readContent?_plain {character : Char} (noQuote : character ≠ '"')
    (noBackslash : character ≠ '\\') (rest : List Char) :
    readContent? (character :: rest) = (readContent? rest).map (character :: ·) := by
  rw [readContent?.eq_def (character :: rest)]
  split <;> simp_all

private theorem readContent?_escapeChar (character : Char) (rest : List Char) :
    readContent? (escapeChar character ++ rest) = (readContent? rest).map (character :: ·) := by
  unfold escapeChar
  split
  · rfl
  · rfl
  · rfl
  · rfl
  · rfl
  case h_6 noBackslash noQuote _ _ _ =>
    split
    case isTrue control =>
      have coded := codedChar?_upperHex4 (isControl_small control)
      simp only [upperHex4, List.cons_append, List.nil_append, readContent?, coded,
        Option.bind_some]
    case isFalse => exact readContent?_plain noQuote noBackslash rest

private theorem readContent?_escaped (characters : List Char) :
    readContent? (characters.flatMap escapeChar ++ ['"']) = some characters := by
  induction characters with
  | nil => rfl
  | cons character rest ih =>
      rw [List.flatMap_cons, List.append_assoc, readContent?_escapeChar, ih, Option.map_some]

theorem readLiteral?_stringLiteral (text : String) :
    readLiteral? (stringLiteral text) = some text := by
  have written : (stringLiteral text).toList = literalChars text.toList := String.toList_ofList
  rw [readLiteral?, written]
  change (readContent? (text.toList.flatMap escapeChar ++ ['"'])).map String.ofList = some text
  rw [readContent?_escaped, Option.map_some, String.ofList_toList]

end ElmClient.Elm
