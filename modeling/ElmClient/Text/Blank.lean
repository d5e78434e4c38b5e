/-
Blank characters are those with the Unicode property White_Space. Trimming
removes them from both ends of a text; nothing here looks at the middle.
-/

namespace ElmClient.Text

/-- The White_Space property of Unicode. -/
def isBlank (character : Char) : Bool :=
  let code := character.toNat
  (9 ≤ code && code ≤ 13) || code == 0x20 || code == 0x85 || code == 0xA0
    || code == 0x1680 || (0x2000 ≤ code && code ≤ 0x200A)
    || code == 0x2028 || code == 0x2029 || code == 0x202F
    || code == 0x205F || code == 0x3000

/-- The control characters of Unicode, category Cc. -/
def isControl (character : Char) : Bool :=
  let code := character.toNat
  code < 0x20 || (0x7F ≤ code && code ≤ 0x9F)

def dropEnd (drop : Char → Bool) (characters : List Char) : List Char :=
  (characters.reverse.dropWhile drop).reverse

def trimChars (characters : List Char) : List Char :=
  dropEnd isBlank (characters.dropWhile isBlank)

def trim (text : String) : String :=
  String.ofList (trimChars text.toList)

def trimStart (text : String) : String :=
  String.ofList (text.toList.dropWhile isBlank)

end ElmClient.Text
