/-
Cutting and replacing text. Every operation works on the list of characters,
so its laws are list inductions; the `String` forms only wrap it.
-/

namespace ElmClient.Text

def dropLead? : List Char → List Char → Option (List Char)
  | [], characters => some characters
  | _ :: _, [] => none
  | expected :: lead, character :: characters =>
      if expected = character then dropLead? lead characters else none

/-- The pieces between the characters equal to `separator`; never empty. -/
def splitChars (separator : Char) : List Char → List (List Char)
  | [] => [[]]
  | character :: characters =>
      if character = separator then
        [] :: splitChars separator characters
      else
        match splitChars separator characters with
        | [] => [[character]]
        | piece :: pieces => (character :: piece) :: pieces

/-- Replace the occurrences of a non-empty `pattern`, left to right and
without overlap; `skip` counts the characters of an occurrence still to pass. -/
def replaceFrom (pattern replacement : List Char) : Nat → List Char → List Char
  | _, [] => []
  | skip + 1, _ :: characters => replaceFrom pattern replacement skip characters
  | 0, character :: characters =>
      if pattern.isPrefixOf (character :: characters) then
        replacement ++ replaceFrom pattern replacement (pattern.length - 1) characters
      else
        character :: replaceFrom pattern replacement 0 characters

def replaceChars (pattern replacement characters : List Char) : List Char :=
  replaceFrom pattern replacement 0 characters

def replaceAll (pattern replacement text : String) : String :=
  String.ofList (replaceChars pattern.toList replacement.toList text.toList)

def splitOn (separator : Char) (text : String) : List String :=
  (splitChars separator text.toList).map String.ofList

/-- What stands before the first `separator`, or the whole text. -/
def before (separator : Char) (text : String) : String :=
  String.ofList (text.toList.takeWhile (· != separator))

def splitOnce? (separator : Char) (text : String) : Option (String × String) :=
  let characters := text.toList
  match characters.dropWhile (· != separator) with
  | [] => none
  | _ :: after => some (String.ofList (characters.takeWhile (· != separator)), String.ofList after)

def dropReturn (line : List Char) : List Char :=
  match line.reverse with
  | '\r' :: rest => rest.reverse
  | _ => line

/-- Lines are ended by a line feed, which a carriage return may precede; a
last line without line feed counts unless it is empty. -/
def linesOf : List (List Char) → List (List Char)
  | [] => []
  | [last] => if last.isEmpty then [] else [last]
  | line :: rest => dropReturn line :: linesOf rest

def lines (text : String) : List String :=
  (linesOf (splitChars '\n' text.toList)).map String.ofList

def startsWith (lead text : String) : Bool :=
  lead.toList.isPrefixOf text.toList

def endsWith (tail text : String) : Bool :=
  tail.toList.reverse.isPrefixOf text.toList.reverse

def hasChar (character : Char) (text : String) : Bool :=
  text.toList.contains character

def lower (text : String) : String :=
  String.ofList (text.toList.map Char.toLower)

def upper (text : String) : String :=
  String.ofList (text.toList.map Char.toUpper)

def equalIgnoringCase (left right : String) : Bool :=
  lower left == lower right

def join (separator : String) (pieces : List String) : String :=
  String.intercalate separator pieces

def block (lines : List String) : String :=
  join "\n" lines

theorem splitChars_ne_nil (separator : Char) (characters : List Char) :
    splitChars separator characters ≠ [] := by
  cases characters with
  | nil => simp [splitChars]
  | cons character characters =>
      unfold splitChars
      split
      · simp
      · split <;> simp

theorem intercalate_splitChars (separator : Char) (characters : List Char) :
    List.intercalate [separator] (splitChars separator characters) = characters := by
  induction characters with
  | nil => rfl
  | cons character characters hypothesis =>
      have inhabited := splitChars_ne_nil separator characters
      unfold splitChars
      split
      · next same =>
          cases pieces : splitChars separator characters with
          | nil => exact absurd pieces inhabited
          | cons piece rest =>
              rw [pieces] at hypothesis
              simp [List.intercalate, List.intersperse] at hypothesis ⊢
              cases rest <;> simp_all [List.intersperse]
      · cases pieces : splitChars separator characters with
        | nil => exact absurd pieces inhabited
        | cons piece rest =>
            rw [pieces] at hypothesis
            cases rest <;> simp_all [List.intercalate, List.intersperse]

end ElmClient.Text
