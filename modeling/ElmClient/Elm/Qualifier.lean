/-
Qualified names in source text. Imports are read off the qualifiers that stand
outside comments and string literals. Taking the qualifier of the module itself
off works on the whole text.
-/

import ElmClient.Sorted
import ElmClient.Text.Edit
import ElmClient.Text.Word

namespace ElmClient.Elm

open Text

/-! ### Code without comments and literals -/

def closesComment : List Char → Bool
  | [] => false
  | character :: rest => ['-', '\x7d'].isPrefixOf (character :: rest) || closesComment rest

/-- Put a space for every block comment; the first closing bracket ends it. One
that is never closed is no comment. `skip` counts bracket characters to pass. -/
def blankBlocksFrom (inside : Bool) : Nat → List Char → List Char
  | _, [] => []
  | skip + 1, _ :: rest => blankBlocksFrom inside skip rest
  | 0, character :: rest =>
      if inside then
        if ['-', '\x7d'].isPrefixOf (character :: rest) then
          ' ' :: blankBlocksFrom false 1 rest
        else blankBlocksFrom true 0 rest
      else if ['\x7b', '-'].isPrefixOf (character :: rest) && closesComment (rest.drop 1) then
        blankBlocksFrom true 1 rest
      else character :: blankBlocksFrom false 0 rest

def blankBlocks (characters : List Char) : List Char :=
  blankBlocksFrom false 0 characters

/-- How many characters a literal goes on for behind its opening quote, the
closing quote included. A backslash takes the next character with it, but no line
feed. -/
def literalLength? : List Char → Option Nat
  | [] => none
  | '"' :: _ => some 1
  | ['\\'] => none
  | '\\' :: escaped :: rest =>
      if escaped = '\n' then none else (literalLength? rest).map (· + 2)
  | _ :: rest => (literalLength? rest).map (· + 1)

def emptyLiteralsFrom : Nat → List Char → List Char
  | _, [] => []
  | skip + 1, _ :: rest => emptyLiteralsFrom skip rest
  | 0, character :: rest =>
      if character = '"' then
        match literalLength? rest with
        | some length => '"' :: '"' :: emptyLiteralsFrom length rest
        | none => '"' :: emptyLiteralsFrom 0 rest
      else character :: emptyLiteralsFrom 0 rest

def emptyLiterals (characters : List Char) : List Char :=
  emptyLiteralsFrom 0 characters

def blankLinesFrom : Bool → List Char → List Char
  | _, [] => []
  | true, character :: rest =>
      if character = '\n' then '\n' :: blankLinesFrom false rest else blankLinesFrom true rest
  | false, character :: rest =>
      if ['-', '-'].isPrefixOf (character :: rest) then ' ' :: blankLinesFrom true rest
      else character :: blankLinesFrom false rest

def blankLines (characters : List Char) : List Char :=
  blankLinesFrom false characters

/-- The code of a source text. Block comments go first, whatever literals they
begin or end in. -/
def codeChars (characters : List Char) : List Char :=
  blankLines (emptyLiterals (blankBlocks characters))

/-! ### Qualifiers -/

def startsUpper : List Char → Bool
  | first :: _ => first.isUpper
  | [] => false

def startsName : List Char → Bool
  | first :: _ => first.isAlpha || first == '_'
  | [] => false

/-- The module path that a dotted run begins with: its capitalized segments, the
last of which counts only when a name follows. -/
def qualifierSegments (pieces : List (List Char)) : List (List Char) :=
  let capitalized := pieces.takeWhile startsUpper
  match pieces.drop capitalized.length with
  | next :: _ => if startsName next then capitalized else capitalized.dropLast
  | [] => capitalized.dropLast

def qualifierAt (characters : List Char) : List Char :=
  let run := characters.takeWhile fun character => isAsciiWord character || character == '.'
  List.intercalate ['.'] (qualifierSegments (splitChars '.' run))

/-- The qualifiers at word boundaries, in order; `skip` counts the characters of
a qualifier to pass, and `previous` is the character before. -/
def qualifiersFrom : Nat → Option Char → List Char → List String
  | _, _, [] => []
  | skip + 1, _, character :: rest => qualifiersFrom skip (some character) rest
  | 0, previous, character :: rest =>
      if isBoundary previous (some character) && character.isUpper then
        match qualifierAt (character :: rest) with
        | [] => qualifiersFrom 0 (some character) rest
        | qualifier =>
            String.ofList qualifier :: qualifiersFrom (qualifier.length - 1) (some character) rest
      else qualifiersFrom 0 (some character) rest

def defaultImports : List String :=
  ["Basics", "List", "Maybe", "Result", "String", "Char", "Tuple", "Debug", "Platform", "Cmd",
    "Sub"]

/-- The modules whose names qualify something in the code, sorted, except the
module itself and those that need no import. -/
def imports (source own : String) : List String :=
  Sorted.texts ((qualifiersFrom 0 none (codeChars source.toList)).filter fun qualifier =>
    qualifier != own && !defaultImports.contains qualifier)

/-! ### Own names -/

def qualifies (own characters : List Char) : Bool :=
  match dropLead? (own ++ ['.']) characters with
  | some rest => startsName rest
  | none => false

/-- Take the own qualifier off. `pending` counts the characters of an occurrence
still to pass; the last of them, the first of the name, is kept. -/
def unqualifyFrom (own : List Char) : Nat → Option Char → List Char → List Char
  | _, _, [] => []
  | pending + 2, _, character :: rest =>
      unqualifyFrom own (pending + 1) (some character) rest
  | 1, _, character :: rest => character :: unqualifyFrom own 0 (some character) rest
  | 0, previous, character :: rest =>
      if isBoundary previous (some character) && qualifies own (character :: rest) then
        unqualifyFrom own (own.length + 1) (some character) rest
      else character :: unqualifyFrom own 0 (some character) rest

def unqualify (source own : String) : String :=
  String.ofList (unqualifyFrom own.toList 0 none source.toList)

end ElmClient.Elm
