/-
A place in YAML text: the characters still to come, with line and column. The
index counts bytes, the column characters. Five characters and the pair of
carriage return and line feed end a line.
-/

namespace ElmClient.Yaml

def isSpaceOrTab (character : Char) : Bool :=
  character == ' ' || character == '\t'

def isBreak (character : Char) : Bool :=
  character == '\n' || character == '\r' || character.toNat == 0x85
    || character.toNat == 0x2028 || character.toNat == 0x2029

def isNamePart (character : Char) : Bool :=
  character.isAlphanum || character == '_' || character == '-'

def isPrintable (character : Char) : Bool :=
  let code := character.toNat
  code == 0x09 || code == 0x0A || code == 0x0D || (0x20 ≤ code && code ≤ 0x7E)
    || code == 0x85 || (0xA0 ≤ code && code ≤ 0xFFFD) || 0x10000 ≤ code

structure Cursor where
  rest : List Char
  index : Nat
  line : Nat
  column : Nat
deriving Inhabited

namespace Cursor

def start (characters : List Char) : Cursor :=
  { rest := characters, index := 0, line := 0, column := 0 }

def peek (cursor : Cursor) : Option Char :=
  cursor.rest.head?

def sees (cursor : Cursor) (character : Char) : Bool :=
  cursor.peek == some character

def seesAt (cursor : Cursor) (offset : Nat) (character : Char) : Bool :=
  cursor.rest[offset]? == some character

def blankOrEndAt (cursor : Cursor) (offset : Nat) : Bool :=
  match cursor.rest[offset]? with
  | none => true
  | some character => isSpaceOrTab character || isBreak character

def breakOrEnd (cursor : Cursor) : Bool :=
  match cursor.peek with
  | none => true
  | some character => isBreak character

def seesBreak (cursor : Cursor) : Bool :=
  cursor.peek.any isBreak

def seesBlank (cursor : Cursor) : Bool :=
  cursor.peek.any isSpaceOrTab

def byteLength (characters : List Char) : Nat :=
  characters.foldl (fun length character => length + character.utf8Size) 0

/-- Pass characters that end no line. -/
def skip (cursor : Cursor) (count : Nat) : Cursor :=
  { cursor with
    rest := cursor.rest.drop count
    index := cursor.index + byteLength (cursor.rest.take count)
    column := cursor.column + count }

def skipWhile (cursor : Cursor) (drop : Char → Bool) : Cursor :=
  cursor.skip (cursor.rest.takeWhile drop).length

/-- Pass one line break. Its text is a line feed, except for the two separators
of Unicode, which are kept. -/
def takeBreak (cursor : Cursor) : List Char × Cursor :=
  match cursor.rest with
  | '\r' :: '\n' :: rest =>
      (['\n'], { rest := rest, index := cursor.index + 2, line := cursor.line + 1, column := 0 })
  | character :: rest =>
      if isBreak character then
        let text :=
          if character.toNat == 0x2028 || character.toNat == 0x2029 then [character] else ['\n']
        (text,
          { rest := rest, index := cursor.index + character.utf8Size, line := cursor.line + 1
            column := 0 })
      else ([], cursor)
  | [] => ([], cursor)

/-- `---` or `...` at the beginning of a line, followed by a blank or the end. -/
def atDocumentMark (cursor : Cursor) : Bool :=
  cursor.column == 0 && cursor.blankOrEndAt 3
    && (['-', '-', '-'].isPrefixOf cursor.rest || ['.', '.', '.'].isPrefixOf cursor.rest)

end Cursor

end ElmClient.Yaml
