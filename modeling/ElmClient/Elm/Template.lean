/-
Path templates. A variable is a name in braces that holds no brace itself; all
other text is literal. Pieces are found in one pass over the characters.
-/

namespace ElmClient.Elm

inductive Piece where
  | literal (text : String)
  | variable (name : String)
deriving DecidableEq, Repr, Inhabited

namespace Piece

def ofLiteral (reversed : List Char) : List Piece :=
  if reversed.isEmpty then [] else [.literal (String.ofList reversed.reverse)]

/-- The pieces of the characters to come. Read so far, and reversed, are a
literal and, behind an open brace, a name. -/
def scan : List Char → Option (List Char) → List Char → List Piece
  | text, none, [] => ofLiteral text
  | text, some name, [] => ofLiteral (name ++ '\x7b' :: text)
  | text, none, '\x7b' :: rest => scan text (some []) rest
  | text, none, character :: rest => scan (character :: text) none rest
  | text, some name, '\x7b' :: rest => scan (name ++ '\x7b' :: text) (some []) rest
  | text, some [], '\x7d' :: rest => scan ('\x7d' :: '\x7b' :: text) none rest
  | text, some (last :: name), '\x7d' :: rest =>
      ofLiteral text
        ++ .variable (String.ofList (last :: name).reverse) :: scan [] none rest
  | text, some name, character :: rest => scan text (some (character :: name)) rest

def ofTemplate (template : String) : List Piece :=
  scan [] none template.toList

def variableName? : Piece → Option String
  | .literal _ => none
  | .variable name => some name

def text : Piece → String
  | .literal text => text
  | .variable name => "\x7b" ++ name ++ "\x7d"

end Piece

def templateVariables (template : String) : List String :=
  (Piece.ofTemplate template).filterMap Piece.variableName?

end ElmClient.Elm
