/-
Tokens of Elm source text. A scanner takes character after character in a mode that says
what token it is in and how far; a token ends before the first character that its mode does
not take. Literals end at their quote, or at the third of three quotes if they begin with
three, and not behind a backslash; one in a single pair of quotes stays on its line. Line
comments end before the line feed and block comments nest. Names are read with the dots in
them, so a qualified name is one token; all other code is cut into single characters.
-/

import ElmClient.Text.Word

namespace ElmClient.Elm.Lexer

open Text

inductive Kind where
  | name
  | symbol
  | literal
  | character
  | comment
deriving DecidableEq, Repr

structure Token where
  kind : Kind
  text : List Char
deriving DecidableEq, Repr

def isNamePart (character : Char) : Bool :=
  isWord character || character == '.'

/-! ### Scanning -/

/-- Where a scanner stands in a token. -/
inductive Mode where
  | start
  | name
  | closed (kind : Kind)
  | dash
  | brace
  | line
  /-- In a block comment inside of so many others. -/
  | block (outer : Nat)
  | blockBrace (outer : Nat)
  | blockDash (outer : Nat)
  | quote
  /-- Behind two quotes: an empty literal, if no third one follows. -/
  | quotes
  | text
  | escape
  /-- Between three quotes and three quotes, behind so many of the latter. -/
  | triple (met : Nat)
  | tripleEscape
  | glyph
  | glyphEscape
deriving DecidableEq, Repr

namespace Mode

def kind : Mode → Kind
  | .name => .name
  | .closed kind => kind
  | .start | .dash | .brace => .symbol
  | .line | .block _ | .blockBrace _ | .blockDash _ => .comment
  | .quote | .quotes | .text | .escape | .triple _ | .tripleEscape => .literal
  | .glyph | .glyphEscape => .character

def opening (character : Char) : Mode :=
  if character = '"' then .quote
  else if character = '\'' then .glyph
  else if character = '-' then .dash
  else if character = '\x7b' then .brace
  else if isNamePart character then .name
  else .closed .symbol

def inBlock (outer : Nat) (character : Char) : Mode :=
  if character = '\x7b' then .blockBrace outer
  else if character = '-' then .blockDash outer
  else .block outer

def inText (character : Char) : Option Mode :=
  if character = '\n' then none else if character = '\\' then some .escape else some .text

/-- The mode behind a further character; none if the token ends before it. -/
def next : Mode → Char → Option Mode
  | .start, character => some (opening character)
  | .name, character => if isNamePart character then some .name else none
  | .closed _, _ => none
  | .dash, character => if character = '-' then some .line else none
  | .brace, character => if character = '-' then some (.block 0) else none
  | .line, character => if character = '\n' then none else some .line
  | .block outer, character => some (inBlock outer character)
  | .blockBrace outer, character =>
      if character = '-' then some (.block (outer + 1)) else some (inBlock outer character)
  | .blockDash 0, character =>
      if character = '\x7d' then some (.closed .comment) else some (inBlock 0 character)
  | .blockDash (outer + 1), character =>
      if character = '\x7d' then some (.block outer) else some (inBlock (outer + 1) character)
  | .quote, character => if character = '"' then some .quotes else inText character
  | .quotes, character => if character = '"' then some (.triple 0) else none
  | .text, character => if character = '"' then some (.closed .literal) else inText character
  | .escape, character => if character = '\n' then none else some .text
  | .triple met, character =>
      if character = '"' then
        if met = 2 then some (.closed .literal) else some (.triple (met + 1))
      else if character = '\\' then some .tripleEscape
      else some (.triple 0)
  | .tripleEscape, _ => some (.triple 0)
  | .glyph, character =>
      if character = '\'' then some (.closed .character)
      else if character = '\n' then none
      else if character = '\\' then some .glyphEscape
      else some .glyph
  | .glyphEscape, character => if character = '\n' then none else some .glyph

def run : Mode → List Char → Option Mode
  | mode, [] => some mode
  | mode, character :: rest => (mode.next character).bind fun reached => reached.run rest

end Mode

def push (character : Char) : List Token → List Token
  | [] => []
  | ⟨kind, text⟩ :: later => ⟨kind, character :: text⟩ :: later

/-- The rest of the token that is being read, and all tokens behind it. -/
def scan : Mode → List Char → List Token
  | mode, [] => [⟨mode.kind, []⟩]
  | mode, character :: rest =>
      match mode.next character with
      | some reached => push character (scan reached rest)
      | none => ⟨mode.kind, []⟩ :: push character (scan (Mode.opening character) rest)

def tokens : List Char → List Token
  | [] => []
  | characters => scan .start characters

def textOf (tokens : List Token) : List Char :=
  tokens.flatMap Token.text

/-! ### Maximal tokens -/

/-- The token is one whole token, and takes no character that the others begin with. -/
structure Token.Ends (token : Token) (behind : List Char) (mode : Mode) : Prop where
  inhabited : token.text ≠ []
  reads : Mode.start.run token.text = some mode
  kind : mode.kind = token.kind
  stops : ∀ character ∈ behind.head?, mode.next character = none

/-- Each token is as long as it can be. -/
inductive Lexed : List Token → Prop
  | nil : Lexed []
  | cons {token : Token} {later : List Token} {mode : Mode}
      (ends : token.Ends (textOf later) mode) (others : Lexed later) : Lexed (token :: later)

theorem textOf_cons (token : Token) (later : List Token) :
    textOf (token :: later) = token.text ++ textOf later := List.flatMap_cons

theorem scan_stop {mode : Mode} {rest : List Char}
    (stops : ∀ character ∈ rest.head?, mode.next character = none) :
    scan mode rest = ⟨mode.kind, []⟩ :: tokens rest := by
  cases rest with
  | nil => rfl
  | cons character rest =>
      rw [scan, stops character rfl]
      rfl

theorem scan_append {mode reached : Mode} {taken rest : List Char}
    (reads : mode.run taken = some reached)
    (stops : ∀ character ∈ rest.head?, reached.next character = none) :
    scan mode (taken ++ rest) = ⟨reached.kind, taken⟩ :: tokens rest := by
  induction taken generalizing mode with
  | nil =>
      obtain rfl := Option.some.inj reads
      exact scan_stop stops
  | cons character taken ih =>
      obtain ⟨further, taking, reads⟩ := Option.bind_eq_some_iff.mp reads
      rw [List.cons_append, scan, taking]
      dsimp only
      rw [ih reads]
      rfl

private theorem exists_taken (mode : Mode) (characters : List Char) :
    ∃ taken rest reached, characters = taken ++ rest ∧ mode.run taken = some reached ∧
      ∀ character ∈ rest.head?, reached.next character = none := by
  induction characters generalizing mode with
  | nil => exact ⟨[], [], mode, rfl, rfl, nofun⟩
  | cons character rest ih =>
      cases taking : mode.next character with
      | none =>
          refine ⟨[], character :: rest, mode, rfl, rfl, fun other first => ?_⟩
          obtain rfl := Option.some.inj first
          exact taking
      | some further =>
          obtain ⟨taken, left, reached, rfl, reads, stops⟩ := ih further
          refine ⟨character :: taken, left, reached, rfl, ?_, stops⟩
          rw [Mode.run, taking]
          exact reads

theorem tokens_of_lexed {list : List Token} (lexed : Lexed list) : tokens (textOf list) = list := by
  induction lexed with
  | nil => rfl
  | @cons token later mode ends _ ih =>
      obtain ⟨character, text, begins⟩ := List.exists_cons_of_ne_nil ends.inhabited
      have whole := scan_append ends.reads ends.stops
      rw [textOf_cons]
      rw [begins] at whole ⊢
      rw [List.cons_append] at whole ⊢
      change scan .start _ = _
      rw [whole, ih, ends.kind, ← begins]

theorem lexed_tokens (characters : List Char) :
    Lexed (tokens characters) ∧ textOf (tokens characters) = characters := by
  induction size : characters.length using Nat.strongRecOn generalizing characters with
  | _ bound ih =>
      cases characters with
      | nil => exact ⟨.nil, rfl⟩
      | cons character rest =>
          obtain ⟨taken, left, reached, rfl, reads, stops⟩ :=
            exists_taken (Mode.opening character) rest
          have begins : Mode.start.run (character :: taken) = some reached := reads
          have first : tokens (character :: (taken ++ left)) =
              ⟨reached.kind, character :: taken⟩ :: tokens left := scan_append begins stops
          have shorter : left.length < bound := by
            rw [← size, List.length_cons, List.length_append]
            omega
          obtain ⟨others, same⟩ := ih left.length shorter left rfl
          rw [first, textOf_cons, same]
          refine ⟨.cons ⟨List.cons_ne_nil _ _, begins, rfl, ?_⟩ others, rfl⟩
          rw [same]
          exact stops

/-- The tokens of a text are the only maximal ones that make it up. -/
theorem tokens_eq_iff {characters : List Char} {list : List Token} :
    tokens characters = list ↔ Lexed list ∧ textOf list = characters := by
  constructor
  · rintro rfl
    exact lexed_tokens characters
  · rintro ⟨lexed, rfl⟩
    exact tokens_of_lexed lexed

end ElmClient.Elm.Lexer
