/-
YAML tokens. Indentation becomes start and end tokens. Whether a scalar was a
mapping key shows only at the colon behind it, so a key token is then inserted
before the scalar; such a simple key stays on one line and within 1024 bytes. A
byte order mark at the beginning of a line is passed, but it fills a column.
-/

import ElmClient.Yaml.Scalar
import ElmClient.Yaml.Tag

namespace ElmClient.Yaml

inductive Token where
  | versionDirective (major minor : Nat)
  | tagDirective (handle : String) (lead : Tag)
  | documentStart
  | documentEnd
  | streamEnd
  | blockSequenceStart
  | blockMappingStart
  | blockEnd
  | flowSequenceStart
  | flowSequenceEnd
  | flowMappingStart
  | flowMappingEnd
  | blockEntry
  | flowEntry
  | key
  | value
  | alias (name : String)
  | anchor (name : String)
  | tag (handle : String) (suffix : Tag)
  | scalar (text : String) (plain : Bool)
deriving DecidableEq, Repr, Inhabited

/-- A place where a simple key may have begun. A required key must be followed
by its colon. -/
structure SimpleKey where
  possible : Bool
  required : Bool
  position : Nat
  index : Nat
  line : Nat
  column : Nat

def SimpleKey.none : SimpleKey :=
  { possible := false, required := false, position := 0, index := 0, line := 0, column := 0 }

structure Scanner where
  cursor : Cursor
  tokens : Array Token
  flowLevel : Nat
  indent : Int
  outer : List Int
  keyAllowed : Bool
  keys : List SimpleKey

namespace Scanner

def start (characters : List Char) : Scanner :=
  { cursor := Cursor.start characters, tokens := #[], flowLevel := 0, indent := -1,
    outer := [], keyAllowed := true, keys := [SimpleKey.none] }

def inFlow (scanner : Scanner) : Bool :=
  scanner.flowLevel != 0

def column (scanner : Scanner) : Int :=
  scanner.cursor.column

def push (scanner : Scanner) (token : Token) : Scanner :=
  { scanner with tokens := scanner.tokens.push token }

def insertAt (scanner : Scanner) (position : Nat) (token : Token) : Scanner :=
  { scanner with tokens := scanner.tokens.insertIdxIfInBounds position token }

def skip (scanner : Scanner) (count : Nat) : Scanner :=
  { scanner with cursor := scanner.cursor.skip count }

def allowKey (scanner : Scanner) (allowed : Bool) : Scanner :=
  { scanner with keyAllowed := allowed }

/-! ### Simple keys -/

def removeKey? (scanner : Scanner) : Option Scanner :=
  match scanner.keys with
  | [] => some scanner
  | key :: rest =>
      if key.possible && key.required then none
      else some { scanner with keys := { key with possible := false } :: rest }

def saveKey? (scanner : Scanner) : Option Scanner :=
  if scanner.keyAllowed then do
    let scanner ← scanner.removeKey?
    let cursor := scanner.cursor
    let key : SimpleKey :=
      { possible := true
        required := !scanner.inFlow && scanner.indent == scanner.column
        position := scanner.tokens.size
        index := cursor.index, line := cursor.line, column := cursor.column }
    some { scanner with keys := key :: scanner.keys.drop 1 }
  else some scanner

/-- Keys that began too far back are none. -/
def dropStaleKeys? (scanner : Scanner) : Option Scanner := do
  let keys ← scanner.keys.mapM fun key =>
    if key.possible && (key.line < scanner.cursor.line || key.index + 1024 < scanner.cursor.index)
    then if key.required then none else some { key with possible := false }
    else some key
  some { scanner with keys := keys }

/-! ### Indentation -/

def rollIndent (scanner : Scanner) (column : Int) (position : Nat) (token : Token) : Scanner :=
  if !scanner.inFlow && scanner.indent < column then
    { scanner with indent := column, outer := scanner.indent :: scanner.outer }.insertAt
      position token
  else scanner

def unrollTo (column : Int) : List Int → Int → Array Token → List Int × Int × Array Token
  | [], indent, tokens => ([], indent, tokens)
  | outer :: rest, indent, tokens =>
      if column < indent then unrollTo column rest outer (tokens.push .blockEnd)
      else (outer :: rest, indent, tokens)

def unrollIndent (scanner : Scanner) (column : Int) : Scanner :=
  if scanner.inFlow then scanner
  else
    let (outer, indent, tokens) := unrollTo column scanner.outer scanner.indent scanner.tokens
    { scanner with outer := outer, indent := indent, tokens := tokens }

/-! ### Blanks and comments -/

def skipOrderMark (cursor : Cursor) : Cursor :=
  if cursor.column == 0 && cursor.sees '\ufeff' then cursor.skip 1 else cursor

/-- Pass blanks, comments and line breaks. Tabs may not stand where a key could. -/
def skipBlanks : Nat → Scanner → Scanner
  | 0, scanner => scanner
  | fuel + 1, scanner =>
      let tabs := scanner.inFlow || !scanner.keyAllowed
      let cursor := (skipOrderMark scanner.cursor).skipWhile fun character =>
        character == ' ' || (tabs && character == '\t')
      let cursor :=
        if cursor.sees '#' then cursor.skipWhile fun character => !isBreak character else cursor
      if cursor.seesBreak then
        skipBlanks fuel
          { scanner with
            cursor := cursor.takeBreak.2
            keyAllowed := scanner.keyAllowed || !scanner.inFlow }
      else { scanner with cursor := cursor }

/-! ### Directives, anchors and tags -/

def takeName (cursor : Cursor) : String × Cursor :=
  let name := cursor.rest.takeWhile isNamePart
  (String.ofList name, cursor.skip name.length)

def takeVersionNumber? (cursor : Cursor) : Option (Nat × Cursor) :=
  let digits := cursor.rest.takeWhile Char.isDigit
  if digits.isEmpty || 9 < digits.length then none
  else some (JsonNumber.naturalOf digits, cursor.skip digits.length)

/-- A tag handle: `!`, `!!` or `!name!`; a directive accepts nothing else. -/
def takeHandle? (directive : Bool) (cursor : Cursor) : Option (String × Cursor) :=
  if !cursor.sees '!' then none
  else
    let (name, next) := takeName (cursor.skip 1)
    if next.sees '!' then some ("!" ++ name ++ "!", next.skip 1)
    else if directive && name != "" then none
    else some ("!" ++ name, next)

def tagMarks : List Char :=
  [';', '/', '?', ':', '@', '&', '=', '+', '$', '.', '%', '!', '~', '*', '\'', '(', ')']

def isTagChar (all : Bool) (character : Char) : Bool :=
  isNamePart character || tagMarks.contains character
    || (all && [',', '[', ']'].contains character)

def takeTagBytes? (all : Bool) (lead : String) (cursor : Cursor) : Option (Tag × Cursor) := do
  let characters := cursor.rest.takeWhile (isTagChar all)
  if lead.isEmpty && characters.isEmpty then none
  else
    let bytes ← Tag.unescape? 0 characters
    some (Tag.cut (Tag.ofText (String.ofList (lead.toList.drop 1)) ++ bytes),
      cursor.skip characters.length)

/-- A tag between angle brackets, or behind a handle. Without a handle of its own
it belongs to `!`, unless nothing follows the mark. -/
def takeTag? (inFlow : Bool) (cursor : Cursor) : Option (Token × Cursor) := do
  let (token, next) ←
    if cursor.seesAt 1 '<' then do
      let (suffix, next) ← takeTagBytes? true "" (cursor.skip 2)
      if next.sees '>' then some (Token.tag "" suffix, next.skip 1) else none
    else do
      let (handle, next) ← takeHandle? false cursor
      if 2 ≤ handle.length && handle.toList.getLast? == some '!' then
        let (suffix, next) ← takeTagBytes? false "" next
        some (Token.tag handle suffix, next)
      else
        let (suffix, next) ← takeTagBytes? false handle next
        if suffix.isEmpty then some (Token.tag "" [Tag.mark], next)
        else some (Token.tag "!" suffix, next)
  if next.blankOrEndAt 0 || (inFlow && next.sees ',') then some (token, next) else none

def takeAnchorName? (cursor : Cursor) : Option (String × Cursor) :=
  let (name, next) := takeName (cursor.skip 1)
  let ended := next.blankOrEndAt 0
    || next.peek.any fun character => ['?', ':', ',', ']', '\x7d', '%', '@', '`'].contains character
  if name.isEmpty || !ended then none else some (name, next)

def takeDirective? (cursor : Cursor) : Option (Token × Cursor) := do
  let (name, next) := takeName (cursor.skip 1)
  if name.isEmpty || !next.blankOrEndAt 0 then none
  else
    let next := next.skipWhile isSpaceOrTab
    let (token, next) ←
      if name == "YAML" then do
        let (major, next) ← takeVersionNumber? next
        if !next.sees '.' then none
        else
          let (minor, next) ← takeVersionNumber? (next.skip 1)
          some (Token.versionDirective major minor, next)
      else if name == "TAG" then do
        let (handle, next) ← takeHandle? true next
        if !next.seesBlank then none
        else
          let (lead, next) ← takeTagBytes? true "" (next.skipWhile isSpaceOrTab)
          if next.blankOrEndAt 0 then some (Token.tagDirective handle lead, next) else none
      else none
    let next := next.skipWhile isSpaceOrTab
    let next := if next.sees '#' then next.skipWhile fun character => !isBreak character else next
    if next.breakOrEnd then some (token, next.takeBreak.2) else none

/-! ### Tokens -/

def addDirective? (scanner : Scanner) : Option Scanner := do
  let scanner ← (scanner.unrollIndent (-1)).removeKey?
  let (token, cursor) ← takeDirective? scanner.cursor
  some ({ scanner with cursor := cursor }.allowKey false |>.push token)

def addDocumentMark? (scanner : Scanner) : Option Scanner := do
  let scanner ← (scanner.unrollIndent (-1)).removeKey?
  let token := if scanner.cursor.sees '-' then Token.documentStart else .documentEnd
  some ((scanner.allowKey false).skip 3 |>.push token)

def openFlow? (scanner : Scanner) (token : Token) : Option Scanner := do
  let scanner ← scanner.saveKey?
  some ({ scanner with
    keys := SimpleKey.none :: scanner.keys
    flowLevel := scanner.flowLevel + 1
    keyAllowed := true }.skip 1 |>.push token)

def closeFlow? (scanner : Scanner) (token : Token) : Option Scanner := do
  let scanner ← scanner.removeKey?
  let scanner :=
    if scanner.inFlow then
      { scanner with flowLevel := scanner.flowLevel - 1, keys := scanner.keys.drop 1 }
    else scanner
  some ((scanner.allowKey false).skip 1 |>.push token)

def addFlowEntry? (scanner : Scanner) : Option Scanner := do
  let scanner ← scanner.removeKey?
  some ((scanner.allowKey true).skip 1 |>.push .flowEntry)

def openBlock? (scanner : Scanner) (token : Token) : Option Scanner :=
  if scanner.inFlow then some scanner
  else if !scanner.keyAllowed then none
  else some (scanner.rollIndent scanner.column scanner.tokens.size token)

def addBlockEntry? (scanner : Scanner) : Option Scanner := do
  let scanner ← (← scanner.openBlock? .blockSequenceStart).removeKey?
  some ((scanner.allowKey true).skip 1 |>.push .blockEntry)

def addKey? (scanner : Scanner) : Option Scanner := do
  let scanner ← (← scanner.openBlock? .blockMappingStart).removeKey?
  some ((scanner.allowKey (!scanner.inFlow)).skip 1 |>.push .key)

def addValue? (scanner : Scanner) : Option Scanner :=
  match scanner.keys with
  | key :: rest =>
      if key.possible then
        let scanner := scanner.insertAt key.position .key
        let scanner := scanner.rollIndent key.column key.position .blockMappingStart
        let scanner := { scanner with keys := { key with possible := false } :: rest }
        some ((scanner.allowKey false).skip 1 |>.push .value)
      else do
        let scanner ← scanner.openBlock? .blockMappingStart
        some ((scanner.allowKey (!scanner.inFlow)).skip 1 |>.push .value)
  | [] => none

def addAnchor? (scanner : Scanner) (make : String → Token) : Option Scanner := do
  let scanner ← scanner.saveKey?
  let (name, cursor) ← takeAnchorName? scanner.cursor
  some ({ scanner with cursor := cursor }.allowKey false |>.push (make name))

def addTag? (scanner : Scanner) : Option Scanner := do
  let scanner ← scanner.saveKey?
  let (token, cursor) ← takeTag? scanner.inFlow scanner.cursor
  some ({ scanner with cursor := cursor }.allowKey false |>.push token)

def addBlockScalar? (scanner : Scanner) (literal : Bool) : Option Scanner := do
  let scanner ← scanner.removeKey?
  let (text, cursor) ← Scalar.block? literal scanner.indent scanner.cursor
  some ({ scanner with cursor := cursor }.allowKey true |>.push (.scalar text false))

def addQuoted? (scanner : Scanner) (single : Bool) : Option Scanner := do
  let scanner ← scanner.saveKey?
  let (text, cursor) ← Scalar.quoted? single scanner.cursor
  some ({ scanner with cursor := cursor }.allowKey false |>.push (.scalar text false))

def addPlain? (scanner : Scanner) : Option Scanner := do
  let scanner ← scanner.saveKey?
  let (text, brokeLine, cursor) ←
    Scalar.plain? scanner.inFlow (scanner.indent + 1) scanner.cursor
  some ({ scanner with cursor := cursor }.allowKey brokeLine |>.push (.scalar text true))

def indicators : List Char :=
  ['-', '?', ':', ',', '[', ']', '\x7b', '\x7d', '#', '&', '*', '!', '|', '>', '\'', '"', '%',
    '@', '`']

def startsPlain (scanner : Scanner) (character : Char) : Bool :=
  let cursor := scanner.cursor
  !(cursor.blankOrEndAt 0 || indicators.contains character)
    || (character == '-' && !(cursor.rest[1]?.any isSpaceOrTab))
    || (!scanner.inFlow && (character == '?' || character == ':') && !cursor.blankOrEndAt 1)

def addToken? (scanner : Scanner) (character : Char) : Option Scanner :=
  let cursor := scanner.cursor
  let alone := cursor.blankOrEndAt 1
  if cursor.column == 0 && character == '%' then scanner.addDirective?
  else if cursor.atDocumentMark then scanner.addDocumentMark?
  else if character == '[' then scanner.openFlow? .flowSequenceStart
  else if character == '\x7b' then scanner.openFlow? .flowMappingStart
  else if character == ']' then scanner.closeFlow? .flowSequenceEnd
  else if character == '\x7d' then scanner.closeFlow? .flowMappingEnd
  else if character == ',' then scanner.addFlowEntry?
  else if character == '-' && alone then scanner.addBlockEntry?
  else if character == '?' && (scanner.inFlow || alone) then scanner.addKey?
  else if character == ':' && (scanner.inFlow || alone) then scanner.addValue?
  else if character == '*' then scanner.addAnchor? .alias
  else if character == '&' then scanner.addAnchor? .anchor
  else if character == '!' then scanner.addTag?
  else if character == '|' && !scanner.inFlow then scanner.addBlockScalar? true
  else if character == '>' && !scanner.inFlow then scanner.addBlockScalar? false
  else if character == '\'' then scanner.addQuoted? true
  else if character == '"' then scanner.addQuoted? false
  else if scanner.startsPlain character then scanner.addPlain?
  else none

def finish? (scanner : Scanner) : Option (List Token) := do
  let scanner ← (scanner.unrollIndent (-1)).removeKey?
  some ((scanner.push .streamEnd).tokens.toList)

def run? : Nat → Scanner → Option (List Token)
  | 0, _ => none
  | fuel + 1, scanner => do
      let scanner := skipBlanks (scanner.cursor.rest.length + 1) scanner
      let scanner ← scanner.dropStaleKeys?
      let scanner := scanner.unrollIndent scanner.column
      match scanner.cursor.peek with
      | none => scanner.finish?
      | some character => run? fuel (← scanner.addToken? character)

end Scanner

def Token.scan? (text : String) : Option (List Token) :=
  let characters := text.toList
  if characters.all isPrintable then
    (Scanner.start characters).run? (2 * characters.length + 2)
  else none

end ElmClient.Yaml
