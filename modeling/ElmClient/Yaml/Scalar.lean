/-
The text of YAML scalars. Plain and quoted scalars fold their lines: one break
becomes a space, further breaks are kept. Literal scalars keep their lines and
folded ones fold them where no line is indented further.
-/

import ElmClient.Json.Reader
import ElmClient.Yaml.Cursor

namespace ElmClient.Yaml.Scalar

/-! ### Folding -/

structure Gap where
  blanks : List Char
  first : Option (List Char)
  further : List Char

def Gap.empty : Gap :=
  { blanks := [], first := none, further := [] }

/-- What a gap contributes: its blanks, or its folded line breaks. -/
def Gap.fold (gap : Gap) : List Char :=
  match gap.first with
  | none => gap.blanks
  | some ['\n'] => if gap.further.isEmpty then [' '] else gap.further
  | some first => first ++ gap.further

/-- Pass blanks and line breaks. With a limit, a tab left of that column is
refused after a break. -/
def takeGap (limit : Option Int) : Nat → Gap → Cursor → Option (Gap × Cursor)
  | 0, _, _ => none
  | fuel + 1, gap, cursor =>
      match cursor.peek with
      | none => some (gap, cursor)
      | some character =>
          if isSpaceOrTab character then
            if gap.first.isSome then
              if character == '\t' && limit.any (fun column => (cursor.column : Int) < column) then
                none
              else takeGap limit fuel gap (cursor.skip 1)
            else
              takeGap limit fuel { gap with blanks := gap.blanks ++ [character] } (cursor.skip 1)
          else if isBreak character then
            let (text, cursor) := cursor.takeBreak
            if gap.first.isSome then
              takeGap limit fuel { gap with further := gap.further ++ text } cursor
            else
              takeGap limit fuel { gap with blanks := [], first := some text } cursor
          else some (gap, cursor)

/-! ### Plain scalars -/

/-- Whether a plain scalar ends here; `none` where it must not. -/
def plainEnds? (inFlow : Bool) (cursor : Cursor) : Option Bool :=
  match cursor.rest with
  | [] => some true
  | character :: rest =>
      let next := rest.head?
      if inFlow && character == ':'
          && next.any (fun other => [',', '?', '[', ']', '\x7b', '\x7d'].contains other) then
        none
      else
        some (isSpaceOrTab character || isBreak character
          || (character == ':' && cursor.blankOrEndAt 1)
          || (inFlow && [',', '[', ']', '\x7b', '\x7d'].contains character))

def takePlainWord (inFlow : Bool) : Nat → List Char → Cursor → Option (List Char × Cursor)
  | 0, _, _ => none
  | fuel + 1, collected, cursor => do
      if ← plainEnds? inFlow cursor then some (collected, cursor)
      else
        match cursor.peek with
        | none => some (collected, cursor)
        | some character => takePlainWord inFlow fuel (character :: collected) (cursor.skip 1)

def takePlain (inFlow : Bool) (indent : Int) :
    Nat → Gap → List Char → Cursor → Option (String × Bool × Cursor)
  | 0, _, _, _ => none
  | fuel + 1, gap, collected, cursor => do
      let finish := some (String.ofList collected.reverse, gap.first.isSome, cursor)
      if cursor.atDocumentMark || cursor.sees '#' then finish
      else
        let (word, next) ← takePlainWord inFlow (cursor.rest.length + 1) [] cursor
        let (gap, collected) :=
          if word.isEmpty then (gap, collected)
          else (Gap.empty, word ++ (gap.fold.reverse ++ collected))
        if !(next.seesBlank || next.seesBreak) then
          some (String.ofList collected.reverse, gap.first.isSome, next)
        else
          let (gap, next) ← takeGap (some indent) (next.rest.length + 1) gap next
          if !inFlow && (next.column : Int) < indent then
            some (String.ofList collected.reverse, gap.first.isSome, next)
          else takePlain inFlow indent fuel gap collected next

def plain? (inFlow : Bool) (indent : Int) (cursor : Cursor) : Option (String × Bool × Cursor) :=
  takePlain inFlow indent (cursor.rest.length + 1) Gap.empty [] cursor

/-! ### Quoted scalars -/

def simpleEscape? : Char → Option Char
  | '0' => some '\x00'
  | 'a' => some '\x07'
  | 'b' => some '\x08'
  | 't' => some '\t'
  | '\t' => some '\t'
  | 'n' => some '\n'
  | 'v' => some '\x0b'
  | 'f' => some '\x0c'
  | 'r' => some '\r'
  | 'e' => some '\x1b'
  | ' ' => some ' '
  | '"' => some '"'
  | '/' => some '/'
  | '\\' => some '\\'
  | 'N' => some '\u0085'
  | '_' => some '\u00a0'
  | 'L' => some '\u2028'
  | 'P' => some '\u2029'
  | _ => none

def codeLength? : Char → Option Nat
  | 'x' => some 2
  | 'u' => some 4
  | 'U' => some 8
  | _ => none

def codeChar? (digits : List Char) : Option Char := do
  let values ← digits.mapM Json.hexValue?
  let code := values.foldl (fun value digit => value * 16 + digit) 0
  if (0xD800 ≤ code && code ≤ 0xDFFF) || 0x10FFFF < code then none
  else some (Char.ofNat code)

def escape? (cursor : Cursor) : Option (Char × Cursor) :=
  match cursor.rest with
  | _ :: mark :: rest =>
      match codeLength? mark with
      | some count =>
          if rest.length < count then none
          else do some (← codeChar? (rest.take count), cursor.skip (2 + count))
      | none => do some (← simpleEscape? mark, cursor.skip 2)
  | _ => none

inductive RunEnd where
  | quote
  | blank
  | escapedBreak

def takeQuotedRun (single : Bool) :
    Nat → List Char → Cursor → Option (List Char × RunEnd × Cursor)
  | 0, _, _ => none
  | fuel + 1, collected, cursor =>
      match cursor.rest with
      | [] => some (collected, .blank, cursor)
      | character :: rest =>
          if isSpaceOrTab character || isBreak character then some (collected, .blank, cursor)
          else if single && character == '\'' then
            if rest.head? == some '\'' then
              takeQuotedRun single fuel ('\'' :: collected) (cursor.skip 2)
            else some (collected, .quote, cursor)
          else if !single && character == '"' then some (collected, .quote, cursor)
          else if !single && character == '\\' then
            if rest.head?.any isBreak then
              some (collected, .escapedBreak, (cursor.skip 1).takeBreak.2)
            else do
              let (character, cursor) ← escape? cursor
              takeQuotedRun single fuel (character :: collected) cursor
          else takeQuotedRun single fuel (character :: collected) (cursor.skip 1)

def takeQuoted (single : Bool) : Nat → List Char → Cursor → Option (String × Cursor)
  | 0, _, _ => none
  | fuel + 1, collected, cursor => do
      if cursor.atDocumentMark || cursor.rest.isEmpty then none
      else
        let (collected, runEnd, cursor) ←
          takeQuotedRun single (cursor.rest.length + 1) collected cursor
        match runEnd with
        | .quote => some (String.ofList collected.reverse, cursor.skip 1)
        | .blank =>
            let (gap, cursor) ← takeGap none (cursor.rest.length + 1) Gap.empty cursor
            takeQuoted single fuel (gap.fold.reverse ++ collected) cursor
        | .escapedBreak =>
            let gap := { Gap.empty with first := some [] }
            let (gap, cursor) ← takeGap none (cursor.rest.length + 1) gap cursor
            takeQuoted single fuel (gap.fold.reverse ++ collected) cursor

def quoted? (single : Bool) (cursor : Cursor) : Option (String × Cursor) :=
  takeQuoted single (cursor.rest.length + 1) [] (cursor.skip 1)

/-! ### Block scalars -/

inductive Chomping where
  | strip
  | clip
  | keep

def chomping? : Char → Option Chomping
  | '+' => some .keep
  | '-' => some .strip
  | _ => none

/-- The indicators behind `|` or `>`, in either order. -/
def blockHeader? (cursor : Cursor) : Option (Chomping × Option Nat × Cursor) :=
  let digit? (cursor : Cursor) : Option (Option Nat × Cursor) :=
    match cursor.peek with
    | some digit =>
        if digit.isDigit then
          if digit == '0' then none else some (some (digit.toNat - '0'.toNat), cursor.skip 1)
        else some (none, cursor)
    | none => some (none, cursor)
  match cursor.peek.bind chomping? with
  | some chomping => do
      let (increment, cursor) ← digit? (cursor.skip 1)
      some (chomping, increment, cursor)
  | none => do
      let (increment, cursor) ← digit? cursor
      match increment, cursor.peek.bind chomping? with
      | some _, some chomping => some (chomping, increment, cursor.skip 1)
      | _, _ => some (.clip, increment, cursor)

/-- Pass indentation and empty lines. Without a known indentation all spaces are
passed; the text of the breaks and the widest column are returned. -/
def takeBlockBreaks (indent : Option Nat) :
    Nat → List Char → Nat → Cursor → Option (List Char × Nat × Cursor)
  | 0, _, _, _ => none
  | fuel + 1, breaks, widest, cursor =>
      let spaces := (cursor.rest.takeWhile (· == ' ')).length
      let count :=
        match indent with
        | none => spaces
        | some column => min spaces (column - cursor.column)
      let cursor := cursor.skip count
      let widest := max widest cursor.column
      let indenting :=
        match indent with
        | none => true
        | some column => cursor.column < column
      if indenting && cursor.sees '\t' then none
      else if cursor.seesBreak then
        let (text, cursor) := cursor.takeBreak
        takeBlockBreaks indent fuel (breaks ++ text) widest cursor
      else some (breaks, widest, cursor)

/-- Lines collected so far, the break behind the last one and the breaks after it. -/
structure BlockLines where
  collected : List Char
  lead : List Char
  trailing : List Char
  afterBlank : Bool

def takeBlockLines (literal : Bool) (indent : Nat) :
    Nat → BlockLines → Cursor → Option (BlockLines × Cursor)
  | 0, _, _ => none
  | fuel + 1, lines, cursor =>
      if cursor.column != indent || cursor.rest.isEmpty then some (lines, cursor)
      else do
        let startsBlank := cursor.seesBlank
        let folds := !literal && lines.lead == ['\n'] && !lines.afterBlank && !startsBlank
        let joint :=
          if folds then (if lines.trailing.isEmpty then [' '] else []) else lines.lead
        let line := cursor.rest.takeWhile fun character => !isBreak character
        let collected := line.reverse ++ ((joint ++ lines.trailing).reverse ++ lines.collected)
        let (lead, cursor) := (cursor.skip line.length).takeBreak
        let (trailing, _, cursor) ←
          takeBlockBreaks (some indent) (cursor.rest.length + 1) [] 0 cursor
        takeBlockLines literal indent fuel
          { collected := collected, lead := lead, trailing := trailing, afterBlank := startsBlank }
          cursor

def block? (literal : Bool) (parent : Int) (cursor : Cursor) : Option (String × Cursor) := do
  let (chomping, increment, cursor) ← blockHeader? (cursor.skip 1)
  let cursor := cursor.skipWhile isSpaceOrTab
  let cursor :=
    if cursor.sees '#' then cursor.skipWhile fun character => !isBreak character else cursor
  if !cursor.breakOrEnd then none
  else
    let cursor := cursor.takeBreak.2
    let stated : Option Nat := increment.map fun count => (max parent 0).toNat + count
    let (trailing, widest, cursor) ← takeBlockBreaks stated (cursor.rest.length + 1) [] 0 cursor
    let indent := stated.getD (max (max widest (parent + 1).toNat) 1)
    let (lines, cursor) ←
      takeBlockLines literal indent (cursor.rest.length + 1)
        { collected := [], lead := [], trailing := trailing, afterBlank := false } cursor
    let tail :=
      match chomping with
      | .strip => []
      | .clip => lines.lead
      | .keep => lines.lead ++ lines.trailing
    some (String.ofList (lines.collected.reverse ++ tail), cursor)

end ElmClient.Yaml.Scalar
