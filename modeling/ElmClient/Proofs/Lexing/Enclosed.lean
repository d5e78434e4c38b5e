/-
Texts of a document are enclosed. A text becomes one string literal, which ends at its own
last quote and stands for the text, or one doc comment, which holds no comment bracket beside
the two that enclose it. So no text goes on as code.
-/

import ElmClient.Proofs.Lexing.Code
import ElmClient.Proofs.Lexing.Rendering
import ElmClient.Proofs.Path.Literal
import ElmClient.Proofs.Tidy.Layout

namespace ElmClient.Elm

open Lexer Text

/-! ### Literals -/

private theorem visible_of_check {characters : List Char}
    (check : characters.all (!isControl ·) = true := by decide) :
    ∀ written ∈ characters, isControl written = false :=
  fun written member => (Bool.not_eq_true' _).mp (List.all_eq_true.mp check written member)

private theorem visible_upperHex4 (value : Nat) :
    ∀ digit ∈ upperHex4 value, isControl digit = false := by
  have each : ∀ small < 16, isControl (upperHexDigit small) = false := by decide
  have digit (value : Nat) : isControl (upperHexDigit (value % 16)) = false :=
    each _ (Nat.mod_lt _ (by decide))
  simp only [upperHex4, List.forall_mem_cons, digit, true_and]
  exact fun _ member => absurd member List.not_mem_nil

private theorem visible_escapeChar (character : Char) :
    ∀ written ∈ escapeChar character, isControl written = false := by
  unfold escapeChar
  split
  · exact visible_of_check
  · exact visible_of_check
  · exact visible_of_check
  · exact visible_of_check
  · exact visible_of_check
  · split
    · intro written member
      rw [List.mem_append, List.mem_append] at member
      rcases member with (lead | digit) | close
      · exact visible_of_check (by decide) written lead
      · exact visible_upperHex4 _ written digit
      · exact visible_of_check (by decide) written close
    case isFalse visible =>
      intro written member
      rw [List.mem_singleton.mp member]
      exact Bool.not_eq_true _ ▸ visible

theorem visible_stringLiteral (text : String) :
    ∀ written ∈ (stringLiteral text).toList, isControl written = false := by
  intro written member
  rw [stringLiteral, String.toList_ofList, literalChars] at member
  rcases List.mem_cons.mp member with rfl | inside
  · decide
  · rcases List.mem_append.mp inside with content | quote
    · obtain ⟨character, _, within⟩ := List.mem_flatMap.mp content
      exact visible_escapeChar character written within
    · rw [List.mem_singleton.mp quote]
      decide

/-- The literal is complete and stands for the text. -/
structure IsLiteralOf (text literal : String) : Prop where
  /-- It begins with a quote, and ends with the first one behind it that no backslash escapes. -/
  line : ∃ rest, literal.toList = '"' :: rest ∧ Line rest
  /-- No line feed and no other control character is in it. -/
  visible : ∀ character ∈ literal.toList, isControl character = false
  /-- Before any source but a further quote, the literal is one token. -/
  token : ∀ source : List Char, source.head? ≠ some '"' →
    tokens (literal.toList ++ source) = ⟨.literal, literal.toList⟩ :: tokens source
  /-- Before any source, the pattern for literals matches all of it, and nothing else. -/
  matched : ∀ source : List Char,
    emptyLiterals (literal.toList ++ source) = '"' :: '"' :: emptyLiterals source
  reads : readLiteral? literal = some text

private theorem isLiteralOf_stringLiteral (text : String) :
    IsLiteralOf text (stringLiteral text) where
  line := ⟨_, String.toList_ofList, line_literal text.toList⟩
  visible := visible_stringLiteral text
  token source apart := by
    rw [stringLiteral, String.toList_ofList]
    exact tokens_literal text.toList apart
  matched source := by
    rw [stringLiteral, String.toList_ofList, literalChars]
    exact emptyLiterals_line (line_literal text.toList) source
  reads := readLiteral?_stringLiteral text

/-! ### Doc comments -/

/-- One comment on lines of its own; of comment brackets it holds the two that enclose it. -/
structure IsComment (text : String) : Prop where
  /-- The first two characters open the comment, and nothing else does. -/
  opens : ∃ behind, text.toList = '\x7b' :: '-' :: behind
  opening : ∀ before behind, text.toList = before ++ '\x7b' :: '-' :: behind → before = []
  /-- It is closed at the end of its last line, and nowhere else. -/
  closes : ∃ before, text.toList = before ++ '-' :: '\x7d' :: ['\n']
  closing : ∀ before behind, text.toList = before ++ '-' :: '\x7d' :: behind → behind = ['\n']
  /-- Before any source, the comment is one token. -/
  token : ∀ source : List Char, ∃ comment,
    tokens (text.toList ++ source) = ⟨.comment, comment⟩ :: ⟨.symbol, ['\n']⟩ :: tokens source
  /-- Before any source, the pattern for comments matches all of it, and nothing else. -/
  matched : ∀ source : List Char,
    blankBlocks (text.toList ++ source) = ' ' :: '\n' :: blankBlocks source

def docContent (text : List Char) : List Char :=
  "| ".toList ++ guardComment text ++ ['\n']

theorem commentChars_eq (text : List Char) :
    commentChars text = commentOf (docContent text) ++ ['\n'] := by
  simp [commentChars, commentOf, docContent]

private theorem noOpening_docContent (text : List Char) :
    hasPair '\x7b' '-' ('-' :: (docContent text ++ '-' :: '\x7d' :: ['\n'])) = false := by
  have free : hasPair '\x7b' '-'
      ("-| ".toList ++ guardComment text ++ "\n-\x7d\n".toList) = false :=
    hasPair_framed (by decide) (hasPair_guardComment text).1 (by decide) (by decide) (by decide)
  rw [← free, docContent]
  simp

private theorem noClosing_docContent (text : List Char) :
    hasPair '-' '\x7d' (docContent text) = false ∧
      hasPair '-' '\x7d' ('\x7b' :: '-' :: (docContent text ++ ['-'])) = false := by
  obtain ⟨-, inside⟩ := hasPair_guardComment text
  refine ⟨hasPair_framed (by decide) inside (by decide) (by decide) (by decide), ?_⟩
  have free : hasPair '-' '\x7d' ("\x7b-| ".toList ++ guardComment text ++ "\n-".toList) = false :=
    hasPair_framed (by decide) inside (by decide) (by decide) (by decide)
  rw [← free, docContent]
  simp

private theorem opening_commentChars {text before behind : List Char}
    (split : commentChars text = before ++ '\x7b' :: '-' :: behind) : before = [] := by
  cases before with
  | nil => rfl
  | cons first before =>
      have later : '-' :: (docContent text ++ '-' :: '\x7d' :: ['\n']) =
          before ++ '\x7b' :: '-' :: behind := by
        rw [commentChars_eq, commentOf] at split
        refine Eq.trans ?_ (List.cons.inj split).2
        simp
      have free := noOpening_docContent text
      rw [later, hasPair_of_split] at free
      contradiction

private theorem closing_commentChars {text before behind : List Char}
    (split : commentChars text = before ++ '-' :: '\x7d' :: behind) : behind = ['\n'] := by
  obtain ⟨-, free⟩ := noClosing_docContent text
  have cut : (before ++ ['-', '\x7d']) ++ behind =
      ('\x7b' :: '-' :: (docContent text ++ ['-'])) ++ ['\x7d', '\n'] := by
    rw [commentChars_eq, commentOf] at split
    simpa using split.symm
  -- the bracket would end in front of the last two characters, with them, or between them
  rcases List.append_eq_append_iff.mp cut with ⟨between, whole, -⟩ | ⟨between, whole, rest⟩
  · rw [whole, List.append_assoc, List.cons_append, List.singleton_append, hasPair_of_split] at free
    contradiction
  · cases between with
    | nil =>
        rw [List.append_nil] at whole
        rw [← whole, hasPair_of_split] at free
        contradiction
    | cons first between =>
        obtain ⟨-, rest⟩ := List.cons.inj rest
        cases between with
        | nil => exact rest.symm
        | cons last between =>
            obtain ⟨rfl, ended⟩ := List.cons.inj rest
            obtain ⟨rfl, -⟩ := List.append_eq_nil_iff.mp ended.symm
            have ends := congrArg List.getLast? whole
            rw [List.getLast?_append_cons, List.getLast?_append_cons] at ends
            have same : '\x7d' = '\n' := Option.some.inj ends
            contradiction

private theorem isComment_docComment {doc : Option String}
    (inhabited : trimChars (doc.getD "").toList ≠ []) : IsComment (docComment doc) := by
  obtain ⟨first, rest, text⟩ := List.exists_cons_of_ne_nil inhabited
  have written : (docComment doc).toList = commentChars (first :: rest) := by
    rw [docComment, text]
    exact String.toList_ofList
  have whole := commentChars_eq (first :: rest)
  refine ⟨?_, ?_, ?_, ?_, fun source => ?_, fun source => ?_⟩
  · exact ⟨_, written.trans whole⟩
  · exact fun before behind split => opening_commentChars (written.symm.trans split)
  · refine ⟨'\x7b' :: '-' :: docContent (first :: rest), ?_⟩
    rw [written, whole, commentOf]
    simp
  · exact fun before behind split => closing_commentChars (written.symm.trans split)
  · rw [tokens_docComment, docTokens, text]
    exact ⟨_, rfl⟩
  · rw [written, whole, List.append_assoc]
    refine (blanked_commentOf (noClosing_docContent _).1 _).trans (congrArg (' ' :: ·) ?_)
    exact blanked_keep fun same => absurd same (by decide)

theorem docComment_blank {doc : Option String} (blank : trimChars (doc.getD "").toList = []) :
    docComment doc = "" := by
  rw [docComment, blank]

/-- A text of a document is one literal where it is quoted, and where it documents something
it is one comment, or nothing if it is blank. -/
theorem enclosed (text : String) :
    IsLiteralOf text (stringLiteral text) ∧
      (if (trimChars text.toList).isEmpty then docComment (some text) = ""
        else IsComment (docComment (some text))) := by
  refine ⟨isLiteralOf_stringLiteral text, ?_⟩
  split
  case isTrue blank => exact docComment_blank (List.isEmpty_iff.mp blank)
  case isFalse visible =>
    exact isComment_docComment fun blank => visible (List.isEmpty_iff.mpr blank)

/-- Brackets that overlap, and a quote behind a backslash. -/
example : docComment (some " -\x7b-\x7d\x7b--\x7d ") = "\x7b-| -\x7b - \x7d\x7b -- \x7d\n-\x7d\n" ∧
    stringLiteral "\\\"\n" = "\"\\\\\\\"\\n\"" := by
  decide

end ElmClient.Elm
