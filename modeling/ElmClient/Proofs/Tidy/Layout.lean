/-
Layout keeps texts tidy. Lines of a tidy text are tidy, since no token of it holds a line
feed beside other characters, and so texts can be indented and set into records and lists.
-/

import ElmClient.Elm.Layout
import ElmClient.Proofs.Lexing.Tidy
import ElmClient.Proofs.Name.Proper
import ElmClient.Proofs.Text.Split

namespace ElmClient.Elm

open Lexer Text

/-! ### Lines -/

namespace Lexer

private theorem Token.Tidy.feed {token : Token} (tidy : token.Tidy) (feed : '\n' ∈ token.text) :
    token.text = ['\n'] := by
  cases tidy with
  | name regular => exact absurd (isNamePart_of_isRegular regular _ feed) (by decide)
  | symbol => rw [List.mem_singleton.mp feed]
  | literal line =>
      rcases List.mem_cons.mp feed with quote | later
      · exact absurd quote (by decide)
      · exact absurd later line.no_feed

private theorem Token.Tidy.noReturn {token : Token} (tidy : token.Tidy) :
    token.text.getLast? ≠ some '\r' := by
  intro last
  cases tidy with
  | name regular =>
      exact absurd (isNamePart_of_isRegular regular _ (List.mem_of_getLast? last)) (by decide)
  | symbol _ _ _ feed => exact feed (Option.some.inj last)
  | literal line =>
      rw [List.getLast?_cons, line.getLast?] at last
      exact absurd (Option.some.inj last) (by decide)

private theorem isTidy_of_mem_splitChars {list : List Token} (lexed : Lexed list)
    (tidy : ∀ token ∈ list, token.isTidy = true) :
    ∀ line ∈ splitChars '\n' (textOf list), isTidy line = true := by
  induction lexed with
  | nil => decide
  | @cons token later mode ends others ih =>
      obtain ⟨tokenTidy, laterTidy⟩ := List.forall_mem_cons.mp tidy
      have laterLines := ih laterTidy
      rw [textOf_cons]
      by_cases feed : '\n' ∈ token.text
      · rw [(Token.tidy_of_isTidy tokenTidy).feed feed, List.singleton_append, splitChars,
          if_pos rfl]
        exact List.forall_mem_cons.mpr ⟨rfl, laterLines⟩
      · obtain ⟨line, lines, split⟩ :=
          List.exists_cons_of_ne_nil (splitChars_ne_nil '\n' (textOf later))
        rw [split] at laterLines
        obtain ⟨lineTidy, linesTidy⟩ := List.forall_mem_cons.mp laterLines
        rw [splitChars_append_of_not_mem feed split]
        refine List.forall_mem_cons.mpr ⟨?_, linesTidy⟩
        obtain ⟨lineLexed, lineWhole⟩ := lexed_tokens line
        have whole : tokens (token.text ++ line) = token :: tokens line := by
          refine tokens_eq_iff.mpr
            ⟨.cons ⟨ends.inhabited, ends.reads, ends.kind, fun character first => ?_⟩ lineLexed, ?_⟩
          · rw [lineWhole] at first
            obtain ⟨rest, begins⟩ := prefix_of_splitChars split
            refine ends.stops character ?_
            rw [← begins, List.head?_append, first]
            rfl
          · rw [textOf_cons, lineWhole]
        rw [isTidy, whole, List.all_cons, tokenTidy, Bool.true_and]
        exact lineTidy

private theorem noReturn_of_isTidy {line : List Char} (tidy : isTidy line = true) :
    line.getLast? ≠ some '\r' := by
  obtain ⟨lexed, whole⟩ := lexed_tokens line
  cases last : (tokens line).getLast? with
  | none =>
      rw [← whole, List.getLast?_eq_none_iff.mp last]
      exact nofun
  | some token =>
      rw [← whole, getLast?_textOf lexed last]
      have member := List.mem_of_getLast? last
      exact (Token.tidy_of_isTidy (List.all_eq_true.mp tidy token member)).noReturn

end Lexer

theorem dropReturn_of_isTidy {line : List Char} (tidy : isTidy line = true) :
    dropReturn line = line := by
  have noReturn := noReturn_of_isTidy tidy
  rw [List.getLast?_eq_head?_reverse] at noReturn
  unfold dropReturn
  split
  case h_1 same =>
    rw [same] at noReturn
    exact absurd rfl noReturn
  case h_2 => rfl

theorem isTidy_toList {text : String} : isTidy text.toList = true ↔ Tidy text :=
  List.all_eq_true

theorem tidy_pieces {text : String} (tidy : Tidy text) :
    ∀ piece ∈ splitChars '\n' text.toList, isTidy piece = true := by
  obtain ⟨lexed, whole⟩ := lexed_tokens text.toList
  have pieces := isTidy_of_mem_splitChars lexed tidy
  rw [whole] at pieces
  exact pieces

private theorem isTidy_of_mem_linesOf {pieces : List (List Char)}
    (tidy : ∀ piece ∈ pieces, isTidy piece = true) :
    ∀ line ∈ linesOf pieces, isTidy line = true := by
  induction pieces with
  | nil => exact tidy
  | cons piece pieces ih =>
      obtain ⟨first, later⟩ := List.forall_mem_cons.mp tidy
      cases pieces with
      | nil =>
          rw [linesOf]
          split
          · exact fun _ member => absurd member List.not_mem_nil
          · exact tidy
      | cons second pieces =>
          rw [linesOf, dropReturn_of_isTidy first]
          · exact List.forall_mem_cons.mpr ⟨first, ih later⟩
          · exact nofun

private theorem tidy_of_mem_lines {text : String} (tidy : Tidy text) :
    ∀ line ∈ lines text, Tidy line := by
  intro line listed
  obtain ⟨characters, member, rfl⟩ := List.mem_map.mp listed
  exact Tidy.fixed (isTidy_of_mem_linesOf (tidy_pieces tidy) characters member)

/-! ### Joining -/

/-- A separator that is set off on both sides. -/
structure Gap (separator : String) : Prop where
  tail : Tail separator
  lead : Lead separator

theorem Gap.fixed {characters : List Char}
    (check : (isTail characters && isLead characters) = true := by decide) :
    Gap (String.ofList characters) :=
  have checks := Bool.and_eq_true_iff.mp check
  ⟨.fixed checks.1, .fixed checks.2⟩

theorem Gap.after {separator text : String} (gap : Gap separator) (tidy : Tidy text) :
    Lead (text ++ separator) :=
  .append (tidy.tail gap.tail) gap.lead

theorem Gap.join {separator : String} (gap : Gap separator) {pieces : List String}
    (tidy : ∀ piece ∈ pieces, Tidy piece) : Tidy (join separator pieces) := by
  unfold Text.join
  induction pieces with
  | nil => exact .fixed
  | cons piece pieces ih =>
      obtain ⟨first, later⟩ := List.forall_mem_cons.mp tidy
      cases pieces with
      | nil =>
          rw [String.intercalate_singleton]
          exact first
      | cons second pieces =>
          rw [String.intercalate_cons_cons]
          exact (gap.after first).code (ih later)

private theorem lead_join {pieces : List String} (leads : ∀ piece ∈ pieces, Lead piece) :
    Tidy (String.join pieces) := by
  induction pieces with
  | nil => exact .fixed
  | cons piece pieces ih =>
      obtain ⟨first, later⟩ := List.forall_mem_cons.mp leads
      rw [String.join_cons]
      exact first.code (ih later)

private theorem tail_join {pieces : List String} (tails : ∀ piece ∈ pieces, Tail piece)
    {text : String}
    (tidy : Tidy text) : Tidy (text ++ String.join pieces) := by
  induction pieces generalizing text with
  | nil =>
      rw [String.join_nil, String.append_empty]
      exact tidy
  | cons piece pieces ih =>
      obtain ⟨first, later⟩ := List.forall_mem_cons.mp tails
      rw [String.join_cons, ← String.append_assoc]
      exact ih later (tidy.tail first)

private theorem lead_blanks (width : Nat) :
    Lead (String.ofList (List.replicate (width + 1) ' ')) := by
  have extended (count : Nat) : String.ofList (List.replicate (count + 1) ' ') =
      " " ++ String.ofList (List.replicate count ' ') := by
    rw [← String.toList_inj, String.toList_append, String.toList_ofList, String.toList_ofList,
      String.toList_ofList]
    rfl
  have blank : Lead " " := .fixed
  induction width with
  | zero => exact blank
  | succ width ih =>
      rw [extended]
      exact blank.comp ih

private theorem tidy_indented {line : String} (tidy : Tidy line) (width : Nat) :
    Tidy (String.ofList (List.replicate width ' ') ++ line) := by
  cases width with
  | zero =>
      rw [List.replicate_zero, String.ofList_nil, String.empty_append]
      exact tidy
  | succ width => exact (lead_blanks width).code tidy

theorem tidy_indent {text : String} (tidy : Tidy text) (levels : Nat) :
    Tidy (indent text levels) := by
  refine Gap.join .fixed fun line listed => ?_
  obtain ⟨other, member, rfl⟩ := List.mem_map.mp listed
  split
  · exact .fixed
  · exact tidy_indented (tidy_of_mem_lines tidy other member) _

/-! ### Line feeds and blanks -/

theorem replaceFeeds_eq (replacement text : String) :
    replaceAll "\n" replacement text =
      join replacement ((splitChars '\n' text.toList).map String.ofList) := by
  rw [replaceAll, join, ← String.toList_inj, String.toList_intercalate, String.toList_ofList,
    List.map_map]
  refine (replaceChars_singleton '\n' _ _).trans (congrArg _ ?_)
  rw [show String.toList ∘ String.ofList = id from funext fun _ => String.toList_ofList,
    List.map_id]

theorem tidy_replaceFeeds {text replacement : String} (tidy : Tidy text)
    (gap : Gap replacement) : Tidy (replaceAll "\n" replacement text) := by
  rw [replaceFeeds_eq]
  refine gap.join fun piece listed => ?_
  obtain ⟨characters, member, rfl⟩ := List.mem_map.mp listed
  exact Tidy.fixed (tidy_pieces tidy characters member)

private theorem isTidy_dropBlanks {list : List Token} (lexed : Lexed list)
    (tidy : ∀ token ∈ list, token.isTidy = true) :
    isTidy ((textOf list).dropWhile isBlank) = true := by
  induction lexed with
  | nil => rfl
  | @cons token later mode ends others ih =>
      obtain ⟨tokenTidy, laterTidy⟩ := List.forall_mem_cons.mp tidy
      obtain ⟨first, rest, text⟩ := List.exists_cons_of_ne_nil ends.inhabited
      have whole : textOf (token :: later) = first :: (rest ++ textOf later) := by
        rw [textOf_cons, text, List.cons_append]
      rw [whole]
      cases blank : isBlank first with
      | false =>
          rw [List.dropWhile_cons_of_neg (by rw [blank]; exact Bool.false_ne_true), ← whole,
            isTidy, tokens_of_lexed (.cons ends others)]
          exact List.all_eq_true.mpr tidy
      | true =>
          rw [List.dropWhile_cons_of_pos blank]
          have nothingLeft : rest = [] := by
            cases Token.tidy_of_isTidy tokenTidy with
            | name regular =>
                have inName : first ∈ Token.text ⟨.name, _⟩ := text ▸ List.mem_cons_self
                rcases ascii_of_isRegular regular first inName with word | rfl
                · rw [Name.not_isBlank_of_isNameChar word] at blank
                  contradiction
                · exact absurd blank (by decide)
            | symbol => exact (List.cons.inj text).2.symm
            | literal =>
                rw [← (List.cons.inj text).1] at blank
                exact absurd blank (by decide)
          rw [nothingLeft, List.nil_append]
          exact ih laterTidy

theorem tidy_trimStart {text : String} (tidy : Tidy text) : Tidy (trimStart text) := by
  obtain ⟨lexed, whole⟩ := lexed_tokens text.toList
  have dropped := isTidy_dropBlanks lexed tidy
  rw [whole] at dropped
  exact Tidy.fixed dropped

/-! ### Names and literals -/

theorem tidy_of_isRegular {name : String} (regular : isRegular name.toList = true) :
    Tidy name := by
  by_cases inhabited : name.toList = []
  · rw [← isTidy_toList, inhabited]
    rfl
  · have whole : tokens name.toList = [⟨.name, name.toList⟩] :=
      tokens_eq_iff.mpr ⟨.cons ⟨inhabited,
        run_name inhabited (isNamePart_of_isRegular regular), rfl, nofun⟩ .nil, List.append_nil _⟩
    intro token member
    rw [whole] at member
    rw [List.mem_singleton.mp member]
    exact regular

theorem upperHexDigit_plain (value : Nat) :
    upperHexDigit (value % 16) ≠ '"' ∧ upperHexDigit (value % 16) ≠ '\\' ∧
      upperHexDigit (value % 16) ≠ '\n' := by
  have each : ∀ digit < 16, upperHexDigit digit ≠ '"' ∧ upperHexDigit digit ≠ '\\' ∧
      upperHexDigit digit ≠ '\n' := by decide
  exact each _ (Nat.mod_lt _ (by decide))

private theorem Lexer.Line.escapeChar {rest : List Char} (line : Line rest) (character : Char) :
    Line (escapeChar character ++ rest) := by
  have digit (value : Nat) {later : List Char} (line : Line later) :
      Line (upperHexDigit (value % 16) :: later) :=
    have plain := upperHexDigit_plain value
    .plain plain.1 plain.2.1 plain.2.2 line
  unfold Elm.escapeChar
  split
  · exact .escape (by decide) line
  · exact .escape (by decide) line
  · exact .escape (by decide) line
  · exact .escape (by decide) line
  · exact .escape (by decide) line
  case h_6 backslash quote feed _ _ =>
    split
    · refine .escape (by decide) (.plain (by decide) (by decide) (by decide) ?_)
      refine digit _ (digit _ (digit _ (digit _ ?_)))
      exact .plain (by decide) (by decide) (by decide) line
    · exact .plain quote backslash feed line

theorem line_literal (text : List Char) : Line (text.flatMap escapeChar ++ ['"']) := by
  induction text with
  | nil => exact .closing
  | cons character text ih =>
      rw [List.flatMap_cons, List.append_assoc]
      exact ih.escapeChar character

/-- A literal is one token, whatever follows it but a further quote. -/
theorem tokens_literal (text : List Char) {source : List Char} (apart : source.head? ≠ some '"') :
    tokens (literalChars text ++ source) = ⟨.literal, literalChars text⟩ :: tokens source := by
  obtain ⟨lexed, whole⟩ := lexed_tokens source
  refine tokens_eq_iff.mpr ⟨?_, by rw [textOf_cons, whole]⟩
  rcases run_line (line_literal text) with reads | reads
  · refine .cons ⟨List.cons_ne_nil _ _, reads, rfl, fun character begins => if_neg ?_⟩ lexed
    rintro rfl
    rw [whole] at begins
    exact apart begins
  · exact .cons ⟨List.cons_ne_nil _ _, reads, rfl, fun _ _ => rfl⟩ lexed

theorem tokens_stringLiteral (text : String) :
    tokens (stringLiteral text).toList = [⟨.literal, literalChars text.toList⟩] := by
  have alone : tokens (literalChars text.toList ++ []) = _ :=
    tokens_literal text.toList (by simp)
  rw [List.append_nil] at alone
  rw [stringLiteral, String.toList_ofList, alone]
  rfl

theorem tidy_stringLiteral (text : String) : Tidy (stringLiteral text) := by
  have whole := tokens_stringLiteral text
  rw [stringLiteral, String.toList_ofList] at whole
  refine Tidy.fixed ?_
  rw [isTidy, whole]
  exact Bool.and_eq_true_iff.mpr
    ⟨Token.isTidy_of_tidy (.literal (line_literal text.toList)), rfl⟩

/-! ### Expressions -/

theorem tidy_atom {text : String} (tidy : Tidy text) : Tidy (atom text) := by
  unfold atom
  split
  · exact tidy
  · exact (Lead.code .fixed tidy).close

theorem tidy_list {items : List String} (tidy : ∀ item ∈ items, Tidy item) :
    Tidy (list items) := by
  unfold list
  split
  · exact .fixed
  · exact (Lead.code .fixed (Gap.join .fixed tidy)).close

example : Tidy (list ["a", "b"]) := by decide +kernel

theorem Lexer.Tail.append {tail text : String} (tails : Tail tail) (tidy : Tidy (tail ++ text)) :
    Tail (tail ++ text) := by
  obtain ⟨first, begins, apart⟩ := tails.begins
  refine ⟨tidy, first, ?_, apart⟩
  rw [String.toList_append, List.head?_append, begins]
  rfl

private theorem tail_leadItem {lead item : String} (leads : Lead lead) (tidy : Tidy item) :
    Tail ("\n" ++ lead ++ item) := by
  have feed : Lead "\n" := .fixed
  have tail : Tail "\n" := .fixed
  have line : Tidy ("\n" ++ lead) := feed.code leads.tidy
  exact (tail.append line).append ((Lead.append line leads).code tidy)

theorem tidy_leadLines {first further : String} (firstLead : Lead first)
    (furtherLead : Lead further) {text : String} (textTidy : Tidy text) {items : List String}
    (tidy : ∀ item ∈ items, Tidy item) : Tidy (text ++ leadLines first further items) := by
  cases items with
  | nil =>
      rw [leadLines, String.append_empty]
      exact textTidy
  | cons item items =>
      obtain ⟨itemTidy, others⟩ := List.forall_mem_cons.mp tidy
      rw [leadLines, ← String.append_assoc]
      refine tail_join (fun piece listed => ?_) (textTidy.tail (tail_leadItem firstLead itemTidy))
      obtain ⟨other, member, rfl⟩ := List.mem_map.mp listed
      exact tail_leadItem furtherLead (others other member)

/-! ### Records -/

def TidyEntries (entries : List (String × String)) : Prop :=
  ∀ entry ∈ entries, Tidy entry.1 ∧ Tidy entry.2

section Entries

variable {separator : String} (separatorTidy : Tidy separator) {entries : List (String × String)}
  (tidy : TidyEntries entries)

include separatorTidy

private theorem tidy_recordLine {entry : String × String} (name : Tidy entry.1)
    (value : Tidy entry.2) :
    Tidy (recordLine separator entry) :=
  (name.gap.code separatorTidy).gap.code (tidy_replaceFeeds value .fixed)

include tidy

theorem tidy_inlineEntries : Tidy (inlineEntries entries separator) := by
  refine Gap.join .fixed fun piece listed => ?_
  obtain ⟨entry, member, rfl⟩ := List.mem_map.mp listed
  obtain ⟨name, value⟩ := tidy entry member
  exact (name.gap.code separatorTidy).gap.code value

private theorem tidy_recordLines : ∀ line ∈ entries.map (recordLine separator), Tidy line := by
  intro line listed
  obtain ⟨entry, member, rfl⟩ := List.mem_map.mp listed
  obtain ⟨name, value⟩ := tidy entry member
  exact tidy_recordLine separatorTidy name value

theorem tidy_tallRecord : Tidy (tallRecord entries separator) := by
  have lines := tidy_recordLines separatorTidy tidy
  unfold tallRecord
  split
  · exact .fixed
  case h_2 first rest same =>
    rw [same] at lines
    obtain ⟨firstTidy, restTidy⟩ := List.forall_mem_cons.mp lines
    refine ((Lead.code .fixed firstTidy).gap.code (lead_join fun piece listed => ?_)).close
    obtain ⟨line, member, rfl⟩ := List.mem_map.mp listed
    exact (Lead.code .fixed (restTidy line member)).gap

theorem tidy_tallExtension {variableName : String} (variableTidy : Tidy variableName) :
    Tidy (tallExtension variableName entries separator) := by
  have lines := tidy_recordLines separatorTidy tidy
  refine ((Lead.code .fixed variableTidy).gap.code ?_).close
  split
  · exact .fixed
  case h_2 first rest same =>
    rw [same] at lines
    obtain ⟨firstTidy, restTidy⟩ := List.forall_mem_cons.mp lines
    refine (Lead.code .fixed firstTidy).gap.code (lead_join fun piece listed => ?_)
    obtain ⟨line, member, rfl⟩ := List.mem_map.mp listed
    exact (Lead.code .fixed (restTidy line member)).gap

theorem tidy_record : Tidy (record entries separator) := by
  unfold record
  split
  · exact .fixed
  · dsimp only
    split
    · exact (Lead.code .fixed (tidy_inlineEntries separatorTidy tidy)).close
    · exact tidy_tallRecord separatorTidy tidy

end Entries

example : Tidy (record [("id", "Int")] ":") := by decide +kernel

end ElmClient.Elm
