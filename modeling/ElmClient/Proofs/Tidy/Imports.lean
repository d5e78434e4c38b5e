/-
Imports of rendered modules. A module's body is made of tidy sources without the module's
own qualifier, doc comments and blank lines. So its imports are the modules that its names
are qualified with, whatever text the document holds, unless a literal opens a comment
bracket that is closed behind it.
-/

import ElmClient.Proofs.Lexing.Qualifiers
import ElmClient.Proofs.Lexing.Rendering
import ElmClient.Proofs.Sample
import ElmClient.Proofs.Tidy.Client

namespace ElmClient.Elm

open Text

namespace Lexer

/-! ### Tidy texts without a qualifier -/

section Unqualified

variable {own : List Char} (path : IsPath own) (capital : Segment.first.run own = some .capital)

include path capital

theorem run_unqualified {segment : Segment} {previous : Option Char} {text : List Char}
    (reads : (segment.run text).isSome = true)
    (begins : (∀ before ∈ previous, isWord before = false) → segment = .first ∨ segment = .later) :
    (segment.run (unqualifyFrom own 0 previous text)).isSome = true := by
  induction previous, text using unqualify_induction path generalizing segment with
  | nil previous => rfl
  | keep previous character rest keeps ih =>
      obtain ⟨reached, reads⟩ := Option.isSome_iff_exists.mp reads
      obtain ⟨further, taking, reads⟩ := Option.bind_eq_some_iff.mp reads
      rw [unqualifyFrom_keep keeps, Segment.run, taking, Option.bind_some]
      refine ih (by rw [reads]; rfl) fun apart => ?_
      exact (Segment.takes_of_next taking).begins (apart character rfl)
  | drop previous first rest found word ih =>
      obtain ⟨bounds, -⟩ := (occurs_iff path).mp found
      obtain ⟨reached, reads⟩ := Option.isSome_iff_exists.mp reads
      rw [Segment.run_append] at reads
      obtain ⟨atPoint, readsOwn, reads⟩ := Option.bind_eq_some_iff.mp reads
      have isFirst : segment = .first := by
        refine (begins bounds).resolve_right ?_
        rintro rfl
        obtain ⟨initial, others, rfl, isUpper⟩ := head_of_capital capital
        obtain ⟨further, takes, -⟩ := Segment.takes_of_run readsOwn
        cases takes with
        | point => contradiction
        | lower _ _ notUpper =>
            rw [isUpper] at notUpper
            contradiction
      subst isFirst
      obtain rfl := Option.some.inj (capital.symm.trans readsOwn)
      obtain ⟨behind, taking, reads⟩ := Option.bind_eq_some_iff.mp reads
      obtain rfl := Option.some.inj taking
      obtain ⟨further, taking, reads⟩ := Option.bind_eq_some_iff.mp reads
      rw [unqualifyFrom_drop path found, Segment.run, taking, Option.bind_some]
      refine ih (by rw [reads]; rfl) fun apart => ?_
      rw [apart first rfl] at word
      contradiction

private theorem Token.Tidy.unqualified {token : Token} (tidy : token.Tidy) :
    (token.unqualified own).Tidy := by
  obtain ⟨initial, others, same, word⟩ := id path.begins
  cases tidy with
  | name regular => exact .name (run_unqualified path capital regular fun _ => Or.inl rfl)
  | @symbol character noPart quote apostrophe feed =>
      have keeps : occurs own none [character] = false := by
        refine Bool.eq_false_iff.mpr fun found => ?_
        obtain ⟨-, first, rest, parts, -⟩ := (occurs_iff path).mp found
        rw [same] at parts
        cases others <;> cases (List.cons.inj parts).2
      rw [Token.unqualified, unqualifyFrom_keep keeps]
      exact .symbol noPart quote apostrophe feed
  | @literal rest line =>
      have keeps : occurs own none ('"' :: rest) = false := by
        refine Bool.eq_false_iff.mpr fun found => ?_
        obtain ⟨-, first, behind, parts, -⟩ := (occurs_iff path).mp found
        rw [same] at parts
        rw [← (List.cons.inj parts).1] at word
        exact absurd word (by decide)
      rw [Token.unqualified, unqualifyFrom_keep keeps]
      exact .literal ((line_of_run _).1
        ((run_unqualify path _ _ rest).trans (run_of_line line)))

private theorem tidy_unqualified {source : List Char}
    (tidy : ∀ token ∈ tokens source, token.isTidy = true) :
    ∀ token ∈ tokens (unqualifyFrom own 0 none source), token.Tidy := by
  rw [tokens_unqualify path]
  refine List.forall_mem_map.mpr fun token member => ?_
  exact (Token.tidy_of_isTidy (tidy token member)).unqualified path capital

end Unqualified

private theorem mem_qualifierOf_iff {name : List Char} {path : String} :
    path ∈ qualifierOf name ↔ pathOf name ≠ [] ∧ path = String.ofList (pathOf name) := by
  rw [qualifierOf]
  split
  case isTrue none => exact iff_of_false List.not_mem_nil fun qualified => qualified.1 none
  case isFalse qualified => rw [List.mem_singleton, and_iff_right qualified]

private theorem exists_qualifier_iff {source path : String} :
    (∃ token ∈ tokens source.toList, path ∈ token.qualifier) ↔
      ∃ name ∈ names source, pathOf name ≠ [] ∧ path = String.ofList (pathOf name) := by
  constructor
  · rintro ⟨token, member, qualified⟩
    rw [Token.qualifier] at qualified
    split at qualified
    case isTrue isName =>
      refine ⟨token.text, List.mem_map_of_mem (List.mem_filter.mpr ⟨member, ?_⟩),
        mem_qualifierOf_iff.mp qualified⟩
      exact beq_iff_eq.mpr isName
    case isFalse => exact absurd qualified List.not_mem_nil
  · rintro ⟨_, member, qualified⟩
    obtain ⟨token, named, rfl⟩ := List.mem_map.mp member
    obtain ⟨member, isName⟩ := List.mem_filter.mp named
    refine ⟨token, member, ?_⟩
    rw [Token.qualifier, if_pos (beq_iff_eq.mp isName)]
    exact mem_qualifierOf_iff.mpr qualified

private theorem literalsApart_of_none {list : List Token}
    (none : ∀ token ∈ list, token.kind ≠ .literal) :
    LiteralsApart list := by
  rintro earlier literal later rfl isLiteral
  exact absurd isLiteral (none literal (List.mem_append_right _ List.mem_cons_self))

/-! ### Plain texts -/

/-- All tokens of the text are tidy, or comments. -/
def PlainText (text : List Char) : Prop :=
  ∀ token ∈ tokens text, token.Plain

private theorem Token.Plain.stops {token : Token} (plain : token.Plain)
    (inhabited : token.text ≠ [])
    {mode : Mode} (reads : Mode.start.run token.text = some mode) : mode.next '\n' = none := by
  cases plain with
  | tidy tidy => exact tidy.stops inhabited reads (break_of_isBreak (by decide))
  | comment noClosing closes =>
      obtain rfl := Option.some.inj (closes.symm.trans reads)
      rfl

private theorem tokens_feed (rest : List Char) :
    tokens ('\n' :: rest) = ⟨.symbol, ['\n']⟩ :: tokens rest := by
  have apart : ∀ token ∈ (tokens ['\n']).getLast?, ∀ mode,
      Mode.start.run token.text = some mode →
        ∀ character ∈ rest.head?, mode.next character = none := by
    intro token last mode reads character _
    obtain rfl : ⟨.symbol, ['\n']⟩ = token := Option.some.inj last
    obtain rfl : Mode.closed .symbol = mode := Option.some.inj reads
    rfl
  exact tokens_append apart

theorem plain_feed : Token.Plain ⟨.symbol, ['\n']⟩ :=
  .tidy (.symbol (by decide) (by decide) (by decide) (by decide))

private theorem PlainText.append {left right : List Char} (leftPlain : PlainText left)
    (rightPlain : PlainText right) : PlainText (left ++ "\n\n\n".toList ++ right) := by
  have apart : ∀ token ∈ (tokens left).getLast?, ∀ mode, Mode.start.run token.text = some mode →
      ∀ character ∈ ('\n' :: '\n' :: '\n' :: right).head?, mode.next character = none := by
    intro token last mode reads character begins
    obtain rfl := Option.some.inj begins
    have member := List.mem_of_getLast? last
    exact (leftPlain token member).stops ((lexed_tokens left).1.inhabited token member) reads
  have whole : left ++ "\n\n\n".toList ++ right = left ++ '\n' :: '\n' :: '\n' :: right :=
    List.append_assoc _ _ _
  intro token member
  rw [whole, tokens_append apart, tokens_feed, tokens_feed, tokens_feed] at member
  rcases List.mem_append.mp member with inLeft | behind
  · exact leftPlain token inLeft
  · simp only [List.mem_cons] at behind
    rcases behind with rfl | rfl | rfl | inRight
    · exact plain_feed
    · exact plain_feed
    · exact plain_feed
    · exact rightPlain token inRight

theorem plain_docTokens (doc : Option String) : ∀ token ∈ docTokens doc, token.Plain := by
  unfold docTokens
  generalize trimChars (doc.getD "").toList = text
  split
  · exact fun _ member => absurd member List.not_mem_nil
  case h_2 =>
    refine List.forall_mem_cons.mpr ⟨?_, List.forall_mem_singleton.mpr plain_feed⟩
    have same : "\x7b-| ".toList ++ guardComment text ++ "\n-\x7d".toList =
        commentOf (['|', ' '] ++ guardComment text ++ ['\n']) := by
      simp [commentOf]
    have closes := run_docComment text
    rw [same] at closes ⊢
    refine .comment ?_ closes
    rw [hasPair_append, hasPair_append, (hasPair_guardComment text).2]
    simp [hasPair]

end Lexer

namespace SourceFile

open Lexer

section Body

variable {own : String} (path : IsPath own.toList)
  (capital : Segment.first.run own.toList = some .capital)

include path capital

theorem plain_declarationText {declaration : Declaration} (tidy : Tidy declaration.source) :
    PlainText (declarationText own declaration).toList := by
  intro token member
  rw [declarationText, unqualify, String.toList_append, String.toList_ofList,
    tokens_docComment] at member
  rcases List.mem_append.mp member with inDoc | inSource
  · exact plain_docTokens _ token inDoc
  · exact .tidy (tidy_unqualified path capital tidy token inSource)

theorem plain_body {declarations : List Declaration}
    (tidy : ∀ declaration ∈ declarations, Tidy declaration.source) :
    PlainText (body own declarations).toList := by
  induction declarations with
  | nil => exact fun _ member => absurd member List.not_mem_nil
  | cons declaration declarations ih =>
      obtain ⟨first, later⟩ := List.forall_mem_cons.mp tidy
      have firstPlain := plain_declarationText path capital first
      cases declarations with
      | nil =>
          rw [body, List.map_singleton, join, String.intercalate_singleton]
          exact firstPlain
      | cons second declarations =>
          have whole : body own (declaration :: second :: declarations) =
              declarationText own declaration ++ "\n\n\n" ++ body own (second :: declarations) := by
            rw [body, List.map_cons, List.map_cons, join, String.intercalate_cons_cons]
            rfl
          rw [whole, String.toList_append, String.toList_append]
          exact firstPlain.append (ih later)

end Body

end SourceFile

end Elm

namespace Client

open Elm Lexer SourceFile Text

def declarationsOf (client : Client) (config : Config) (name : String) : List Declaration :=
  (client.declarations.filter fun entry => entry.1.moduleName config.namespaceName == name).map
    Prod.snd

variable {config : Config} {document : Document} {client : Client}

theorem exists_group_of_file {file : SourceFile} (listed : file ∈ client.files config) :
    (∃ group : Group, file.name = group.moduleName config.namespaceName) ∧
      file = ofDeclarations file.name (client.declarationsOf config file.name) := by
  obtain ⟨name, inModules, rfl⟩ := List.mem_map.mp listed
  obtain ⟨entry, -, rfl⟩ := List.mem_map.mp (Sorted.mem_texts_iff.mp inModules)
  exact ⟨⟨entry.1, rfl⟩, rfl⟩

theorem exists_file (client : Client) (config : Config) {entry : Grouped}
    (member : entry ∈ client.declarations) :
    ∃ file ∈ client.files config, file.name = entry.1.moduleName config.namespaceName := by
  have listed := Sorted.mem_texts_iff.mpr (List.mem_map_of_mem
    (f := fun entry : Grouped => entry.1.moduleName config.namespaceName) member)
  exact ⟨_, List.mem_map_of_mem listed, rfl⟩

/-- A file begins with its imports. They are the modules that names of its code are qualified
with, other than the module itself and those that need no import, unless a literal opens a
comment bracket that is closed behind it. -/
theorem ofDocument_imports (valid : config.validate = .ok ()) (formats : config.FormatsTidy)
    (generated : ofDocument config document = .ok client) :
    ∀ file ∈ client.files config,
      let shown := client.declarationsOf config file.name
      let code := body file.name shown
      file.source =
        "module " ++ file.name ++ " exposing (" ++ join ", " (shown.map Declaration.exposing)
          ++ ")\n\n" ++ importLines (imports code file.name) ++ "\n" ++ code ++ "\n" ∧
      (imports code file.name).Pairwise (· < ·) ∧
      (LiteralsApart (tokens code.toList) → ∀ imported,
        imported ∈ imports code file.name ↔
          (∃ name ∈ names code, pathOf name ≠ [] ∧ imported = String.ofList (pathOf name)) ∧
            imported ≠ file.name ∧ imported ∉ defaultImports) := by
  intro file listed shown code
  obtain ⟨⟨group, named⟩, whole⟩ := exists_group_of_file listed
  have pathValid := Config.isModulePath_of_validate valid
  have path : IsPath file.name.toList := named ▸ isPath_moduleName pathValid group
  have capital : Segment.first.run file.name.toList = some .capital :=
    named ▸ run_moduleName pathValid group
  have tidy : ∀ declaration ∈ shown, Tidy declaration.source := by
    refine List.forall_mem_map.mpr fun entry member => ?_
    exact ofDocument_tidy valid formats generated entry (List.mem_of_mem_filter member)
  refine ⟨by rw [whole]; rfl, Sorted.texts_sorted _, fun apart imported => ?_⟩
  rw [mem_imports_iff (plain_body path capital tidy) apart]
  rw [exists_qualifier_iff]

/-- The brackets of a comment in two literals: the name between them is not seen, so the module
that it is qualified with is not imported. -/
theorem qualifier_between_literals_not_imported :
    let pair := Declaration.value "pair" none
      "pair =\n    both \"\x7b-\" Iso8601.decoder \"-\x7d\""
    ∃ file ∈ render [(.decoders, pair)] Config.default.namespaceName,
      file = ofDeclarations file.name [pair] ∧
        (∃ name ∈ names (body file.name [pair]), pathOf name = "Iso8601".toList) ∧
          "Iso8601" ≠ file.name ∧ "Iso8601" ∉ defaultImports ∧
            "Iso8601" ∉ imports (body file.name [pair]) file.name := by
  intro pair
  refine ⟨_, List.mem_singleton_self _, rfl, ?_⟩
  decide

def momentType : Declaration :=
  .value "A" none "type alias A =\n    \x7b at : Maybe Time.Posix\n    \x7d"

theorem ofDocument_imports_moment :
    let moment : Schema :=
      { Schema.bare with kind := some (.one "string"), format := some "date-time" }
    let document := Document.ofParts [] [("A", .inline (Schema.record [("at", .inline moment)]))]
    Config.default.validate = .ok () ∧ Config.default.FormatsTidy ∧
      ∃ client, ofDocument Config.default document = .ok client ∧
        ∃ file ∈ client.files Config.default,
          client.declarationsOf Config.default file.name = [momentType] ∧
            LiteralsApart (tokens (body file.name [momentType]).toList) ∧
            ∀ imported, imported ∈ imports (body file.name [momentType]) file.name ↔
              (∃ name ∈ names (body file.name [momentType]), pathOf name ≠ [] ∧
                imported = String.ofList (pathOf name)) ∧
                imported ≠ file.name ∧ imported ∉ defaultImports := by
  intro moment document
  have valid : Config.default.validate = .ok () := by decide
  have generates : (match ofDocument Config.default document with
      | .ok client => decide ((∃ entry ∈ client.declarations,
          entry.1.moduleName Config.default.namespaceName = "Api.Types") ∧
            client.declarationsOf Config.default "Api.Types" = [momentType])
      | .error _ => false) = true := by
    decide +kernel
  split at generates
  case h_2 => contradiction
  case h_1 client generated =>
    obtain ⟨⟨entry, member, named⟩, shown⟩ := of_decide_eq_true generates
    obtain ⟨file, listed, isTypes⟩ := client.exists_file Config.default member
    rw [named] at isTypes
    have apart : LiteralsApart (tokens (body "Api.Types" [momentType]).toList) :=
      literalsApart_of_none (by decide)
    rw [← isTypes] at shown apart
    obtain ⟨-, -, whole⟩ :=
      ofDocument_imports valid Config.default_formatsTidy generated file listed
    rw [shown] at whole
    exact ⟨valid, Config.default_formatsTidy, client, generated, file, listed, shown, apart,
      whole apart⟩

end Client

end ElmClient
