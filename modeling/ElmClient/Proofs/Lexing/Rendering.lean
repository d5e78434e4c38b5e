/-
Declarations as their module shows them. A doc comment is one comment, whatever it documents,
and the tokens behind it are those of the source, each without the module's qualifier. So the
literals are the ones of the source unless one mentions the module, and a name loses its
qualifier if and only if that is the module's own unless what is left mentions the module.
-/

import ElmClient.Elm.SourceFile
import ElmClient.Proofs.Declared.Client
import ElmClient.Proofs.Lexing.Mention
import ElmClient.Proofs.Sorted
import ElmClient.Proofs.Text.Pair

namespace ElmClient.Elm

open Text

namespace Lexer

/-! ### Doc comments -/

theorem run_comment {previous : Char} {text : List Char}
    (noOpening : hasPair '\x7b' '-' (previous :: text) = false)
    (noClosing : hasPair '-' '\x7d' (previous :: text) = false) :
    ∃ last, (Mode.inBlock 0 previous).run text = some (Mode.inBlock 0 last) := by
  induction text generalizing previous with
  | nil => exact ⟨previous, rfl⟩
  | cons character rest ih =>
      obtain ⟨noOpeningHere, noOpeningLater⟩ := Bool.or_eq_false_iff.mp noOpening
      obtain ⟨noClosingHere, noClosingLater⟩ := Bool.or_eq_false_iff.mp noClosing
      have step : (Mode.inBlock 0 previous).next character = some (Mode.inBlock 0 character) := by
        simp only [List.head?_cons, Bool.and_eq_false_iff, beq_eq_false_iff_ne, ne_eq,
          Option.some.injEq] at noOpeningHere noClosingHere
        unfold Mode.inBlock
        split
        case isTrue same =>
          rw [Mode.next, if_neg (noOpeningHere.resolve_left (not_not_intro same))]
          rfl
        case isFalse =>
          split
          case isTrue same =>
            rw [Mode.next, if_neg (noClosingHere.resolve_left (not_not_intro same))]
            rfl
          case isFalse => rfl
      obtain ⟨last, reads⟩ := ih noOpeningLater noClosingLater
      refine ⟨last, ?_⟩
      rw [Mode.run, step]
      exact reads

theorem hasPair_guardComment (text : List Char) :
    hasPair '\x7b' '-' (guardComment text) = false ∧
      hasPair '-' '\x7d' (guardComment text) = false :=
  have noOpening : hasPair '\x7b' '-' (spacePairs '\x7b' '-' text) = false :=
    hasPair_spacePairs (by decide) (by decide) (by decide) text
  ⟨hasPair_spacePairs_le (by decide) (by decide) noOpening,
    hasPair_spacePairs (by decide) (by decide) (by decide) _⟩

def docTokens (doc : Option String) : List Token :=
  match trimChars (doc.getD "").toList with
  | [] => []
  | text =>
      [⟨.comment, "\x7b-| ".toList ++ guardComment text ++ "\n-\x7d".toList⟩, ⟨.symbol, ['\n']⟩]

theorem run_docComment (text : List Char) :
    Mode.start.run ("\x7b-| ".toList ++ guardComment text ++ "\n-\x7d".toList) =
      some (.closed .comment) := by
  obtain ⟨noOpening, noClosing⟩ := hasPair_guardComment text
  have noOpeningSpaced : hasPair '\x7b' '-' (' ' :: guardComment text) = false := by
    rw [hasPair, noOpening]
    rfl
  have noClosingSpaced : hasPair '-' '\x7d' (' ' :: guardComment text) = false := by
    rw [hasPair, noClosing]
    rfl
  obtain ⟨last, reads⟩ := run_comment noOpeningSpaced noClosingSpaced
  have begins : Mode.start.run "\x7b-| ".toList = some (Mode.inBlock 0 ' ') := by decide
  have feed : (Mode.inBlock 0 last).next '\n' = some (.block 0) := by
    unfold Mode.inBlock
    split
    · rfl
    · split <;> rfl
  have ends : (Mode.inBlock 0 last).run "\n-\x7d".toList = some (.closed .comment) := by
    change (Mode.inBlock 0 last).run ('\n' :: ['-', '\x7d']) = _
    rw [Mode.run, feed]
    rfl
  rw [List.append_assoc, Mode.run_append, begins, Option.bind_some, Mode.run_append, reads,
    Option.bind_some, ends]

theorem tokens_docComment (doc : Option String) (source : List Char) :
    tokens ((docComment doc).toList ++ source) = docTokens doc ++ tokens source := by
  obtain ⟨lexed, whole⟩ := lexed_tokens source
  unfold docComment docTokens
  cases trimChars (doc.getD "").toList with
  | nil => rfl
  | cons first rest =>
      have feed : Token.Ends ⟨.symbol, ['\n']⟩ (textOf (tokens source)) (.closed .symbol) :=
        ⟨List.cons_ne_nil _ _, by decide, rfl, fun _ _ => rfl⟩
      refine tokens_eq_iff.mpr
        ⟨.cons ⟨List.cons_ne_nil _ _, run_docComment _, rfl, fun _ _ => rfl⟩ (.cons feed lexed), ?_⟩
      dsimp only
      rw [List.cons_append, textOf_cons, List.singleton_append, textOf_cons, whole,
        String.toList_ofList, commentChars]
      simp

/-! ### Literals and names -/

def textsOf (kind : Kind) (source : String) : List (List Char) :=
  ((tokens source.toList).filter fun token => token.kind == kind).map Token.text

def literals (source : String) : List (List Char) :=
  textsOf .literal source

def names (source : String) : List (List Char) :=
  textsOf .name source

/-- What a declaration is shown by are the texts of its source, without the qualifier. -/
theorem textsOf_declarationText {own : String} (path : IsPath own.toList) {kind : Kind}
    (code : kind = .literal ∨ kind = .name) (declaration : Declaration) :
    textsOf kind (SourceFile.declarationText own declaration) =
      (textsOf kind declaration.source).map (unqualifyFrom own.toList 0 none) := by
  have noDoc : (docTokens declaration.doc).filter (fun token => token.kind == kind) = [] := by
    unfold docTokens
    split
    · rfl
    · rcases code with rfl | rfl <;> rfl
  rw [textsOf, SourceFile.declarationText, unqualify, String.toList_append, String.toList_ofList,
    tokens_docComment, tokens_unqualify path, List.filter_append, noDoc, List.nil_append,
    List.filter_map, List.map_map, textsOf, List.map_map]
  rfl

variable {own : String} (path : IsPath own.toList) (declaration : Declaration)

include path

private theorem literals_declarationText_eq_iff :
    literals (SourceFile.declarationText own declaration) = literals declaration.source ↔
      ∀ literal ∈ literals declaration.source, ¬ Mentions own.toList none literal := by
  rw [literals, textsOf_declarationText path (Or.inl rfl), ← literals]
  conv_lhs => rhs; rw [← List.map_id (literals declaration.source)]
  rw [List.map_inj_left]
  exact forall₂_congr fun literal _ => unqualify_eq_self_iff path

theorem names_declarationText_eq_iff :
    names (SourceFile.declarationText own declaration) =
        (names declaration.source).map (bare own.toList) ↔
      ∀ run ∈ names declaration.source, ¬ Mentions own.toList none (bare own.toList run) := by
  rw [names, textsOf_declarationText path (Or.inr rfl), ← names, List.map_inj_left]
  exact forall₂_congr fun run _ => unqualify_eq_bare_iff path

end Lexer

/-! ### Modules -/

open Lexer

theorem isNamePart_of_isNameChar {character : Char} (holdable : Name.isNameChar character = true) :
    isNamePart character = true := by
  refine isNamePart_of_isWord ?_
  rw [isWord, Bool.or_eq_true_iff]
  exact Or.inl holdable

theorem isPath_of_isModulePath {name : String} (valid : Config.isModulePath name = true) :
    IsPath name.toList := by
  refine ⟨?_, fun character member => ?_⟩
  · obtain ⟨piece, others, pieces⟩ := List.exists_cons_of_ne_nil (splitChars_ne_nil '.' name.toList)
    have part := List.all_eq_true.mp valid piece (by rw [pieces]; exact List.mem_cons_self)
    have starts : startsName piece = true := by
      cases piece with
      | nil => contradiction
      | cons first rest => exact startsName_of_startsUpper (Bool.and_eq_true_iff.mp part).1
    rw [← intercalate_splitChars '.' name.toList, pieces]
    exact isWord_of_startsName (startsName_intercalate starts others)
  · rcases dotted_of_isModulePath valid character member with holdable | rfl
    · exact isNamePart_of_isNameChar holdable
    · rfl

private theorem Lexer.IsPath.append {own : List Char} (path : IsPath own) {segment : List Char}
    (parts : ∀ character ∈ segment, isNamePart character = true) : IsPath (own ++ segment) := by
  obtain ⟨first, rest, rfl, word⟩ := path.begins
  refine ⟨⟨first, rest ++ segment, rfl, word⟩, fun character member => ?_⟩
  rcases List.mem_append.mp member with inPath | later
  · exact path.parts character inPath
  · exact parts character later

theorem isPath_moduleName {namespaceName : String}
    (valid : Config.isModulePath namespaceName = true) (group : Group) :
    IsPath (group.moduleName namespaceName).toList := by
  have path := isPath_of_isModulePath valid
  cases group
  case common =>
    have common : Config.isModulePath commonModule = true := by decide
    exact isPath_of_isModulePath common
  all_goals
    rw [Group.moduleName, String.toList_append]
    exact path.append (List.all_eq_true.mp (by decide))

/-- Every declaration stands in the file of its module. The literals of what it is shown by
are those of its source if and only if none of these mentions the module; and each name loses
its qualifier exactly if that is the module if and only if none mentions the module besides. -/
theorem SourceFile.render_keeps_iff {config : Config} (valid : config.validate = .ok ())
    {declarations : List Grouped} {entry : Grouped} (member : entry ∈ declarations) :
    let own := entry.1.moduleName config.namespaceName
    let shown := declarationText own entry.2
    (∃ file ∈ render declarations config.namespaceName, file.name = own ∧
      ∃ header, file.source =
        header ++ join "\n\n\n"
          ((declarations.filter fun other => other.1.moduleName config.namespaceName == own).map
            fun other => declarationText own other.2) ++ "\n") ∧
    (literals shown = literals entry.2.source ↔
      ∀ literal ∈ literals entry.2.source, ¬ Mentions own.toList none literal) ∧
    (names shown = (names entry.2.source).map (bare own.toList) ↔
      ∀ run ∈ names entry.2.source, ¬ Mentions own.toList none (bare own.toList run)) := by
  intro own shown
  have path := isPath_moduleName (Config.isModulePath_of_validate valid) entry.1
  have listed := Sorted.mem_texts_iff.mpr
    (List.mem_map_of_mem (f := fun other : Grouped => other.1.moduleName config.namespaceName)
      member)
  refine ⟨⟨_, List.mem_map_of_mem listed, rfl, ?_⟩,
    literals_declarationText_eq_iff path entry.2, names_declarationText_eq_iff path entry.2⟩
  simp only [ofDeclarations, body, List.map_map]
  exact ⟨_, rfl⟩

def describeKind : Declaration :=
  .value "describeKind" none
    "describeKind : Api.Types.Kind -> String\ndescribeKind =\n    My.Api.describe \"a kind\""

theorem SourceFile.render_keeps_iff_describeKind :
    Config.default.validate = .ok () ∧ (Group.types, describeKind) ∈ [(Group.types, describeKind)] ∧
      (∃ file ∈ render [(.types, describeKind)] "Api", file.name = "Api.Types" ∧
        ∃ header, file.source =
          header ++ join "\n\n\n" [declarationText "Api.Types" describeKind] ++ "\n") ∧
      (literals (declarationText "Api.Types" describeKind) = literals describeKind.source ↔
        ∀ literal ∈ literals describeKind.source, ¬ Mentions "Api.Types".toList none literal) ∧
      (names (declarationText "Api.Types" describeKind) =
          (names describeKind.source).map (bare "Api.Types".toList) ↔
        ∀ run ∈ names describeKind.source,
          ¬ Mentions "Api.Types".toList none (bare "Api.Types".toList run)) :=
  have valid : Config.default.validate = .ok () := by decide
  ⟨valid, List.mem_singleton_self _, render_keeps_iff valid (List.mem_singleton_self _)⟩

/-- A literal that reads like a name of the module is cut, and so is a name whose path only
ends in the module's. -/
theorem SourceFile.literal_and_path_cut :
    let note := Declaration.value "note" none "note = My.Api.Types.read \"Api.Types.x\""
    Config.default.validate = .ok () ∧
      Group.types.moduleName Config.default.namespaceName = "Api.Types" ∧
      literals note.source = ["\"Api.Types.x\"".toList] ∧
      literals (declarationText "Api.Types" note) = ["\"x\"".toList] ∧
      names note.source = ["note".toList, "My.Api.Types.read".toList] ∧
      pathOf "My.Api.Types.read".toList = "My.Api.Types".toList ∧
      names (declarationText "Api.Types" note) = ["note".toList, "My.read".toList] := by
  decide

end ElmClient.Elm
