/-
The common module is tidy. Its code is fixed apart from the module of an HTTP library and
what the names of the helpers for the library begin with.
-/

import ElmClient.Elm.Adapter
import ElmClient.Proofs.Tidy.Names

namespace ElmClient.Elm

open Lexer Name Text

/-! ### Members of modules -/

namespace Lexer

private theorem tokens_name_append {name rest : List Char} (inhabited : name ≠ [])
    (parts : ∀ character ∈ name, isNamePart character = true)
    (apart : ∀ character ∈ rest.head?, isNamePart character = false) :
    tokens (name ++ rest) = ⟨.name, name⟩ :: tokens rest := by
  obtain ⟨lexed, whole⟩ := lexed_tokens rest
  refine tokens_eq_iff.mpr ⟨.cons ⟨inhabited, run_name inhabited parts, rfl,
    fun character begins => ?_⟩ lexed, ?_⟩
  · rw [whole] at begins
    simp [Mode.next, apart character begins]
  · rw [textOf_cons, whole]

theorem Segment.run_of_capital {path : List Char} (reads : first.run path = some .capital)
    (rest : List Char) : first.run (path ++ rest) = first.run ('A' :: rest) := by
  rw [run_append, reads]
  rfl

private theorem isTidy_path_append {path : List Char}
    (reads : Segment.first.run path = some .capital)
    {characters : List Char} (tidy : isTidy ('A' :: characters) = true) :
    isTidy (path ++ characters) = true := by
  obtain ⟨name, rest, whole, nameParts, apart⟩ : ∃ name rest, characters = name ++ rest ∧
      (∀ character ∈ name, isNamePart character = true) ∧
        ∀ character ∈ rest.head?, isNamePart character = false :=
    ⟨characters.takeWhile isNamePart, characters.dropWhile isNamePart,
      List.takeWhile_append_dropWhile.symm,
      fun _ member => List.all_eq_true.mp List.all_takeWhile _ member,
      fun character first => by
        have stops := List.head?_dropWhile_not isNamePart characters
        rw [first] at stops
        exact stops⟩
  have pathParts : ∀ character ∈ path, isNamePart character = true :=
    isNamePart_of_isRegular (by rw [isRegular, reads]; rfl)
  have inhabited : path ≠ [] := by
    rintro rfl
    cases reads
  have letter := tokens_name_append (List.cons_ne_nil 'A' name)
    (List.forall_mem_cons.mpr ⟨by decide, nameParts⟩) apart
  have named := tokens_name_append (List.append_ne_nil_of_left_ne_nil inhabited name)
    (List.forall_mem_append.mpr ⟨pathParts, nameParts⟩) apart
  rw [whole, isTidy, ← List.cons_append, letter, List.all_cons, Bool.and_eq_true] at tidy
  rw [whole, ← List.append_assoc, isTidy, named, List.all_cons, Bool.and_eq_true]
  refine ⟨?_, tidy.2⟩
  change (Segment.first.run (path ++ name)).isSome = true
  rw [Segment.run_of_capital reads]
  exact tidy.1

end Lexer

private theorem tidy_memberText {own : String} (path : Segment.first.run own.toList = some .capital)
    {characters : List Char}
    (check : isTidy ('A' :: '.' :: characters) = true := by decide) :
    Tidy (own ++ "." ++ String.ofList characters) := by
  have tail : (String.ofList characters).toList = characters := String.toList_ofList
  rw [← isTidy_toList, String.toList_append, String.toList_append, List.append_assoc, tail]
  exact isTidy_path_append path check

/-! ### Fixed code -/

inductive TidyLines : List String → Prop
  | nil : TidyLines []
  | cons {line : String} {lines : List String} (first : Tidy line) (later : TidyLines lines) :
      TidyLines (line :: lines)

private theorem TidyLines.append {first second : List String} (firstTidy : TidyLines first)
    (secondTidy : TidyLines second) : TidyLines (first ++ second) := by
  induction firstTidy with
  | nil => exact secondTidy
  | cons line _ ih => exact .cons line ih

private theorem TidyLines.each {lines : List String} (tidy : TidyLines lines) :
    ∀ line ∈ lines, Tidy line := by
  induction tidy with
  | nil => exact fun _ member => absurd member List.not_mem_nil
  | cons first _ ih => exact List.forall_mem_cons.mpr ⟨first, ih⟩

/-- Fixed lines, with what is to be checked of them. -/
inductive FixedLines : List String → Bool → Prop
  | nil : FixedLines [] true
  | cons {characters : List Char} {lines : List String} {check : Bool}
      (later : FixedLines lines check) :
      FixedLines (String.ofList characters :: lines) (isTidy characters && check)
  | long {front back : List Char} {lines : List String} {check : Bool}
      (later : FixedLines lines check) :
      FixedLines ((String.ofList front ++ String.ofList back) :: lines)
        (isTidy (front ++ back) && check)

private theorem FixedLines.tidy {lines : List String} {check : Bool}
    (fixed : FixedLines lines check)
    (holds : check = true) : TidyLines lines := by
  induction fixed with
  | nil => exact .nil
  | cons _ ih =>
      obtain ⟨first, later⟩ := Bool.and_eq_true_iff.mp holds
      exact .cons (.fixed first) (ih later)
  | @long front back _ _ _ ih =>
      obtain ⟨first, later⟩ := Bool.and_eq_true_iff.mp holds
      rw [← String.ofList_append]
      exact .cons (.fixed first) (ih later)

private theorem TidyLines.block {lines : List String} (tidy : TidyLines lines) :
    Tidy (block lines) :=
  Gap.join .fixed tidy.each

namespace Support

section Declarations

variable {name : String} {doc : Option String} {lines : List String} (tidy : TidyLines lines)

include tidy

theorem function_tidy : Tidy (function name doc lines).source :=
  tidy.block

variable {declarations : List Declaration}
  (later : ∀ declaration ∈ declarations, Tidy declaration.source)

include later

private theorem tidy_function :
    ∀ declaration ∈ function name doc lines :: declarations, Tidy declaration.source :=
  List.forall_mem_cons.mpr ⟨function_tidy tidy, later⟩

private theorem tidy_customType :
    ∀ declaration ∈ customType name doc lines :: declarations, Tidy declaration.source :=
  List.forall_mem_cons.mpr ⟨tidy.block, later⟩

end Declarations

theorem json_tidy : ∀ declaration ∈ json, Tidy declaration.source := by
  refine tidy_customType ?_ <| tidy_function ?_ <| tidy_function ?_ <| tidy_function ?_ <|
    tidy_function ?_ <| tidy_function ?_ <| tidy_function ?_ <| List.forall_mem_nil _
  all_goals
    apply FixedLines.tidy
    · repeat first | exact .nil | apply FixedLines.long | apply FixedLines.cons
    · decide +kernel

set_option maxRecDepth 4000 in
theorem response_tidy : ∀ declaration ∈ response, Tidy declaration.source := by
  refine tidy_function ?_ <| tidy_customType ?_ <| tidy_customType ?_ <| tidy_function ?_ <|
    tidy_customType ?_ <| tidy_function ?_ <| tidy_customType ?_ <| tidy_function ?_ <|
    tidy_function ?_ <| tidy_function ?_ <| tidy_function ?_ <| tidy_function ?_ <|
    tidy_function ?_ <| tidy_function ?_ <| tidy_function ?_ <| tidy_function ?_ <|
    tidy_function ?_ <| tidy_function ?_ <| tidy_function ?_ <| tidy_function ?_ <|
    List.forall_mem_nil _
  all_goals
    apply FixedLines.tidy
    · repeat first | exact .nil | apply FixedLines.long | apply FixedLines.cons
    · decide +kernel

end Support

/-! ### HTTP libraries -/

namespace Adapter

structure IsTidy (adapter : Adapter) : Prop where
  lead : Holdable adapter.lead.toList
  http : Segment.first.run adapter.http.toList = some .capital
  restriction : ∀ text, Lead text → Lead (text ++ adapter.restriction)
  timeout : Tidy adapter.timeout
  timeoutType : Tidy adapter.timeoutType
  recordAlias : Tidy adapter.recordAlias
  commandType : Tidy adapter.commandType
  taskType : Tidy adapter.taskType

theorem ofLibrary_tidy (library : Library) : (ofLibrary library).IsTidy := by
  have none : ∀ text, Lead text → Lead (text ++ "") := fun text leads => by
    rw [String.append_empty]
    exact leads
  cases library with
  | elmHttp =>
      exact ⟨holdable_of_all (by decide), by decide, none, .fixed, .fixed, .fixed, .fixed, .fixed⟩
  | effect =>
      exact ⟨holdable_of_all (by decide), by decide, fun _ leads => leads.comp .fixed, .fixed,
        .fixed, .fixed, .fixed, .fixed⟩

section Declarations

variable {adapter : Adapter}

private theorem tidy_define {role : String} {lines : String → List String}
    (tidy : TidyLines (lines (adapter.helper role))) : Tidy (adapter.define role lines).source :=
  tidy.block

variable (tidy : adapter.IsTidy)

include tidy

private theorem IsTidy.helper {characters : List Char}
    (check : characters.all isNameChar = true := by decide) :
    Tidy (adapter.helper (String.ofList characters)) := by
  refine tidy_word ?_
  rw [Adapter.helper, String.toList_append, String.toList_ofList (l := characters)]
  exact tidy.lead.append (holdable_of_all check)

example : Tidy ((ofLibrary .effect).helper "Body") := by decide +kernel

private theorem IsTidy.member {characters : List Char}
    (check : isTidy ('A' :: '.' :: characters) = true := by decide) :
    Tidy (adapter.member (String.ofList characters)) :=
  tidy_memberText tidy.http check

theorem response_tidy : Tidy adapter.response.source := by
  have name : Tidy (adapter.helper "Response") := tidy.helper
  refine tidy_define <| .cons (name.gap.code tidy.member) <| .cons name.close <|
    .cons .fixed <| .cons (Lead.code .fixed tidy.member) <| .cons .fixed <| .cons .fixed <|
    .cons (Lead.code .fixed tidy.member) <| .cons .fixed <| .cons .fixed <|
    .cons (Lead.code .fixed tidy.member) <| .cons .fixed <| .cons .fixed <|
    .cons (Lead.code .fixed tidy.member) <| .cons .fixed <| .cons .fixed <|
    .cons (Lead.code .fixed tidy.member) <| .cons .fixed .nil

theorem body_tidy : Tidy adapter.body.source := by
  have name : Tidy (adapter.helper "Body") := tidy.helper
  refine tidy_define <| .cons (name.gap.code tidy.member) <| .cons name.close <|
    .cons .fixed <| .cons .fixed <| .cons (Lead.code .fixed tidy.member) <| .cons .fixed <|
    .cons .fixed <| .cons (Lead.code .fixed tidy.member) <| .cons .fixed <|
    .cons .fixed <| .cons (Lead.code .fixed tidy.member) <| .cons .fixed <|
    .cons .fixed <| .cons (Lead.code .fixed tidy.member) .nil

theorem headers_tidy : Tidy adapter.headers.source := by
  have name : Tidy (adapter.helper "Headers") := tidy.helper
  refine tidy_define <| .cons (name.gap.code tidy.member) <| .cons name.close <|
    .cons (Lead.code .fixed tidy.member) .nil

theorem choice_tidy {onBytes onText : String} (bytes : Tidy (adapter.member onBytes))
    (text : Tidy (adapter.member onText)) : TidyLines (adapter.choice onBytes onText) := by
  have response : Tidy (adapter.helper "Response") := tidy.helper
  have start : Tail (" expect (" ++ adapter.helper "Response") :=
    Tail.append .fixed (Lead.code .fixed response)
  have converted : Tail (" expect (" ++ adapter.helper "Response" ++ " response))") :=
    start.append start.tidy.close
  exact .cons .fixed <| .cons ((Lead.code .fixed bytes).close.tail converted) <| .cons .fixed <|
    .cons .fixed <| .cons ((Lead.code .fixed text).close.tail converted) .nil

theorem resolverType_tidy : Tidy adapter.resolverType :=
  (tidy.restriction _ (Lead.append tidy.member .fixed)).code .fixed

theorem resolver_tidy : Tidy adapter.resolver.source := by
  have name : Tidy (adapter.helper "Resolver") := tidy.helper
  have lines : TidyLines [adapter.helper "Resolver" ++ " : Expect err success -> "
      ++ adapter.resolverType, adapter.helper "Resolver" ++ " expect ="] :=
    .cons (name.gap.code (resolverType_tidy tidy)) <| .cons name.close .nil
  exact tidy_define (lines.append (choice_tidy tidy tidy.member tidy.member))

theorem recordType_tidy : Tidy adapter.recordType :=
  (tidy.restriction _ tidy.recordAlias.gap).code .fixed

example : Tidy (ofLibrary .elmHttp).recordType := by decide +kernel

theorem recordAliasOf_tidy : Tidy adapter.recordAliasOf.source := by
  refine Support.function_tidy <| .cons (Lead.code .fixed (recordType_tidy tidy)).close <|
    .cons .fixed <| .cons (Lead.code .fixed tidy.member) <| .cons .fixed <|
    .cons (Lead.code .fixed tidy.member) <| .cons (Lead.code .fixed (resolverType_tidy tidy)) <|
    .cons (Lead.code .fixed tidy.timeoutType) <| .cons .fixed .nil

theorem record_tidy : Tidy adapter.record.source := by
  have name : Tidy (adapter.helper "Record") := tidy.helper
  refine tidy_define <| .cons (name.gap.code (recordType_tidy tidy)) <| .cons name.close <|
    .cons .fixed <| .cons (Lead.code .fixed tidy.helper).close <| .cons .fixed <|
    .cons (Lead.code .fixed tidy.helper).close <| .cons (Lead.code .fixed tidy.helper).close <|
    .cons (Lead.code .fixed tidy.timeout) <| .cons .fixed .nil

theorem expect_tidy : Tidy adapter.expect.source := by
  have name : Tidy (adapter.helper "Expect") := tidy.helper
  have lines : TidyLines [adapter.helper "Expect"
      ++ " : (Result (Error err) success -> msg) -> Expect err success -> "
      ++ adapter.member "Expect msg", adapter.helper "Expect" ++ " toMsg expect ="] :=
    .cons (name.gap.code tidy.member) <| .cons name.close .nil
  exact tidy_define (lines.append (choice_tidy tidy tidy.member tidy.member))

theorem command_tidy : Tidy adapter.command.source := by
  have name : Tidy (adapter.helper "Cmd") := tidy.helper
  refine tidy_define <| .cons (name.gap.code tidy.commandType) <| .cons name.close <|
    .cons (Lead.code .fixed tidy.member) <| .cons .fixed <|
    .cons (Lead.code .fixed tidy.helper).close <| .cons .fixed <|
    .cons (Lead.code .fixed tidy.helper).close <| .cons (Lead.code .fixed tidy.helper).close <|
    .cons (Lead.code .fixed tidy.timeout) <| .cons .fixed <| .cons .fixed .nil

theorem task_tidy : Tidy adapter.task.source := by
  have name : Tidy (adapter.helper "Task") := tidy.helper
  have call : Lead (adapter.member "task (") := Lead.append tidy.member .fixed
  refine tidy_define <| .cons (name.gap.code tidy.taskType).close <| .cons name.close <|
    .cons ((Lead.comp .fixed call).code tidy.helper).close .nil

end Declarations

theorem declarations_tidy (library : Library) (conventions : List Convention) :
    ∀ declaration ∈ declarations library conventions, Tidy declaration.source := by
  have tidy := ofLibrary_tidy library
  unfold declarations
  simp only [List.forall_mem_append, List.forall_mem_cons]
  refine ⟨⟨⟨response_tidy tidy, body_tidy tidy, headers_tidy tidy, resolver_tidy tidy,
    recordAliasOf_tidy tidy, record_tidy tidy, List.forall_mem_nil _⟩, ?_⟩, ?_⟩
  · split
    · exact List.forall_mem_cons.mpr
        ⟨expect_tidy tidy, List.forall_mem_singleton.mpr (command_tidy tidy)⟩
    · exact List.forall_mem_nil _
  · split
    · exact List.forall_mem_singleton.mpr (task_tidy tidy)
    · exact List.forall_mem_nil _

end Adapter

theorem commonDeclarations_tidy (profiles : List EffectProfile) :
    ∀ declaration ∈ commonDeclarations profiles, Tidy declaration.source := by
  refine List.forall_mem_append.mpr
    ⟨List.forall_mem_append.mpr ⟨Support.json_tidy, Support.response_tidy⟩, ?_⟩
  intro declaration member
  obtain ⟨library, -, declared⟩ := List.mem_flatMap.mp member
  unfold libraryDeclarations at declared
  split at declared
  · exact absurd declared List.not_mem_nil
  · exact Adapter.declarations_tidy library _ declaration declared

end ElmClient.Elm
