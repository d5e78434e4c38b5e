/-
The binders of definitions. Behind a signature without an equals sign stands a line with the
name and its parameters; these are bound around all that the body binds. Where the body is a
choice between branches, the variables of a branch are bound around its code alone.
-/

import ElmClient.Proofs.Scope.Binders
import Mathlib.Data.List.TakeWhile

namespace ElmClient.Elm.Lexer

open Text

def definesWith (characters : List Char) (parameters : List String) : Bool :=
  isTail characters && isLead characters
    && (let head := (tokens characters).takeWhile (!isEquals ·)
      head.all (!isFeed ·)
        && (head.filter (·.kind == .name)).flatMap (fun token => variablesOf token.text)
          == parameters)
    && (tokens characters).dropWhile (!isEquals ·) == [⟨.symbol, ['=']⟩, ⟨.symbol, ['\n']⟩]

private theorem not_isEquals_of_not_mem {text : List Char} (free : '=' ∉ text) :
    ∀ token ∈ tokens text, isEquals token = false := by
  intro token listed
  rw [isEquals, beq_eq_false_iff_ne]
  rintro rfl
  refine free ?_
  rw [← (lexed_tokens text).2]
  exact List.mem_flatMap.mpr ⟨_, listed, List.mem_cons_self⟩

private theorem parametersOf_append {before head : List Token} {name : Token}
    (free : ∀ token ∈ before ++ ⟨.symbol, ['\n']⟩ :: name :: head, isEquals token = false)
    (line : ∀ token ∈ name :: head, isFeed token = false) (named : name.kind = .name)
    (later : List Token) :
    parametersOf (before ++ ⟨.symbol, ['\n']⟩ :: name :: head ++ ⟨.symbol, ['=']⟩ :: later) =
        (head.filter (·.kind == .name)).flatMap (fun token => variablesOf token.text) ∧
      bodyOf (before ++ ⟨.symbol, ['\n']⟩ :: name :: head ++ ⟨.symbol, ['=']⟩ :: later) =
        ((Reader.code [] false).run later).1 := by
  have kept : ∀ token ∈ before ++ ⟨.symbol, ['\n']⟩ :: name :: head, (!isEquals token) = true :=
    fun token listed => by rw [free token listed]; rfl
  have lineKept : ∀ token ∈ (name :: head).reverse, (!isFeed token) = true :=
    fun token listed => by rw [line token (List.mem_reverse.mp listed)]; rfl
  have stops : List.takeWhile (!isEquals ·) (⟨.symbol, ['=']⟩ :: later) = [] := rfl
  have rest : List.dropWhile (!isEquals ·) (⟨.symbol, ['=']⟩ :: later) =
      ⟨.symbol, ['=']⟩ :: later := rfl
  have feed : List.takeWhile (!isFeed ·) (⟨.symbol, ['\n']⟩ :: before.reverse) = [] := rfl
  constructor
  · rw [parametersOf, List.takeWhile_append_of_pos kept, stops, List.append_nil,
      List.reverse_append, List.reverse_cons, List.append_assoc, List.singleton_append,
      List.takeWhile_append_of_pos lineKept, feed, List.append_nil, List.reverse_reverse,
      List.filter_cons_of_pos (by rw [named]; rfl), List.tail_cons]
  · rw [bodyOf, List.dropWhile_append_of_pos kept, rest, List.tail_cons]

theorem equals_not_mem {name : String} (regular : isRegular name.toList = true) :
    '=' ∉ name.toList := by
  intro member
  rcases ascii_of_isRegular regular '=' member with word | point
  · exact absurd word (by decide)
  · exact absurd point (by decide)

section Definition

variable {first name body : String} (firstTidy : Tidy first) (inhabited : name.toList ≠ [])
  (regular : isRegular name.toList = true)

include firstTidy inhabited regular

private theorem tokens_definition {pattern : String} (tails : Tail pattern) (leads : Lead pattern) :
    tokens (first ++ "\n" ++ name ++ pattern ++ body).toList =
      tokens first.toList ++ (⟨.symbol, ['\n']⟩ :: ⟨.name, name.toList⟩ :: tokens pattern.toList)
        ++ tokens body.toList := by
  have feed : Gap "\n" := .fixed
  have line : Lead (first ++ "\n") := feed.after firstTidy
  have named : Tidy (first ++ "\n" ++ name) := line.code (tidy_of_isRegular regular)
  have head : Lead (first ++ "\n" ++ name ++ pattern) := .append (named.tail tails) leads
  have feedTokens : tokens "\n".toList = [⟨.symbol, ['\n']⟩] := by decide
  rw [head.tokens, tails.tokens named, line.tokens, feed.tail.tokens firstTidy,
    tokens_name inhabited regular, feedTokens]
  simp

variable (free : '=' ∉ first.toList)

include free

/-- A definition binds the names of its pattern, and around these nothing. -/
theorem bindersOf_pattern {pattern : String} (tails : Tail pattern) (leads : Lead pattern)
    {head : List Token}
    (split : tokens pattern.toList = head ++ [⟨.symbol, ['=']⟩, ⟨.symbol, ['\n']⟩])
    (headFree : ∀ token ∈ head, isEquals token = false)
    (line : ∀ token ∈ head, isFeed token = false) :
    bindersOf (first ++ "\n" ++ name ++ pattern ++ body) =
      Nesting.starting.binders
        (.lambda ((head.filter (·.kind == .name)).flatMap fun token => variablesOf token.text)
          :: wordsOf body) := by
  have inLine : ∀ token ∈ (⟨.name, name.toList⟩ : Token) :: head, isFeed token = false :=
    List.forall_mem_cons.mpr ⟨rfl, line⟩
  have inFront : ∀ token ∈ tokens first.toList ++ ⟨.symbol, ['\n']⟩ :: ⟨.name, name.toList⟩ :: head,
      isEquals token = false :=
    List.forall_mem_append.mpr ⟨not_isEquals_of_not_mem free,
      List.forall_mem_cons.mpr ⟨rfl, List.forall_mem_cons.mpr ⟨rfl, headFree⟩⟩⟩
  have whole : tokens (first ++ "\n" ++ name ++ pattern ++ body).toList =
      tokens first.toList ++ ⟨.symbol, ['\n']⟩ :: ⟨.name, name.toList⟩ :: head
        ++ ⟨.symbol, ['=']⟩ :: ⟨.symbol, ['\n']⟩ :: tokens body.toList := by
    rw [tokens_definition firstTidy inhabited regular tails leads, split]
    simp
  obtain ⟨found, behind⟩ :=
    parametersOf_append inFront inLine rfl (⟨.symbol, ['\n']⟩ :: tokens body.toList)
  rw [bindersOf, whole, found, behind]
  rfl

theorem bindersOf_definition {pattern : List Char} (parameters : List String)
    (check : definesWith pattern parameters = true) :
    bindersOf (first ++ "\n" ++ name ++ String.ofList pattern ++ body) =
      Nesting.starting.binders (.lambda parameters :: wordsOf body) := by
  obtain ⟨checks, rest⟩ := Bool.and_eq_true_iff.mp check
  obtain ⟨breaks, head⟩ := Bool.and_eq_true_iff.mp checks
  obtain ⟨tails, leads⟩ := Bool.and_eq_true_iff.mp breaks
  obtain ⟨line, taken⟩ := Bool.and_eq_true_iff.mp head
  have parts : tokens (String.ofList pattern).toList =
      (tokens pattern).takeWhile (!isEquals ·) ++ [⟨.symbol, ['=']⟩, ⟨.symbol, ['\n']⟩] := by
    rw [String.toList_ofList, ← eq_of_beq rest, List.takeWhile_append_dropWhile]
  have headFree : ∀ token ∈ (tokens pattern).takeWhile (!isEquals ·), isEquals token = false :=
    fun token listed => by
      have kept := List.mem_takeWhile_imp (p := (!isEquals ·)) listed
      exact (Bool.not_eq_true' _).mp kept
  have whole : bindersOf (first ++ "\n" ++ name ++ String.ofList pattern ++ body) = _ :=
    bindersOf_pattern firstTidy inhabited regular free (.fixed tails) (.fixed leads) parts headFree
      fun token listed => (Bool.not_eq_true' _).mp (List.all_eq_true.mp line token listed)
  rw [whole, eq_of_beq taken]

end Definition

/-! ### Branches -/

/-- Code at the beginning of a line. -/
structure Begins (text : String) (words : List Word) : Prop where
  tidy : Tidy text
  reads : ∃ later, (Reader.code [] false).run (tokens text.toList) = (words, .code later false)

private theorem Begins.wordsOf {text : String} {words : List Word} (begins : Begins text words) :
    wordsOf text = words := by
  obtain ⟨later, reads⟩ := begins.reads
  rw [Lexer.wordsOf, reads]

private theorem Spells.begins {text : String} {words : List Word} (spells : Spells text words) :
    Begins text words :=
  ⟨spells.tidy, spells.reads []⟩

theorem Begins.code {lead text : String} {leadWords words : List Word}
    (begins : Begins lead leadWords) (leads : Lead lead) (spells : Spells text words) :
    Begins (lead ++ text) (leadWords ++ words) := by
  refine ⟨leads.code spells.tidy, ?_⟩
  obtain ⟨middle, leadReads⟩ := begins.reads
  obtain ⟨later, reads⟩ := spells.reads middle
  exact ⟨later, by rw [leads.tokens, Reader.run_append, leadReads, reads]⟩

private theorem Begins.lines {text gap right : String} {words rightWords : List Word}
    (begins : Begins text words) (between : Gap gap)
    (restarts : ∀ line, (Reader.code line false).run (tokens gap.toList) = ([], .code [] false))
    (others : Begins right rightWords) :
    Begins (text ++ gap ++ right) (words ++ rightWords) := by
  have lead := between.after begins.tidy
  refine ⟨lead.code others.tidy, ?_⟩
  obtain ⟨middle, reads⟩ := begins.reads
  obtain ⟨later, rightReads⟩ := others.reads
  refine ⟨later, ?_⟩
  rw [lead.tokens, between.tail.tokens begins.tidy, Reader.run_append, Reader.run_append, reads,
    restarts, rightReads]
  simp

def endsPattern (characters : List Char) (names : List String) : Bool :=
  isTail characters
    && (Reader.code [] false).run (tokens characters) == ([.branch names], .code [] false)

theorem begins_branch {constructor : String} (path : '.' ∈ constructor.toList)
    (regular : isRegular constructor.toList = true) (reads : Word.ofName constructor.toList = [])
    {tail : List Char} (names : List String)
    (check : endsPattern tail names = true) :
    Begins ("        " ++ constructor ++ String.ofList tail) [.branch names] := by
  obtain ⟨tails, ends⟩ := Bool.and_eq_true_iff.mp check
  have inhabited : constructor.toList ≠ [] := List.ne_nil_of_mem path
  have lead : Lead "        " := .fixed
  have tailText : Tail (String.ofList tail) := .fixed tails
  have line : Tidy ("        " ++ constructor) := lead.code (tidy_of_isRegular regular)
  have blanks : (Reader.code [] false).run (tokens "        ".toList) = ([], .code [] false) := by
    decide
  have noVariable : variablesOf constructor.toList = [] := by
    rw [variablesOf, List.contains_iff_mem.mpr path]
    simp
  refine ⟨line.tail tailText, [], ?_⟩
  rw [tailText.tokens line, lead.tokens, Reader.run_append, Reader.run_append, blanks,
    tokens_name inhabited regular, Reader.run_cons, Reader.next, reads, noVariable,
    String.toList_ofList]
  exact eq_of_beq ends

/-- Branches with closed words. -/
inductive Branches : List Word → List Binder → Prop
  | nil : Branches [] []
  | cons {names : List String} {words later : List Word} {bound more : List Binder}
      (closed : Closed words bound) (others : Branches later more) :
      Branches (.branch names :: words ++ later)
        (names.map (fun name => ⟨name, []⟩) ++ bound.map (Binder.within names) ++ more)

theorem Branches.scan {words : List Word} {bound : List Binder} (branches : Branches words bound)
    (nesting : Nesting) :
    nesting.binders words = bound.map (Binder.within nesting.level.beforeBranch) := by
  induction branches generalizing nesting with
  | nil => rfl
  | @cons names words later bound more closed others ih =>
      have inside : (bound.map (Binder.within names)).map
          (Binder.within nesting.level.beforeBranch) =
            bound.map (Binder.within (names ++ nesting.level.beforeBranch)) := by
        rw [List.map_map]
        exact List.map_congr_left fun binder _ => Binder.within_within _ _ binder
      rw [List.cons_append, Nesting.binders_cons, Nesting.binders_append, closed.after,
        closed.binders, ih, List.map_append, List.map_append, inside, List.map_map,
        List.append_assoc]
      rfl

structure Branch (text : String) (described : Binder → Prop) : Prop where
  parts : ∃ names words bound, Begins text (.branch names :: words) ∧ Closed words bound ∧
    (∀ name ∈ names, described ⟨name, []⟩) ∧
    ∀ binder ∈ bound, described (binder.within names)

theorem begins_branches {texts : List String} {described : Binder → Prop}
    (each : ∀ text ∈ texts, Branch text described) :
    ∃ words bound, Begins (join "\n\n" texts) words ∧ Branches words bound ∧
      ∀ binder ∈ bound, described binder := by
  induction texts with
  | nil => exact ⟨[], [], Spells.begins .fixed, .nil, nofun⟩
  | cons text texts ih =>
      obtain ⟨first, others⟩ := List.forall_mem_cons.mp each
      obtain ⟨names, words, bound, begins, closed, named, inside⟩ := first.parts
      obtain ⟨later, more, rest, branches, all⟩ := ih others
      refine ⟨.branch names :: words ++ later, _, ?_, .cons closed branches, ?_⟩
      · cases texts with
        | nil =>
            obtain rfl : later = [] := by
              have none : wordsOf (join "\n\n" []) = later := rest.wordsOf
              exact none.symm
            rw [join, String.intercalate_singleton, List.append_nil]
            exact begins
        | cons second texts =>
            rw [join, String.intercalate_cons_cons]
            exact begins.lines .fixed (fun line => rfl) rest
      · exact List.forall_mem_append.mpr
          ⟨List.forall_mem_append.mpr ⟨List.forall_mem_map.mpr named,
            List.forall_mem_map.mpr inside⟩, all⟩

end ElmClient.Elm.Lexer
