/-
Variables and what is bound around them. A scan over the words of code keeps the variables
that can be seen at every level of brackets: a pattern is seen up to the end of its brackets
or the next comma, the pattern of a branch up to the next branch. Words that open and close
their own brackets leave the scan where it was, whatever stands around them.
-/

import ElmClient.Proofs.Lexing.Words

namespace ElmClient.Elm.Lexer

/-- A variable where it is bound, and the variables that can be seen there. -/
structure Binder where
  name : String
  around : List String
deriving DecidableEq, Repr

namespace Binder

def within (outer : List String) (binder : Binder) : Binder :=
  { binder with around := binder.around ++ outer }

/-- A binder hides what it is called after. -/
def Hides (binder : Binder) : Prop :=
  binder.name ∈ binder.around

instance : DecidablePred Hides := fun _ => inferInstanceAs (Decidable (_ ∈ _))

theorem within_within (outer further : List String) (binder : Binder) :
    (binder.within outer).within further = binder.within (outer ++ further) := by
  rw [within, within, within, List.append_assoc]

end Binder

/-! ### Levels -/

/-- The variables that can be seen between brackets. -/
structure Level where
  /-- Behind the opening bracket and behind every comma. -/
  outside : List String
  visible : List String
  /-- In front of the first branch. -/
  fork : Option (List String)
deriving DecidableEq, Repr

namespace Level

def starting (outside : List String) : Level :=
  { outside := outside, visible := outside, fork := none }

def beforeBranch (level : Level) : List String :=
  level.fork.getD level.visible

end Level

/-- The level at hand and those outside of it. -/
structure Nesting where
  level : Level
  outer : List Level
deriving DecidableEq, Repr

namespace Nesting

def starting : Nesting :=
  { level := Level.starting [], outer := [] }

def bound (nesting : Nesting) : Word → List Binder
  | .lambda names => names.map fun name => ⟨name, nesting.level.visible⟩
  | .branch names => names.map fun name => ⟨name, nesting.level.beforeBranch⟩
  | _ => []

def next (nesting : Nesting) : Word → Nesting
  | .opening =>
      { level := Level.starting nesting.level.visible, outer := nesting.level :: nesting.outer }
  | .closing =>
      match nesting.outer with
      | [] => nesting
      | level :: outer => { level := level, outer := outer }
  | .comma => { nesting with level := Level.starting nesting.level.outside }
  | .lambda names =>
      { nesting with
        level := { nesting.level with visible := names ++ nesting.level.visible } }
  | .branch names =>
      { nesting with
        level :=
          { nesting.level with
            visible := names ++ nesting.level.beforeBranch
            fork := some nesting.level.beforeBranch } }
  | .read _ => nesting

def after (nesting : Nesting) (words : List Word) : Nesting :=
  words.foldl next nesting

@[simp] theorem after_cons (nesting : Nesting) (word : Word) (words : List Word) :
    nesting.after (word :: words) = (nesting.next word).after words := rfl

@[simp] theorem after_append (nesting : Nesting) (left right : List Word) :
    nesting.after (left ++ right) = (nesting.after left).after right := List.foldl_append

def binders : Nesting → List Word → List Binder
  | _, [] => []
  | nesting, word :: later => nesting.bound word ++ (nesting.next word).binders later

@[simp] theorem binders_cons (nesting : Nesting) (word : Word) (later : List Word) :
    nesting.binders (word :: later) = nesting.bound word ++ (nesting.next word).binders later :=
  rfl

@[simp] theorem binders_append (nesting : Nesting) (left right : List Word) :
    nesting.binders (left ++ right) =
      nesting.binders left ++ (nesting.after left).binders right := by
  induction left generalizing nesting with
  | nil => rfl
  | cons word left ih =>
      rw [List.cons_append, binders, ih, binders, after_cons, List.append_assoc]

end Nesting

/-! ### Closed words -/

/-- The words leave every scan where it was and bind these variables on the way. -/
structure Closed (words : List Word) (bound : List Binder) : Prop where
  after : ∀ nesting : Nesting, nesting.after words = nesting
  binders : ∀ nesting : Nesting,
    nesting.binders words = bound.map (Binder.within nesting.level.visible)

namespace Closed

theorem nil : Closed [] [] :=
  ⟨fun _ => rfl, fun _ => rfl⟩

theorem read (fields : List String) : Closed [.read fields] [] :=
  ⟨fun _ => rfl, fun _ => rfl⟩

variable {words leftWords rightWords : List Word} {bound leftBound rightBound : List Binder}

theorem append (left : Closed leftWords leftBound) (right : Closed rightWords rightBound) :
    Closed (leftWords ++ rightWords) (leftBound ++ rightBound) where
  after nesting := by rw [Nesting.after_append, left.after, right.after]
  binders nesting := by
    rw [Nesting.binders_append, left.after, left.binders, right.binders, List.map_append]

theorem group (closed : Closed words bound) : Closed (.opening :: (words ++ [.closing])) bound where
  after nesting := by
    rw [Nesting.after_cons, Nesting.after_append, closed.after]
    rfl
  binders nesting := by
    rw [Nesting.binders_cons, Nesting.binders_append, closed.after, closed.binders]
    exact List.append_nil _

theorem function (names : List String) (closed : Closed words bound) :
    Closed (.opening :: .lambda names :: (words ++ [.closing]))
      (names.map (fun name => ⟨name, []⟩) ++ bound.map (Binder.within names)) where
  after nesting := by
    rw [Nesting.after_cons, Nesting.after_cons, Nesting.after_append, closed.after]
    rfl
  binders nesting := by
    have inside : (bound.map (Binder.within names)).map (Binder.within nesting.level.visible) =
        bound.map (Binder.within (names ++ nesting.level.visible)) := by
      rw [List.map_map]
      exact List.map_congr_left fun binder _ => Binder.within_within _ _ binder
    rw [Nesting.binders_cons, Nesting.binders_cons, Nesting.binders_append, closed.after,
      closed.binders, List.map_append, inside, List.map_map]
    change _ ++ (_ ++ []) = _
    rw [List.append_nil]
    rfl

end Closed

/-- Words between brackets: closed ones, with commas between them. -/
inductive Listed : List Word → List Binder → Prop
  | last {words : List Word} {bound : List Binder} (closed : Closed words bound) :
      Listed words bound
  | comma {words later : List Word} {bound laterBound : List Binder} (closed : Closed words bound)
      (others : Listed later laterBound) : Listed (words ++ .comma :: later) (bound ++ laterBound)

private theorem Listed.scan {words : List Word} {bound : List Binder} (listed : Listed words bound)
    (visible : List String) (outer : List Level) :
    Nesting.after ⟨Level.starting visible, outer⟩ words = ⟨Level.starting visible, outer⟩ ∧
      Nesting.binders ⟨Level.starting visible, outer⟩ words =
        bound.map (Binder.within visible) := by
  induction listed with
  | last closed => exact ⟨closed.after _, closed.binders _⟩
  | @comma words later bound laterBound closed others ih =>
      have further : Nesting.next ⟨Level.starting visible, outer⟩ .comma =
          ⟨Level.starting visible, outer⟩ := rfl
      rw [Nesting.after_append, Nesting.binders_append, closed.after, closed.binders,
        Nesting.after_cons, Nesting.binders_cons, further, ih.1, ih.2, List.map_append]
      exact ⟨rfl, rfl⟩

theorem Listed.group {words : List Word} {bound : List Binder} (listed : Listed words bound) :
    Closed (.opening :: (words ++ [.closing])) bound where
  after nesting := by
    have scanned := listed.scan nesting.level.visible (nesting.level :: nesting.outer)
    rw [Nesting.after_cons, Nesting.after_append, Nesting.next, scanned.1]
    rfl
  binders nesting := by
    have scanned := listed.scan nesting.level.visible (nesting.level :: nesting.outer)
    rw [Nesting.binders_cons, Nesting.binders_append, Nesting.next, scanned.1, scanned.2]
    exact List.append_nil _

/-! ### Expressions that bind nothing -/

/-- Whether brackets close, with so many open ones, and no pattern and no comma stands outside of
them. -/
def closes : Nat → List Word → Bool
  | 0, [] => true
  | _ + 1, [] => false
  | depth, .opening :: later => closes (depth + 1) later
  | 0, .closing :: _ => false
  | depth + 1, .closing :: later => closes depth later
  | 0, .comma :: _ => false
  | depth + 1, .comma :: later => closes (depth + 1) later
  | depth, .read _ :: later => closes depth later
  | _, .lambda _ :: _ => false
  | _, .branch _ :: _ => false

/-- An expression that is code up to its end, closes its brackets and has no pattern. -/
structure BindsNothing (text : String) : Prop where
  tidy : Tidy text
  code : (match (Reader.code [] false).run (tokens text.toList) with
    | (words, .code _ false) => closes 0 words
    | _ => false) = true

instance (text : String) : Decidable (BindsNothing text) :=
  decidable_of_iff (Tidy text ∧ _)
    ⟨fun both => ⟨both.1, both.2⟩, fun binds => ⟨binds.tidy, binds.code⟩⟩

private theorem no_branch_of_closes {depth : Nat} {words : List Word}
    (closing : closes depth words = true) :
    ∀ word ∈ words, word.isBranch = false := by
  induction words generalizing depth with
  | nil => exact nofun
  | cons word later ih =>
      cases word with
      | lambda => cases depth <;> contradiction
      | branch => cases depth <;> contradiction
      | opening => cases depth <;> exact List.forall_mem_cons.mpr ⟨rfl, ih closing⟩
      | read => cases depth <;> exact List.forall_mem_cons.mpr ⟨rfl, ih closing⟩
      | closing =>
          cases depth with
          | zero => contradiction
          | succ => exact List.forall_mem_cons.mpr ⟨rfl, ih closing⟩
      | comma =>
          cases depth with
          | zero => contradiction
          | succ => exact List.forall_mem_cons.mpr ⟨rfl, ih closing⟩

def Nesting.opened (nesting : Nesting) : Nat → Nesting
  | 0 => nesting
  | depth + 1 => (nesting.opened depth).next .opening

theorem scan_of_closes {depth : Nat} {words : List Word} (closing : closes depth words = true)
    (nesting : Nesting) :
    (nesting.opened depth).after words = nesting ∧ (nesting.opened depth).binders words = [] := by
  induction words generalizing depth with
  | nil =>
      cases depth with
      | zero => exact ⟨rfl, rfl⟩
      | succ => contradiction
  | cons word later ih =>
      cases word with
      | lambda => cases depth <;> contradiction
      | branch => cases depth <;> contradiction
      | opening =>
          have inside : closes (depth + 1) later = true := by cases depth <;> exact closing
          exact ih inside
      | read =>
          have behind : closes depth later = true := by cases depth <;> exact closing
          exact ih behind
      | closing =>
          cases depth with
          | zero => contradiction
          | succ depth => exact @ih depth closing
      | comma =>
          cases depth with
          | zero => contradiction
          | succ depth => exact @ih (depth + 1) closing

theorem BindsNothing.spells {text : String} (binds : BindsNothing text) :
    ∃ words, Spells text words ∧ Closed words [] := by
  have code := binds.code
  split at code
  case h_2 => contradiction
  case h_1 words line reads =>
    have fixed : spellsTo text.toList words = true := by
      rw [spellsTo, reads, isTidy_toList.mpr binds.tidy, Bool.true_and]
      change (_ && words == words) = true
      rw [beq_self_eq_true, Bool.and_true]
      exact List.all_eq_true.mpr fun word member =>
        (Bool.not_eq_true' _).mpr (no_branch_of_closes code word member)
    have spells : Spells (String.ofList text.toList) words := .fixed fixed
    rw [String.ofList_toList] at spells
    exact ⟨words, spells, fun nesting => (scan_of_closes code nesting).1,
      fun nesting => (scan_of_closes code nesting).2⟩

/-! ### Definitions -/

def isEquals (token : Token) : Bool :=
  token == ⟨.symbol, ['=']⟩

def isFeed (token : Token) : Bool :=
  token == ⟨.symbol, ['\n']⟩

/-- The variables that a definition takes: those behind its name on the last line in front of
the first equals sign. -/
def parametersOf (tokens : List Token) : List String :=
  let line := ((tokens.takeWhile (!isEquals ·)).reverse.takeWhile (!isFeed ·)).reverse
  (line.filter (·.kind == .name)).tail.flatMap fun token => variablesOf token.text

def bodyOf (tokens : List Token) : List Word :=
  ((Reader.code [] false).run (tokens.dropWhile (!isEquals ·)).tail).1

/-- The variables that a definition binds, its parameters first. -/
def bindersOf (source : String) : List Binder :=
  Nesting.starting.binders
    (.lambda (parametersOf (tokens source.toList)) :: bodyOf (tokens source.toList))

end ElmClient.Elm.Lexer
