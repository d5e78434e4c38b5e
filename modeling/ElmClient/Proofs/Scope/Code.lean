/-
Generated expressions with the expressions of the format registry set aside. A name stands for
each of these; what is left is code with known words, whatever the registry holds. If the
registry binds nothing, the text itself binds what the rest of it binds.
-/

import ElmClient.Proofs.Scope.Binders
import ElmClient.Proofs.Tidy.Codec

namespace ElmClient.Elm

open Lexer Text

def Naming.Registers (naming : Naming) (expression : String) : Prop :=
  ∃ value entry, naming.formatEntry? value = some entry ∧
    (expression = entry.encode ∨ expression = entry.decode ∨ entry.stringify = some expression)

/-- A text, and the text with registered expressions set aside. -/
inductive Naming.Aside (naming : Naming) : String → String → Prop
  | own (text : String) : naming.Aside text text
  | registered {expression : String} (listed : naming.Registers expression) :
      naming.Aside expression "registered"
  | append {left right leftBare rightBare : String} (before : naming.Aside left leftBare)
      (behind : naming.Aside right rightBare) : naming.Aside (left ++ right) (leftBare ++ rightBare)

/-- No expression of the registry binds a variable. -/
def Naming.Quiet (naming : Naming) : Prop :=
  ∀ expression, naming.Registers expression → BindsNothing expression

/-- No expression of the registry reads the input. -/
def Naming.Blind (naming : Naming) : Prop :=
  ∀ expression, naming.Registers expression → (wordsOf expression).filterMap Word.field? = []

/-! ### Words of code -/

def Alike (words other : List Word) : Prop :=
  ∀ nesting : Nesting, nesting.after other = nesting.after words ∧
    nesting.binders other = nesting.binders words

private theorem Alike.refl (words : List Word) : Alike words words :=
  fun _ => ⟨rfl, rfl⟩

private theorem Alike.append {left other right further : List Word} (before : Alike left other)
    (behind : Alike right further) : Alike (left ++ right) (other ++ further) := by
  intro nesting
  rw [Nesting.after_append, Nesting.after_append, Nesting.binders_append, Nesting.binders_append,
    (before nesting).1, (before nesting).2]
  exact ⟨(behind _).1, congrArg _ (behind _).2⟩

theorem Alike.closed {words other : List Word} {bound : List Binder} (alike : Alike words other)
    (closed : Closed words bound) : Closed other bound where
  after nesting := (alike nesting).1.trans (closed.after nesting)
  binders nesting := (alike nesting).2.trans (closed.binders nesting)

/-- The words with those of the registry among them. -/
structure Completes (naming : Naming) (words full : List Word) : Prop where
  alike : Alike words full
  reads : naming.Blind → full.filterMap Word.field? = words.filterMap Word.field?

namespace Completes

variable {naming : Naming}

theorem refl (words : List Word) : Completes naming words words :=
  ⟨.refl words, fun _ => rfl⟩

theorem append {left other right further : List Word} (before : Completes naming left other)
    (behind : Completes naming right further) :
    Completes naming (left ++ right) (other ++ further) where
  alike := before.alike.append behind.alike
  reads blind := by
    rw [List.filterMap_append, List.filterMap_append, before.reads blind, behind.reads blind]

end Completes

/-- Code with its words, those of the registry left out. -/
structure Code (naming : Naming) (text : String) (words : List Word) : Prop where
  bare : ∃ bare, naming.Aside text bare ∧ Spells bare words
  whole : naming.Quiet → ∃ full, Spells text full ∧ Completes naming words full

namespace Code

variable {naming : Naming} {text right : String} {words rightWords : List Word}
  {characters : List Char}

theorem own (spells : Spells text words) : Code naming text words where
  bare := ⟨text, .own text, spells⟩
  whole _ := ⟨words, spells, .refl words⟩

theorem registered (listed : naming.Registers text) : Code naming text [] where
  bare := ⟨"registered", .registered listed, .fixed⟩
  whole quiet := by
    obtain ⟨full, spells, closed⟩ := (quiet text listed).spells
    refine ⟨full, spells, fun nesting => ⟨closed.after nesting, closed.binders nesting⟩,
      fun blind => ?_⟩
    rw [← spells.wordsOf, blind text listed]
    rfl

theorem behind (leadWords : List Word) (code : Code naming text words)
    (check : (isLead characters && spellsTo characters leadWords) = true := by decide) :
    Code naming (String.ofList characters ++ text) (leadWords ++ words) where
  bare := by
    obtain ⟨bare, aside, spells⟩ := code.bare
    exact ⟨_, .append (.own _) aside, spells.behind leadWords check⟩
  whole quiet := by
    obtain ⟨full, spells, completes⟩ := code.whole quiet
    exact ⟨_, spells.behind leadWords check, (Completes.refl leadWords).append completes⟩

theorem close (tailWords : List Word) (code : Code naming text words)
    (check : (isTail characters && spellsTo characters tailWords) = true := by decide) :
    Code naming (text ++ String.ofList characters) (words ++ tailWords) where
  bare := by
    obtain ⟨bare, aside, spells⟩ := code.bare
    exact ⟨_, .append aside (.own _), spells.close tailWords check⟩
  whole quiet := by
    obtain ⟨full, spells, completes⟩ := code.whole quiet
    exact ⟨_, spells.close tailWords check, completes.append (.refl tailWords)⟩

theorem beside (gapWords : List Word) (code : Code naming text words)
    (rightCode : Code naming right rightWords)
    (check : (isTail characters && isLead characters && spellsTo characters gapWords) = true := by
      decide) :
    Code naming (text ++ String.ofList characters ++ right) (words ++ gapWords ++ rightWords) where
  bare := by
    obtain ⟨bare, aside, spells⟩ := code.bare
    obtain ⟨rightBare, rightAside, rightSpells⟩ := rightCode.bare
    exact ⟨_, .append (.append aside (.own _)) rightAside, spells.beside gapWords rightSpells check⟩
  whole quiet := by
    obtain ⟨full, spells, completes⟩ := code.whole quiet
    obtain ⟨rightFull, rightSpells, rightAlike⟩ := rightCode.whole quiet
    exact ⟨_, spells.beside gapWords rightSpells check,
      (completes.append (.refl gapWords)).append rightAlike⟩

theorem lead {start : String} {leadWords : List Word} (leads : Lead start)
    (spells : Spells start leadWords) (code : Code naming text words) :
    Code naming (start ++ text) (leadWords ++ words) where
  bare := by
    obtain ⟨bare, aside, bareSpells⟩ := code.bare
    exact ⟨_, .append (.own _) aside, leads.spells spells bareSpells⟩
  whole quiet := by
    obtain ⟨full, fullSpells, completes⟩ := code.whole quiet
    exact ⟨_, leads.spells spells fullSpells, (Completes.refl leadWords).append completes⟩

theorem lambda {lead tail : List Char} {name : String} (leadWords tailWords : List Word)
    (isVariable : IsVariable name) (code : Code naming text words)
    (opens : opensPattern lead leadWords = true := by decide)
    (closing : closesPattern tail tailWords = true := by decide) :
    Code naming (String.ofList lead ++ name ++ String.ofList tail ++ text)
      (leadWords ++ .lambda [name] :: tailWords ++ words) := by
  have pattern := spells_pattern leadWords tailWords (List.forall_mem_singleton.mpr isVariable)
    opens closing
  rw [Text.join, String.intercalate_singleton] at pattern
  exact code.lead pattern.1 pattern.2

theorem atom (code : Code naming text words) :
    Code naming (atom text) words ∨
      Code naming (atom text) ([.opening] ++ words ++ [.closing]) := by
  unfold Elm.atom
  split
  · exact Or.inl code
  · exact Or.inr ((code.behind [.opening]).close [.closing])

end Code

/-! ### Written expressions -/

/-- Code that reads these fields of the input, one after the other, and whose binders are as
described. -/
structure Writes (naming : Naming) (text : String) (reads : List (List String))
    (described : List Binder → Prop) : Prop where
  parts : ∃ words bound, Code naming text words ∧ Closed words bound ∧
    words.filterMap Word.field? = reads ∧ described bound

namespace Writes

variable {naming : Naming} {text right : String} {reads rightReads : List (List String)}
  {described other joined : List Binder → Prop} {characters : List Char}

theorem imp (writes : Writes naming text reads described)
    (implies : ∀ bound, described bound → other bound) : Writes naming text reads other := by
  obtain ⟨words, bound, code, closed, same, holds⟩ := writes.parts
  exact ⟨words, bound, code, closed, same, implies bound holds⟩

theorem plain (code : Code naming text []) (none : described []) :
    Writes naming text [] described :=
  ⟨[], [], code, .nil, rfl, none⟩

theorem atom (writes : Writes naming text reads described) :
    Writes naming (atom text) reads described := by
  obtain ⟨words, bound, code, closed, rfl, holds⟩ := writes.parts
  rcases code.atom with same | grouped
  · exact ⟨words, bound, same, closed, rfl, holds⟩
  · refine ⟨_, bound, grouped, closed.group, ?_, holds⟩
    simp [List.filterMap_cons]

theorem behind (writes : Writes naming text reads described)
    (check : (isLead characters && spellsTo characters []) = true := by decide) :
    Writes naming (String.ofList characters ++ text) reads described := by
  obtain ⟨words, bound, code, closed, same, holds⟩ := writes.parts
  exact ⟨words, bound, code.behind [] check, closed, same, holds⟩

theorem close (writes : Writes naming text reads described)
    (check : (isTail characters && spellsTo characters []) = true := by decide) :
    Writes naming (text ++ String.ofList characters) reads described := by
  obtain ⟨words, bound, code, closed, same, holds⟩ := writes.parts
  have whole := code.close [] check
  rw [List.append_nil] at whole
  exact ⟨words, bound, whole, closed, same, holds⟩

theorem beside (writes : Writes naming text reads described)
    (rightWrites : Writes naming right rightReads other)
    (both : ∀ bound further, described bound → other further → joined (bound ++ further))
    (check : (isTail characters && isLead characters && spellsTo characters []) = true := by
      decide) :
    Writes naming (text ++ String.ofList characters ++ right) (reads ++ rightReads) joined := by
  obtain ⟨words, bound, code, closed, rfl, holds⟩ := writes.parts
  obtain ⟨more, further, rightCode, rightClosed, rfl, rightHolds⟩ := rightWrites.parts
  have whole := code.beside [] rightCode check
  rw [List.append_nil] at whole
  exact ⟨_, _, whole, closed.append rightClosed, List.filterMap_append, both _ _ holds rightHolds⟩

theorem ofCode {words : List Word} {bound : List Binder} (code : Code naming text words)
    (closed : Closed words bound) (same : words.filterMap Word.field? = reads)
    (holds : described bound) : Writes naming text reads described :=
  ⟨words, bound, code, closed, same, holds⟩

section Several

variable {α : Type} {items : List α} {texts : List String} {readsOf : α → List (List String)}
  {describedOf : α → List Binder → Prop}

theorem join {separator : List Char}
    (check : (isTail separator && isLead separator && spellsTo separator []) = true)
    (each : List.Forall₂
      (fun item text => Writes naming text (readsOf item) (describedOf item)) items texts) :
    Writes naming (Text.join (String.ofList separator) texts) (items.flatMap readsOf) fun bound =>
      ∃ bounds, List.Forall₂ describedOf items bounds ∧ bound = bounds.flatten := by
  induction each with
  | nil => exact plain (.own .fixed) ⟨[], .nil, rfl⟩
  | @cons item text items texts first others ih =>
      rw [List.flatMap_cons]
      cases others with
      | nil =>
          rw [Text.join, String.intercalate_singleton, List.flatMap_nil, List.append_nil]
          exact first.imp fun bound holds => ⟨[bound], .cons holds .nil, by simp⟩
      | cons second later =>
          rw [Text.join, String.intercalate_cons_cons]
          refine first.beside ih (fun bound further holds rest => ?_) check
          obtain ⟨bounds, all, rfl⟩ := rest
          exact ⟨bound :: bounds, .cons holds all, rfl⟩

theorem listed (separator : List Char)
    (check : (isTail separator && isLead separator && spellsTo separator [.comma]) = true)
    (each : List.Forall₂
      (fun item text => Writes naming text (readsOf item) (describedOf item)) items texts) :
    ∃ words bounds, Code naming (Text.join (String.ofList separator) texts) words ∧
      Listed words bounds.flatten ∧ words.filterMap Word.field? = items.flatMap readsOf ∧
      List.Forall₂ describedOf items bounds := by
  induction each with
  | nil => exact ⟨[], [], .own .fixed, .last .nil, rfl, .nil⟩
  | @cons item text items texts first others ih =>
      obtain ⟨words, bound, code, closed, reads, holds⟩ := first.parts
      cases others with
      | nil =>
          refine ⟨words, [bound], ?_, ?_, ?_, .cons holds .nil⟩
          · rwa [Text.join, String.intercalate_singleton]
          · rw [List.flatten_singleton]
            exact .last closed
          · rw [List.flatMap_singleton, reads]
      | cons second later =>
          obtain ⟨more, bounds, rest, listed, restReads, all⟩ := ih
          refine ⟨words ++ [.comma] ++ more, bound :: bounds, ?_, ?_, ?_, .cons holds all⟩
          · rw [Text.join, String.intercalate_cons_cons]
            exact code.beside [.comma] rest check
          · rw [List.append_assoc, List.flatten_cons]
            exact .comma closed listed
          · rw [List.filterMap_append, List.filterMap_append, reads, restReads, List.flatMap_cons]
            simp [List.filterMap_cons]

theorem list (each : List.Forall₂
      (fun item text => Writes naming text (readsOf item) (describedOf item)) items texts) :
    Writes naming (Elm.list texts) (items.flatMap readsOf) fun bound =>
      ∃ bounds, List.Forall₂ describedOf items bounds ∧ bound = bounds.flatten := by
  cases each with
  | nil => exact ofCode (.own .fixed) (.group .nil) rfl ⟨[], .nil, rfl⟩
  | cons first others =>
      obtain ⟨words, bounds, code, inside, reads, all⟩ :=
        listed [',', ' '] (by decide) (.cons first others)
      refine ofCode ((code.behind [.opening]).close [.closing]) inside.group ?_ ⟨bounds, all, rfl⟩
      rw [← reads]
      simp [List.filterMap_cons]

theorem list_of_forall (each : ∀ text ∈ texts, Writes naming text [] described)
    (both : ∀ bounds : List (List Binder), (∀ bound ∈ bounds, described bound) →
      other bounds.flatten) : Writes naming (Elm.list texts) [] other := by
  have related : List.Forall₂ (fun _ text => Writes naming text [] described) texts texts :=
    List.forall₂_same.mpr each
  have whole := list related
  rw [List.flatMap_eq_nil_iff.mpr fun _ _ => rfl] at whole
  refine whole.imp ?_
  rintro _ ⟨bounds, all, rfl⟩
  exact both bounds (Run.all_of_forall₂ all)

end Several

end Writes

/-! ### References -/

def Naming.formatless (naming : Naming) : Naming :=
  { naming with formats := ⟨[]⟩ }

/-- All that the naming refers to but the formats is tidy. -/
def Naming.NamesTidy (naming : Naming) : Prop :=
  naming.formatless.IsTidy

theorem Naming.NamesTidy.proper {naming : Naming} (named : naming.NamesTidy) {name : TypeName}
    (refers : naming.Refers naming.Knows name) : name.Proper := by
  cases refers with
  | @union _ variants knows =>
      have finished : naming.formatless.Knows (.union _ variants) := knows
      exact named.unionName finished
  | enum found => exact named.enumName found
  | component target => exact TypeName.ofRaw_proper target.name

section References

variable {naming : Naming} {name : TypeName} {described : List Binder → Prop}

theorem spells_qualified (valid : Config.isModulePath naming.namespaceName = true) (group : Group)
    {name : String} (holdable : Name.Holdable name.toList) :
    Spells (naming.qualified group name) [] :=
  spells_member (run_moduleName valid group) holdable

theorem spells_common {characters : List Char}
    (check : characters.all Name.isNameChar = true := by decide) :
    Spells (common (String.ofList characters)) [] := by
  have path : Segment.first.run commonModule.toList = some .capital := by decide
  refine spells_member path ?_
  rw [String.toList_ofList]
  exact Name.holdable_of_all check

end References

end ElmClient.Elm
