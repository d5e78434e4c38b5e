/-
Serializers as code. They read nothing of the input, and their functions stand inside one
another: one for every level of a nullable value, one for the items of a list and one for a
flag. So a variable of a serializer is hidden exactly if a nullable value is nullable inside,
which a shape can be by way of the component that it refers to. The helpers of unions that are
stored on the way hide nothing.
-/

import ElmClient.Elm.Stringify
import ElmClient.Proofs.Closed.Run
import ElmClient.Proofs.Scope.Codec
import ElmClient.Proofs.Scope.Definitions
import ElmClient.Proofs.Tidy.Parameters

namespace ElmClient.Elm

open Lexer Name Run Text

/-! ### Variables -/

/-- The binders have such names, and one of them hides another under the condition only. -/
structure Shades (named : String → Prop) (hidden : Prop) (bound : List Binder) : Prop where
  named : ∀ binder ∈ bound, named binder.name
  hides : (∃ binder ∈ bound, binder.Hides) ↔ hidden

namespace Shades

variable {named other : String → Prop} {hidden further : Prop} {bound more : List Binder}

theorem none : Shades named False [] :=
  ⟨nofun, iff_of_false (fun ⟨_, listed, _⟩ => List.not_mem_nil listed) id⟩

theorem imp (shades : Shades named hidden bound) (implies : ∀ name, named name → other name) :
    Shades other hidden bound :=
  ⟨fun binder listed => implies _ (shades.named binder listed), shades.hides⟩

theorem append (shades : Shades named hidden bound) (others : Shades named further more) :
    Shades named (hidden ∨ further) (bound ++ more) where
  named := List.forall_mem_append.mpr ⟨shades.named, others.named⟩
  hides := by
    rw [← shades.hides, ← others.hides]
    simp only [List.mem_append, or_and_right, exists_or]

theorem flatten {α : Type} {items : List α} {hidden : α → Prop} {bounds : List (List Binder)}
    (each : List.Forall₂ (fun item bound => Shades named (hidden item) bound) items bounds) :
    Shades named (∃ item ∈ items, hidden item) bounds.flatten := by
  induction each with
  | nil => exact ⟨nofun, by simp⟩
  | cons first _ ih =>
      have whole := first.append ih
      rw [List.flatten_cons]
      exact ⟨whole.named, whole.hides.trans (by simp)⟩

theorem function {name : String} (shades : Shades named hidden bound)
    (apart : ∀ inside, named inside → inside ≠ name) :
    Shades (fun inside => inside = name ∨ named inside) hidden
      (⟨name, []⟩ :: bound.map (Binder.within [name])) where
  named := List.forall_mem_cons.mpr ⟨Or.inl rfl, List.forall_mem_map.mpr fun binder listed =>
    Or.inr (shades.named binder listed)⟩
  hides := by
    rw [← shades.hides]
    constructor
    · rintro ⟨binder, listed, hides⟩
      rcases List.mem_cons.mp listed with rfl | inside
      · exact absurd hides (not_hides_alone name)
      · obtain ⟨inner, inBound, rfl⟩ := List.mem_map.mp inside
        refine ⟨inner, inBound, not_not.mp fun shown => ?_⟩
        exact not_hides_within shown (apart _ (shades.named inner inBound)) hides
    · rintro ⟨binder, listed, hides⟩
      exact ⟨binder.within [name], List.mem_cons_of_mem _ (List.mem_map_of_mem listed),
        List.mem_append_left _ hides⟩

theorem alone {name : String} (isNamed : named name) : Shades named False [⟨name, []⟩] :=
  ⟨List.forall_mem_singleton.mpr isNamed,
    iff_of_false (fun ⟨_, listed, hides⟩ =>
      not_hides_alone name (List.mem_singleton.mp listed ▸ hides)) id⟩

end Shades

/-! ### Functions inside one another -/

def nested : List String → List Binder
  | [] => []
  | name :: names => ⟨name, []⟩ :: (nested names).map (Binder.within [name])

theorem names_nested (names : List String) : (nested names).map Binder.name = names := by
  induction names with
  | nil => rfl
  | cons name names ih =>
      rw [nested, List.map_cons, List.map_map]
      exact congrArg _ ih

private theorem hides_within_iff (binder : Binder) (name : String) :
    (binder.within [name]).Hides ↔ binder.Hides ∨ binder.name = name := by
  simp only [Binder.Hides, Binder.within, List.mem_append, List.mem_singleton]

private theorem exists_hides_nested (names : List String) :
    (∃ binder ∈ nested names, binder.Hides) ↔ ¬ names.Nodup := by
  induction names with
  | nil =>
      refine iff_of_false ?_ (not_not.mpr List.nodup_nil)
      rintro ⟨_, listed, _⟩
      exact List.not_mem_nil listed
  | cons name names ih =>
      have named : (∃ binder ∈ nested names, binder.name = name) ↔ name ∈ names := by
        rw [← List.mem_map (f := Binder.name), names_nested]
      rw [List.nodup_cons, not_and_or, not_not, ← ih, ← named, nested]
      simp only [List.mem_cons, exists_eq_or_imp, not_hides_alone, false_or, List.mem_map,
        exists_exists_and_eq_and, hides_within_iff, and_or_left, exists_or]
      exact or_comm

def BindsFlag (bound : List Binder) : Prop :=
  ∃ inside ∈ [[], ["flag"]], bound = nested inside

def BindsLevels (count : Nat) (bound : List Binder) : Prop :=
  ∃ inside ∈ [[], ["flag"], ["items"], ["items", "flag"]],
    bound = nested (List.replicate count "nullable" ++ inside)

def serializerVariables : List String :=
  ["nullable", "items", "flag"]

private theorem nodup_levels_iff (count : Nat) {inside : List String}
    (listed : inside ∈ [[], ["flag"], ["items"], ["items", "flag"]]) :
    (List.replicate count "nullable" ++ inside).Nodup ↔ count ≤ 1 := by
  have once : inside.Nodup ∧ "nullable" ∉ inside := by
    revert inside
    decide
  have apart : ∀ name ∈ List.replicate count "nullable", ∀ other ∈ inside, name ≠ other := by
    intro name first other second same
    rw [List.eq_of_mem_replicate first] at same
    exact once.2 (same ▸ second)
  rw [List.nodup_append, List.nodup_replicate]
  exact ⟨fun all => all.1, fun single => ⟨single, once.1, apart⟩⟩

theorem BindsLevels.shades {count : Nat} {bound : List Binder} (levels : BindsLevels count bound) :
    Shades (· ∈ serializerVariables) (2 ≤ count) bound := by
  obtain ⟨inside, listed, rfl⟩ := levels
  constructor
  · intro binder member
    have named := List.mem_map_of_mem (f := Binder.name) member
    rw [names_nested] at named
    rcases List.mem_append.mp named with nullable | other
    · rw [List.eq_of_mem_replicate nullable]
      decide
    · have all : ∀ inside ∈ [[], ["flag"], ["items"], ["items", "flag"]], ∀ name ∈ inside,
          name ∈ serializerVariables := by decide
      exact all inside listed _ other
  · rw [exists_hides_nested, nodup_levels_iff count listed]
    omega

theorem BindsFlag.levels {bound : List Binder} (flag : BindsFlag bound) : BindsLevels 0 bound := by
  obtain ⟨inside, listed, rfl⟩ := flag
  refine ⟨inside, ?_, rfl⟩
  revert inside
  decide

private theorem BindsFlag.items {bound : List Binder} (flag : BindsFlag bound) :
    BindsLevels 0 (⟨"items", []⟩ :: bound.map (Binder.within ["items"])) := by
  obtain ⟨inside, listed, rfl⟩ := flag
  refine ⟨"items" :: inside, ?_, rfl⟩
  revert inside
  decide

private theorem BindsLevels.nullable {count : Nat} {bound : List Binder}
    (levels : BindsLevels count bound) :
    BindsLevels (count + 1) (⟨"nullable", []⟩ :: bound.map (Binder.within ["nullable"])) := by
  obtain ⟨inside, listed, rfl⟩ := levels
  exact ⟨inside, listed, rfl⟩

/-! ### Nullable values -/

/-- The levels of a nullable value, with those of a component that it refers to. -/
def nullLevels (behind : Reference → Nat) : Shape → Nat
  | .nullable inner => nullLevels behind inner + 1
  | .ref target => behind target
  | _ => 0

/-- References are followed once. -/
def Naming.nullLevels (naming : Naming) (follow : Bool) (shape : Shape) : Nat :=
  Elm.nullLevels
    (fun target =>
      if follow then
        ((Keyed.find? target.typeName naming.components).map (Elm.nullLevels fun _ => 0)).getD 0
      else 0) shape

variable {naming : Naming} {policy : Policy}

theorem Writes.spells {text : String} {reads : List (List String)} {described : List Binder → Prop}
    (writes : Writes naming text reads described) (quiet : naming.Quiet) :
    ∃ words bound, Spells text words ∧ Closed words bound ∧ described bound := by
  obtain ⟨words, bound, code, closed, -, holds⟩ := writes.parts
  obtain ⟨full, spells, completes⟩ := code.whole quiet
  exact ⟨full, bound, spells, completes.alike.closed closed, holds⟩

/-! ### Stored helpers -/

def HelperShows (naming : Naming) (source : String) : Prop :=
  naming.Quiet → ∀ binder ∈ bindersOf source,
    ¬ binder.Hides ∧ binder.name ∈ ["value", "inner", "flag"]

/-- A store is valid with a helper more if it is without it. -/
def Naming.Stores (naming : Naming) (valid : Helpers → Prop) : Prop :=
  ∀ helpers name source, HelperShows naming source → valid helpers →
    valid (Keyed.insert name (Declaration.value name none source) helpers)

def HelpersShow (naming : Naming) (helpers : Helpers) : Prop :=
  ∀ helper ∈ helpers, HelperShows naming helper.2.source

theorem stores_helpersShow (naming : Naming) : naming.Stores (HelpersShow naming) := by
  intro helpers name source shows former helper stored
  rcases Keyed.mem_of_mem_insert stored with rfl | listed
  · exact shows
  · exact former helper listed

theorem stores_any (naming : Naming) : naming.Stores fun _ => True :=
  fun _ _ _ _ _ => trivial

namespace Stringifier

/-! ### Functions -/

/-- A serializer reads nothing, and binds what levels of null make it bind. -/
inductive Written (naming : Naming) : Stringifier → Nat → Prop
  | always {function : String} (writes : Writes naming function [] BindsFlag) :
      Written naming (.always function) 0
  | sometimes {function : String} {count : Nat}
      (writes : Writes naming function [] (BindsLevels count)) :
      Written naming (.sometimes function) count

private theorem bindsFlag_none : BindsFlag [] :=
  ⟨[], by decide, rfl⟩

private theorem written_reference {function : String} (spells : Spells function []) :
    Written naming (.always function) 0 :=
  .always (.plain (.own spells) bindsFlag_none)

private theorem written_blank : Written naming blank 0 :=
  .always (.ofCode (.own (.fixed (by decide) : Spells _ [.opening, .lambda [], .closing]))
    (.function [] .nil) rfl bindsFlag_none)

theorem unsupported_written {valid : Helpers → Prop} (shape : Shape) :
    Behaves policy valid (unsupported shape) fun stringifier => Written naming stringifier 0 :=
  .placeholderOr fun _ => written_blank

private theorem written_ofItems {function : String} (writes : Writes naming function [] BindsFlag) :
    Written naming (ofItems function) 0 := by
  obtain ⟨words, bound, code, closed, reads, flag⟩ := writes.parts
  have lead : Spells ("(\\items -> if List.isEmpty items then Nothing else Just (String.join \",\" "
      ++ "(List.map ") ([.opening, .lambda ["items"], .opening] ++ [.opening]) :=
    Spells.behind [.opening, .lambda ["items"], .opening] .fixed
  refine .sometimes (.ofCode ((code.lead (.comp .fixed .fixed) lead).close
    [.closing, .closing, .closing]) ?_ ?_ flag.items)
  · simpa using closed.group.group.function ["items"]
  · simpa [List.filterMap_cons] using reads

private theorem Written.ofNullable {stringifier : Stringifier} {count : Nat}
    (written : Written naming stringifier count) :
    Written naming (ofNullable stringifier) (count + 1) := by
  have value : Code naming (common "nullableToMaybe") [] := .own spells_common
  cases written with
  | always writes =>
      obtain ⟨words, bound, code, closed, reads, flag⟩ := writes.parts
      refine .sometimes (.ofCode (((code.behind [.opening, .lambda ["nullable"]]).beside [.opening]
        value).close [.closing, .closing]) ?_ ?_ flag.levels.nullable)
      · simpa using (closed.append (.group .nil)).function ["nullable"]
      · simpa [List.filterMap_cons] using reads
  | sometimes writes =>
      obtain ⟨words, bound, code, closed, reads, levels⟩ := writes.parts
      refine .sometimes (.ofCode (((code.behind [.opening, .lambda ["nullable"]]).beside [.opening]
        value).close [.closing, .closing]) ?_ ?_ levels.nullable)
      · simpa using (closed.append (.group .nil)).function ["nullable"]
      · simpa [List.filterMap_cons] using reads

theorem ofPrimitive_written {valid : Helpers → Prop} (value : Primitive) :
    Behaves policy valid (ofPrimitive naming value)
      fun stringifier => Written naming stringifier 0 := by
  unfold ofPrimitive
  split
  case h_1 entry found =>
    split
    case h_1 function stringify =>
      exact .pure (.always (.plain
        (.registered ⟨value, entry, found, Or.inr (Or.inr stringify)⟩) bindsFlag_none))
    case h_2 => exact .placeholderOr fun _ => written_blank
  case h_2 =>
    refine .pure ?_
    cases value.kind with
    | string => exact written_reference .fixed
    | integer => exact written_reference .fixed
    | number => exact written_reference .fixed
    | boolean =>
        exact .always (.ofCode
          (.own (.fixed : Spells _ [.opening, .lambda ["flag"], .closing]))
          (.function ["flag"] .nil) rfl ⟨["flag"], by decide, rfl⟩)

section Written

variable (named : naming.NamesTidy)

include named

private theorem written_ofEnum (values : List String) :
    Written naming (ofEnum naming values) 0 := by
  unfold ofEnum
  split
  case h_1 name found =>
    exact written_reference (spells_qualified named.valid .types
      (holdable_valueName (named.enumName found) (holdable_of_all (by decide))))
  case h_2 => exact written_reference (.fixed (by decide))

end Written

/-! ### Helpers of unions -/

def InBranch (binder : Binder) : Prop :=
  ¬ binder.Hides ∧ binder.name ∈ ["inner", "flag"]

private theorem inBranch_of_flag {bound : List Binder} (flag : BindsFlag bound) :
    ∀ binder ∈ bound, InBranch (binder.within ["inner"]) := by
  obtain ⟨inside, listed, rfl⟩ := flag
  have all : ∀ inside ∈ [[], ["flag"]], ∀ binder ∈ nested inside,
      ¬ (binder.within ["inner"]).Hides ∧ (binder.within ["inner"]).name ∈ ["inner", "flag"] := by
    decide
  exact all inside listed

theorem helperText_eq (union : Union) (branches : List String) :
    helperText naming union branches =
      helperName union ++ " : " ++ naming.typeRef union.name ++ " -> String" ++ "\n"
        ++ helperName union ++ " value =\n" ++ ("    case value of\n"
          ++ join "\n\n" (branches.map fun branch => "        " ++ branch)) := by
  have output : " -> String\n" = " -> String" ++ "\n" := rfl
  have pattern : " value =\n    case value of\n" = " value =\n" ++ "    case value of\n" := rfl
  rw [helperText, output, pattern]
  simp only [String.append_assoc]

theorem bindersOf_choice {first name : String} {branches : List String}
    {described : Binder → Prop} (firstTidy : Tidy first) (free : '=' ∉ first.toList)
    (inhabited : name.toList ≠ []) (regular : isRegular name.toList = true)
    (each : ∀ branch ∈ branches, Branch ("        " ++ branch) described) :
    ∃ bound : List Binder, bindersOf (first ++ "\n" ++ name ++ " value =\n"
        ++ ("    case value of\n"
          ++ join "\n\n" (branches.map fun branch => "        " ++ branch))) =
          ⟨"value", []⟩ :: bound.map (Binder.within ["value"]) ∧
      ∀ binder ∈ bound, described binder := by
  obtain ⟨words, bound, begins, scanned, all⟩ := begins_branches (List.forall_mem_map.mpr each)
  have lead : Lead "    case value of\n" := .fixed (by decide)
  have choice : (Reader.code [] false).run (tokens "    case value of\n".toList) =
      ([], .code [] false) := by decide
  have body : wordsOf ("    case value of\n"
      ++ join "\n\n" (branches.map fun branch => "        " ++ branch)) = words := by
    obtain ⟨later, reads⟩ := begins.reads
    rw [wordsOf, lead.tokens, Reader.run_append, choice, reads, List.nil_append]
  refine ⟨bound, ?_, all⟩
  rw [bindersOf_definition firstTidy inhabited regular free ["value"] (by decide), body,
    Nesting.binders_cons, scanned.scan]
  rfl

private theorem shows_value {bound : List Binder} (all : ∀ binder ∈ bound, InBranch binder) :
    ∀ binder ∈ ⟨"value", []⟩ :: bound.map (Binder.within ["value"]),
      ¬ binder.Hides ∧ binder.name ∈ ["value", "inner", "flag"] := by
  refine forall_function ⟨not_hides_alone _, by decide⟩ fun binder listed => ?_
  obtain ⟨shown, named⟩ := all binder listed
  refine ⟨not_hides_within shown fun same => ?_, List.mem_cons_of_mem _ named⟩
  rw [same] at named
  exact absurd named (by decide)

theorem helperName_inhabited (union : Union) : (helperName union).toList ≠ [] := by
  rw [helperName, String.toList_append]
  exact List.append_ne_nil_of_right_ne_nil _ (by decide)

private theorem spells_helperName {union : Union} (proper : union.name.Proper) :
    Spells (helperName union) [] := by
  have name := holdable_helperName proper
  have apart : (helperName union).toList ≠ "config".toList := by
    intro same
    have ends := congrArg List.getLast? same
    rw [helperName, String.toList_append, List.getLast?_append_of_ne_nil _ (by decide)] at ends
    exact absurd ends (by decide)
  have spells := spells_name (Segment.isSome_run name nofun)
  rwa [Word.ofName_of_word (name.not_mem (by decide)) apart] at spells

theorem begins_constructor (valid : Config.isModulePath naming.namespaceName = true)
    {name : TypeName} (proper : name.Proper) {tail : List Char} (names : List String)
    (check : endsPattern tail names = true) :
    Begins ("        " ++ naming.typeRef name ++ String.ofList tail) [.branch names] := by
  have path := run_moduleName valid .types
  refine begins_branch ?_ (isRegular_member path (holdable_of_proper proper)) (ofName_member path)
    names check
  rw [String.toList_append, String.toList_append]
  exact List.mem_append_left _ (List.mem_append_right _ List.mem_cons_self)

section Helpers

variable (named : naming.NamesTidy)

include named

theorem blankBranch_branch {name : TypeName} (proper : name.Proper) :
    Branch ("        " ++ blankBranch (naming.typeRef name)) InBranch := by
  refine ⟨[], [], [], ?_, .nil, nofun, nofun⟩
  rw [blankBranch, ← String.append_assoc]
  exact begins_constructor named.valid proper [] (by decide)

theorem nullBranch_branch {name : TypeName} (proper : name.Proper) :
    Branch ("        " ++ nullBranch (naming.typeRef name)) InBranch := by
  refine ⟨[], [], [], ?_, .nil, nofun, nofun⟩
  rw [nullBranch, ← String.append_assoc]
  exact begins_constructor named.valid proper [] (by decide)

theorem innerBranch_branch (quiet : naming.Quiet) {name : TypeName} (proper : name.Proper)
    {function : String} (writes : Writes naming function [] BindsFlag) :
    Branch ("        " ++ innerBranch (naming.typeRef name) function) InBranch := by
  obtain ⟨words, bound, spells, closed, flag⟩ := writes.spells quiet
  have start : Begins ("        " ++ naming.typeRef name ++ " inner ->\n            ")
      [.branch ["inner"]] := begins_constructor named.valid proper ["inner"] (by decide)
  have lead : Lead ("        " ++ naming.typeRef name ++ " inner ->\n            ") :=
    .append start.tidy (.fixed (by decide))
  refine ⟨["inner"], words, bound, ?_, closed, ?_, inBranch_of_flag flag⟩
  · have call : Spells (function ++ " inner") (words ++ []) := spells.close [] (by decide)
    have whole := start.code lead call
    rw [List.append_nil, ← String.append_assoc] at whole
    rw [innerBranch, ← String.append_assoc, ← String.append_assoc, ← String.append_assoc]
    exact whole
  · exact List.forall_mem_singleton.mpr ⟨not_hides_alone _, by decide⟩

variable {valid : Helpers → Prop} {inner : Shape → Run Helpers Stringifier}
  (each : ∀ shape, naming.Covers shape →
    Behaves policy valid (inner shape)
      fun stringifier => ∃ count, Written naming stringifier count)

include each

theorem variantBranch_branch {variant : Variant} (proper : variant.name.Proper)
    (covers : naming.Covers variant.shape) :
    Behaves policy valid (variantBranch naming inner variant)
      fun text => naming.Quiet → Branch ("        " ++ text) InBranch := by
  have blank := blankBranch_branch named proper
  have behaves := each variant.shape covers
  unfold variantBranch
  dsimp only
  split
  · exact .placeholderOr fun _ _ => blank
  · exact .pure fun _ => nullBranch_branch named proper
  · refine .bind behaves ?_
    rintro _ ⟨_, writes | writes⟩
    · exact .pure fun quiet => innerBranch_branch named quiet proper writes
    · exact .placeholderOr fun _ _ => blank

theorem helperSource_shows {union : Union} (proper : union.name.Proper)
    (members : ∀ variant ∈ union.variants, variant.name.Proper ∧ naming.Covers variant.shape) :
    Behaves policy valid (helperSource naming inner union) (HelperShows naming) := by
  have path := run_moduleName named.valid .types
  have name := holdable_helperName proper
  have regular : isRegular (helperName union).toList = true := Segment.isSome_run name nofun
  have type := isRegular_member path (holdable_of_proper proper)
  have first : Tidy (helperName union ++ " : " ++ naming.typeRef union.name ++ " -> String") :=
    (((tidy_word name).gap (by decide)).code (tidy_of_isRegular type)).close (by decide)
  have free : '=' ∉ (helperName union ++ " : " ++ naming.typeRef union.name
      ++ " -> String").toList := by
    have inName := equals_not_mem regular
    have inType : '=' ∉ (naming.typeRef union.name).toList := equals_not_mem type
    simp [String.toList_append, inName, inType]
  refine .map (.traverseValues fun variant member =>
    variantBranch_branch named each (members variant member).1 (members variant member).2)
      fun branches written quiet => ?_
  obtain ⟨bound, binds, all⟩ := bindersOf_choice first free (helperName_inhabited union) regular
    fun branch listed => written branch listed quiet
  rw [helperText_eq, binds]
  exact shows_value all

theorem ofUnion_written (stores : naming.Stores valid) {union : Union} (proper : union.name.Proper)
    (members : ∀ variant ∈ union.variants, variant.name.Proper ∧ naming.Covers variant.shape) :
    Behaves policy valid (ofUnion naming inner union)
      fun stringifier => Written naming stringifier 0 := by
  have name : Written naming (.always (helperName union)) 0 :=
    written_reference (spells_helperName proper)
  unfold ofUnion
  dsimp only
  refine .bind .getStore fun helpers _ => ?_
  split
  · refine .bind (helperSource_shows named each proper members) fun source shows => ?_
    refine .bind .getStore fun later laterValid => ?_
    exact .map (.setStore (stores later _ source shows laterValid)) fun _ _ => name
  · exact .pure name

end Helpers

/-! ### Shapes -/

section Shapes

variable {valid : Helpers → Prop} (stores : naming.Stores valid) (named : naming.NamesTidy)
  (components : naming.CoversComponents)

include stores named components

theorem ofShape_written {inner : Bool → Shape → Run Helpers Stringifier}
    (each : ∀ follow shape, naming.Covers shape →
      Behaves policy valid (inner follow shape)
        fun stringifier => Written naming stringifier (naming.nullLevels follow shape))
    (follow : Bool) {shape : Shape} (covers : naming.Covers shape) :
    Behaves policy valid (ofShape naming inner follow shape)
      fun stringifier => Written naming stringifier (naming.nullLevels follow shape) := by
  unfold ofShape
  cases shape with
  | primitive value => exact ofPrimitive_written value
  | enum values => exact .pure (written_ofEnum named values)
  | list item =>
      have behaves := each follow item (Shape.everywhere_list_iff.mp covers).2
      generalize naming.nullLevels follow item = count at behaves
      refine .bind behaves fun found written => ?_
      cases written with
      | always writes => exact .pure (written_ofItems writes)
      | sometimes writes => exact unsupported_written _
  | nullable item =>
      exact .map (each follow item (Shape.everywhere_nullable_iff.mp covers).2)
        fun _ written => written.ofNullable
  | ref target =>
      cases follow with
      | false => exact unsupported_written _
      | true =>
          dsimp only
          rw [if_pos rfl]
          split
          case h_1 component found =>
            have levels : naming.nullLevels true (.ref target) =
                naming.nullLevels false component := by
              simp [Naming.nullLevels, nullLevels, found]
            rw [levels]
            exact each false component (components _ (Keyed.mem_of_find? found))
          case h_2 => exact .fail
  | union name variants =>
      obtain ⟨union, found⟩ := covers.here
      have final : naming.union ⟨name, variants⟩ = union := by
        rw [Naming.union, found, Option.getD_some]
      dsimp only
      rw [final]
      have listed := Keyed.mem_of_find? found
      exact ofUnion_written named
        (fun shape covered => (each follow shape covered).imp fun _ written => ⟨_, written⟩) stores
        (named.unions _ listed) (named.members _ listed)
  | object => exact unsupported_written _
  | dict => exact unsupported_written _
  | bytes => exact unsupported_written _
  | unit => exact unsupported_written _
  | anyJson => exact unsupported_written _

theorem within_written (levels : Nat) : ∀ (follow : Bool) (shape : Shape), naming.Covers shape →
    Behaves policy valid (within naming levels follow shape)
      fun stringifier => Written naming stringifier (naming.nullLevels follow shape) := by
  induction levels with
  | zero => exact fun _ _ _ => .fail
  | succ levels ih =>
      exact fun follow _ covers => ofShape_written stores named components ih follow covers

end Shapes

end Stringifier

theorem stringify_written {valid : Helpers → Prop} (stores : naming.Stores valid)
    (named : naming.NamesTidy) (components : naming.CoversComponents)
    {shape : Shape} (covers : naming.Covers shape) :
    Behaves policy valid (stringify naming shape)
      fun stringifier => stringifier.Written naming (naming.nullLevels true shape) :=
  Stringifier.within_written stores named components _ true shape covers

end ElmClient.Elm
