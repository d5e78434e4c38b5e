/-
Encoders and what is bound around them. The parameter of an encoder stands around all other
variables of its definition, whether it is a record, a value of another shape or a union with
branches, and is called otherwise than they are. With what is known of single expressions no
variable of an encoder hides another, and all that is read of records and values is bound.
-/

import ElmClient.Proofs.Scope.Client
import ElmClient.Proofs.Scope.Uses

namespace ElmClient

namespace Elm

open Lexer Name Run Text

variable {σ : Type} {naming : Naming}

/-! ### Parameters -/

/-- The parameter stands around all other variables, and none hides another. -/
structure StandsAround (parameter : String) (bound : List Binder) : Prop where
  around : ∃ inside : List Binder, bound = ⟨parameter, []⟩ :: inside.map (Binder.within [parameter])
  shown : ∀ binder ∈ bound, ¬ binder.Hides

private theorem standsAround_of_apart {parameter : String} {inside : List Binder}
    (each : ∀ binder ∈ inside, ¬ binder.Hides ∧ binder.name ≠ parameter) :
    StandsAround parameter (⟨parameter, []⟩ :: inside.map (Binder.within [parameter])) :=
  ⟨⟨inside, rfl⟩, forall_function (not_hides_alone _) fun binder listed =>
    not_hides_within (each binder listed).1 (each binder listed).2⟩

private theorem Numbered.standsAround {depth : Nat} {inside : List Binder}
    (numbered : Numbered depth inside) {parameter : String} (apart : parameter ∉ ["rec", "val"])
    (letter : parameter.toList.getLast?.any Char.isDigit = false) :
    StandsAround parameter (⟨parameter, []⟩ :: inside.map (Binder.within [parameter])) := by
  refine standsAround_of_apart fun binder listed => ?_
  obtain ⟨shown, number, -, named⟩ := numbered binder listed
  exact ⟨shown, ne_of_numbered ⟨number, named⟩ apart letter⟩

private theorem Beneath.standsAround {inside : List Binder} (beneath : Beneath 0 inside) :
    StandsAround "rec" (⟨"rec", []⟩ :: inside.map (Binder.within ["rec"])) :=
  ⟨⟨inside, rfl⟩, fun binder listed => (beneath.record binder listed).1⟩

/-! ### Definitions of encoders -/

theorem encoderHeader_eq (name own argument : String) :
    encoderHeader name own argument =
      name ++ " : " ++ own ++ " -> Json.Encode.Value" ++ "\n" ++ name
        ++ (" " ++ argument ++ " =\n") := by
  have output : " -> Json.Encode.Value\n" = " -> Json.Encode.Value" ++ "\n" := rfl
  rw [encoderHeader, output]
  simp only [String.append_assoc]

section Definitions

variable {name : TypeName} (named : naming.NamesEncoders) (proper : name.Proper)

omit named in
private theorem isVariable_encoderName (proper : name.Proper) : IsVariable name.encoderName := by
  refine ⟨holdable_encoderName proper, 'e', ?_, by decide⟩
  rw [TypeName.encoderName, String.toList_append]
  rfl

include named proper

private theorem regular_typeRef : isRegular (naming.typeRef name).toList = true :=
  isRegular_member (run_moduleName named.valid .types) (holdable_of_proper proper)

private theorem tidy_encoderSignature :
    Tidy (name.encoderName ++ " : " ++ naming.typeRef name ++ " -> Json.Encode.Value") ∧
      NoEquals (name.encoderName ++ " : " ++ naming.typeRef name ++ " -> Json.Encode.Value") := by
  have word := isVariable_encoderName proper
  have type := regular_typeRef named proper
  have wordFree : NoEquals name.encoderName := .regular word.regular
  have typeFree : NoEquals (naming.typeRef name) := .regular type
  exact ⟨((tidy_word word.holdable).gap.code (tidy_of_isRegular type)).close,
    (wordFree.beside typeFree (by decide)).close (by decide)⟩

private theorem exists_argumentTokens {parameter : String} (isVariable : IsVariable parameter)
    (recursive : Bool) :
    ∃ argument, tokens (encoderArgument (naming.typeRef name) parameter recursive).toList =
        argument ∧
      (∀ token ∈ argument, isEquals token = false ∧ isFeed token = false) ∧
      ((argument.filter (·.kind == .name)).flatMap fun token => variablesOf token.text) =
        [parameter] := by
  have wordTokens := tokens_name isVariable.inhabited isVariable.regular
  have wordAlone : [(⟨.name, parameter.toList⟩ : Token)].flatMap
      (fun token => variablesOf token.text) = [parameter] := by
    rw [List.flatMap_singleton, isVariable.variablesOf]
  cases recursive with
  | false =>
      refine ⟨_, wordTokens, List.forall_mem_singleton.mpr ⟨rfl, rfl⟩, ?_⟩
      exact wordAlone
  | true =>
      have type := regular_typeRef named proper
      have point : '.' ∈ (naming.typeRef name).toList := by
        rw [Naming.typeRef, Naming.qualified, String.toList_append, String.toList_append]
        exact List.mem_append_left _ (List.mem_append_right _ List.mem_cons_self)
      have typeTokens := tokens_name (List.ne_nil_of_mem point) type
      have noVariable : variablesOf (naming.typeRef name).toList = [] := by
        rw [variablesOf, List.contains_iff_mem.mpr point]
        simp
      have opening : Lead "(" := .fixed
      have closing : Tail ")" := .fixed
      have blank : Gap " " := .fixed
      have applied : Tidy ("(" ++ naming.typeRef name) := opening.code (tidy_of_isRegular type)
      have whole : Tidy ("(" ++ naming.typeRef name ++ " " ++ parameter) :=
        (blank.after applied).code (tidy_word isVariable.holdable)
      refine ⟨[⟨.symbol, ['(']⟩, ⟨.name, (naming.typeRef name).toList⟩, ⟨.symbol, [' ']⟩,
        ⟨.name, parameter.toList⟩, ⟨.symbol, [')']⟩], ?_, ?_, ?_⟩
      · have fixed : tokens "(".toList = [⟨.symbol, ['(']⟩] ∧
            tokens " ".toList = [⟨.symbol, [' ']⟩] ∧ tokens ")".toList = [⟨.symbol, [')']⟩] := by
          decide
        rw [encoderArgument, if_pos rfl, closing.tokens whole, blank.tokens applied,
          opening.tokens, typeTokens, wordTokens, fixed.1, fixed.2.1, fixed.2.2]
        rfl
      · simp only [List.forall_mem_cons]
        exact ⟨⟨rfl, rfl⟩, ⟨rfl, rfl⟩, ⟨rfl, rfl⟩, ⟨rfl, rfl⟩, ⟨rfl, rfl⟩,
          fun _ member => absurd member List.not_mem_nil⟩
      · change [(⟨.name, (naming.typeRef name).toList⟩ : Token),
          ⟨.name, parameter.toList⟩].flatMap (fun token => variablesOf token.text) = _
        rw [List.flatMap_cons, noVariable, wordAlone]
        rfl

/-- An encoder binds its parameter around what its body binds. -/
theorem bindersOf_encoder {parameter : String} (isVariable : IsVariable parameter)
    (recursive : Bool) {body : String} {words : List Word} {bound : List Binder}
    (spells : Spells body words) (closed : Closed words bound) :
    bindersOf (encoderHeader name.encoderName (naming.typeRef name)
        (encoderArgument (naming.typeRef name) parameter recursive) ++ body) =
      ⟨parameter, []⟩ :: bound.map (Binder.within [parameter]) := by
  obtain ⟨firstTidy, free⟩ := tidy_encoderSignature named proper
  have defined := isVariable_encoderName proper
  obtain ⟨argument, split, plain, taken⟩ :=
    exists_argumentTokens named proper isVariable recursive
  have argumentTidy : Tidy (encoderArgument (naming.typeRef name) parameter recursive) :=
    tidy_encoderArgument (tidy_word isVariable.holdable)
      (tidy_of_isRegular (regular_typeRef named proper)) recursive
  generalize encoderArgument (naming.typeRef name) parameter recursive = text at split argumentTidy
  have blank : Lead " " := .fixed
  have gap : Tail " " := .fixed
  have feed : Tail " =\n" := .fixed
  have ends : Lead " =\n" := .fixed
  have front : Tail (" " ++ text) := gap.append (blank.code argumentTidy)
  have tails : Tail (" " ++ text ++ " =\n") := front.append (front.tidy.tail feed)
  have fixed : tokens " ".toList = [⟨.symbol, [' ']⟩] ∧
      tokens " =\n".toList = [⟨.symbol, [' ']⟩, ⟨.symbol, ['=']⟩, ⟨.symbol, ['\n']⟩] := by
    decide
  have whole : tokens (" " ++ text ++ " =\n").toList =
      (⟨.symbol, [' ']⟩ :: (argument ++ [⟨.symbol, [' ']⟩]))
        ++ [⟨.symbol, ['=']⟩, ⟨.symbol, ['\n']⟩] := by
    rw [feed.tokens front.tidy, blank.tokens, split, fixed.1, fixed.2]
    simp
  have apart : ∀ token ∈ (⟨.symbol, [' ']⟩ : Token) :: (argument ++ [⟨.symbol, [' ']⟩]),
      isEquals token = false ∧ isFeed token = false :=
    List.forall_mem_cons.mpr ⟨⟨rfl, rfl⟩, List.forall_mem_append.mpr
      ⟨plain, List.forall_mem_singleton.mpr ⟨rfl, rfl⟩⟩⟩
  have names : (((⟨.symbol, [' ']⟩ : Token) :: (argument ++ [⟨.symbol, [' ']⟩])).filter
      (·.kind == .name)).flatMap (fun token => variablesOf token.text) = [parameter] := by
    rw [← taken, List.filter_cons_of_neg (by decide), List.filter_append,
      List.filter_cons_of_neg (by decide), List.filter_nil, List.append_nil]
  rw [encoderHeader_eq, bindersOf_pattern firstTidy defined.inhabited defined.regular free tails
    (.append tails.tidy ends) whole (fun token listed => (apart token listed).1)
    (fun token listed => (apart token listed).2), names, spells.wordsOf, Nesting.binders_cons,
    closed.binders]
  rfl

end Definitions

/-! ### Components -/

private theorem append_leadLines (text first further item : String) (rest : List String) :
    text ++ leadLines first further (item :: rest) =
      text ++ "\n" ++ first ++ join ("\n" ++ further) (item :: rest) := by
  have joined : item ++ String.join (rest.map fun other => "\n" ++ further ++ other) =
      join ("\n" ++ further) (item :: rest) := by
    induction rest generalizing item with
    | nil =>
        rw [List.map_nil, String.join_nil, String.append_empty, join,
          String.intercalate_singleton]
    | cons second rest ih =>
        rw [List.map_cons, String.join_cons, join, String.intercalate_cons_cons, ← join, ← ih]
        simp only [String.append_assoc]
  rw [leadLines, ← joined]
  simp only [String.append_assoc]

theorem objectEncoderBody_writes {entries : List String} (inhabited : entries ≠ [])
    (each : ∀ entry ∈ entries, Writes naming entry [] (Beneath 0)) :
    Writes naming (objectEncoderBody entries) [] (Beneath 0) := by
  have related : List.Forall₂ (fun (_ : String) entry => Writes naming entry [] (Beneath 0))
      entries entries := List.forall₂_same.mpr each
  obtain ⟨words, bounds, code, listed, reads, all⟩ :=
    Writes.listed "\n        , ".toList (by decide) related
  rw [List.flatMap_eq_nil_iff.mpr fun _ _ => rfl] at reads
  have beneath : Beneath 0 bounds.flatten := by
    intro binder member
    obtain ⟨bound, inBounds, inBound⟩ := List.mem_flatten.mp member
    exact all_of_forall₂ all bound inBounds binder inBound
  have whole : objectEncoderBody entries =
      "Json.Encode.object\n    (List.filterMap identity\n        [ " ++ join "\n        , " entries
        ++ "\n        ]\n    )" := by
    cases entries with
    | nil => exact absurd rfl inhabited
    | cons entry rest =>
        have front : "Json.Encode.object\n    (List.filterMap identity" ++ "\n" ++ "        [ " =
            "Json.Encode.object\n    (List.filterMap identity\n        [ " := by decide +kernel
        have separator : "\n" ++ "        , " = "\n        , " := by decide +kernel
        have lines := append_leadLines "Json.Encode.object\n    (List.filterMap identity"
          "        [ " "        , " entry rest
        exact congrArg (· ++ "\n        ]\n    )") (lines.trans
          (congrArg₂ (fun first between => first ++ join between (entry :: rest)) front separator))
  rw [whole]
  refine .ofCode ((code.behind [.opening, .opening] (by decide)).close [.closing, .closing]
    (by decide)) ?_ ?_ beneath
  · simpa using listed.group.group
  · simpa [List.filterMap_cons] using reads

theorem fieldEncoders_length (depth : Nat) (fields : List Field) :
    Returns (fieldEncoders naming depth fields : Run σ (List String))
      fun encoders => encoders.length = fields.length := by
  induction fields with
  | nil =>
      unfold fieldEncoders
      exact .pure rfl
  | cons field rest ih =>
      unfold fieldEncoders
      refine .bind (.any _) fun _ _ => ?_
      exact ih.map fun _ same => congrArg Nat.succ same

theorem encodingEntries_ne_nil {depth : Nat} {field : Field} {fields : List Field}
    {encoders : List String} (same : encoders.length = (field :: fields).length) :
    encodingEntries depth (field :: fields) encoders ≠ [] := by
  rw [← List.length_pos_iff, encodingEntries, List.length_map, List.length_zip, List.length_zip,
    same, recordNames, Fresh.assign, Fresh.length_assignAfter, List.length_map]
  simp

private theorem ends_objectEncoderBody (entries : List String) :
    (objectEncoderBody entries).toList.getLast? = some ')' := by
  have split : (objectEncoderBody entries).toList =
      ("Json.Encode.object\n    (List.filterMap identity"
        ++ leadLines "        [ " "        , " entries).toList ++ "\n        ]\n    )".toList :=
    String.toList_append
  rw [split, List.getLast?_append_of_ne_nil _ (by decide)]
  decide

def encoderParameter : Shape → String
  | .object (_ :: _) => "rec"
  | _ => "value"

section Components

variable (named : naming.NamesEncoders)

include named

theorem objectEntries_write {fields : List Field}
    (names : ∀ field ∈ fields, field.shape.Everywhere naming.NamesUnion) (depth : Nat) :
    Returns (objectEntries naming fields depth : Run σ (List String))
      fun entries => ∀ entry ∈ entries, Writes naming entry [] (Beneath depth) :=
  ((encoderForms_write named).encoders (depth + 1) fields names).map fun _ each =>
    encodingEntries_write depth fields each

omit named in
theorem objectEntries_ne_nil (field : Field) (fields : List Field) (depth : Nat) :
    Returns (objectEntries naming (field :: fields) depth : Run σ (List String))
      fun entries => entries ≠ [] :=
  (fieldEncoders_length (depth + 1) (field :: fields)).map fun _ same =>
    encodingEntries_ne_nil same

private theorem recordEncoder_standsAround (quiet : naming.Quiet) {name : TypeName}
    (proper : name.Proper)
    {entries : List String} (inhabited : entries ≠ [])
    (each : ∀ entry ∈ entries, Writes naming entry [] (Beneath 0)) (recursive : Bool) :
    StandsAround "rec" (bindersOf (encoderHeader name.encoderName (naming.typeRef name)
      (encoderArgument (naming.typeRef name) "rec" recursive)
        ++ indent (objectEncoderBody entries) 1)) := by
  obtain ⟨words, bound, spells, closed, beneath⟩ :=
    (objectEncoderBody_writes inhabited each).spells quiet
  have ends := ends_objectEncoderBody entries
  have nonempty : (objectEncoderBody entries).toList ≠ [] := by
    intro empty
    rw [empty] at ends
    contradiction
  have lines := spells.indent nonempty (by rw [ends]; decide)
  rw [bindersOf_encoder named proper (.of_check (by decide)) recursive lines closed]
  exact beneath.standsAround

private theorem valueEncoder_standsAround (quiet : naming.Quiet) {name : TypeName}
    (proper : name.Proper)
    {function : String} (writes : Writes naming function [] (Numbered 1)) (recursive : Bool) :
    StandsAround "value" (bindersOf (encoderHeader name.encoderName (naming.typeRef name)
      (encoderArgument (naming.typeRef name) "value" recursive)
        ++ "    " ++ atom function ++ " value")) := by
  have call : Writes naming ("    " ++ atom function ++ " value") [] (Numbered 1) :=
    (writes.atom.behind (by decide)).close (by decide)
  obtain ⟨words, bound, spells, closed, numbered⟩ := call.spells quiet
  have isVariable : IsVariable "value" := .of_check (by decide)
  have binds := bindersOf_encoder named proper isVariable recursive spells closed
  simp only [← String.append_assoc] at binds ⊢
  rw [binds]
  exact numbered.standsAround (by decide) (by decide)

omit named in
private theorem encoderParameter_of_other {shape : Shape}
    (other : ∀ field fields, shape ≠ .object (field :: fields)) :
    encoderParameter shape = "value" := by
  unfold encoderParameter
  split
  case h_1 field fields => exact absurd rfl (other field fields)
  case h_2 => rfl

theorem encoderDeclaration_standsAround (quiet : naming.Quiet) {component : Component}
    (proper : component.name.Proper) (names : component.shape.Everywhere naming.NamesUnion)
    (recursive : Bool) :
    Returns (encoderDeclaration naming component recursive : Run σ Declaration)
      fun declaration => StandsAround (encoderParameter component.shape)
        (bindersOf declaration.source) := by
  unfold encoderDeclaration
  dsimp only
  split
  case h_1 field fields same =>
    rw [same] at names ⊢
    refine ((objectEntries_write named (Shape.everywhere_object_iff.mp names).2 0).and
      (objectEntries_ne_nil field fields 0)).map fun entries each => ?_
    exact recordEncoder_standsAround named quiet proper each.2 each.1 recursive
  case h_2 other notObject =>
    rw [encoderParameter_of_other fun field fields same => notObject field fields same]
    exact (encoder_writes named 1 _ names).map fun function writes =>
      valueEncoder_standsAround named quiet proper writes recursive

end Components

/-! ### Unions and enums -/

/-- Variables in the branch of a variant: its content, and those of the encoder. -/
def InVariant (binder : Binder) : Prop :=
  ¬ binder.Hides ∧ (binder.name = "inner" ∨ IsNumbered binder.name)

private theorem Numbered.inVariant {depth : Nat} {bound : List Binder}
    (numbered : Numbered depth bound) :
    ∀ binder ∈ bound, InVariant (binder.within ["inner"]) := by
  intro binder listed
  obtain ⟨shown, number, -, named⟩ := numbered binder listed
  have isNumbered : IsNumbered binder.name := ⟨number, named⟩
  exact ⟨not_hides_within shown (ne_of_numbered isNumbered (by decide) (by decide)),
    Or.inr isNumbered⟩

section Discovered

variable (named : naming.NamesEncoders)

include named

theorem variantCodec_branch (quiet : naming.Quiet) {variant : Variant}
    (proper : variant.name.Proper) (names : variant.shape.Everywhere naming.NamesUnion) :
    Returns (variantCodec naming variant : Run σ (String × String))
      fun codec => Branch ("        " ++ codec.2) InVariant := by
  refine .withPath _ ?_
  dsimp only
  split
  · refine .pure ⟨[], [], [], ?_, .nil, fun _ member => absurd member List.not_mem_nil,
      fun _ member => absurd member List.not_mem_nil⟩
    rw [← String.append_assoc]
    exact Stringifier.begins_constructor named.valid proper [] (by decide)
  · refine .bind (.any _) fun decode _ => ?_
    refine (encoder_writes named 1 _ names).map fun encode writes => ?_
    obtain ⟨words, bound, spells, closed, numbered⟩ := writes.atom.spells quiet
    have start : Begins ("        " ++ naming.typeRef variant.name ++ " inner ->\n            ")
        [.branch ["inner"]] :=
      Stringifier.begins_constructor named.valid proper ["inner"] (by decide)
    have lead : Lead ("        " ++ naming.typeRef variant.name ++ " inner ->\n            ") :=
      .append start.tidy (.fixed (by decide))
    have call : Spells (atom encode ++ " inner") (words ++ []) := spells.close [] (by decide)
    have whole := start.code lead call
    rw [List.append_nil, ← String.append_assoc] at whole
    refine ⟨["inner"], words, bound, ?_, closed, List.forall_mem_singleton.mpr
      ⟨not_hides_alone _, Or.inl rfl⟩, numbered.inVariant⟩
    rw [← String.append_assoc, ← String.append_assoc, ← String.append_assoc]
    exact whole

private theorem branches_standAround {name : TypeName} (proper : name.Proper)
    {codecs : List (String × String)}
    (each : ∀ codec ∈ codecs, Branch ("        " ++ codec.2) InVariant) :
    StandsAround "value" (bindersOf (encoderHeader name.encoderName (naming.typeRef name) "value"
      ++ "    case value of\n"
      ++ join "\n\n" (codecs.map fun codec => "        " ++ codec.2))) := by
  obtain ⟨firstTidy, free⟩ := tidy_encoderSignature named proper
  have defined := isVariable_encoderName proper
  have branches : ∀ branch ∈ codecs.map Prod.snd, Branch ("        " ++ branch) InVariant :=
    List.forall_mem_map.mpr each
  obtain ⟨bound, binds, all⟩ :=
    Stringifier.bindersOf_choice firstTidy free defined.inhabited defined.regular branches
  have parameter : " " ++ "value" ++ " =\n" = " value =\n" := by decide +kernel
  have header : encoderHeader name.encoderName (naming.typeRef name) "value" =
      name.encoderName ++ " : " ++ naming.typeRef name ++ " -> Json.Encode.Value"
        ++ "\n" ++ name.encoderName ++ " value =\n" :=
    (encoderHeader_eq _ _ _).trans (congrArg (_ ++ ·) parameter)
  rw [List.map_map] at binds
  rw [header, String.append_assoc]
  change StandsAround "value" (bindersOf (_ ++ (_ ++ join "\n\n"
    (codecs.map ((fun branch => "        " ++ branch) ∘ Prod.snd)))))
  rw [binds]
  refine standsAround_of_apart fun binder listed => ?_
  obtain ⟨shown, inner | isNumbered⟩ := all binder listed
  · exact ⟨shown, by rw [inner]; decide⟩
  · exact ⟨shown, ne_of_numbered isNumbered (by decide) (by decide)⟩

theorem unionDeclarations_standsAround (quiet : naming.Quiet) {union : Union}
    (proper : union.name.Proper) (members : ∀ variant ∈ union.variants,
      variant.name.Proper ∧ variant.shape.Everywhere naming.NamesUnion) :
    Returns (unionDeclarations naming union : Run σ (List Grouped)) fun declarations =>
      ∀ entry ∈ declarations, entry.1 = .encoders →
        StandsAround "value" (bindersOf entry.2.source) := by
  refine (Returns.traverseOf fun variant member =>
    variantCodec_branch named quiet (members variant member).1 (members variant member).2).map
      fun codecs related => ?_
  have around := branches_standAround named proper (all_of_forall₂ related)
  refine List.forall_mem_cons.mpr ⟨fun other => ?_, List.forall_mem_cons.mpr ⟨fun other => ?_,
    List.forall_mem_singleton.mpr fun _ => around⟩⟩ <;> cases other

theorem enumDeclarations_standsAround {name : TypeName} (proper : name.Proper)
    (values : List String) :
    ∀ entry ∈ enumDeclarations naming name values, entry.1 = .encoders →
      StandsAround "value" (bindersOf entry.2.source) := by
  have toText : Holdable (enumToString name).toList :=
    holdable_valueName proper (holdable_of_all (by decide))
  have member : Spells (naming.qualified .types (enumToString name)) [] :=
    spells_qualified named.valid .types toText
  have body : Spells ("    Json.Encode.string (" ++ naming.qualified .types (enumToString name)
      ++ " value)") ([.opening] ++ [] ++ [.closing]) :=
    (member.behind [.opening] (by decide)).close [.closing] (by decide)
  have around : StandsAround "value" (bindersOf
      (encoderHeader name.encoderName (naming.typeRef name) "value" ++ "    Json.Encode.string ("
        ++ naming.qualified .types (enumToString name) ++ " value)")) := by
    have isVariable : IsVariable "value" := .of_check (by decide)
    have binds := bindersOf_encoder named proper isVariable false body (.group .nil)
    rw [encoderArgument, if_neg Bool.false_ne_true] at binds
    have source : encoderHeader name.encoderName (naming.typeRef name) "value"
        ++ "    Json.Encode.string (" ++ naming.qualified .types (enumToString name) ++ " value)" =
          encoderHeader name.encoderName (naming.typeRef name) "value"
            ++ ("    Json.Encode.string (" ++ naming.qualified .types (enumToString name)
              ++ " value)") := by
      simp only [String.append_assoc]
    rw [source, binds]
    exact standsAround_of_apart fun _ none => absurd none List.not_mem_nil
  intro entry listed encoders
  simp only [enumDeclarations, List.mem_cons, List.not_mem_nil, or_false] at listed
  rcases listed with rfl | rfl | rfl | rfl | rfl | rfl
  case inr.inr.inr.inr.inr => exact around
  all_goals cases encoders

end Discovered

/-! ### Scopes of encoders -/

end Elm

/-! ### Encoders of a client -/

namespace Client

open Elm Lexer Run

variable {σ : Type} {naming : Naming}

def EncodersApart (declarations : List Grouped) : Prop :=
  ∀ entry ∈ declarations, entry.1 = .encoders →
    ∃ parameter, StandsAround parameter (bindersOf entry.2.source)

private theorem encodersApart_of_others {declarations : List Grouped}
    (others : ∀ entry ∈ declarations, entry.1 ≠ .encoders) : EncodersApart declarations :=
  fun entry listed encoders => absurd encoders (others entry listed)

private theorem encodersApart_group {group : Group} (other : group ≠ .encoders)
    (declarations : List Declaration) :
    EncodersApart (declarations.map fun declaration => (group, declaration)) :=
  encodersApart_of_others (List.forall_mem_map.mpr fun _ _ => other)

private theorem encodersApart_flatten {lists : List (List Grouped)}
    (each : ∀ declarations ∈ lists, EncodersApart declarations) : EncodersApart lists.flatten := by
  intro entry listed
  obtain ⟨declarations, member, inside⟩ := List.mem_flatten.mp listed
  exact each declarations member entry inside

private theorem encodersApart_request (request : Request) (profiles : List EffectProfile) :
    EncodersApart (request.declarations profiles) := by
  have errors : Group.errors ≠ .encoders := by decide
  have requests : Group.requests ≠ .encoders := by decide
  refine encodersApart_of_others (List.forall_mem_append.mpr ⟨?_, ?_⟩)
  · split
    · exact List.forall_mem_singleton.mpr errors
    · exact fun _ member => absurd member List.not_mem_nil
  · exact List.forall_mem_cons.mpr ⟨requests, List.forall_mem_map.mpr fun _ _ => requests⟩

section Declarations

variable (quiet : naming.Quiet) (named : naming.NamesTidy)

include quiet named

theorem componentDeclarations_encoders {component : Component} (holds : naming.Holds component) :
    Returns (componentDeclarations naming component : Run σ (List Grouped)) EncodersApart := by
  unfold componentDeclarations
  split
  · exact .pure fun _ member => absurd member List.not_mem_nil
  · refine .bind (.any _) fun decoder _ => ?_
    refine (encoderDeclaration_standsAround named.namesEncoders quiet holds.proper
      (named.namesUnions holds.covers) _).map fun encoder around => ?_
    refine List.forall_mem_cons.mpr ⟨fun other => ?_, List.forall_mem_cons.mpr
      ⟨fun other => ?_, List.forall_mem_singleton.mpr fun _ => ⟨_, around⟩⟩⟩ <;> cases other

theorem discoveredDeclarations_encoders :
    Returns (discoveredDeclarations naming : Run σ (List Grouped)) EncodersApart := by
  have each : ∀ declared ∈ naming.declared.declarations,
      Returns (declaredDeclarations naming declared : Run σ (List Grouped)) EncodersApart := by
    intro declared member
    rcases List.mem_append.mp (List.mem_mergeSort.mp member) with inEnums | inUnions
    · obtain ⟨entry, listed, rfl⟩ := List.mem_map.mp inEnums
      exact .pure fun declaration inside encoders => ⟨_, enumDeclarations_standsAround
        named.namesEncoders (named.enums entry listed) entry.1 declaration inside encoders⟩
    · obtain ⟨entry, listed, rfl⟩ := List.mem_map.mp inUnions
      refine .withPath _ ((unionDeclarations_standsAround named.namesEncoders quiet
        (named.unions entry listed) fun variant inUnion => ?_).imp
          fun declarations around declaration inside encoders =>
            ⟨_, around declaration inside encoders⟩)
      obtain ⟨proper, covers⟩ := named.members entry listed variant inUnion
      exact ⟨proper, named.namesUnions covers⟩
  exact (Returns.traverseOf each).map fun _ related =>
    encodersApart_flatten (all_of_forall₂ related)

theorem declare_encoders (config : Config) (document : Document) {api : Api}
    (fits : Fits naming api) :
    Returns (declare naming config document api) EncodersApart := by
  refine .bind (.traverseOf fun component listed => .withPath _
    (componentDeclarations_encoders quiet named (fits.components component listed)))
      fun components componentsApart => ?_
  refine .bind (discoveredDeclarations_encoders quiet named) fun discovered discoveredApart => ?_
  refine .bind (.traverse (fun endpoint => .withPath _ (.withPath _ ((Returns.any _).map
    fun request _ => encodersApart_request request config.profiles))) _)
      fun endpoints endpointsApart => ?_
  have requests : Group.requests ≠ .encoders := by decide
  have helpersApart : Returns helperDeclarations EncodersApart :=
    (Returns.any _).map fun helpers _ => encodersApart_of_others
      (List.forall_mem_map.mpr fun _ _ => requests)
  refine helpersApart.map fun helpers apart => ?_
  refine List.forall_mem_append.mpr ⟨List.forall_mem_append.mpr ⟨List.forall_mem_append.mpr
    ⟨List.forall_mem_append.mpr ⟨List.forall_mem_append.mpr ⟨?_, discoveredApart⟩, ?_⟩, ?_⟩,
      apart⟩, ?_⟩
  · exact encodersApart_flatten (all_of_forall₂ componentsApart)
  · exact encodersApart_group (by decide) _
  · exact encodersApart_flatten (all_of_forall₂ endpointsApart)
  · exact encodersApart_group (by decide) _

end Declarations

/-- In a generated client no encoder hides its parameter or a variable of its own. -/
theorem encoders_standAround {config : Config} {document : Document} {client : Client}
    (valid : config.validate = .ok ()) (binds : config.BindsNothing)
    (generated : ofDocument config document = .ok client) :
    ∀ declaration ∈ client.group .encoders,
      ∃ parameter, StandsAround parameter (bindersOf declaration.source) := by
  obtain ⟨api, log, -, -, resolved, -, -⟩ := ofDocument_ok generated
  obtain ⟨finished, ended⟩ := ofDocument_declared resolved generated
  obtain ⟨registrySound, apiSound⟩ := document.resolve_sound resolved
  have named := namesTidy_ofApi registrySound apiSound (Config.isModulePath_of_validate valid)
  have fits := ofApi_fits config registrySound apiSound
    (document.resolve_apart _ _ api log resolved).proper
  have apart := declare_encoders (binds.quiet api _) named config document fits _ _ _ _ ended
  intro declaration listed
  obtain ⟨entry, inGroup, rfl⟩ := List.mem_map.mp listed
  obtain ⟨inClient, encoders⟩ := List.mem_filter.mp inGroup
  exact apart entry inClient (eq_of_beq encoders)

end Client

end ElmClient
