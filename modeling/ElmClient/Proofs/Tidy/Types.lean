/-
Declarations of components, enums and unions are tidy. Headers and branches are made of
names and fixed text, the bodies below them are indented expressions.
-/

import ElmClient.Elm.Types
import ElmClient.Proofs.Tidy.Codec

namespace ElmClient.Elm

open Lexer Name Run Text

def TidySources (declarations : List Grouped) : Prop :=
  ∀ entry ∈ declarations, Tidy entry.2.source

theorem TidySources.cons {entry : Grouped} {declarations : List Grouped}
    (first : Tidy entry.2.source) (later : TidySources declarations) :
    TidySources (entry :: declarations) :=
  List.forall_mem_cons.mpr ⟨first, later⟩

theorem TidySources.nil : TidySources [] :=
  fun _ member => absurd member List.not_mem_nil

theorem TidySources.flatten {lists : List (List Grouped)}
    (tidy : ∀ declarations ∈ lists, TidySources declarations) : TidySources lists.flatten := by
  intro entry member
  obtain ⟨declarations, listed, inside⟩ := List.mem_flatten.mp member
  exact tidy declarations listed entry inside

variable {σ : Type} {naming : Naming}

/-! ### Components -/

structure Naming.Holds (naming : Naming) (component : Component) : Prop where
  proper : component.name.Proper
  covers : naming.Covers component.shape

section Headers

variable {name own : String} (nameTidy : Tidy name) (ownTidy : Tidy own)

include nameTidy ownTidy

private theorem lead_decoderHeader : Lead (decoderHeader name own) :=
  ((nameTidy.gap.code ownTidy).gap.code nameTidy).gap

private theorem lead_encoderHeader {argument : String} (argumentTidy : Tidy argument) :
    Lead (encoderHeader name own argument) :=
  ((((nameTidy.gap.code ownTidy).gap.code nameTidy).gap.code argumentTidy)).gap

theorem tidy_encoderArgument (recursive : Bool) : Tidy (encoderArgument own name recursive) := by
  unfold encoderArgument
  split
  · exact ((Lead.code .fixed ownTidy).gap.code nameTidy).close
  · exact nameTidy

end Headers

private theorem tidy_objectEncoderBody {entries : List String}
    (tidy : ∀ entry ∈ entries, Tidy entry) :
    Tidy (objectEncoderBody entries) :=
  (tidy_leadLines .fixed .fixed .fixed tidy).close

section Components

variable (tidy : naming.IsTidy) {component : Component} (holds : naming.Holds component)

include tidy holds

private theorem tidy_typeDeclaration (recursive : Bool) :
    Tidy (typeDeclaration naming component recursive).source := by
  have name := tidy_typeName holds.proper
  have framed {body : String} (tidy : Tidy body) : Tidy (if recursive then
      Declaration.customType component.name.text component.doc
        ("type " ++ component.name.text ++ "\n    = " ++ component.name.text ++ "\n"
          ++ indent (atom body) 2)
      else Declaration.value component.name.text component.doc
        ("type alias " ++ component.name.text ++ " =\n" ++ indent body 1)).source := by
    split
    · exact ((((Lead.code .fixed name).gap.code name).gap).code (tidy_indent (tidy_atom tidy) 2))
    · exact (Lead.code .fixed name).gap.code (tidy_indent tidy 1)
  have covers := holds.covers
  unfold typeDeclaration
  refine framed ?_
  split
  case h_1 field fields same =>
    rw [same] at covers
    exact tidy_tallRecord .fixed
      (tidy_recordEntries tidy (Shape.everywhere_object_iff.mp covers).2)
  case h_2 => exact tidy_typeExpression tidy _ covers

theorem decoderDeclaration_tidy (recursive : Bool) :
    Returns (decoderDeclaration naming component recursive : Run σ Declaration)
      fun declaration => Tidy declaration.source := by
  have own := tidy_typeRef tidy holds.proper
  have name := tidy_word (holdable_decoderName holds.proper)
  have covers := holds.covers
  have whole : ∀ body, Tidy body →
      Tidy (decoderHeader component.name.decoderName (naming.typeRef component.name)
        ++ indent (if recursive then "Json.Decode.map " ++ naming.typeRef component.name
          ++ "\n    (" ++ trimStart (indent body 1) ++ "\n    )" else body) 1) := by
    intro body bodyTidy
    refine (lead_decoderHeader name own).code (tidy_indent ?_ 1)
    split
    · exact ((Lead.code .fixed own).gap.code (tidy_trimStart (tidy_indent bodyTidy 1))).close
    · exact bodyTidy
  unfold decoderDeclaration
  dsimp only
  split
  case h_1 fields same =>
    rw [same] at covers
    refine .bind ((decoderForms_tidy tidy).decoders fields
        (Shape.everywhere_object_iff.mp covers).2)
      fun decoders found => ?_
    exact .map (.pure (tidy_decodingPipeline true fields found)) whole
  case h_2 => exact (decoder_tidy tidy _ covers).map whole

theorem encoderDeclaration_tidy (recursive : Bool) :
    Returns (encoderDeclaration naming component recursive : Run σ Declaration)
      fun declaration => Tidy declaration.source := by
  have own := tidy_typeRef tidy holds.proper
  have name := tidy_word (holdable_encoderName holds.proper)
  have covers := holds.covers
  unfold encoderDeclaration
  dsimp only
  split
  case h_1 field fields same =>
    rw [same] at covers
    have argument : Tidy (encoderArgument (naming.typeRef component.name) "rec" recursive) :=
      tidy_encoderArgument .fixed own recursive
    refine (objectEntries_tidy tidy (Shape.everywhere_object_iff.mp covers).2 0).map
      fun entries found => ?_
    exact (lead_encoderHeader name own argument).code (tidy_indent (tidy_objectEncoderBody found) 1)
  case h_2 =>
    have argument : Tidy (encoderArgument (naming.typeRef component.name) "value" recursive) :=
      tidy_encoderArgument .fixed own recursive
    have blank : Lead "    " := .fixed
    have header := (lead_encoderHeader name own argument).comp blank
    exact (encoder_tidy tidy 1 _ covers).map fun function found =>
      (header.code (tidy_atom found)).close

theorem componentDeclarations_tidy :
    Returns (componentDeclarations naming component : Run σ (List Grouped)) TidySources := by
  unfold componentDeclarations
  split
  · exact .pure .nil
  · refine .bind (decoderDeclaration_tidy tidy holds _) fun decoder decoderTidy => ?_
    refine (encoderDeclaration_tidy tidy holds _).map fun encoder encoderTidy => ?_
    exact .cons (tidy_typeDeclaration tidy holds _) (.cons decoderTidy (.cons encoderTidy .nil))

end Components

/-! ### Enums -/

theorem proper_enumConstructors {name : TypeName} (proper : name.Proper) (values : List String) :
    ∀ constructor ∈ enumConstructors name values, constructor.1.Proper := by
  intro constructor member
  have assigned := (List.of_mem_zip member).1
  obtain ⟨base, inBases, number, same⟩ := Fresh.assignAfter_candidate [] _ _ assigned
  obtain ⟨value, -, rfl⟩ := List.mem_map.mp inBases
  rw [same]
  exact (proper.child value).candidate number

private theorem tidy_caseHeader {name signature : String} (nameTidy : Tidy name)
    (signatureTidy : Tidy signature) : Tidy (caseHeader name signature) :=
  ((nameTidy.gap.code signatureTidy).gap.code nameTidy).close

example : Tidy (caseHeader "decodePet" "Pet -> Int") := by decide +kernel

private theorem tail_caseBranch {pattern body : String} (patternTidy : Tidy pattern)
    (bodyTidy : Tidy body) : Tail (caseBranch pattern body) := by
  have feed : Tail "\n        " := .fixed
  have lead : Lead "\n        " := .fixed
  have start := feed.append (lead.code patternTidy)
  have arrow : Tail ("\n        " ++ pattern ++ " ->\n            ") :=
    start.append start.tidy.gap.tidy
  exact arrow.append (start.tidy.gap.code bodyTidy)

private theorem tidy_branches {header : String} (headerTidy : Tidy header) {branches : List String}
    (tails : ∀ branch ∈ branches, Tail branch) : Tidy (header ++ join "\n" branches) := by
  have joined : Tidy (join "\n" branches) :=
    Gap.join (.fixed (by decide)) fun branch listed => (tails branch listed).tidy
  cases branches with
  | nil =>
      rw [join, String.intercalate_nil, String.append_empty]
      exact headerTidy
  | cons first rest =>
      refine headerTidy.tail ?_
      have begins := tails first List.mem_cons_self
      cases rest with
      | nil => exact begins
      | cons second rest =>
          rw [join, String.intercalate_cons_cons, String.append_assoc] at joined ⊢
          exact begins.append joined

private theorem tidy_customTypeSource {name : TypeName} (proper : name.Proper)
    {constructors : List String} (tidy : ∀ constructor ∈ constructors, Tidy constructor) :
    Tidy (customTypeSource name constructors) :=
  tidy_leadLines .fixed .fixed (Lead.code .fixed (tidy_typeName proper)) tidy

theorem holdable_valueName {name : TypeName} (proper : name.Proper) {suffix : String}
    (holdable : Holdable suffix.toList) : Holdable (name.toValueName ++ suffix).toList := by
  rw [String.toList_append]
  exact (TypeName.holdable_toValueName proper).append holdable

theorem enumDeclarations_tidy (tidy : naming.IsTidy) {name : TypeName} (proper : name.Proper)
    (values : List String) : TidySources (enumDeclarations naming name values) := by
  have own := tidy_typeRef tidy proper
  have toText : Holdable (enumToString name).toList :=
    holdable_valueName proper (holdable_of_all (by decide))
  have ofText : Holdable (enumFromString name).toList :=
    holdable_valueName proper (holdable_of_all (by decide))
  have variants : Tidy (enumVariants name) :=
    tidy_word (holdable_valueName proper (holdable_of_all (by decide)))
  have value : Tidy "value" := .fixed
  have constructors : ∀ constructor ∈ enumConstructors name values, Tidy constructor.1.text :=
    fun constructor member => tidy_typeName (proper_enumConstructors proper values _ member)
  have names : ∀ text ∈ (enumConstructors name values).map fun constructor => constructor.1.text,
      Tidy text := List.forall_mem_map.mpr constructors
  refine .cons (tidy_customTypeSource proper names) (.cons ?_ (.cons ?_ (.cons ?_ (.cons ?_
    (.cons ?_ .nil)))))
  · refine tidy_branches (tidy_caseHeader (tidy_word toText) own.close) ?_
    exact List.forall_mem_map.mpr fun constructor member =>
      tail_caseBranch (constructors constructor member) (tidy_stringLiteral _)
  · refine tidy_branches (tidy_caseHeader (tidy_word ofText) (Lead.code .fixed own))
      (List.forall_mem_append.mpr ⟨?_, ?_⟩)
    · exact List.forall_mem_map.mpr fun constructor member =>
        tail_caseBranch (tidy_stringLiteral _) (Lead.code .fixed (constructors constructor member))
    · exact List.forall_mem_singleton.mpr (tail_caseBranch .fixed .fixed)
  · exact ((variants.gap.code own).gap.code variants).gap.code (tidy_list names)
  · have blank : Lead "    " := .fixed
    have header := (lead_decoderHeader (tidy_word (holdable_decoderName proper)) own).comp blank
    exact ((header.code tidy_common).gap.code (tidy_stringLiteral name.text)).gap.code
      (tidy_qualified tidy.valid .types ofText)
  · have call : Lead "    Json.Encode.string (" := .fixed
    have header :=
      (lead_encoderHeader (tidy_word (holdable_encoderName proper)) own value).comp call
    exact (header.code (tidy_qualified tidy.valid .types toText)).close

/-! ### Unions -/

section Unions

variable (tidy : naming.IsTidy)

include tidy

private theorem tidy_variantConstructor {variant : Variant} (proper : variant.name.Proper)
    (covers : naming.Covers variant.shape) : Tidy (variantConstructor naming variant) := by
  have name := tidy_typeName proper
  unfold variantConstructor
  split
  · exact name
  · exact (name.gap (by decide)).code (tidy_atom (tidy_typeExpression tidy _ covers))

theorem variantCodec_tidy {variant : Variant} (proper : variant.name.Proper)
    (covers : naming.Covers variant.shape) :
    Returns (variantCodec naming variant : Run σ (String × String))
      fun codec => Tidy codec.1 ∧ Tidy codec.2 := by
  have constructor := tidy_typeRef tidy proper
  refine .withPath _ ?_
  dsimp only
  split
  · exact .pure ⟨Lead.code .fixed constructor, constructor.close⟩
  · refine .bind (decoder_tidy tidy _ covers) fun decode decodeTidy => ?_
    refine (encoder_tidy tidy 1 _ covers).map fun encode encodeTidy => ⟨?_, ?_⟩
    · exact (Lead.code .fixed constructor).gap.code (tidy_atom decodeTidy)
    · exact (constructor.gap.code (tidy_atom encodeTidy)).close

theorem unionDeclarations_tidy {union : Union} (proper : union.name.Proper)
    (members : ∀ variant ∈ union.variants, variant.name.Proper ∧ naming.Covers variant.shape) :
    Returns (unionDeclarations naming union : Run σ (List Grouped)) TidySources := by
  have own := tidy_typeRef tidy proper
  have decoderName := tidy_word (holdable_decoderName proper)
  have encoderName := tidy_word (holdable_encoderName proper)
  refine (Returns.traverseOf fun variant member =>
    variantCodec_tidy tidy (members variant member).1 (members variant member).2).map
      fun codecs related => ?_
  have codecsTidy := all_of_forall₂ related
  refine .cons (tidy_customTypeSource proper ?_) (.cons ?_ (.cons ?_ .nil))
  · exact List.forall_mem_map.mpr fun variant member =>
      tidy_variantConstructor tidy (members variant member).1 (members variant member).2
  · have oneOf : Tidy "    Json.Decode.oneOf" := .fixed
    have header := (lead_decoderHeader decoderName own).code oneOf
    exact (tidy_leadLines .fixed .fixed header
      (List.forall_mem_map.mpr fun codec member => (codecsTidy codec member).1)).close
  · have value : Tidy "value" := .fixed
    have cases : Lead "    case value of\n" := .fixed
    have header := (lead_encoderHeader encoderName own value).comp cases
    refine header.code (Gap.join .fixed (List.forall_mem_map.mpr fun codec member => ?_))
    exact Lead.code .fixed (codecsTidy codec member).2

theorem discoveredDeclarations_tidy :
    Returns (discoveredDeclarations naming : Run σ (List Grouped)) TidySources := by
  have each : ∀ declared ∈ naming.declared.declarations,
      Returns (declaredDeclarations naming declared : Run σ (List Grouped)) TidySources := by
    intro declared member
    rcases List.mem_append.mp (List.mem_mergeSort.mp member) with inEnums | inUnions
    · obtain ⟨entry, listed, rfl⟩ := List.mem_map.mp inEnums
      exact .pure (enumDeclarations_tidy tidy (tidy.enums entry listed) entry.1)
    · obtain ⟨entry, listed, rfl⟩ := List.mem_map.mp inUnions
      exact .withPath _ (unionDeclarations_tidy tidy (tidy.unions entry listed)
        (tidy.members entry listed))
  exact (Returns.traverseOf each).map fun _ related => .flatten (all_of_forall₂ related)

end Unions

end ElmClient.Elm
