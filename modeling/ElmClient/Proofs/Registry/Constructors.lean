/-
What the constructors of unions are called. A union has one constructor for each label of
its members, named below the union, and keeps them when it gets another name. So two of
them have one name exactly if two labels are spelled alike once they are identifiers.
-/

import ElmClient.Proofs.Closed.Resolve
import ElmClient.Proofs.Registry.Draining
import ElmClient.Proofs.Sample
import ElmClient.Proofs.Text.Split

namespace ElmClient

/-! ### Names below a name -/

namespace TypeName

def memberText (label : String) : String :=
  String.ofList (Name.memberChars label.toList)

theorem child_eq (name : TypeName) (label : String) :
    name.child label = ⟨name.text ++ "_" ++ memberText label⟩ := rfl

theorem child_inj {name : TypeName} {left right : String} :
    name.child left = name.child right ↔ memberText left = memberText right := by
  rw [child_eq, child_eq, TypeName.mk.injEq, String.append_right_inj]

theorem child_replaceLead (name other : TypeName) (label : String) :
    (name.child label).replaceLead name other = other.child label := by
  rw [child_eq, child_eq, replaceLead, String.append_assoc, String.append_assoc]
  simp only [String.toList_append, Text.dropLead?_append]
  rw [← String.toList_append, String.ofList_toList]

theorem nodup_children_iff {name : TypeName} {labels : List String} :
    (labels.map name.child).Nodup ↔ (labels.map memberText).Nodup := by
  induction labels with
  | nil => simp
  | cons label rest ih =>
      rw [List.map_cons, List.map_cons, List.nodup_cons, List.nodup_cons, ih, List.mem_map,
        List.mem_map]
      simp only [child_inj]

end TypeName

/-! ### Labelled unions -/

namespace Union

def constructors (union : Union) : List TypeName :=
  union.variants.map VariantOf.name

def Labelled (union : Union) (labels : List String) : Prop :=
  union.constructors = labels.map union.name.child

private theorem Labelled.renamed {union : Union} {labels : List String}
    (labelled : union.Labelled labels)
    (name : TypeName) : (union.renamed name).Labelled labels := by
  have each : (union.renamed name).constructors =
      union.constructors.map fun own => own.replaceLead union.name name := by
    simp only [constructors, Union.renamed, List.map_map]
    rfl
  rw [Labelled, each, labelled, List.map_map]
  exact List.map_congr_left fun label _ => TypeName.child_replaceLead union.name name label

private theorem Labelled.nodup_iff {union : Union} {labels : List String}
    (labelled : union.Labelled labels) :
    union.constructors.Nodup ↔ (labels.map TypeName.memberText).Nodup := by
  rw [labelled]
  exact TypeName.nodup_children_iff

end Union

/-- The labels of the unions that a schema may become: of its alternatives, or of its kinds. -/
def Schema.labelLists (schema : Schema) : List (List String) :=
  schema.alternatives.map (Resolve.memberLabels [] 0) ++ [Resolve.concreteKinds schema]

/-- The union is labelled like one that a schema of the document may become. -/
def Document.Labels (document : Document) (union : Union) : Prop :=
  ∃ schema labels, document.Contains (.inline schema) ∧ labels ∈ schema.labelLists ∧
    union.Labelled labels

private theorem Document.Labels.renamed {document : Document} {union : Union}
    (labels : document.Labels union) (name : TypeName) : document.Labels (union.renamed name) := by
  obtain ⟨schema, given, contained, listed, labelled⟩ := labels
  exact ⟨schema, given, contained, listed, labelled.renamed name⟩

def Registry.Labelled (document : Document) (registry : Registry) : Prop :=
  ∀ entry ∈ registry.unions, document.Labels entry.union

theorem Registry.placed_labels (registry : Registry) {document : Document} {union : Union}
    (labels : document.Labels union) : document.Labels (registry.placed union) := by
  rcases registry.placed_cases union with equal | ⟨number, equal⟩
  · rw [equal]
    exact labels
  · rw [equal]
    exact labels.renamed _

/-! ### Registering labelled unions -/

namespace Resolve

open Run

variable {document : Document}

theorem registerEnum_maintains (entry : EnumEntry) :
    Maintains (Registry.Labelled document) (Run.registerEnum entry) := by
  intro scope log labelled
  rw [outcome_registerEnum]
  obtain ⟨present, _, _, registered⟩ | ⟨next, added, registered⟩ :=
    log.store.registerEnum_cases entry
  · rw [registered]
    exact labelled
  · rw [registered]
    intro other member
    exact labelled other (added.unions ▸ member)

theorem registeredUnion_maintains (site : Site) (owner : Option TypeName) {variants : List Variant}
    (labels : document.Labels ⟨site.name, variants⟩) :
    Maintains (Registry.Labelled document) (registeredUnion site owner variants) := by
  refine Maintains.bind ?_ fun _ => Maintains.closed.pure _
  intro scope log labelled
  rw [outcome_registerUnion]
  obtain ⟨present, _, _, _, registered⟩ | ⟨next, added, registered⟩ :=
    log.store.registerUnion_cases ⟨site.name, variants⟩ owner
  · rw [registered]
    exact labelled
  · rw [registered]
    intro other member
    rcases List.mem_cons.mp (added.unions.mem_iff.mp member) with rfl | before
    · exact log.store.placed_labels labels
    · exact labelled other before

theorem names_of_forall₂ {α : Type} {name : TypeName} {label : α → String} {items : List α}
    {variants : List Variant}
    (named : List.Forall₂ (fun item variant => variant.name = name.child (label item))
      items variants) :
    (⟨name, variants⟩ : Union).Labelled (items.map label) := by
  rw [Union.Labelled, Union.constructors]
  induction named with
  | nil => rfl
  | cons first _ ih => rw [List.map_cons, List.map_cons, List.map_cons, first, ih]

private theorem labelled_unionsClosed (document : Document) :
    UnionsClosed document
      (fun {_} (action : Run Registry _) => Maintains (Registry.Labelled document) action) where
  toClosed := Maintains.closed
  bindOf := Maintains.bindOf
  registerEnum := registerEnum_maintains
  unionOf inner site owner keyword schema members contained listed each := by
    have named : ∀ entry : RefOr Schema × String, Returns (variant inner site entry)
        fun variant => variant.name = site.name.child entry.2 := fun entry =>
      Returns.map (Returns.any _) fun _ _ => rfl
    refine Maintains.bindOf (Maintains.closed.traverseIndexedOf _ fun entry labelled => ?_)
      (Returns.traverseIndexed _ named _) fun variants related =>
        registeredUnion_maintains site owner ?_
    · exact Maintains.closed.map _ (each _ entry.1 (List.of_mem_zip labelled).1)
    · refine ⟨schema, memberLabels [] 0 members, contained,
        List.mem_append_left _ (List.mem_map_of_mem listed), ?_⟩
      have labels := names_of_forall₂ related
      rwa [List.map_snd_zip (length_memberLabels [] 0 members).le] at labels
  kindUnion inner site schema contained each := by
    have named : ∀ kind : String, Returns (kindVariant inner site schema kind)
        fun variant => variant.name = site.name.child kind := fun kind =>
      Returns.map (Returns.any _) fun _ _ => rfl
    refine Maintains.bindOf
      (Maintains.closed.withPath _ (Maintains.closed.traverse (fun kind => ?_) _))
      (Returns.withPath _ (Returns.traverse named _)) fun variants related =>
        registeredUnion_maintains site _ ?_
    · exact Maintains.closed.map _ (each _ kind)
    · refine ⟨schema, concreteKinds schema, contained,
        List.mem_append_right _ (List.mem_singleton.mpr rfl), ?_⟩
      have labels := names_of_forall₂ related
      rwa [List.map_id'] at labels

end Resolve

namespace Registry

theorem renamed_of_declared {registry : Registry} {reserved : List TypeName} {union : Union}
    (declared : .union union ∈ (registry.drain reserved).declarations) :
    ∃ entry ∈ registry.unions, ∃ name, union = entry.union.renamed name := by
  obtain ⟨final, listed, equal⟩ :=
    List.mem_map.mp ((drain_declarations_perm reserved registry).mem_iff.mp declared)
  have stored := (finalNames_perm registry reserved).mem_iff.mp (List.mem_map_of_mem listed)
  obtain ⟨entry, name⟩ := final
  cases entry with
  | enum entry => contradiction
  | union entry =>
      obtain ⟨_, _, other⟩ | ⟨found, member, same⟩ := mem_entries_iff.mp stored
      · contradiction
      · cases same
        exact ⟨entry, member, name, (Declared.union.inj equal).symm⟩

end Registry

/-- Whatever becomes of resolving a document, the constructors of each union that is stored,
and under whatever names it is declared then, are named by the labels of a schema of the
document; they are distinct exactly if these labels are distinct as identifiers. -/
theorem Document.resolve_constructors (document : Document) (scope : Scope) :
    let registry := (document.resolve.outcome scope (Log.starting Registry.empty)).2.store
    ∀ union, (∃ entry ∈ registry.unions, union = entry.union) ∨
        (∃ reserved, .union union ∈ (registry.drain reserved).declarations) →
      ∃ schema labels, document.Contains (.inline schema) ∧ labels ∈ schema.labelLists ∧
        union.constructors = labels.map union.name.child ∧
        (union.constructors.Nodup ↔ (labels.map TypeName.memberText).Nodup) := by
  intro registry union known
  have labelled : registry.Labelled document :=
    document.resolve_closed (Resolve.labelled_unionsClosed document) scope
      (Log.starting Registry.empty) fun _ member => absurd member List.not_mem_nil
  have labels : document.Labels union := by
    rcases known with ⟨entry, stored, rfl⟩ | ⟨reserved, declared⟩
    · exact labelled entry stored
    · obtain ⟨entry, stored, name, rfl⟩ := Registry.renamed_of_declared declared
      exact (labelled entry stored).renamed name
  obtain ⟨schema, given, contained, listed, own⟩ := labels
  exact ⟨schema, given, contained, listed, own, own.nodup_iff⟩

/-- Two keys of one name. The union of the second is stored under a numbered name, and is
numbered again where that name is reserved. -/
theorem Document.resolve_constructors_renamed :
    let kinds := fun first second =>
      RefOr.inline { Schema.bare with kind := some (.many [first, second]) }
    let document := Document.ofParts [] [("Pet", .inline
      (Schema.record [("tag", kinds "integer" "boolean"), ("Tag", kinds "string" "number")]))]
    let registry := (document.resolve.outcome (Scope.root .failOnUnsupported)
      (Log.starting Registry.empty)).2.store
    ∃ union, .union union ∈ (registry.drain [⟨"Pet"⟩, ⟨"Pet_Tag2"⟩]).declarations ∧
      union.constructors = [⟨"Pet_Tag2_2_String"⟩, ⟨"Pet_Tag2_2_Number"⟩] ∧
      ∃ schema labels, document.Contains (.inline schema) ∧ labels ∈ schema.labelLists ∧
        union.constructors = labels.map union.name.child ∧
        (union.constructors.Nodup ↔ (labels.map TypeName.memberText).Nodup) := by
  intro kinds document registry
  have evaluated : ((registry.drain [⟨"Pet"⟩, ⟨"Pet_Tag2"⟩]).unions.any fun entry =>
      entry.2.constructors == [⟨"Pet_Tag2_2_String"⟩, ⟨"Pet_Tag2_2_Number"⟩]) = true := by
    decide +kernel
  obtain ⟨⟨own, union⟩, drained, named⟩ := List.any_eq_true.mp evaluated
  have declared : .union union ∈ (registry.drain [⟨"Pet"⟩, ⟨"Pet_Tag2"⟩]).declarations :=
    (List.mergeSort_perm _ _).mem_iff.mpr
      (List.mem_append_right _ (List.mem_map_of_mem drained))
  exact ⟨union, declared, eq_of_beq named,
    document.resolve_constructors _ union (.inr ⟨_, declared⟩)⟩

/-- Two titles that differ only in a character that no identifier holds. -/
theorem Document.resolve_constructors_clash :
    let offer := fun title key => RefOr.inline
      { Schema.bare with
        title := some title
        properties := [(key, .inline { Schema.bare with kind := some (.one "number") })] }
    let document := Document.ofParts [] [("Offer", .inline
      { Schema.bare with oneOf := some [offer "on sale" "price", offer "on-sale" "discount"] })]
    let registry := (document.resolve.outcome (Scope.root .failOnUnsupported)
      (Log.starting Registry.empty)).2.store
    ∃ entry ∈ registry.unions, ¬ entry.union.constructors.Nodup := by
  intro offer document registry
  have stored : (registry.unions.any fun entry =>
      decide ¬ entry.union.constructors.Nodup) = true := by
    decide +kernel
  obtain ⟨entry, member, clash⟩ := List.any_eq_true.mp stored
  exact ⟨entry, member, of_decide_eq_true clash⟩

end ElmClient
