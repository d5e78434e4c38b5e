/-
Levels are enough. An `allOf` inside a property begins a new merge, so a component that gets
back to itself through one is expanded without end. Where none does, every new merge leaves
components behind for good, and inside one merge every component is expanded once; so no more
levels are opened than there are planned.
-/

import ElmClient.Proofs.Document.Depth
import ElmClient.Proofs.Expansion.Checked
import ElmClient.Proofs.Expansion.Walks
import Mathlib.Data.Finset.Card

namespace ElmClient.Resolve

open Run

/-! ### Merges inside merges -/

def Buries (text : String) (schema : RefOr Schema) : Prop :=
  ∃ part, Schema.Inside part schema ∧ Inherits text (.inline part)

/-- The text is a reference in an `allOf` inside a property, an item, a value or an
alternative of the schema, or of an inline schema that is merged into it. -/
inductive Nests (text : String) : RefOr Schema → Prop
  | apart {schema : Schema} {child : RefOr Schema} (listed : child ∈ schema.apart)
      (below : Buries text child) : Nests text (.inline schema)
  | member {schema : Schema} {member : RefOr Schema} (listed : member ∈ schema.allOf.getD [])
      (below : Nests text member) : Nests text (.inline schema)

def NestsIn (schemas : SchemaMap) (raw next : String) : Prop :=
  ∃ schema text, Keyed.find? raw schemas = some schema ∧ Nests text schema ∧
    RefersTo schemas text next

def Expands (schemas : SchemaMap) (raw next : String) : Prop :=
  Extends schemas raw next ∨ NestsIn schemas raw next

/-- No component reaches itself through an `allOf` inside one of its properties, items,
values or alternatives. -/
def NestsNoReturn (schemas : SchemaMap) : Prop :=
  ∀ raw next, NestsIn schemas raw next → ¬ Relation.ReflTransGen (Expands schemas) next raw

section Texts

variable {text : String}

private theorem Buries.child {schema : Schema} {child : RefOr Schema}
    (listed : child ∈ schema.children)
    (buries : Buries text child) : Buries text (.inline schema) := by
  obtain ⟨part, inside, inherits⟩ := buries
  exact ⟨part, .deeper listed inside, inherits⟩

private theorem Nests.buries {schema : RefOr Schema} (nests : Nests text schema) :
    Buries text schema := by
  induction nests with
  | apart listed below => exact below.child (Schema.mem_children_iff.mpr (Or.inl listed))
  | member listed _ ih => exact ih.child (Schema.mem_children_iff.mpr (Or.inr listed))

private theorem Buries.nests {schema : Schema} (alone : schema.allOf = none)
    (buries : Buries text (.inline schema)) : Nests text (.inline schema) := by
  have noMember : ∀ member, member ∉ schema.allOf.getD [] := by
    rw [alone]
    exact fun _ => List.not_mem_nil
  obtain ⟨part, inside, inherits⟩ := buries
  cases inside with
  | itself =>
      cases inherits with
      | member listed _ => exact absurd listed (noMember _)
  | deeper listed inside =>
      rcases Schema.mem_children_iff.mp listed with apart | member
      · exact .apart apart ⟨part, inside, inherits⟩
      · exact absurd member (noMember _)

end Texts

/-! ### Ranks -/

/-- Merging takes in components of at most the same rank, and a merge inside only ones of
lower rank. -/
structure Ranked (schemas : SchemaMap) (rank : String → Nat) : Prop where
  extends_le : ∀ raw next, Extends schemas raw next → rank next ≤ rank raw
  nests_lt : ∀ raw next, NestsIn schemas raw next → rank next < rank raw
  bounded : ∀ raw, rank raw ≤ schemas.length

def Beyond (schemas : SchemaMap) (raw other : String) : Prop :=
  ∃ inner next, Relation.ReflTransGen (Expands schemas) raw inner ∧ NestsIn schemas inner next ∧
    Relation.ReflTransGen (Expands schemas) next other

open Classical in
/-- Where no component reaches itself like that, the components that are reached like that
are counted by a rank. -/
theorem exists_ranked {schemas : SchemaMap} (noReturn : NestsNoReturn schemas) :
    ∃ rank, Ranked schemas rank := by
  let reached (raw : String) : Finset String :=
    (Keyed.keys schemas).toFinset.filter (Beyond schemas raw)
  have further (raw next : String) (step : Expands schemas raw next) :
      reached next ⊆ reached raw := by
    intro other inside
    obtain ⟨listed, inner, target, way, nests, rest⟩ := Finset.mem_filter.mp inside
    exact Finset.mem_filter.mpr ⟨listed, inner, target, way.head step, nests, rest⟩
  refine ⟨fun raw => (reached raw).card, ?_, ?_, ?_⟩
  · exact fun raw next step => Finset.card_le_card (further raw next (Or.inl step))
  · intro raw next nests
    refine Finset.card_lt_card ((Finset.ssubset_iff_of_subset (further raw next (Or.inr nests))).mpr
      ⟨next, ?_, ?_⟩)
    · obtain ⟨schema, text, found, -, refers⟩ := id nests
      have listed : next ∈ (Keyed.keys schemas).toFinset := List.mem_toFinset.mpr refers.listed
      exact Finset.mem_filter.mpr ⟨listed, raw, next, .refl, nests, .refl⟩
    · intro inside
      obtain ⟨inner, target, way, inner_nests, rest⟩ := (Finset.mem_filter.mp inside).2
      exact noReturn inner target inner_nests (rest.trans way)
  · intro raw
    have listed : (reached raw).card ≤ (Keyed.keys schemas).length :=
      (Finset.card_filter_le _ _).trans (List.toFinset_card_le _)
    rwa [Keyed.keys, List.length_map] at listed

/-! ### Planned levels -/

section Levels

variable (schemas : SchemaMap) (depth : Nat) (rank : String → Nat)

/-- Levels for one merge: every component is expanded at most once in it. -/
def mergeLevels : Nat :=
  (schemas.length + 2) * (depth + 2)

/-- Levels are left for all merges that begin inside the schema. -/
def AtSiteEnough (levels : Nat) (schema : RefOr Schema) : Prop :=
  ∃ budget, budget + Schema.depth schema < levels ∧
    ∀ text next, Buries text schema → RefersTo schemas text next →
      (rank next + 1) * mergeLevels schemas depth ≤ budget

/-- Levels are left for what this merge may still take in, and for all merges that begin
inside. -/
structure UnderEnough (levels : Nat) (expanding : List TypeName) (schema : RefOr Schema) :
    Prop where
  expansion : Expansion schemas expanding
  budget : ∃ budget, budget + Schema.depth schema < levels ∧
    (∀ text next, Inherits text schema → RefersTo schemas text next →
      rank next * mergeLevels schemas depth
        + (schemas.length + 2 - expanding.length) * (depth + 2) ≤ budget) ∧
    ∀ text next, Nests text schema → RefersTo schemas text next →
      (rank next + 1) * mergeLevels schemas depth ≤ budget

variable {schemas depth rank} (ranked : Ranked schemas rank)
  (shallow : ∀ entry ∈ schemas, Schema.depth entry.2 ≤ depth)

section Steps

variable {levels : Nat} {schema : Schema}

private theorem AtSiteEnough.child
    (enough : AtSiteEnough schemas depth rank (levels + 1) (.inline schema))
    {child : RefOr Schema} (listed : child ∈ schema.children) :
    AtSiteEnough schemas depth rank levels child := by
  obtain ⟨budget, room, covers⟩ := enough
  have shallower := Schema.depth_lt_of_child listed
  exact ⟨budget, by omega, fun text next buries => covers text next (buries.child listed)⟩

private theorem AtSiteEnough.merged
    (enough : AtSiteEnough schemas depth rank (levels + 1) (.inline schema))
    {member : RefOr Schema} (listed : member ∈ schema.allOf.getD []) (owner : Option TypeName) :
    UnderEnough schemas depth rank levels owner.toList member := by
  obtain ⟨budget, room, covers⟩ := enough
  have inside := Schema.mem_children_iff.mpr (Or.inr listed)
  have shallower := Schema.depth_lt_of_child inside
  refine ⟨expansion_owner owner, budget, by omega, fun text next inherits refers => ?_,
    fun text next nests => covers text next (nests.buries.child inside)⟩
  have covered := covers text next ⟨schema, .itself, .member listed inherits⟩ refers
  have rest : (schemas.length + 2 - owner.toList.length) * (depth + 2) ≤
      mergeLevels schemas depth := Nat.mul_le_mul_right _ (Nat.sub_le _ _)
  rw [Nat.succ_mul] at covered
  omega

variable {expanding : List TypeName}

private theorem UnderEnough.member
    (enough : UnderEnough schemas depth rank (levels + 1) expanding (.inline schema))
    {member : RefOr Schema} (listed : member ∈ schema.allOf.getD []) :
    UnderEnough schemas depth rank levels expanding member := by
  obtain ⟨expansion, budget, room, covers, coversInside⟩ := enough
  have shallower := Schema.depth_lt_of_child (Schema.mem_children_iff.mpr (Or.inr listed))
  exact ⟨expansion, budget, by omega,
    fun text next inherits => covers text next (.member listed inherits),
    fun text next nests => coversInside text next (.member listed nests)⟩

private theorem UnderEnough.apart
    (enough : UnderEnough schemas depth rank (levels + 1) expanding (.inline schema))
    {child : RefOr Schema} (listed : child ∈ schema.apart) :
    AtSiteEnough schemas depth rank levels child := by
  obtain ⟨-, budget, room, -, coversInside⟩ := enough
  have shallower := Schema.depth_lt_of_child (Schema.mem_children_iff.mpr (Or.inl listed))
  exact ⟨budget, by omega, fun text next buries => coversInside text next (.apart listed buries)⟩

private theorem UnderEnough.alone
    (enough : UnderEnough schemas depth rank (levels + 1) expanding (.inline schema))
    (none : schema.allOf = none) :
    AtSiteEnough schemas depth rank (levels + 1) (.inline schema) := by
  obtain ⟨-, budget, room, -, coversInside⟩ := enough
  exact ⟨budget, room, fun text next buries => coversInside text next (buries.nests none)⟩

include ranked shallow

private theorem UnderEnough.follow {text raw : String} {target : RefOr Schema}
    (enough : UnderEnough schemas depth rank (levels + 1) expanding (.reference text))
    (refers : RefersTo schemas text raw) (absent : TypeName.ofRaw raw ∉ expanding)
    (found : Keyed.find? raw schemas = some target) :
    UnderEnough schemas depth rank levels (expanding ++ [TypeName.ofRaw raw]) target := by
  obtain ⟨expansion, budget, room, covers, -⟩ := enough
  have covered := covers text raw .itself refers
  have shallowTarget : Schema.depth target ≤ depth := shallow _ (Keyed.mem_of_find? found)
  -- One component fewer may follow, so the levels between two components are freed.
  obtain ⟨left, others⟩ : ∃ left, schemas.length + 2 - expanding.length = left + 1 :=
    ⟨schemas.length + 1 - expanding.length, by have bound := expansion.length_le; omega⟩
  have fewer : schemas.length + 2 - (expanding ++ [TypeName.ofRaw raw]).length = left := by
    rw [List.length_append, List.length_singleton]
    omega
  rw [others, Nat.succ_mul] at covered
  refine ⟨expansion.follow refers absent,
    rank raw * mergeLevels schemas depth + left * (depth + 2), by omega, ?_, ?_⟩
  · intro other next inherits also
    have lower := ranked.extends_le raw next ⟨target, other, found, inherits, also⟩
    rw [fewer]
    exact Nat.add_le_add_right (Nat.mul_le_mul_right _ lower) _
  · intro other next nests also
    have lower := ranked.nests_lt raw next ⟨target, other, found, nests, also⟩
    exact Nat.le_add_right_of_le (Nat.mul_le_mul_right _ lower)

end Steps

include ranked shallow

private theorem enough_plan : Plan schemas (fun _ => True)
    (fun {_} (action : Run Registry _) =>
      FailsWith (fun message => message ≠ endlessMessage) action)
    (fun levels _ schema => AtSiteEnough schemas depth rank levels schema)
    fun levels expanding _ schema => UnderEnough schemas depth rank levels expanding schema where
  permitted _ := trivial
  apart enough listed _ := enough.child (Schema.mem_children_iff.mpr (Or.inl listed))
  only enough listed := enough.child (Schema.mem_children_iff.mpr
    (Or.inl (Schema.mem_apart_of_alternatives listed (List.mem_singleton_self _))))
  member enough listed :=
    ⟨enough.child (Schema.mem_children_iff.mpr (Or.inr listed)), enough.merged listed _⟩
  further enough listed := enough.member listed
  own enough listed _ := enough.apart listed
  alone enough none := enough.alone none
  follow enough refers absent found := enough.follow ranked shallow refers absent found
  cycle _ _ _ := FailsWith.fail fun same => by
    have begins : "`allOf` reference cycle: ".toList <+: endlessMessage.toList := by
      rw [← same, String.toList_append]
      exact List.prefix_append _ _
    exact absurd begins (by decide)
  endlessSchema enough := absurd enough.choose_spec.1 (Nat.not_lt_zero _)
  endlessContribution enough := absurd enough.budget.choose_spec.1 (Nat.not_lt_zero _)

end Levels

/-- Where no component reaches itself through an `allOf` inside another schema, the planned
levels are enough. -/
theorem schemaWithin_ends {schemas : SchemaMap} (noReturn : NestsNoReturn schemas) {depth : Nat}
    (shallow : ∀ entry ∈ schemas, Schema.depth entry.2 ≤ depth) {schema : RefOr Schema}
    (shallowSchema : Schema.depth schema ≤ depth) {levels : Nat}
    (planned : levelsFor schemas.length depth ≤ levels) (site : Site) :
    FailsWith (fun message => message ≠ endlessMessage)
      (schemaWithin schemas levels site schema) := by
  obtain ⟨rank, ranked⟩ := exists_ranked noReturn
  have resolving : Resolving (fun _ => True) (fun {_} (action : Run Registry _) =>
      FailsWith (fun message => message ≠ endlessMessage) action) :=
    failsWith_resolving fun message ordinary same =>
      ordinary.noEnd (same ▸ (by decide))
  refine (within_holds resolving (enough_plan ranked shallow) levels).1 site schema
    ⟨(schemas.length + 1) * mergeLevels schemas depth, ?_, fun text next _ _ =>
      Nat.mul_le_mul_right _ (Nat.succ_le_succ (ranked.bounded next))⟩
  have split : levelsFor schemas.length depth =
      (schemas.length + 1) * mergeLevels schemas depth + mergeLevels schemas depth := by
    rw [levelsFor, mergeLevels, Nat.mul_assoc, Nat.succ_mul]
  have wide : depth + 2 ≤ mergeLevels schemas depth :=
    Nat.le_mul_of_pos_left _ (Nat.succ_pos _)
  omega

end ElmClient.Resolve
