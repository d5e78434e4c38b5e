/-
Histories of registrations. What is registered one after the other from the empty registry
stays as it was registered, each entry under what identifies it. A set of values has the
name it was registered with first. A union is stored under its own name or under the first
numbered one that no different union has, and is found there ever after, so different
members never share a name. In the end every entry is declared once, under a name of its own;
a name that was reserved goes to an entry of that owner only, and every owner has an entry that
gets its name. A union keeps its members below the new name.
-/

import ElmClient.Proofs.Again.Registry
import ElmClient.Proofs.Registry.Draining
import ElmClient.Proofs.Shape.Euclidean
import ElmClient.Proofs.Text.Split
import Mathlib.Data.List.Induction

namespace ElmClient

/-! ### Unions by their members -/

/-- A member of a union: what its name adds to the name of the union, its shape, in which
no key comes twice, and its documentation. -/
structure Member where
  label : String
  shape : Shape
  doc : Option String
  keysOnce : shape.Everywhere Shape.KeysOnce

structure Member.Same (left right : Member) : Prop where
  label : left.label = right.label
  shape : left.shape.same right.shape = true
  doc : left.doc = right.doc

/-- The variant that a member becomes below a name. -/
def Member.variant (name : TypeName) (member : Member) : Variant :=
  { name := ⟨name.text ++ member.label⟩, shape := member.shape, doc := member.doc }

def Union.ofMembers (name : TypeName) (members : List Member) : Union :=
  { name := name, variants := members.map (Member.variant name) }

/-- The union below the name that is tried after `number` refused ones. -/
def Union.numbered (name : TypeName) (members : List Member) (number : Nat) : Union :=
  Union.ofMembers (Fresh.candidate name TypeName.withSuffix number) members

namespace Member

theorem variant_replaceLead (name other : TypeName) (member : Member) :
    (member.variant name).name.replaceLead name other = (member.variant other).name := by
  simp only [variant, TypeName.replaceLead, String.toList_append, Text.dropLead?_append,
    String.ofList_toList]

theorem sameVariants_iff {name : TypeName} {left right : List Member} :
    Shape.sameVariants (left.map (variant name)) (right.map (variant name)) = true ↔
      List.Forall₂ Same left right := by
  induction left generalizing right with
  | nil => cases right <;> simp [Shape.sameVariants]
  | cons first rest ih =>
      cases right with
      | nil => simp [Shape.sameVariants]
      | cons second others =>
          rw [List.map_cons, List.map_cons, variant, Shape.sameVariants, Bool.and_eq_true, ih,
            List.forall₂_cons]
          refine and_congr_left' ?_
          simp only [variant, Bool.and_eq_true, beq_iff_eq, TypeName.mk.injEq,
            String.append_right_inj]
          constructor
          · rintro ⟨⟨label, doc⟩, shape⟩
            exact ⟨label, shape, doc⟩
          · exact fun same => ⟨⟨same.label, same.doc⟩, same.shape⟩

end Member

namespace Union

private theorem ofMembers_renamed (name other : TypeName) (members : List Member) :
    (ofMembers name members).renamed other = ofMembers other members := by
  simp only [renamed, ofMembers, List.map_map, Union.mk.injEq, true_and]
  refine List.map_congr_left fun member _ => ?_
  rw [Function.comp_apply, Member.variant_replaceLead]
  rfl

private theorem ofMembers_comparable (name : TypeName) (members : List Member) :
    (ofMembers name members).Comparable := by
  intro variant member
  obtain ⟨origin, -, rfl⟩ := List.mem_map.mp member
  exact origin.keysOnce

theorem same_ofMembers_iff {name : TypeName} {left right : List Member} :
    (ofMembers name left).same (ofMembers name right) = true ↔
      List.Forall₂ Member.Same left right := by
  rw [Union.same, Bool.and_eq_true, ofMembers, ofMembers, Member.sameVariants_iff,
    and_iff_right (beq_self_eq_true name)]

end Union

/-! ### Requests -/

inductive Registration where
  | enum (texts : List String) (name : TypeName) (owner : Option TypeName)
  | union (name : TypeName) (members : List Member) (owner : Option TypeName)

namespace Registry

/-- The entry that an enum is registered as if it is the first of its kind. -/
def enumEntry (texts : List String) (name : TypeName) (owner : Option TypeName) : EnumEntry :=
  { values := Shape.canonicalValues texts, name := name, owner := owner }

def register (registry : Registry) : Registration → Registry
  | .enum texts name owner => (registry.registerEnum (enumEntry texts name owner)).2
  | .union name members owner => (registry.registerUnion (Union.ofMembers name members) owner).2

def registerAll (requests : List Registration) : Registry :=
  requests.foldl register empty

/-- What is returned to a request for a union that is made after `earlier`. -/
def returned (earlier : List Registration) (name : TypeName) (members : List Member)
    (owner : Option TypeName) : Union :=
  ((registerAll earlier).registerUnion (Union.ofMembers name members) owner).1

private theorem registerAll_append (earlier later : List Registration) :
    registerAll (earlier ++ later) = later.foldl register (registerAll earlier) :=
  List.foldl_append

private theorem registerAll_concat (earlier : List Registration) (request : Registration) :
    registerAll (earlier ++ [request]) = (registerAll earlier).register request := by
  rw [registerAll_append, List.foldl_cons, List.foldl_nil]

/-! ### Growth -/

section Growth

variable {registry : Registry}

theorem empty_distinct : empty.Distinct :=
  ⟨List.nodup_nil, List.nodup_nil⟩

private theorem register_grows (distinct : registry.Distinct) (request : Registration) :
    (registry.register request).Distinct ∧ registry.Within (registry.register request) := by
  cases request with
  | enum texts name owner => exact registerEnum_grows distinct _
  | union name members owner => exact registerUnion_grows distinct _ owner

private theorem foldl_register_grows (distinct : registry.Distinct) (requests : List Registration) :
    (requests.foldl register registry).Distinct ∧
      registry.Within (requests.foldl register registry) := by
  induction requests generalizing registry with
  | nil => exact ⟨distinct, .refl _⟩
  | cons request rest ih =>
      obtain ⟨nextDistinct, grown⟩ := register_grows distinct request
      obtain ⟨lastDistinct, further⟩ := ih nextDistinct
      exact ⟨lastDistinct, grown.trans further⟩

private theorem registerAll_distinct (requests : List Registration) :
    (registerAll requests).Distinct :=
  (foldl_register_grows empty_distinct requests).1

private theorem registerAll_within (earlier later : List Registration) :
    (registerAll earlier).Within (registerAll (earlier ++ later)) := by
  rw [registerAll_append]
  exact (foldl_register_grows (registerAll_distinct earlier) later).2

private theorem register_within {requests earlier later : List Registration}
    {request : Registration}
    (split : requests = earlier ++ request :: later) :
    ((registerAll earlier).register request).Within (registerAll requests) := by
  subst split
  rw [← registerAll_concat, List.append_cons earlier request later]
  exact registerAll_within (earlier ++ [request]) later

end Growth

/-! ### Lookup -/

structure KeptIn (left right : Registry) : Prop where
  enums : ∀ values entry, EnumEntry.find? values left.enums = some entry →
    EnumEntry.find? values right.enums = some entry
  unions : ∀ name entry, UnionEntry.find? name left.unions = some entry →
    UnionEntry.find? name right.unions = some entry

private theorem Within.keptIn {left right : Registry} (within : left.Within right)
    (distinct : right.Distinct) : left.KeptIn right where
  enums values entry found := by
    obtain ⟨member, rfl⟩ := EnumEntry.of_find? found
    exact EnumEntry.find?_of_mem distinct.enums (within.enums entry member)
  unions name entry found := by
    obtain ⟨member, rfl⟩ := UnionEntry.of_find? found
    exact UnionEntry.find?_of_mem distinct.unions (within.unions entry member)

/-! ### Enums -/

theorem canonicalValues_eq_iff {left right : List String} :
    Shape.canonicalValues left = Shape.canonicalValues right ↔ ∀ text, text ∈ left ↔ text ∈ right :=
  Sorted.texts_eq_iff

/-! ### Where entries come from -/

/-- A request adds the entry it asks for, or it finds one and adds nothing. -/
theorem register_cases (registry : Registry) (request : Registration) :
    registry.register request = registry ∨
      (∃ texts name owner, request = .enum texts name owner ∧
        registry.AddsEnum (enumEntry texts name owner) (registry.register request)) ∨
      ∃ name members owner, request = .union name members owner ∧
        registry.AddsUnion ⟨registry.placed (Union.ofMembers name members), owner⟩
          (registry.register request) := by
  cases request with
  | enum texts name owner =>
      obtain ⟨_, _, _, equal⟩ | ⟨next, added, equal⟩ :=
        registry.registerEnum_cases (enumEntry texts name owner)
      · exact Or.inl (congrArg Prod.snd equal)
      · refine Or.inr (Or.inl ⟨texts, name, owner, rfl, ?_⟩)
        rwa [register, equal]
  | union name members owner =>
      obtain ⟨_, _, _, _, equal⟩ | ⟨next, added, equal⟩ :=
        registry.registerUnion_cases (Union.ofMembers name members) owner
      · exact Or.inl (congrArg Prod.snd equal)
      · refine Or.inr (Or.inr ⟨name, members, owner, rfl, ?_⟩)
        rwa [register, equal]

private theorem enum_requested (requests : List Registration) {entry : EnumEntry}
    (member : entry ∈ (registerAll requests).enums) :
    ∃ texts name owner, .enum texts name owner ∈ requests ∧
      entry = enumEntry texts name owner := by
  induction requests using List.reverseRec with
  | nil => exact absurd member List.not_mem_nil
  | append_singleton earlier request ih =>
      have before : entry ∈ (registerAll earlier).enums →
          ∃ texts name owner, .enum texts name owner ∈ earlier ++ [request] ∧
            entry = enumEntry texts name owner := by
        intro present
        obtain ⟨texts, name, owner, listed, equal⟩ := ih present
        exact ⟨texts, name, owner, List.mem_append_left _ listed, equal⟩
      rw [registerAll_concat] at member
      obtain same | ⟨texts, name, owner, rfl, added⟩ | ⟨_, _, _, rfl, added⟩ :=
        (registerAll earlier).register_cases request
      · exact before (same ▸ member)
      · rcases List.mem_cons.mp (added.enums.mem_iff.mp member) with rfl | present
        · exact ⟨texts, name, owner, List.mem_append_right _ List.mem_cons_self, rfl⟩
        · exact before present
      · exact before (added.enums ▸ member)

theorem placed_ofMembers (registry : Registry) (name : TypeName) (members : List Member) :
    ∃ number ≤ registry.unions.length,
      registry.placed (Union.ofMembers name members) = Union.numbered name members number ∧
        ∀ tried < number,
          UnionEntry.clashes registry.unions (Union.numbered name members tried) = true := by
  have candidates : ∀ number, Fresh.candidate (Union.ofMembers name members)
      (fun wanted number => wanted.renamed (wanted.name.withSuffix number)) number =
        Union.numbered name members number := by
    intro number
    cases number with
    | zero => rfl
    | succ number => exact Union.ofMembers_renamed _ _ _
  obtain ⟨number, few, found, before⟩ := Fresh.search_first
    (UnionEntry.clashes registry.unions) (Union.ofMembers name members)
    (fun wanted number => wanted.renamed (wanted.name.withSuffix number)) registry.unions.length 0
  rw [Nat.zero_add, candidates] at found
  refine ⟨number, few, found, fun tried less => ?_⟩
  have refused := before tried less
  rwa [Nat.zero_add, candidates] at refused

theorem union_requested (requests : List Registration) {entry : UnionEntry}
    (member : entry ∈ (registerAll requests).unions) :
    ∃ name members owner number, .union name members owner ∈ requests ∧
      entry = ⟨Union.numbered name members number, owner⟩ := by
  induction requests using List.reverseRec with
  | nil => exact absurd member List.not_mem_nil
  | append_singleton earlier request ih =>
      have before : entry ∈ (registerAll earlier).unions →
          ∃ name members owner number, .union name members owner ∈ earlier ++ [request] ∧
            entry = ⟨Union.numbered name members number, owner⟩ := by
        intro present
        obtain ⟨name, members, owner, number, listed, equal⟩ := ih present
        exact ⟨name, members, owner, number, List.mem_append_left _ listed, equal⟩
      rw [registerAll_concat] at member
      obtain same | ⟨_, _, _, rfl, added⟩ | ⟨name, members, owner, rfl, added⟩ :=
        (registerAll earlier).register_cases request
      · exact before (same ▸ member)
      · exact before (added.unions ▸ member)
      · rcases List.mem_cons.mp (added.unions.mem_iff.mp member) with rfl | present
        · obtain ⟨number, -, placed, -⟩ := (registerAll earlier).placed_ofMembers name members
          exact ⟨name, members, owner, number, List.mem_append_right _ List.mem_cons_self,
            by rw [placed]⟩
        · exact before present

private theorem stored_comparable {requests : List Registration} {entry : UnionEntry}
    (member : entry ∈ (registerAll requests).unions) : entry.union.Comparable := by
  obtain ⟨name, members, owner, number, -, rfl⟩ := union_requested requests member
  exact Union.ofMembers_comparable _ members

/-! ### Requests at their moments -/

section Moments

variable {requests earlier later : List Registration}

theorem find?_first_enum {texts : List String} {name : TypeName} {owner : Option TypeName}
    (split : requests = earlier ++ .enum texts name owner :: later)
    (first : ∀ others other holder, .enum others other holder ∈ earlier →
      ¬ ∀ text, text ∈ others ↔ text ∈ texts) :
    EnumEntry.find? (Shape.canonicalValues texts) (registerAll requests).enums =
      some (enumEntry texts name owner) := by
  have within := register_within split
  have distinct := registerAll_distinct requests
  obtain ⟨present, member, sameValues, -⟩ | ⟨next, added, equal⟩ :=
    (registerAll earlier).registerEnum_cases (enumEntry texts name owner)
  · obtain ⟨others, other, holder, listed, rfl⟩ := enum_requested earlier member
    exact absurd (canonicalValues_eq_iff.mp sameValues) (first others other holder listed)
  · rw [register, equal] at within
    have stored := within.enums _ (added.enums.mem_iff.mpr List.mem_cons_self)
    exact EnumEntry.find?_of_mem distinct.enums stored

theorem find?_enum {texts : List String} {name : TypeName} {owner : Option TypeName}
    (split : requests = earlier ++ .enum texts name owner :: later) :
    ∃ entry, EnumEntry.find? (Shape.canonicalValues texts) (registerAll requests).enums =
        some entry ∧
      ((registerAll earlier).registerEnum (enumEntry texts name owner)).1 = entry.name := by
  have within := register_within split
  have distinct := registerAll_distinct requests
  obtain ⟨present, member, sameValues, equal⟩ | ⟨next, added, equal⟩ :=
    (registerAll earlier).registerEnum_cases (enumEntry texts name owner)
  · rw [register, equal] at within
    refine ⟨present, ?_, congrArg Prod.fst equal⟩
    have found := EnumEntry.find?_of_mem distinct.enums (within.enums present member)
    rwa [sameValues] at found
  · rw [register, equal] at within
    have stored := within.enums _ (added.enums.mem_iff.mpr List.mem_cons_self)
    exact ⟨_, EnumEntry.find?_of_mem distinct.enums stored, congrArg Prod.fst equal⟩

section Union

variable {name : TypeName} {members : List Member} {owner : Option TypeName}

theorem find?_union (split : requests = earlier ++ .union name members owner :: later) :
    ∃ entry, UnionEntry.find? (returned earlier name members owner).name
        (registerAll requests).unions = some entry ∧
      entry.union.same (returned earlier name members owner) = true := by
  obtain ⟨chosen, -, entry, member, sameName, same⟩ :=
    (registerAll earlier).registerUnion_stored (Union.ofMembers_comparable name members) owner
  have stored := (register_within split).unions entry member
  have found := UnionEntry.find?_of_mem (registerAll_distinct requests).unions stored
  rw [sameName] at found
  rw [returned, chosen]
  exact ⟨entry, found, same⟩

theorem registerUnion_last (split : requests = earlier ++ .union name members owner :: later)
    (other : Option TypeName) :
    (registerAll requests).registerUnion (Union.ofMembers name members) other =
      (returned earlier name members owner, registerAll requests) :=
  registerUnion_again (Union.ofMembers_comparable name members) (registerAll_distinct earlier)
    (registerAll_distinct requests) (register_within split) other

/-- The candidates before the one that is returned are taken by different unions; it itself
is free or has an equal one. -/
theorem returned_searched (earlier : List Registration) (name : TypeName)
    (members : List Member) (owner : Option TypeName) :
    ∃ number ≤ (registerAll earlier).unions.length,
      returned earlier name members owner = Union.numbered name members number ∧
        (∀ tried < number, ∃ entry,
          UnionEntry.find? (Union.numbered name members tried).name (registerAll earlier).unions =
              some entry ∧
            entry.union.same (Union.numbered name members tried) = false) ∧
        ∀ entry,
          UnionEntry.find? (Union.numbered name members number).name
              (registerAll earlier).unions = some entry →
            entry.union.same (Union.numbered name members number) = true := by
  obtain ⟨number, few, placed, before⟩ := (registerAll earlier).placed_ofMembers name members
  have chosen := ((registerAll earlier).registerUnion_stored
    (Union.ofMembers_comparable name members) owner).1
  have accepted := (registerAll earlier).placed_accepted (Union.ofMembers name members)
  rw [placed] at chosen accepted
  refine ⟨number, few, chosen, fun tried less => ?_, fun entry found => ?_⟩
  · have refused := before tried less
    unfold UnionEntry.clashes at refused
    split at refused
    case h_1 entry found => exact ⟨entry, found, by simpa using refused⟩
    case h_2 => contradiction
  · rw [UnionEntry.clashes, found] at accepted
    simpa using accepted

end Union

/-- Unions that were returned with one name have the same members: both equal the entry
that is stored under it. -/
theorem members_of_name_eq {before after : List Registration} {name other : TypeName}
    {members others : List Member} {owner holder : Option TypeName}
    (split : requests = earlier ++ .union name members owner :: later)
    (otherSplit : requests = before ++ .union other others holder :: after)
    (sameName : (returned earlier name members owner).name =
      (returned before other others holder).name) :
    List.Forall₂ Member.Same members others := by
  obtain ⟨entry, found, same⟩ := find?_union split
  obtain ⟨entry', found', same'⟩ := find?_union otherSplit
  rw [← sameName, found] at found'
  obtain rfl := Option.some.inj found'
  have once := stored_comparable (UnionEntry.of_find? found).1
  have equal := Union.same_of_common once same same'
  obtain ⟨number, -, first, -⟩ := returned_searched earlier name members owner
  obtain ⟨further, -, second, -⟩ := returned_searched before other others holder
  rw [first, second] at equal sameName
  have names : Fresh.candidate name TypeName.withSuffix number =
      Fresh.candidate other TypeName.withSuffix further := sameName
  rw [Union.numbered, Union.numbered, names] at equal
  exact Union.same_ofMembers_iff.mp equal

end Moments

/-! ### What a history leaves -/

/-- What has become of the requests. A request is spoken of at its moment: after `earlier`
and before `later`. -/
structure Recorded (requests : List Registration) : Prop where
  enumKeys : ∀ entry ∈ (registerAll requests).enums,
    EnumEntry.find? entry.values (registerAll requests).enums = some entry
  unionKeys : ∀ entry ∈ (registerAll requests).unions,
    UnionEntry.find? entry.union.name (registerAll requests).unions = some entry
  /-- Nothing changes or disappears. -/
  kept : ∀ earlier later, requests = earlier ++ later →
    (registerAll earlier).KeptIn (registerAll requests)
  /-- Only what was asked for is there. -/
  enumRequested : ∀ entry ∈ (registerAll requests).enums, ∃ texts name owner,
    .enum texts name owner ∈ requests ∧ entry = enumEntry texts name owner
  unionRequested : ∀ entry ∈ (registerAll requests).unions, ∃ name members owner number,
    .union name members owner ∈ requests ∧ entry = ⟨Union.numbered name members number, owner⟩
  /-- The first request for a set of texts makes the one entry of the set. -/
  enumFirst : ∀ earlier texts name owner later,
    requests = earlier ++ .enum texts name owner :: later →
      (∀ others other holder, .enum others other holder ∈ earlier →
        ¬ ∀ text, text ∈ others ↔ text ∈ texts) →
      ∀ others, (∀ text, text ∈ others ↔ text ∈ texts) →
        EnumEntry.find? (Shape.canonicalValues others) (registerAll requests).enums =
          some (enumEntry texts name owner)
  enumReturned : ∀ earlier texts name owner later,
    requests = earlier ++ .enum texts name owner :: later →
      ∃ entry, EnumEntry.find? (Shape.canonicalValues texts) (registerAll requests).enums =
          some entry ∧
        ((registerAll earlier).registerEnum (enumEntry texts name owner)).1 = entry.name
  /-- The search for a name ends with the first candidate that is free or has an equal
  union. -/
  unionSearched : ∀ earlier name members owner later,
    requests = earlier ++ .union name members owner :: later →
      ∃ number ≤ (registerAll earlier).unions.length,
        returned earlier name members owner = Union.numbered name members number ∧
          (∀ tried < number, ∃ entry,
            UnionEntry.find? (Union.numbered name members tried).name
                (registerAll earlier).unions = some entry ∧
              entry.union.same (Union.numbered name members tried) = false) ∧
          ∀ entry,
            UnionEntry.find? (Union.numbered name members number).name
                (registerAll earlier).unions = some entry →
              entry.union.same (Union.numbered name members number) = true
  unionStored : ∀ earlier name members owner later,
    requests = earlier ++ .union name members owner :: later →
      ∃ entry, UnionEntry.find? (returned earlier name members owner).name
          (registerAll requests).unions = some entry ∧
        entry.union.same (returned earlier name members owner) = true
  /-- Whoever registers the same union at the end, it is returned as it was. -/
  unionAgain : ∀ earlier name members owner later,
    requests = earlier ++ .union name members owner :: later →
      ∀ other, (registerAll requests).registerUnion (Union.ofMembers name members) other =
        (returned earlier name members owner, registerAll requests)
  /-- Different members are never given one name. -/
  membersApart : ∀ earlier name members owner later before other others holder after,
    requests = earlier ++ .union name members owner :: later →
      requests = before ++ .union other others holder :: after →
        ¬ List.Forall₂ Member.Same members others →
          (returned earlier name members owner).name ≠ (returned before other others holder).name

theorem registerAll_recorded (requests : List Registration) : Recorded requests where
  enumKeys _ member := EnumEntry.find?_of_mem (registerAll_distinct requests).enums member
  unionKeys _ member := UnionEntry.find?_of_mem (registerAll_distinct requests).unions member
  kept earlier later split := by
    subst split
    exact (registerAll_within earlier later).keptIn (registerAll_distinct _)
  enumRequested _ member := enum_requested requests member
  unionRequested _ member := union_requested requests member
  enumFirst _ _ _ _ _ split first others alike := by
    rw [canonicalValues_eq_iff.mpr alike]
    exact find?_first_enum split first
  enumReturned _ _ _ _ _ split := find?_enum split
  unionSearched earlier name members owner _ _ := returned_searched earlier name members owner
  unionStored _ _ _ _ _ split := find?_union split
  unionAgain _ _ _ _ _ split := registerUnion_last split
  membersApart _ _ _ _ _ _ _ _ _ _ split otherSplit apart sameName :=
    apart (members_of_name_eq split otherSplit sameName)

end Registry

end ElmClient

namespace ElmClient.Registry

theorem drain_union?_members (requests : List Registration) (reserved : List TypeName)
    {entry : UnionEntry} {name : TypeName}
    (final : (.union entry, name) ∈ (registerAll requests).finalNames reserved) :
    ∃ members, entry.union = Union.ofMembers entry.union.name members ∧
      ((registerAll requests).drain reserved).union? entry.union.name =
        some (Union.ofMembers name members) := by
  have distinct := registerAll_distinct requests
  have stored : entry ∈ (registerAll requests).unions := by
    have listed := (finalNames_perm _ reserved).mem_iff.mp (List.mem_map_of_mem final)
    obtain ⟨_, _, equal⟩ | ⟨found, member, equal⟩ := mem_entries_iff.mp listed
    · cases equal
    · cases equal
      exact member
  obtain ⟨origin, members, owner, number, -, rfl⟩ := union_requested requests stored
  refine ⟨members, rfl, ?_⟩
  rw [drain_union?_of_final reserved distinct final]
  exact congrArg some (Union.ofMembers_renamed _ name members)

/-- The final names are an assignment to the entries. Nothing is assumed of the reserved
names, so this holds in particular where all owners are reserved. -/
theorem drain_declares (requests : List Registration) (reserved : List TypeName) :
    let registry := registerAll requests
    let declared := registry.drain reserved
    ∃ finals : List (Discovery × TypeName),
      (finals.map Prod.fst).Perm registry.entries ∧
        declared.declarations.Perm (finals.map fun final => final.1.declaredAs final.2) ∧
        (finals.map Prod.snd).Nodup ∧
        (∀ final ∈ finals, final.2 ∈ reserved → final.1.owner = some final.2) ∧
        (∀ entry ∈ registry.entries, ∀ owner, entry.owner = some owner →
          ∃ final ∈ finals, final.1.owner = some owner ∧ final.2 = owner) ∧
        (∀ entry name, (.enum entry, name) ∈ finals →
          declared.enumName? entry.values = some name) ∧
        ∀ entry name, (.union entry, name) ∈ finals →
          ∃ members, entry.union = Union.ofMembers entry.union.name members ∧
            declared.union? entry.union.name = some (Union.ofMembers name members) := by
  intro registry declared
  refine ⟨registry.finalNames reserved, finalNames_perm registry reserved,
    drain_declarations_perm reserved registry, finalNames_nodup registry reserved,
    fun final member => finalNames_reserved registry reserved member, ?_, ?_, ?_⟩
  · exact fun entry member owner owned => exists_final_of_owner registry reserved member owned
  · exact fun entry name final =>
      drain_enumName?_of_final reserved (registerAll_distinct requests) final
  · exact fun entry name final => drain_union?_members requests reserved final

end ElmClient.Registry
