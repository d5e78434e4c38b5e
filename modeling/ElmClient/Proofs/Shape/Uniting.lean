/-
Uniting the fields of objects. What holds everywhere in the shapes of both sides holds
everywhere in the united ones, if it is kept where two objects meet; and no key comes
twice where none did on either side.
-/

import ElmClient.Proofs.Resolve.Fields
import ElmClient.Proofs.Shape.Same

namespace ElmClient

namespace Field

theorem mem_of_find? {key : String} {fields : List Field} {field : Field}
    (found : find? key fields = some field) : field ∈ fields := by
  induction fields with
  | nil => contradiction
  | cons head rest ih =>
      rw [find?] at found
      split at found
      · obtain rfl := Option.some.inj found
        exact List.mem_cons_self
      · exact List.mem_cons_of_mem _ (ih found)

theorem key_of_find? {key : String} {fields : List Field} {field : Field}
    (found : find? key fields = some field) : field.key = key := by
  induction fields with
  | nil => contradiction
  | cons head rest ih =>
      rw [find?] at found
      split at found
      case isTrue same =>
        obtain rfl := Option.some.inj found
        exact same
      case isFalse => exact ih found

section Everywhere

variable {holds : Shape → Prop}

def KeptByUniting (holds : Shape → Prop) : Prop :=
  ∀ present incoming, holds (.object present) → holds (.object incoming) →
    holds (.object (unite present incoming))

mutual

theorem uniteShapes_everywhere (kept : KeptByUniting holds) (present incoming : Shape)
    (presentHolds : present.Everywhere holds) (incomingHolds : incoming.Everywhere holds) :
    (uniteShapes present incoming).Everywhere holds := by
  cases present with
  | object presentFields =>
      cases incoming with
      | object incomingFields =>
          obtain ⟨presentHere, presentShapes⟩ := Shape.everywhere_object_iff.mp presentHolds
          obtain ⟨incomingHere, incomingShapes⟩ := Shape.everywhere_object_iff.mp incomingHolds
          rw [uniteShapes, Shape.everywhere_object_iff]
          exact ⟨kept _ _ presentHere incomingHere,
            uniteWithin_everywhere kept presentFields incomingFields presentShapes incomingShapes⟩
      | _ => exact incomingHolds
  | _ => exact incomingHolds

theorem uniteWithin_everywhere (kept : KeptByUniting holds) (present incoming : List Field)
    (presentHold : ∀ field ∈ present, field.shape.Everywhere holds)
    (incomingHold : ∀ field ∈ incoming, field.shape.Everywhere holds) :
    ∀ field ∈ uniteWithin present incoming, field.shape.Everywhere holds := by
  match present with
  | [] => exact incomingHold
  | ⟨key, required, doc, shape⟩ :: rest =>
      obtain ⟨shapeHolds, restHold⟩ := List.forall_mem_cons.mp presentHold
      rw [uniteWithin]
      split
      case h_1 missing =>
        exact List.forall_mem_cons.mpr
          ⟨shapeHolds, uniteWithin_everywhere kept rest incoming restHold incomingHold⟩
      case h_2 field found =>
        have fieldHolds := incomingHold field (mem_of_find? found)
        have othersHold : ∀ other ∈ incoming.filter fun other => other.key != key,
            other.shape.Everywhere holds := fun other member =>
          incomingHold other (List.mem_of_mem_filter member)
        exact List.forall_mem_cons.mpr
          ⟨uniteShapes_everywhere kept shape field.shape shapeHolds fieldHolds,
            uniteWithin_everywhere kept rest _ restHold othersHold⟩

end

end Everywhere

/-! ### Keys that come once -/

theorem not_mem_keys_of_find?_none {key : String} {fields : List Field}
    (missing : find? key fields = none) : key ∉ keys fields := by
  rw [← has_iff_mem_keys]
  rintro ⟨field, found⟩
  rw [missing] at found
  cases found

theorem keys_unite_nodup {present incoming : List Field} (presentOnce : (keys present).Nodup)
    (incomingOnce : (keys incoming).Nodup) : (keys (unite present incoming)).Nodup := by
  unfold unite
  induction present generalizing incoming with
  | nil => exact incomingOnce
  | cons field rest ih =>
      obtain ⟨key, required, doc, shape⟩ := field
      obtain ⟨absent, restOnce⟩ := List.nodup_cons.mp presentOnce
      have notUnited : ∀ others, key ∉ keys others → key ∉ keys (unite rest others) := by
        intro others notOther united
        rcases has_unite.mp (has_iff_mem_keys.mpr united) with inRest | inOthers
        · exact absent (has_iff_mem_keys.mp inRest)
        · exact notOther (has_iff_mem_keys.mp inOthers)
      rw [uniteWithin]
      split
      case h_1 missing =>
        exact List.nodup_cons.mpr
          ⟨notUnited incoming (not_mem_keys_of_find?_none missing), ih restOnce incomingOnce⟩
      case h_2 field found =>
        refine List.nodup_cons.mpr ⟨notUnited _ ?_, ih restOnce ?_⟩
        · intro member
          obtain ⟨other, kept, same⟩ := List.mem_map.mp member
          exact bne_iff_ne.mp (List.mem_filter.mp kept).2 same
        · exact incomingOnce.sublist (List.filter_sublist.map _)

private theorem keysOnce_keptByUniting : KeptByUniting Shape.KeysOnce :=
  fun _ _ => keys_unite_nodup

/-- No key comes twice in the fields, nor at any depth of their shapes. -/
def AllOnce (fields : List Field) : Prop :=
  (Shape.object fields).Everywhere Shape.KeysOnce

theorem allOnce_iff {fields : List Field} :
    AllOnce fields ↔
      (keys fields).Nodup ∧ ∀ field ∈ fields, field.shape.Everywhere Shape.KeysOnce :=
  Shape.everywhere_object_iff

theorem allOnce_nil : AllOnce [] :=
  allOnce_iff.mpr ⟨List.nodup_nil, nofun⟩

theorem unite_allOnce {present incoming : List Field} (presentOnce : AllOnce present)
    (incomingOnce : AllOnce incoming) : AllOnce (unite present incoming) :=
  uniteShapes_everywhere keysOnce_keptByUniting (.object present) (.object incoming) presentOnce
    incomingOnce

theorem foldl_unite_allOnce {contributions : List (List Field)} {present : List Field}
    (presentOnce : AllOnce present) (once : ∀ fields ∈ contributions, AllOnce fields) :
    AllOnce (contributions.foldl unite present) := by
  induction contributions generalizing present with
  | nil => exact presentOnce
  | cons fields rest ih =>
      obtain ⟨first, later⟩ := List.forall_mem_cons.mp once
      exact ih (unite_allOnce presentOnce first) later

theorem keys_requireKeys (wanted : List String) (fields : List Field) :
    keys (requireKeys wanted fields) = keys fields := by
  rw [keys, requireKeys, List.map_map]
  refine List.map_congr_left fun field _ => ?_
  rw [Function.comp_apply]
  split <;> rfl

theorem requireKeys_allOnce {fields : List Field} (wanted : List String) (once : AllOnce fields) :
    AllOnce (requireKeys wanted fields) := by
  obtain ⟨distinct, shapes⟩ := allOnce_iff.mp once
  refine allOnce_iff.mpr ⟨(keys_requireKeys wanted fields).symm ▸ distinct, ?_⟩
  intro field member
  obtain ⟨original, inFields, rfl⟩ := List.mem_map.mp member
  split
  · exact shapes original inFields
  · exact shapes original inFields

end Field

end ElmClient
