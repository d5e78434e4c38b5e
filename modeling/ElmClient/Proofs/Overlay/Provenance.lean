/-
Where the parts of a merged document come from. Every place holds what the base or the
overlay holds at the same place; the overlay prevails, and what it does not reach stays.
-/

import ElmClient.Proofs.Overlay.Laying

namespace ElmClient.Overlay

open Json (Step)

/-- The overlay takes away what the base has at the end of the way: it is null as a whole,
or at a place on the way it holds something else than a container of the same kind, or a
null member. -/
inductive Displaces (base overlay : Json) (way : List Step) : Prop
  | cleared (null : overlay = .null)
  | replaced {part : List Step} {below above : Json} (onWay : part <+: way)
      (inBase : base.at? part = some below) (inOverlay : overlay.at? part = some above)
      (present : above.isNull = false) (apart : below.sameContainer above = false)
  | deleted {part : List Step} {key : String} (onWay : part ++ [.member key] <+: way)
      (inOverlay : overlay.at? (part ++ [.member key]) = some .null)

/-- The item is the one at the position below or above, or the one merged from both. -/
def FromPosition (below above : List Json) (index : Nat) (item : Json) : Prop :=
  below[index]? = some item ∨ above[index]? = some item ∨
    ∃ lower upper, below[index]? = some lower ∧ above[index]? = some upper ∧
      merge lower upper = .ok item

/-- What a merged document has of its base and its overlay. -/
structure Provenance (base overlay result : Json) : Prop where
  /-- Leaves of the overlay are in the result, nulls apart. -/
  prevails : ∀ way leaf, overlay.at? way = some leaf → leaf.isLeaf = true →
    leaf.isNull = false → result.at? way = some leaf
  /-- No leaf of the result is new or moved. -/
  inherited : ∀ way leaf, result.at? way = some leaf → leaf.isLeaf = true →
    overlay.at? way = some leaf ∨ base.at? way = some leaf
  /-- Leaves of the base stay where the overlay does not take them away. -/
  survives : ∀ way leaf, base.at? way = some leaf → leaf.isLeaf = true →
    ¬ Displaces base overlay way → result.at? way = some leaf
  /-- Arrays are as long as the longer of the two, and no item moves. -/
  positions : ∀ way below above, base.at? way = some (.array below) →
    overlay.at? way = some (.array above) →
      ∃ items, result.at? way = some (.array items) ∧
        items.length = max below.length above.length ∧
        ∀ index item, items[index]? = some item → FromPosition below above index item
  /-- Objects hold the base keys that are not deleted, then the new ones, each once. -/
  keys : ∀ way below above, base.at? way = some (.object below) →
    overlay.at? way = some (.object above) →
      ∃ entries, result.at? way = some (.object entries) ∧
        Keyed.keys entries =
          (Keyed.keys below).filter
              (fun key => (Keyed.find? key above).all fun value => !value.isNull) ++
            Keyed.keys (above.filter
              fun entry => !entry.2.isNull && !(Keyed.keys below).contains entry.1) ∧
        (Keyed.keys entries).Nodup

/-! ### One step -/

private theorem Lays.sameContainer_or_eq {base overlay result : Json}
    (lays : Lays base overlay result) :
    base.sameContainer overlay = true ∨
      result = overlay ∧ (base.isLeaf = true ∨ overlay.isLeaf = true) := by
  cases lays with
  | objects => exact Or.inl rfl
  | arrays => exact Or.inl rfl
  | replaced leaf => exact Or.inr ⟨rfl, leaf⟩

private theorem Displaces.below {base overlay below above : Json} {step : Step} {rest : List Step}
    (inBase : base.child? step = some below) (inOverlay : overlay.child? step = some above)
    (present : above.isNull = false) (displaces : Displaces below above rest) :
    Displaces base overlay (step :: rest) := by
  cases displaces with
  | cleared null =>
      rw [null] at present
      contradiction
  | replaced onWay lower upper notNull apart =>
      refine .replaced (List.cons_prefix_cons.mpr ⟨rfl, onWay⟩) ?_ ?_ notNull apart
      · rw [Json.at?_cons inBase, lower]
      · rw [Json.at?_cons inOverlay, upper]
  | @deleted part key onWay upper =>
      have longer : (step :: part) ++ [.member key] <+: step :: rest :=
        List.cons_prefix_cons.mpr ⟨rfl, onWay⟩
      refine .deleted longer ?_
      rw [List.cons_append, Json.at?_cons inOverlay, upper]

/-! ### Along a way -/

private theorem Lays.prevails {base overlay result leaf : Json} {way : List Step}
    (lays : Lays base overlay result) (distinct : overlay.distinctKeys = true)
    (found : overlay.at? way = some leaf) (isLeaf : leaf.isLeaf = true)
    (present : leaf.isNull = false) : result.at? way = some leaf := by
  induction way generalizing base overlay result with
  | nil =>
      rcases lays.sameContainer_or_eq with same | ⟨rfl, _⟩
      · obtain rfl := Option.some.inj found
        exact absurd (Or.inr isLeaf) (Json.not_leaf_of_sameContainer same)
      · exact found
  | cons step rest ih =>
      rcases lays.sameContainer_or_eq with same | ⟨rfl, _⟩
      · obtain ⟨above, inOverlay, later⟩ := Json.child?_of_at? found
        have aboveDistinct := Json.distinctKeys_child? distinct inOverlay
        have aboveNotNull := Json.isNull_of_at? later present
        have meets := lays.child? same distinct step
        rw [inOverlay] at meets
        generalize base.child? step = inBase at meets
        generalize inResult : result.child? step = reached at meets
        cases meets with
        | added => rw [Json.at?_cons inResult, later]
        | merged _ below => rw [Json.at?_cons inResult, ih below aboveDistinct later]
        | _ => contradiction
      · exact found

private theorem Lays.inherited {base overlay result leaf : Json} {way : List Step}
    (lays : Lays base overlay result) (distinct : overlay.distinctKeys = true)
    (found : result.at? way = some leaf) (isLeaf : leaf.isLeaf = true) :
    overlay.at? way = some leaf ∨ base.at? way = some leaf := by
  induction way generalizing base overlay result with
  | nil =>
      obtain rfl := Option.some.inj found
      cases lays with
      | objects => contradiction
      | arrays => contradiction
      | replaced => exact Or.inl found
  | cons step rest ih =>
      rcases lays.sameContainer_or_eq with same | ⟨rfl, _⟩
      · obtain ⟨reached, inResult, later⟩ := Json.child?_of_at? found
        have meets := lays.child? same distinct step
        rw [inResult] at meets
        generalize inBase : base.child? step = lower at meets
        generalize inOverlay : overlay.child? step = upper at meets
        cases meets with
        | kept => exact Or.inr (by rw [Json.at?_cons inBase, later])
        | added => exact Or.inl (by rw [Json.at?_cons inOverlay, later])
        | spared => exact Or.inr (by rw [Json.at?_cons inBase, later])
        | merged _ below =>
            rw [Json.at?_cons inBase, Json.at?_cons inOverlay]
            exact ih below (Json.distinctKeys_child? distinct inOverlay) later
      · exact Or.inl found

private theorem sameContainer_or_displaces (base overlay : Json) (way : List Step) :
    base.sameContainer overlay = true ∨ Displaces base overlay way := by
  by_cases cleared : overlay = .null
  · exact Or.inr (.cleared cleared)
  · cases apart : base.sameContainer overlay with
    | true => exact Or.inl rfl
    | false =>
        have present := Json.isNull_eq_false_iff.mpr cleared
        exact Or.inr (.replaced List.nil_prefix rfl rfl present apart)

private theorem Lays.survives_or_displaces {base overlay result leaf : Json} {way : List Step}
    (lays : Lays base overlay result) (distinct : overlay.distinctKeys = true)
    (found : base.at? way = some leaf) (isLeaf : leaf.isLeaf = true) :
    result.at? way = some leaf ∨ Displaces base overlay way := by
  induction way generalizing base overlay result with
  | nil =>
      refine (sameContainer_or_displaces base overlay []).imp_left fun same => ?_
      obtain rfl := Option.some.inj found
      exact absurd (Or.inl isLeaf) (Json.not_leaf_of_sameContainer same)
  | cons step rest ih =>
      rcases sameContainer_or_displaces base overlay (step :: rest) with same | displaces
      · obtain ⟨below, inBase, later⟩ := Json.child?_of_at? found
        have meets := lays.child? same distinct step
        rw [inBase] at meets
        generalize inOverlay : overlay.child? step = upper at meets
        generalize inResult : result.child? step = reached at meets
        cases meets with
        | kept => exact Or.inl (by rw [Json.at?_cons inResult, later])
        | @deleted key =>
            have onWay : [] ++ [.member key] <+: Step.member key :: rest :=
              List.cons_prefix_cons.mpr ⟨rfl, List.nil_prefix⟩
            refine Or.inr (.deleted onWay ?_)
            rw [List.nil_append, Json.at?_cons inOverlay, Json.at?]
        | spared => exact Or.inl (by rw [Json.at?_cons inResult, later])
        | merged present deeper =>
            rw [Json.at?_cons inResult]
            refine (ih deeper (Json.distinctKeys_child? distinct inOverlay) later).imp_right ?_
            exact Displaces.below inBase inOverlay present
      · exact Or.inr displaces

/-- Where both hold something, the overlay's being no null, the one is laid over the other. -/
theorem Lays.at? {base overlay result below above : Json} {way : List Step}
    (lays : Lays base overlay result) (distinct : overlay.distinctKeys = true)
    (inBase : base.at? way = some below) (inOverlay : overlay.at? way = some above)
    (present : above.isNull = false) :
    ∃ reached, result.at? way = some reached ∧ Lays below above reached := by
  induction way generalizing base overlay result with
  | nil =>
      obtain rfl := Option.some.inj inBase
      obtain rfl := Option.some.inj inOverlay
      exact ⟨result, rfl, lays⟩
  | cons step rest ih =>
      obtain ⟨lower, baseStep, baseRest⟩ := Json.child?_of_at? inBase
      obtain ⟨upper, overlayStep, overlayRest⟩ := Json.child?_of_at? inOverlay
      have upperNotNull := Json.isNull_of_at? overlayRest present
      have same := Json.sameContainer_of_child? baseStep overlayStep
      have meets := lays.child? same distinct step
      rw [baseStep, overlayStep] at meets
      generalize inResult : result.child? step = reached at meets
      cases meets with
      | merged _ deeper =>
          obtain ⟨found, later, laid⟩ := ih deeper (Json.distinctKeys_child? distinct overlayStep)
            baseRest overlayRest
          exact ⟨found, by rw [Json.at?_cons inResult, later], laid⟩
      | _ => contradiction

/-! ### Arrays and objects -/

private theorem LaysItems.fromPosition {base overlay result : List Json}
    (lays : LaysItems base overlay result) {index : Nat} {item : Json}
    (found : result[index]? = some item) : FromPosition base overlay index item := by
  have meets := lays.item index index
  rw [found] at meets
  generalize inBase : base[index]? = lower at meets
  generalize inOverlay : overlay[index]? = upper at meets
  cases meets with
  | kept => exact Or.inl inBase
  | added => exact Or.inr (Or.inl inOverlay)
  | spared => exact Or.inl inBase
  | merged _ laid => exact Or.inr (Or.inr ⟨_, _, inBase, inOverlay, merge_ok_iff.mpr laid⟩)

private theorem Lays.arrays_inv {base overlay : List Json} {result : Json}
    (lays : Lays (.array base) (.array overlay) result) :
    ∃ items, result = .array items ∧ items.length = max base.length overlay.length ∧
      ∀ index item, items[index]? = some item → FromPosition base overlay index item := by
  cases lays with
  | arrays items => exact ⟨_, rfl, items.length_eq, fun _ _ found => items.fromPosition found⟩
  | replaced leaf => exact absurd leaf (Json.not_leaf_of_sameContainer rfl)

private theorem Lays.objects_inv {base overlay : List (String × Json)} {result : Json}
    (lays : Lays (.object base) (.object overlay) result)
    (baseKeys : (Keyed.keys base).Nodup) (overlayKeys : (Keyed.keys overlay).Nodup) :
    ∃ entries, result = .object entries ∧
      Keyed.keys entries =
        (Keyed.keys base).filter
            (fun key => (Keyed.find? key overlay).all fun value => !value.isNull) ++
          Keyed.keys (overlay.filter
            fun entry => !entry.2.isNull && !(Keyed.keys base).contains entry.1) ∧
      (Keyed.keys entries).Nodup := by
  cases lays with
  | @objects _ _ kept entries =>
      have listed : Keyed.keys (kept ++ newEntries base overlay) =
          Keyed.keys kept ++ Keyed.keys (newEntries base overlay) := List.map_append
      refine ⟨_, rfl, ?_, ?_⟩
      · rw [listed, entries.keys_eq, newEntries_eq]
      · rw [listed, List.nodup_append]
        refine ⟨?_, overlayKeys.sublist (List.filter_sublist.map _), ?_⟩
        · rw [entries.keys_eq]
          exact baseKeys.filter _
        · rintro key inKept _ inNew rfl
          obtain ⟨entry, member, rfl⟩ := List.mem_map.mp inNew
          rw [entries.keys_eq] at inKept
          rw [newEntries_eq] at member
          have fresh := (List.mem_filter.mp member).2
          simp [(List.mem_filter.mp inKept).1] at fresh
  | replaced leaf => exact absurd leaf (Json.not_leaf_of_sameContainer rfl)

/-! ### Merging -/

/-- Every part of a merged document comes from the same place of the base or the overlay. -/
theorem merge_provenance {base overlay result : Json} (baseKeys : base.distinctKeys = true)
    (overlayKeys : overlay.distinctKeys = true) (merged : merge base overlay = .ok result) :
    Provenance base overlay result := by
  have lays := merge_ok_iff.mp merged
  constructor
  · intro way leaf found isLeaf present
    exact lays.prevails overlayKeys found isLeaf present
  · intro way leaf found isLeaf
    exact lays.inherited overlayKeys found isLeaf
  · intro way leaf found isLeaf stays
    exact (lays.survives_or_displaces overlayKeys found isLeaf).resolve_right stays
  · intro way below above inBase inOverlay
    obtain ⟨reached, inResult, laid⟩ := lays.at? overlayKeys inBase inOverlay rfl
    obtain ⟨items, rfl, length, aligned⟩ := laid.arrays_inv
    exact ⟨items, inResult, length, aligned⟩
  · intro way below above inBase inOverlay
    obtain ⟨reached, inResult, laid⟩ := lays.at? overlayKeys inBase inOverlay rfl
    have belowKeys := (Json.distinctKeys_object_iff.mp (Json.distinctKeys_at? baseKeys inBase)).1
    have aboveKeys :=
      (Json.distinctKeys_object_iff.mp (Json.distinctKeys_at? overlayKeys inOverlay)).1
    obtain ⟨entries, rfl, listed, once⟩ := laid.objects_inv belowKeys aboveKeys
    exact ⟨entries, inResult, listed, once⟩

/-- Members deleted and added, an item spared and one appended, with nulls of all kinds. -/
theorem merge_provenance_mixed :
    let base : Json := .object
      [("a", .array [.object [("x", .bool true)], .string "kept"]), ("b", .null), ("c", .null)]
    let overlay : Json := .object
      [("a", .array [.object [("x", .null), ("y", .object [("z", .null)])], .null, .null]),
        ("d", .null), ("c", .null), ("e", .bool false)]
    let result : Json := .object
      [("a", .array [.object [("y", .object [("z", .null)])], .string "kept", .null]),
        ("b", .null), ("e", .bool false)]
    base.distinctKeys = true ∧ overlay.distinctKeys = true ∧
      merge base overlay = .ok result ∧ Provenance base overlay result := by
  intro base overlay result
  have baseKeys : base.distinctKeys = true := by decide
  have overlayKeys : overlay.distinctKeys = true := by decide
  have merged : merge base overlay = .ok result := by rfl
  exact ⟨baseKeys, overlayKeys, merged, merge_provenance baseKeys overlayKeys merged⟩

end ElmClient.Overlay
