/-
Laying as a relation. Merging succeeds with a value exactly when the value is laid from
the base and the overlay by these rules; the way to a conflict plays no part in them.
-/

import ElmClient.Overlay
import ElmClient.Proofs.Json.Place
import ElmClient.Proofs.Keyed

namespace ElmClient.Overlay

mutual

/-- The value that comes of an overlay over a base. -/
inductive Lays : Json → Json → Json → Prop
  | objects {base overlay kept : List (String × Json)}
      (entries : LaysEntries overlay base kept) :
      Lays (.object base) (.object overlay) (.object (kept ++ newEntries base overlay))
  | arrays {base overlay result : List Json} (items : LaysItems base overlay result) :
      Lays (.array base) (.array overlay) (.array result)
  | replaced {base overlay : Json} (leaf : base.isLeaf = true ∨ overlay.isLeaf = true) :
      Lays base overlay overlay

inductive LaysEntries :
    List (String × Json) → List (String × Json) → List (String × Json) → Prop
  | nil {overlay : List (String × Json)} : LaysEntries overlay [] []
  | kept {overlay base result : List (String × Json)} {key : String} {value : Json}
      (absent : Keyed.find? key overlay = none) (rest : LaysEntries overlay base result) :
      LaysEntries overlay ((key, value) :: base) ((key, value) :: result)
  | deleted {overlay base result : List (String × Json)} {key : String} {value : Json}
      (cleared : Keyed.find? key overlay = some .null)
      (rest : LaysEntries overlay base result) :
      LaysEntries overlay ((key, value) :: base) result
  | merged {overlay base result : List (String × Json)} {key : String}
      {value above laid : Json} (found : Keyed.find? key overlay = some above)
      (present : above.isNull = false) (lays : Lays value above laid)
      (rest : LaysEntries overlay base result) :
      LaysEntries overlay ((key, value) :: base) ((key, laid) :: result)

inductive LaysItems : List Json → List Json → List Json → Prop
  | remaining {base : List Json} : LaysItems base [] base
  | appended {overlay : List Json} : LaysItems [] overlay overlay
  | spared {base overlay result : List Json} {item : Json}
      (rest : LaysItems base overlay result) :
      LaysItems (item :: base) (.null :: overlay) (item :: result)
  | merged {base overlay result : List Json} {item above laid : Json}
      (present : above.isNull = false) (lays : Lays item above laid)
      (rest : LaysItems base overlay result) :
      LaysItems (item :: base) (above :: overlay) (laid :: result)

end

/-! ### Merging lays -/

private theorem bind_ok_iff {ε α β : Type} {action : Except ε α} {next : α → Except ε β}
    {value : β} :
    (action >>= next) = .ok value ↔ ∃ first, action = .ok first ∧ next first = .ok value := by
  cases action with
  | error problem => exact ⟨nofun, nofun⟩
  | ok first =>
      constructor
      · exact fun ended => ⟨first, rfl, ended⟩
      · rintro ⟨_, equal, ended⟩
        obtain rfl := Except.ok.inj equal
        exact ended

private theorem lays_replaced_iff {base overlay result : Json}
    (leaf : base.isLeaf = true ∨ overlay.isLeaf = true) :
    Lays base overlay result ↔ overlay = result := by
  constructor
  · intro lays
    cases lays with
    | objects => rcases leaf with leaf | leaf <;> contradiction
    | arrays => rcases leaf with leaf | leaf <;> contradiction
    | replaced => rfl
  · rintro rfl
    exact .replaced leaf

private theorem not_lays {base overlay result : Json} (apart : base.sameContainer overlay = false)
    (inner : base.isLeaf = false ∧ overlay.isLeaf = false) : ¬ Lays base overlay result := by
  intro lays
  cases lays with
  | objects => contradiction
  | arrays => contradiction
  | replaced leaf =>
      rw [inner.1, inner.2] at leaf
      rcases leaf with leaf | leaf <;> contradiction

mutual

theorem mergeAt_ok_iff (path : List String) (base overlay result : Json) :
    mergeAt path base overlay = .ok result ↔ Lays base overlay result := by
  cases base with
  | object base =>
      cases overlay with
      | object overlay =>
          rw [mergeAt, bind_ok_iff]
          constructor
          · rintro ⟨kept, ended, equal⟩
            obtain rfl := Except.ok.inj equal
            exact .objects ((mergeEntries_ok_iff path base overlay kept).mp ended)
          · intro lays
            cases lays with
            | objects entries =>
                exact ⟨_, (mergeEntries_ok_iff path base overlay _).mpr entries, rfl⟩
            | replaced leaf => rcases leaf with leaf | leaf <;> contradiction
      | array overlay =>
          exact iff_of_false nofun (not_lays rfl ⟨rfl, rfl⟩)
      | _ => exact (iff_of_eq (Except.ok.injEq _ _)).trans (lays_replaced_iff (.inr rfl)).symm
  | array base =>
      cases overlay with
      | array overlay =>
          rw [mergeAt, bind_ok_iff]
          constructor
          · rintro ⟨items, ended, equal⟩
            obtain rfl := Except.ok.inj equal
            exact .arrays ((mergeItems_ok_iff path 0 base overlay items).mp ended)
          · intro lays
            cases lays with
            | arrays items =>
                exact ⟨_, (mergeItems_ok_iff path 0 base overlay _).mpr items, rfl⟩
            | replaced leaf => rcases leaf with leaf | leaf <;> contradiction
      | object overlay => exact iff_of_false nofun (not_lays rfl ⟨rfl, rfl⟩)
      | _ => exact (iff_of_eq (Except.ok.injEq _ _)).trans (lays_replaced_iff (.inr rfl)).symm
  | _ =>
      rw [mergeAt, lays_replaced_iff (.inl rfl)]
      · exact iff_of_eq (Except.ok.injEq _ _)
      all_goals nofun
termination_by structural base

theorem mergeEntries_ok_iff (path : List String) (base overlay kept : List (String × Json)) :
    mergeEntries path base overlay = .ok kept ↔ LaysEntries overlay base kept := by
  match base with
  | [] =>
      constructor
      · intro ended
        obtain rfl := Except.ok.inj ended
        exact .nil
      · rintro ⟨⟩
        rfl
  | (key, value) :: rest =>
      rw [mergeEntries]
      split
      case h_1 absent =>
        rw [bind_ok_iff]
        constructor
        · rintro ⟨others, ended, equal⟩
          obtain rfl := Except.ok.inj equal
          exact .kept absent ((mergeEntries_ok_iff path rest overlay others).mp ended)
        · intro lays
          cases lays with
          | kept _ lays => exact ⟨_, (mergeEntries_ok_iff path rest overlay _).mpr lays, rfl⟩
          | deleted cleared => rw [absent] at cleared; contradiction
          | merged found => rw [absent] at found; contradiction
      case h_2 cleared =>
        rw [mergeEntries_ok_iff path rest overlay kept]
        constructor
        · exact .deleted cleared
        · intro lays
          cases lays with
          | kept absent => rw [cleared] at absent; contradiction
          | deleted _ lays => exact lays
          | merged found present =>
              rw [cleared] at found
              obtain rfl := Option.some.inj found
              contradiction
      case h_3 above notNull found =>
        have present := Json.isNull_eq_false_iff.mpr notNull
        rw [bind_ok_iff]
        constructor
        · rintro ⟨laid, first, ended⟩
          obtain ⟨others, later, equal⟩ := bind_ok_iff.mp ended
          obtain rfl := Except.ok.inj equal
          exact .merged found present ((mergeAt_ok_iff _ value above laid).mp first)
            ((mergeEntries_ok_iff path rest overlay others).mp later)
        · intro lays
          cases lays with
          | kept absent => rw [found] at absent; contradiction
          | deleted cleared => rw [found] at cleared; exact absurd (Option.some.inj cleared) notNull
          | merged again _ lays others =>
              rw [found] at again
              obtain rfl := Option.some.inj again
              refine ⟨_, (mergeAt_ok_iff _ value above _).mpr lays, ?_⟩
              exact bind_ok_iff.mpr ⟨_, (mergeEntries_ok_iff path rest overlay _).mpr others, rfl⟩
termination_by structural base

theorem mergeItems_ok_iff (path : List String) (index : Nat) (base overlay result : List Json) :
    mergeItems path index base overlay = .ok result ↔ LaysItems base overlay result := by
  match base, overlay with
  | base, [] =>
      rw [mergeItems]
      constructor
      · intro ended
        obtain rfl := Except.ok.inj ended
        exact .remaining
      · rintro ⟨⟩ <;> rfl
  | [], above :: others =>
      rw [mergeItems]
      · constructor
        · intro ended
          obtain rfl := Except.ok.inj ended
          exact .appended
        · rintro ⟨⟩
          rfl
      · nofun
  | item :: rest, above :: others =>
      by_cases cleared : above = .null
      · subst cleared
        rw [mergeItems, bind_ok_iff]
        constructor
        · rintro ⟨items, later, equal⟩
          obtain rfl := Except.ok.inj equal
          exact .spared ((mergeItems_ok_iff path _ rest others items).mp later)
        · intro lays
          cases lays with
          | spared later => exact ⟨_, (mergeItems_ok_iff path _ rest others _).mpr later, rfl⟩
          | merged present => contradiction
      · have present := Json.isNull_eq_false_iff.mpr cleared
        rw [mergeItems, bind_ok_iff]
        · constructor
          · rintro ⟨laid, first, ended⟩
            obtain ⟨items, later, equal⟩ := bind_ok_iff.mp ended
            obtain rfl := Except.ok.inj equal
            exact .merged present ((mergeAt_ok_iff _ item above laid).mp first)
              ((mergeItems_ok_iff path _ rest others items).mp later)
          · intro lays
            cases lays with
            | spared => contradiction
            | merged _ first later =>
                refine ⟨_, (mergeAt_ok_iff _ item above _).mpr first, ?_⟩
                exact bind_ok_iff.mpr
                  ⟨_, (mergeItems_ok_iff path _ rest others _).mpr later, rfl⟩
        · exact cleared
termination_by structural base

end

theorem merge_ok_iff {base overlay result : Json} :
    merge base overlay = .ok result ↔ Lays base overlay result :=
  mergeAt_ok_iff [] base overlay result

/-! ### One place below both -/

/-- What a place below the base and the overlay turns into. -/
inductive Meets : Json.Step → Option Json → Option Json → Option Json → Prop
  | absent {step : Json.Step} : Meets step none none none
  | kept {step : Json.Step} {value : Json} : Meets step (some value) none (some value)
  | added {step : Json.Step} {value : Json} : Meets step none (some value) (some value)
  | ignored {key : String} : Meets (.member key) none (some .null) none
  | deleted {key : String} {value : Json} :
      Meets (.member key) (some value) (some .null) none
  | spared {index : Nat} {value : Json} :
      Meets (.item index) (some value) (some .null) (some value)
  | merged {step : Json.Step} {below above laid : Json} (present : above.isNull = false)
      (lays : Lays below above laid) : Meets step (some below) (some above) (some laid)

theorem LaysEntries.keys_eq {overlay base result : List (String × Json)}
    (lays : LaysEntries overlay base result) :
    Keyed.keys result = (Keyed.keys base).filter fun key =>
      (Keyed.find? key overlay).all fun value => !value.isNull := by
  induction base generalizing result with
  | nil =>
      cases lays
      rfl
  | cons entry rest ih =>
      simp only [Keyed.keys, List.map_cons, List.filter_cons] at ih ⊢
      cases lays with
      | kept absent later => simp [absent, ih later]
      | deleted cleared later => simp [cleared, Json.isNull, ih later]
      | merged found present _ later => simp [found, present, ih later]

theorem LaysEntries.member {overlay base result : List (String × Json)}
    (lays : LaysEntries overlay base result) {key : String} {value : Json}
    (found : Keyed.find? key base = some value) :
    Meets (.member key) (some value) (Keyed.find? key overlay) (Keyed.find? key result) := by
  induction base generalizing result with
  | nil => contradiction
  | cons entry rest ih =>
      obtain ⟨present, former⟩ := entry
      have keys := lays.keys_eq
      rw [Keyed.find?] at found
      split at found
      case isTrue same =>
        subst same
        obtain rfl := Option.some.inj found
        cases lays with
        | kept absent =>
            rw [absent, Keyed.find?, if_pos rfl]
            exact .kept
        | deleted cleared =>
            have gone : Keyed.find? present result = none := by
              rw [Keyed.find?_eq_none_iff, keys, List.mem_filter, cleared]
              simp
            rw [cleared, gone]
            exact .deleted
        | merged above notNull first =>
            rw [above, Keyed.find?, if_pos rfl]
            exact .merged notNull first
      case isFalse other =>
        cases lays with
        | kept _ later =>
            rw [Keyed.find?, if_neg other]
            exact ih later found
        | deleted _ later => exact ih later found
        | merged _ _ _ later =>
            rw [Keyed.find?, if_neg other]
            exact ih later found

/-- Only the kind of the step matters, so the place may be counted from another item. -/
theorem LaysItems.item {base overlay result : List Json} (lays : LaysItems base overlay result)
    (place index : Nat) :
    Meets (.item place) base[index]? overlay[index]? result[index]? := by
  induction base generalizing overlay result index with
  | nil =>
      have equal : result = overlay := by cases lays <;> rfl
      rw [equal, List.getElem?_nil]
      cases overlay[index]? with
      | none => exact .absent
      | some value => exact .added
  | cons item rest ih =>
      cases lays with
      | remaining =>
          rw [List.getElem?_nil]
          cases (item :: rest)[index]? with
          | none => exact .absent
          | some value => exact .kept
      | spared later =>
          cases index with
          | zero => exact .spared
          | succ index => exact ih later index
      | merged present first later =>
          cases index with
          | zero => exact .merged present first
          | succ index => exact ih later index

theorem LaysItems.length_eq {base overlay result : List Json}
    (lays : LaysItems base overlay result) :
    result.length = max base.length overlay.length := by
  induction base generalizing overlay result with
  | nil =>
      have equal : result = overlay := by cases lays <;> rfl
      rw [equal, List.length_nil, Nat.zero_max]
  | cons item rest ih =>
      cases lays with
      | remaining => rw [List.length_nil, Nat.max_zero]
      | spared later => rw [List.length_cons, List.length_cons, List.length_cons, ih later]; omega
      | merged _ _ later =>
          rw [List.length_cons, List.length_cons, List.length_cons, ih later]; omega

theorem newEntries_eq (base overlay : List (String × Json)) :
    newEntries base overlay = overlay.filter fun entry =>
      !entry.2.isNull && !(Keyed.keys base).contains entry.1 := by
  refine List.filter_congr fun entry _ => ?_
  rw [Bool.and_comm]
  congr 2
  rw [Bool.eq_iff_iff, Keyed.contains_iff_mem_keys, List.contains_iff_mem]

theorem find?_newEntries {base overlay : List (String × Json)}
    (distinct : (Keyed.keys overlay).Nodup) {key : String}
    (new : Keyed.find? key base = none) :
    Keyed.find? key (newEntries base overlay) =
      (Keyed.find? key overlay).filter fun value => !value.isNull := by
  rw [newEntries, Keyed.find?_filter distinct]
  simp [Keyed.contains, new]

theorem find?_newEntries_none {base overlay : List (String × Json)} {key : String} {value : Json}
    (old : Keyed.find? key base = some value) :
    Keyed.find? key (newEntries base overlay) = none := by
  rw [Keyed.find?_eq_none_iff, Keyed.keys, List.mem_map]
  rintro ⟨entry, member, rfl⟩
  have fresh := (List.mem_filter.mp member).2
  simp [Keyed.contains, old] at fresh

theorem Lays.child? {base overlay result : Json} (lays : Lays base overlay result)
    (same : base.sameContainer overlay = true) (distinct : overlay.distinctKeys = true)
    (step : Json.Step) :
    Meets step (base.child? step) (overlay.child? step) (result.child? step) := by
  cases lays with
  | replaced leaf => exact absurd leaf (Json.not_leaf_of_sameContainer same)
  | arrays items =>
      cases step with
      | member key => exact .absent
      | item index => exact items.item index index
  | @objects base overlay kept entries =>
      cases step with
      | item index => exact .absent
      | member key =>
          have keysOnce := (Json.distinctKeys_object_iff.mp distinct).1
          simp only [Json.child?, Keyed.find?_append]
          cases old : Keyed.find? key base with
          | some value =>
              rw [find?_newEntries_none old, Option.or_none]
              exact entries.member old
          | none =>
              have gone : Keyed.find? key kept = none := by
                rw [Keyed.find?_eq_none_iff, entries.keys_eq, List.mem_filter]
                exact fun both => Keyed.find?_eq_none_iff.mp old both.1
              rw [gone, Option.none_or, find?_newEntries keysOnce old]
              cases above : Keyed.find? key overlay with
              | none => exact .absent
              | some value =>
                  by_cases cleared : value = .null
                  · subst cleared
                    exact .ignored
                  · rw [Option.filter_some, Json.isNull_eq_false_iff.mpr cleared]
                    exact .added

end ElmClient.Overlay
