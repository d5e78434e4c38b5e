/-
Laying one overlay several times. A null member of the overlay deletes only what is there
when it is met; inside a value that is taken over as it is, it is copied, and it deletes
itself the next time. From the second time on nothing changes any more.
-/

import ElmClient.Proofs.Overlay.Laying

namespace ElmClient.Overlay

mutual

/-- The parts of the overlay that are taken over as they are: what the base has nothing
for, and what replaces something of another kind. -/
def copied : Json → Json → List Json
  | .object base, .object overlay =>
      copiedEntries base overlay ++ Keyed.values (newEntries base overlay)
  | .array base, .array overlay => copiedItems base overlay
  | _, overlay => [overlay]

def copiedEntries : List (String × Json) → List (String × Json) → List Json
  | [], _ => []
  | (key, value) :: rest, overlay =>
      (match Keyed.find? key overlay with
        | some above => if above.isNull then [] else copied value above
        | none => [])
        ++ copiedEntries rest overlay

def copiedItems : List Json → List Json → List Json
  | _, [] => []
  | [], overlay => overlay
  | item :: rest, above :: others =>
      (if above.isNull then [] else copied item above) ++ copiedItems rest others

end

/-! ### Settling -/

/-- The overlay has no effect from its second time on, and none at its first exactly if the
value is clean. -/
def Settles (overlay value : Json) (clean : Prop) : Prop :=
  ∃ again, Lays value overlay again ∧ Lays again overlay again ∧ (again = value ↔ clean)

def SettlesEntries (overlay entries : List (String × Json)) (clean : Prop) : Prop :=
  ∃ again, LaysEntries overlay entries again ∧ LaysEntries overlay again again ∧
    (again = entries ↔ clean)

def SettlesItems (overlay items : List Json) (clean : Prop) : Prop :=
  ∃ again, LaysItems items overlay again ∧ LaysItems again overlay again ∧
    (again = items ↔ clean)

private theorem LaysEntries.append {overlay base others first second : List (String × Json)}
    (lays : LaysEntries overlay base first) (later : LaysEntries overlay others second) :
    LaysEntries overlay (base ++ others) (first ++ second) := by
  induction base generalizing first with
  | nil =>
      cases lays
      exact later
  | cons entry rest ih =>
      cases lays with
      | kept absent lays => exact .kept absent (ih lays)
      | deleted cleared lays => exact .deleted cleared (ih lays)
      | merged found present value lays => exact .merged found present value (ih lays)

private theorem LaysEntries.length_le {overlay base result : List (String × Json)}
    (lays : LaysEntries overlay base result) : result.length ≤ base.length := by
  calc
    result.length = (Keyed.keys result).length := List.length_map _ |>.symm
    _ ≤ (Keyed.keys base).length := by
        rw [lays.keys_eq]
        exact List.length_filter_le _ _
    _ = base.length := List.length_map _

private theorem append_eq_append_iff_of_le {α : Type} {first second front back : List α}
    (front_le : first.length ≤ front.length) (back_le : second.length ≤ back.length) :
    first ++ second = front ++ back ↔ first = front ∧ second = back := by
  constructor
  · intro equal
    have lengths := congrArg List.length equal
    rw [List.length_append, List.length_append] at lengths
    exact List.append_inj equal (by omega)
  · rintro ⟨rfl, rfl⟩
    rfl

namespace SettlesEntries

variable {overlay : List (String × Json)} {key : String} {value : Json}

theorem nil : SettlesEntries overlay [] True :=
  ⟨[], .nil, .nil, iff_of_true rfl trivial⟩

theorem kept (absent : Keyed.find? key overlay = none) :
    SettlesEntries overlay [(key, value)] True :=
  ⟨[(key, value)], .kept absent .nil, .kept absent .nil, iff_of_true rfl trivial⟩

theorem deleted (cleared : Keyed.find? key overlay = some .null) :
    SettlesEntries overlay [(key, value)] False :=
  ⟨[], .deleted cleared .nil, .nil, iff_of_false nofun id⟩

theorem merged {above : Json} {clean : Prop} (found : Keyed.find? key overlay = some above)
    (present : above.isNull = false) (settles : Settles above value clean) :
    SettlesEntries overlay [(key, value)] clean := by
  obtain ⟨again, lays, fixed, same⟩ := settles
  refine ⟨[(key, again)], .merged found present lays .nil, .merged found present fixed .nil, ?_⟩
  rw [← same, List.cons.injEq, Prod.mk.injEq]
  simp

theorem append {entries others : List (String × Json)} {clean alsoClean : Prop}
    (settles : SettlesEntries overlay entries clean)
    (later : SettlesEntries overlay others alsoClean) :
    SettlesEntries overlay (entries ++ others) (clean ∧ alsoClean) := by
  obtain ⟨again, lays, fixed, same⟩ := settles
  obtain ⟨more, laysMore, fixedMore, sameMore⟩ := later
  refine ⟨again ++ more, lays.append laysMore, fixed.append fixedMore, ?_⟩
  rw [append_eq_append_iff_of_le lays.length_le laysMore.length_le, same, sameMore]

theorem congr {entries : List (String × Json)} {clean other : Prop}
    (settles : SettlesEntries overlay entries clean) (equal : clean ↔ other) :
    SettlesEntries overlay entries other :=
  propext equal ▸ settles

end SettlesEntries

namespace SettlesItems

theorem remaining {items : List Json} : SettlesItems [] items True :=
  ⟨items, .remaining, .remaining, iff_of_true rfl trivial⟩

theorem spared {overlay items : List Json} {item : Json} {clean : Prop}
    (later : SettlesItems overlay items clean) :
    SettlesItems (.null :: overlay) (item :: items) clean := by
  obtain ⟨again, lays, fixed, same⟩ := later
  refine ⟨item :: again, .spared lays, .spared fixed, ?_⟩
  rw [← same, List.cons.injEq, and_iff_right rfl]

theorem merged {overlay items : List Json} {item above : Json} {clean alsoClean : Prop}
    (present : above.isNull = false) (settles : Settles above item clean)
    (later : SettlesItems overlay items alsoClean) :
    SettlesItems (above :: overlay) (item :: items) (clean ∧ alsoClean) := by
  obtain ⟨again, lays, fixed, same⟩ := settles
  obtain ⟨more, laysMore, fixedMore, sameMore⟩ := later
  refine ⟨again :: more, .merged present lays laysMore, .merged present fixed fixedMore, ?_⟩
  rw [← same, ← sameMore, List.cons.injEq]

theorem congr {overlay items : List Json} {clean other : Prop}
    (settles : SettlesItems overlay items clean) (equal : clean ↔ other) :
    SettlesItems overlay items other :=
  propext equal ▸ settles

end SettlesItems

/-! ### Objects -/

theorem newEntries_eq_nil_iff {base overlay : List (String × Json)} :
    newEntries base overlay = [] ↔
      ∀ entry ∈ overlay, entry.2.isNull = false → entry.1 ∈ Keyed.keys base := by
  rw [newEntries, List.filter_eq_nil_iff]
  refine forall₂_congr fun entry _ => ?_
  rw [← Keyed.contains_iff_mem_keys]
  cases Keyed.contains entry.1 base <;> cases entry.2.isNull <;> simp

theorem LaysEntries.newEntries_eq_nil {overlay base result : List (String × Json)}
    (keysOnce : (Keyed.keys overlay).Nodup) (lays : LaysEntries overlay base result)
    (complete : newEntries base overlay = []) : newEntries result overlay = [] := by
  rw [newEntries_eq_nil_iff] at complete ⊢
  intro entry member present
  rw [lays.keys_eq, List.mem_filter, (Keyed.find?_eq_some_iff keysOnce _ _).mpr member]
  exact ⟨complete entry member present, by simp [present]⟩

theorem newEntries_laid {overlay base result : List (String × Json)}
    (keysOnce : (Keyed.keys overlay).Nodup) (lays : LaysEntries overlay base result) :
    newEntries (result ++ newEntries base overlay) overlay = [] := by
  rw [newEntries_eq_nil_iff]
  intro entry member present
  rw [Keyed.keys, List.map_append, List.mem_append]
  by_cases old : entry.1 ∈ Keyed.keys base
  · refine Or.inl ?_
    change entry.1 ∈ Keyed.keys result
    rw [lays.keys_eq, List.mem_filter, (Keyed.find?_eq_some_iff keysOnce _ _).mpr member]
    exact ⟨old, by simp [present]⟩
  · have fresh : entry ∈ newEntries base overlay := by
      rw [newEntries_eq, List.mem_filter]
      simp [member, present, old]
    exact Or.inr (List.mem_map_of_mem fresh)

private theorem SettlesEntries.object {overlay entries : List (String × Json)} {clean : Prop}
    (keysOnce : (Keyed.keys overlay).Nodup) (complete : newEntries entries overlay = [])
    (settles : SettlesEntries overlay entries clean) :
    Settles (.object overlay) (.object entries) clean := by
  obtain ⟨again, lays, fixed, same⟩ := settles
  have first := Lays.objects lays
  have second := Lays.objects fixed
  rw [complete, List.append_nil] at first
  rw [lays.newEntries_eq_nil keysOnce complete, List.append_nil] at second
  refine ⟨.object again, first, second, ?_⟩
  rw [← same, Json.object.injEq]

private theorem SettlesItems.array {overlay items : List Json} {clean : Prop}
    (settles : SettlesItems overlay items clean) :
    Settles (.array overlay) (.array items) clean := by
  obtain ⟨again, lays, fixed, same⟩ := settles
  refine ⟨.array again, .arrays lays, .arrays fixed, ?_⟩
  rw [← same, Json.array.injEq]

private theorem settles_leaf {overlay : Json} (leaf : overlay.isLeaf = true) :
    Settles overlay overlay (overlay.nullFree = true) := by
  have replaced : Lays overlay overlay overlay := .replaced (Or.inr leaf)
  exact ⟨overlay, replaced, replaced, iff_of_true rfl (Json.nullFree_leaf leaf)⟩

/-! ### A value over itself -/

mutual

private theorem settles_self (value : Json) (distinct : value.distinctKeys = true) :
    Settles value value (value.nullFree = true) := by
  cases value with
  | array items => exact (settlesItems_self items distinct).array
  | object entries =>
      obtain ⟨keysOnce, valuesDistinct⟩ := Bool.and_eq_true_iff.mp distinct
      have keysOnce := of_decide_eq_true keysOnce
      have complete : newEntries entries entries = [] := by
        rw [newEntries_eq_nil_iff]
        exact fun entry member _ => List.mem_map_of_mem member
      have found : ∀ entry ∈ entries, Keyed.find? entry.1 entries = some entry.2 :=
        fun entry member => (Keyed.find?_eq_some_iff keysOnce _ _).mpr member
      exact (settlesEntries_self entries entries found valuesDistinct).object keysOnce complete
  | _ => exact settles_leaf rfl
termination_by structural value

/-- The entries are found in the whole object, one after the other. -/
theorem settlesEntries_self (overlay entries : List (String × Json))
    (found : ∀ entry ∈ entries, Keyed.find? entry.1 overlay = some entry.2)
    (distinct : Json.distinctKeysEntries entries = true) :
    SettlesEntries overlay entries (Json.nullFreeEntries entries = true) := by
  match entries with
  | [] => exact SettlesEntries.nil.congr (iff_of_true trivial rfl)
  | (key, value) :: rest =>
      obtain ⟨valueDistinct, restDistinct⟩ := Bool.and_eq_true_iff.mp distinct
      obtain ⟨first, others⟩ := List.forall_mem_cons.mp found
      have later := settlesEntries_self overlay rest others restDistinct
      by_cases null : value = .null
      · subst null
        refine ((SettlesEntries.deleted first).append later).congr ?_
        simp [Json.nullFreeEntries]
      · have present := Json.isNull_eq_false_iff.mpr null
        have settles := settles_self value valueDistinct
        refine ((SettlesEntries.merged first present settles).append later).congr ?_
        simp [Json.nullFreeEntries, present]
termination_by structural entries

private theorem settlesItems_self (items : List Json)
    (distinct : Json.distinctKeysItems items = true) :
    SettlesItems items items (Json.nullFreeItems items = true) := by
  match items with
  | [] => exact SettlesItems.remaining.congr (iff_of_true trivial rfl)
  | item :: rest =>
      obtain ⟨itemDistinct, restDistinct⟩ := Bool.and_eq_true_iff.mp distinct
      have later := settlesItems_self rest restDistinct
      by_cases null : item = .null
      · subst null
        refine later.spared.congr ?_
        simp [Json.nullFreeItems, Json.nullFree]
      · have present := Json.isNull_eq_false_iff.mpr null
        have settles := settles_self item itemDistinct
        refine (SettlesItems.merged present settles later).congr ?_
        simp [Json.nullFreeItems]
termination_by structural items

end

private theorem settlesEntries_new (base : List (String × Json)) {overlay : List (String × Json)}
    (distinct : (Json.object overlay).distinctKeys = true) :
    SettlesEntries overlay (newEntries base overlay)
      (∀ part ∈ Keyed.values (newEntries base overlay), part.nullFree = true) := by
  obtain ⟨keysOnce, valuesDistinct⟩ := Json.distinctKeys_object_iff.mp distinct
  have listed : ∀ entry ∈ newEntries base overlay, entry ∈ overlay ∧ entry.2.isNull = false := by
    intro entry member
    rw [newEntries_eq, List.mem_filter] at member
    exact ⟨member.1, by simpa using (Bool.and_eq_true_iff.mp member.2).1⟩
  have settles := settlesEntries_self overlay (newEntries base overlay)
    (fun entry member => (Keyed.find?_eq_some_iff keysOnce _ _).mpr (listed entry member).1)
    (Json.distinctKeysEntries_iff.mpr fun entry member =>
      valuesDistinct entry (listed entry member).1)
  refine settles.congr ?_
  rw [Json.nullFreeEntries_iff, Keyed.values, List.forall_mem_map]
  exact forall₂_congr fun entry member => and_iff_right (listed entry member).2

/-! ### Over what was laid -/

private theorem copied_leaf {base overlay : Json}
    (leaf : base.isLeaf = true ∨ overlay.isLeaf = true) :
    copied base overlay = [overlay] := by
  cases base <;> cases overlay <;> first | rfl | (rcases leaf with leaf | leaf <;> contradiction)

mutual

private theorem Lays.settles (base overlay result : Json) (distinct : overlay.distinctKeys = true)
    (lays : Lays base overlay result) :
    Settles overlay result (∀ part ∈ copied base overlay, part.nullFree = true) := by
  have replacement (leaf : base.isLeaf = true ∨ overlay.isLeaf = true) :
      Settles overlay overlay (∀ part ∈ copied base overlay, part.nullFree = true) := by
    rw [copied_leaf leaf, List.forall_mem_singleton]
    exact settles_self overlay distinct
  cases base with
  | object base =>
      cases lays with
      | @objects _ overlay kept entries =>
          obtain ⟨keysOnce, valuesDistinct⟩ := Json.distinctKeys_object_iff.mp distinct
          have first := LaysEntries.settles base overlay kept valuesDistinct entries
          have both := first.append (settlesEntries_new base distinct)
          rw [copied, List.forall_mem_append]
          exact both.object keysOnce (newEntries_laid keysOnce entries)
      | replaced leaf => exact replacement leaf
  | array base =>
      cases lays with
      | @arrays _ overlay result items =>
          have itemsDistinct := Json.distinctKeysItems_iff.mp distinct
          exact (LaysItems.settles base overlay result itemsDistinct items).array
      | replaced leaf => exact replacement leaf
  | _ =>
      cases lays with
      | replaced leaf => exact replacement leaf
termination_by structural base

theorem LaysEntries.settles (base overlay result : List (String × Json))
    (distinct : ∀ entry ∈ overlay, entry.2.distinctKeys = true)
    (lays : LaysEntries overlay base result) :
    SettlesEntries overlay result
      (∀ part ∈ copiedEntries base overlay, part.nullFree = true) := by
  match base with
  | [] =>
      cases lays
      exact SettlesEntries.nil.congr (iff_of_true trivial nofun)
  | (key, value) :: rest =>
      cases lays with
      | kept absent later =>
          have others := LaysEntries.settles rest overlay _ distinct later
          refine ((SettlesEntries.kept absent).append others).congr ?_
          simp [copiedEntries, absent]
      | deleted cleared later =>
          refine (LaysEntries.settles rest overlay _ distinct later).congr ?_
          simp [copiedEntries, cleared]
      | @merged _ _ _ _ _ above laid found present first later =>
          have settles := Lays.settles value above laid
            (distinct _ (Keyed.mem_of_find? found)) first
          have others := LaysEntries.settles rest overlay _ distinct later
          refine ((SettlesEntries.merged found present settles).append others).congr ?_
          simp only [copiedEntries, found, present, List.forall_mem_append, Bool.false_eq_true,
            if_false]
termination_by structural base

theorem LaysItems.settles (base overlay result : List Json)
    (distinct : ∀ item ∈ overlay, item.distinctKeys = true)
    (lays : LaysItems base overlay result) :
    SettlesItems overlay result (∀ part ∈ copiedItems base overlay, part.nullFree = true) := by
  match base with
  | [] =>
      have equal : result = overlay := by cases lays <;> rfl
      rw [equal]
      refine (settlesItems_self overlay (Json.distinctKeysItems_iff.mpr distinct)).congr ?_
      rw [Json.nullFreeItems_iff]
      cases overlay <;> rfl
  | item :: rest =>
      cases lays with
      | remaining => exact SettlesItems.remaining.congr (iff_of_true trivial nofun)
      | spared later =>
          have othersDistinct := (List.forall_mem_cons.mp distinct).2
          refine (LaysItems.settles rest _ _ othersDistinct later).spared.congr ?_
          simp [copiedItems]
      | merged present first later =>
          obtain ⟨aboveDistinct, othersDistinct⟩ := List.forall_mem_cons.mp distinct
          have settles := Lays.settles item _ _ aboveDistinct first
          have others := LaysItems.settles rest _ _ othersDistinct later
          refine (SettlesItems.merged present settles others).congr ?_
          simp only [copiedItems, present, List.forall_mem_append, Bool.false_eq_true, if_false]
termination_by structural base

end

/-- The second time an overlay is laid it takes away the null members that were copied the
first time; after that nothing changes. -/
theorem merge_settles {base overlay merged : Json} (distinct : overlay.distinctKeys = true)
    (first : merge base overlay = .ok merged) :
    ∃ again, merge merged overlay = .ok again ∧ merge again overlay = .ok again ∧
      (again = merged ↔ ∀ part ∈ copied base overlay, part.nullFree = true) := by
  obtain ⟨again, second, third, same⟩ :=
    Lays.settles base overlay merged distinct (merge_ok_iff.mp first)
  exact ⟨again, merge_ok_iff.mpr second, merge_ok_iff.mpr third, same⟩

/-- Nulls that delete, that spare an item and that are copied as an item do no harm. -/
theorem merge_settles_clean :
    let base : Json := .object [("a", .array [.bool true]), ("b", .bool true)]
    let overlay : Json := .object [("a", .array [.null, .null]), ("b", .null), ("c", .object [])]
    let merged : Json := .object [("a", .array [.bool true, .null]), ("c", .object [])]
    overlay.distinctKeys = true ∧ merge base overlay = .ok merged ∧
      ∃ again, merge merged overlay = .ok again ∧ merge again overlay = .ok again ∧
        (again = merged ↔ ∀ part ∈ copied base overlay, part.nullFree = true) := by
  intro base overlay merged
  have distinct : overlay.distinctKeys = true := by decide
  have first : merge base overlay = .ok merged := by rfl
  exact ⟨distinct, first, merge_settles distinct first⟩

/-- A null member inside an appended item is copied the first time and deletes itself the
second time. -/
theorem merge_twice_differs :
    let overlay : Json := .array [.object [("x", .null)]]
    merge (.array []) overlay = .ok overlay ∧ merge overlay overlay = .ok (.array [.object []]) ∧
      merge overlay overlay ≠ .ok overlay :=
  ⟨rfl, rfl, nofun⟩

end ElmClient.Overlay
