/-
Where merging fails. A clash is a place at which one document holds an object and the other
an array, below containers of one kind. Merging fails exactly if there is one, reports the
first, and the pointer in the report leads there.
-/

import ElmClient.Proofs.Json.Pointer
import ElmClient.Proofs.Overlay.Laying

namespace ElmClient

namespace Json

def clashes : Json → Json → Bool
  | .object _, .array _ => true
  | .array _, .object _ => true
  | _, _ => false

def position : Json → Step → Nat
  | .object entries, .member key => (Keyed.keys entries).idxOf key
  | .array _, .item index => index
  | _, _ => 0

/-- The positions along a way. Their lexicographic order is the order in which the places of
a value are visited, depth first. -/
def positions (json : Json) : List Step → List Nat
  | [] => []
  | step :: rest =>
      json.position step :: ((json.child? step).map fun child => child.positions rest).getD []

private theorem not_leaf_of_clashes {left right : Json} (apart : left.clashes right = true) :
    ¬ (left.isLeaf = true ∨ right.isLeaf = true) := by
  cases left <;> cases right <;> simp_all [clashes, isLeaf]

theorem isNull_of_clashes {left right : Json} (apart : left.clashes right = true) :
    right.isNull = false := by
  cases left <;> cases right <;> first | rfl | contradiction

private theorem not_clashes_of_sameContainer {left right : Json}
    (same : left.sameContainer right = true) : left.clashes right = false := by
  cases left <;> cases right <;> first | rfl | contradiction

private theorem positions_cons {step : Step} {json child : Json}
    (found : json.child? step = some child)
    (rest : List Step) :
    json.positions (step :: rest) = json.position step :: child.positions rest := by
  rw [positions, found, Option.map_some, Option.getD_some]

private theorem eq_of_position_eq {json first second : Json} {step other : Step}
    (found : json.child? step = some first) (found' : json.child? other = some second)
    (equal : json.position step = json.position other) : step = other := by
  cases json with
  | object entries =>
      cases step with
      | item index => contradiction
      | member key =>
          cases other with
          | item index => contradiction
          | member name =>
              have listed : key ∈ Keyed.keys entries :=
                List.mem_map_of_mem (Keyed.mem_of_find? found)
              exact congrArg Step.member ((List.idxOf_inj listed).mp equal)
  | array items =>
      cases step with
      | member key => contradiction
      | item index =>
          cases other with
          | member name => contradiction
          | item place => exact congrArg Step.item equal
  | _ => cases step <;> contradiction

private theorem sizeOf_child? {json child : Json} {step : Step}
    (found : json.child? step = some child) :
    sizeOf child < sizeOf json := by
  cases json with
  | object entries =>
      cases step with
      | item index => contradiction
      | member key =>
          have listed := List.sizeOf_lt_of_mem (Keyed.mem_of_find? found)
          simp at listed ⊢
          omega
  | array items =>
      cases step with
      | member key => contradiction
      | item index =>
          have listed := List.sizeOf_lt_of_mem (List.mem_of_getElem? found)
          simp at listed ⊢
          omega
  | _ => cases step <;> contradiction

end Json

namespace Overlay

open Json (Step)

/-- Along the way both documents hold objects or both hold arrays, and at its end one holds an
object and the other an array. -/
structure ClashesAt (base overlay : Json) (way : List Step) (below above : Json) : Prop where
  along : ∀ part, part <+: way → part ≠ way → ∃ lower upper, base.at? part = some lower ∧
    overlay.at? part = some upper ∧ lower.sameContainer upper = true
  inBase : base.at? way = some below
  inOverlay : overlay.at? way = some above
  apart : below.clashes above = true

/-- No clash comes earlier in the base. -/
structure FirstClash (base overlay : Json) (way : List Step) (below above : Json) : Prop where
  clash : ClashesAt base overlay way below above
  first : ∀ other lower upper, ClashesAt base overlay other lower upper →
    other = way ∨ base.positions way < base.positions other

/-! ### Clashes by steps -/

private theorem clashesAt_nil_iff {base overlay below above : Json} :
    ClashesAt base overlay [] below above ↔
      base = below ∧ overlay = above ∧ below.clashes above = true := by
  constructor
  · intro clash
    exact ⟨Option.some.inj clash.inBase, Option.some.inj clash.inOverlay, clash.apart⟩
  · rintro ⟨rfl, rfl, apart⟩
    exact ⟨fun part onWay other => absurd (List.prefix_nil.mp onWay) other, rfl, rfl, apart⟩

private theorem clashesAt_cons_iff {base overlay below above : Json} {step : Step}
    {rest : List Step} :
    ClashesAt base overlay (step :: rest) below above ↔
      ∃ lower upper, base.child? step = some lower ∧ overlay.child? step = some upper ∧
        ClashesAt lower upper rest below above := by
  constructor
  · intro clash
    obtain ⟨lower, inLower, later⟩ := Json.child?_of_at? clash.inBase
    obtain ⟨upper, inUpper, further⟩ := Json.child?_of_at? clash.inOverlay
    refine ⟨lower, upper, inLower, inUpper, ?_, later, further, clash.apart⟩
    intro part onWay other
    obtain ⟨left, right, found, found', same⟩ := clash.along (step :: part)
      (List.cons_prefix_cons.mpr ⟨rfl, onWay⟩) (mt (List.cons.inj · |>.2) other)
    rw [Json.at?_cons inLower] at found
    rw [Json.at?_cons inUpper] at found'
    exact ⟨left, right, found, found', same⟩
  · rintro ⟨lower, upper, inLower, inUpper, clash⟩
    refine ⟨?_, (Json.at?_cons inLower rest).trans clash.inBase,
      (Json.at?_cons inUpper rest).trans clash.inOverlay, clash.apart⟩
    intro part onWay other
    cases part with
    | nil => exact ⟨base, overlay, rfl, rfl, Json.sameContainer_of_child? inLower inUpper⟩
    | cons head tail =>
        obtain ⟨rfl, shorter⟩ := List.cons_prefix_cons.mp onWay
        rw [Json.at?_cons inLower, Json.at?_cons inUpper]
        exact clash.along tail shorter fun same => other (congrArg (head :: ·) same)

private theorem ClashesAt.isNull {base overlay below above : Json} {way : List Step}
    (clash : ClashesAt base overlay way below above) : overlay.isNull = false :=
  Json.isNull_of_at? clash.inOverlay (Json.isNull_of_clashes clash.apart)

private theorem Meets.lays {step : Step} {below above : Json} {upper result : Option Json}
    (meets : Meets step (some below) upper result) (found : upper = some above)
    (present : above.isNull = false) : ∃ laid, Lays below above laid := by
  cases meets with
  | kept => contradiction
  | deleted | spared =>
      obtain rfl := Option.some.inj found
      contradiction
  | merged _ lays =>
      obtain rfl := Option.some.inj found
      exact ⟨_, lays⟩

private theorem Lays.not_clashesAt {base overlay result below above : Json} {way : List Step}
    (lays : Lays base overlay result) : ¬ ClashesAt base overlay way below above := by
  induction way generalizing base overlay result with
  | nil =>
      intro clash
      obtain ⟨rfl, rfl, apart⟩ := clashesAt_nil_iff.mp clash
      cases lays with
      | objects => contradiction
      | arrays => contradiction
      | replaced leaf => exact Json.not_leaf_of_clashes apart leaf
  | cons step rest ih =>
      intro clash
      obtain ⟨lower, upper, inLower, inUpper, later⟩ := clashesAt_cons_iff.mp clash
      cases lays with
      | replaced leaf =>
          exact Json.not_leaf_of_sameContainer
            (Json.sameContainer_of_child? inLower inUpper) leaf
      | objects entries =>
          cases step with
          | item index => contradiction
          | member key =>
              obtain ⟨laid, inside⟩ := (entries.member inLower).lays inUpper later.isNull
              exact ih inside later
      | arrays items =>
          cases step with
          | member key => contradiction
          | item index =>
              have meets := items.item index index
              rw [show _[index]? = some lower from inLower] at meets
              obtain ⟨laid, inside⟩ := meets.lays inUpper later.isNull
              exact ih inside later

/-! ### What has been merged when merging fails -/

theorem find?_append_cons {front back : List (String × Json)} {key : String} {value : Json}
    (fresh : key ∉ Keyed.keys front) :
    Keyed.find? key (front ++ (key, value) :: back) = some value := by
  rw [Keyed.find?_append, Keyed.find?_eq_none_iff.mpr fresh, Option.none_or,
    Keyed.find?, if_pos rfl]

theorem find?_front {front back : List (String × Json)} {key name : String}
    {value other : Json} (fresh : key ∉ Keyed.keys front)
    (found : Keyed.find? name (front ++ (key, value) :: back) = some other)
    (earlier : (Keyed.keys (front ++ (key, value) :: back)).idxOf name <
      (Keyed.keys (front ++ (key, value) :: back)).idxOf key) :
    Keyed.find? name front = some other := by
  have keys_eq : Keyed.keys (front ++ (key, value) :: back) =
      Keyed.keys front ++ key :: Keyed.keys back := by
    rw [Keyed.keys, List.map_append, List.map_cons]
    rfl
  rw [keys_eq, List.idxOf_append, List.idxOf_append, if_neg fresh, List.idxOf_cons_self] at earlier
  cases absent : Keyed.find? name front with
  | none =>
      rw [if_neg (Keyed.find?_eq_none_iff.mp absent)] at earlier
      omega
  | some value =>
      rw [Keyed.find?_append, absent, Option.some_or] at found
      exact found

private theorem bind_error {ε α β : Type} {action : Except ε α} {next : α → Except ε β}
    {problem : ε}
    (failed : (action >>= next) = .error problem) :
    action = .error problem ∨ ∃ value, action = .ok value ∧ next value = .error problem := by
  cases action with
  | error problem =>
      obtain rfl := Except.error.inj failed
      exact .inl rfl
  | ok value => exact .inr ⟨value, rfl, failed⟩

theorem mergeEntries_error {path : List String} {entries overlay : List (String × Json)}
    {conflict : Conflict} (failed : mergeEntries path entries overlay = .error conflict) :
    ∃ front key value back above, entries = front ++ (key, value) :: back ∧
      Keyed.find? key overlay = some above ∧
      mergeAt (path ++ [key]) value above = .error conflict ∧
      ∃ kept, LaysEntries overlay front kept := by
  induction entries with
  | nil => contradiction
  | cons entry rest ih =>
      obtain ⟨key, value⟩ := entry
      rw [mergeEntries] at failed
      split at failed
      case h_1 absent =>
        rcases bind_error failed with later | ⟨_, _, ended⟩
        · obtain ⟨front, name, inside, back, above, rfl, found, deeper, kept, lays⟩ := ih later
          exact ⟨(key, value) :: front, name, inside, back, above, rfl, found, deeper, _,
            .kept absent lays⟩
        · contradiction
      case h_2 cleared =>
        obtain ⟨front, name, inside, back, above, rfl, found, deeper, kept, lays⟩ := ih failed
        exact ⟨(key, value) :: front, name, inside, back, above, rfl, found, deeper, _,
          .deleted cleared lays⟩
      case h_3 above notNull found =>
        rcases bind_error failed with here | ⟨laid, merged, failed⟩
        · exact ⟨[], key, value, rest, above, rfl, found, here, [], .nil⟩
        · rcases bind_error failed with later | ⟨_, _, ended⟩
          · obtain ⟨front, name, inside, back, upper, rfl, listed, deeper, kept, lays⟩ := ih later
            exact ⟨(key, value) :: front, name, inside, back, upper, rfl, listed, deeper, _,
              .merged found (Json.isNull_eq_false_iff.mpr notNull)
                ((mergeAt_ok_iff _ _ _ _).mp merged) lays⟩
          · contradiction

theorem mergeItems_error {path : List String} {start : Nat} {items overlay : List Json}
    {conflict : Conflict} (failed : mergeItems path start items overlay = .error conflict) :
    ∃ index item above, items[index]? = some item ∧ overlay[index]? = some above ∧
      mergeAt (path ++ [toString (start + index)]) item above = .error conflict ∧
      ∃ laid, LaysItems (items.take index) (overlay.take index) laid := by
  induction items generalizing start overlay with
  | nil => cases overlay <;> contradiction
  | cons item rest ih =>
      cases overlay with
      | nil => contradiction
      | cons above others =>
          by_cases cleared : above = .null
          · subst cleared
            rw [mergeItems] at failed
            rcases bind_error failed with later | ⟨_, _, ended⟩
            · obtain ⟨index, inside, upper, found, listed, deeper, laid, lays⟩ := ih later
              refine ⟨index + 1, inside, upper, found, listed, ?_, _, .spared lays⟩
              rwa [← Nat.add_assoc, Nat.add_right_comm]
            · contradiction
          · rw [mergeItems] at failed
            · rcases bind_error failed with here | ⟨laid, merged, failed⟩
              · exact ⟨0, item, above, rfl, rfl, here, [], .remaining⟩
              · rcases bind_error failed with later | ⟨_, _, ended⟩
                · obtain ⟨index, inside, upper, found, listed, deeper, kept, lays⟩ := ih later
                  refine ⟨index + 1, inside, upper, found, listed, ?_, _,
                    .merged (Json.isNull_eq_false_iff.mpr cleared)
                      ((mergeAt_ok_iff _ _ _ _).mp merged) lays⟩
                  rwa [← Nat.add_assoc, Nat.add_right_comm]
                · contradiction
            · exact cleared

/-- Merging fails at a clash, or behind a step after everything in front of it was laid. -/
theorem mergeAt_error_cases {path : List String} {base overlay : Json} {conflict : Conflict}
    (once : base.distinctKeys = true) (failed : mergeAt path base overlay = .error conflict) :
    (base.clashes overlay = true ∧ conflict = ⟨path, base, overlay⟩) ∨
      ∃ step below above, base.child? step = some below ∧ overlay.child? step = some above ∧
        mergeAt (path ++ [step.token]) below above = .error conflict ∧
        ∀ other lower upper, base.child? other = some lower → overlay.child? other = some upper →
          base.position other < base.position step → upper.isNull = false →
          ∃ laid, Lays lower upper laid := by
  cases base with
  | object base =>
      cases overlay with
      | object overlay =>
          right
          rw [mergeAt] at failed
          rcases bind_error failed with failed | ⟨_, _, ended⟩
          · obtain ⟨front, key, value, back, above, rfl, found, deeper, kept, lays⟩ :=
              mergeEntries_error failed
            have keysOnce := (Json.distinctKeys_object_iff.mp once).1
            rw [Keyed.keys, List.map_append, List.map_cons] at keysOnce
            have fresh : key ∉ Keyed.keys front := fun listed =>
              (List.disjoint_of_nodup_append keysOnce) listed List.mem_cons_self
            refine ⟨.member key, value, above, find?_append_cons fresh, found, deeper, ?_⟩
            rintro (name | index) lower upper inLower inUpper earlier present
            · exact (lays.member (find?_front fresh inLower earlier)).lays inUpper present
            · contradiction
          · contradiction
      | array overlay => exact .inl ⟨rfl, (Except.error.inj failed).symm⟩
      | _ => contradiction
  | array base =>
      cases overlay with
      | array overlay =>
          right
          rw [mergeAt] at failed
          rcases bind_error failed with failed | ⟨_, _, ended⟩
          · obtain ⟨index, item, above, found, listed, deeper, laid, lays⟩ :=
              mergeItems_error failed
            refine ⟨.item index, item, above, found, listed, ?_, ?_⟩
            · rwa [Nat.zero_add] at deeper
            · rintro (name | place) lower upper inLower inUpper earlier present
              · contradiction
              · have inFront : place < index := earlier
                have meets := lays.item place place
                rw [List.getElem?_take_of_lt inFront, List.getElem?_take_of_lt inFront,
                  show base[place]? = some lower from inLower] at meets
                exact meets.lays inUpper present
          · contradiction
      | object overlay => exact .inl ⟨rfl, (Except.error.inj failed).symm⟩
      | _ => contradiction
  | _ =>
      rw [mergeAt] at failed
      · contradiction
      all_goals intros; contradiction

theorem mergeAt_firstClash {path : List String} {base overlay : Json} {conflict : Conflict}
    (once : base.distinctKeys = true) (failed : mergeAt path base overlay = .error conflict) :
    ∃ way, FirstClash base overlay way conflict.base conflict.overlay ∧
      conflict.path = path ++ way.map Step.token := by
  rcases mergeAt_error_cases once failed with ⟨apart, rfl⟩ |
    ⟨step, below, above, inBase, inOverlay, deeper, before⟩
  · refine ⟨[], ⟨clashesAt_nil_iff.mpr ⟨rfl, rfl, apart⟩, ?_⟩, (List.append_nil path).symm⟩
    rintro (_ | ⟨step, rest⟩) lower upper clash
    · exact .inl rfl
    · exact .inr (List.nil_lt_cons _ _)
  · have shorter := Json.sizeOf_child? inBase
    obtain ⟨way, ⟨clash, first⟩, path_eq⟩ :=
      mergeAt_firstClash (Json.distinctKeys_child? once inBase) deeper
    refine ⟨step :: way, ⟨clashesAt_cons_iff.mpr ⟨below, above, inBase, inOverlay, clash⟩, ?_⟩, ?_⟩
    · rintro (_ | ⟨other, rest⟩) lower upper otherClash
      · obtain ⟨rfl, rfl, apart⟩ := clashesAt_nil_iff.mp otherClash
        have same := Json.sameContainer_of_child? inBase inOverlay
        rw [Json.not_clashes_of_sameContainer same] at apart
        contradiction
      · obtain ⟨left, right, inLeft, inRight, later⟩ := clashesAt_cons_iff.mp otherClash
        rw [Json.positions_cons inBase, Json.positions_cons inLeft, List.cons_lt_cons_iff]
        rcases Nat.lt_trichotomy (base.position other) (base.position step) with
          earlier | equal | behind
        · obtain ⟨laid, lays⟩ := before other left right inLeft inRight earlier later.isNull
          exact absurd later lays.not_clashesAt
        · obtain rfl := Json.eq_of_position_eq inLeft inBase equal
          obtain rfl := Option.some.inj (inLeft.symm.trans inBase)
          obtain rfl := Option.some.inj (inRight.symm.trans inOverlay)
          rcases first rest lower upper later with rfl | further
          · exact .inl rfl
          · exact .inr (.inr ⟨rfl, further⟩)
        · exact .inr (.inl behind)
    · rw [path_eq, List.map_cons, List.append_assoc, List.singleton_append]
termination_by sizeOf base

/-- Merging fails exactly if the documents clash. It reports what they hold at the first
clash, and below the root the pointer in the report leads there. -/
theorem merge_clashes {base overlay : Json} (once : base.distinctKeys = true) :
    ((∃ conflict, merge base overlay = .error conflict) ↔
      ∃ way below above, ClashesAt base overlay way below above) ∧
    ∀ conflict, merge base overlay = .error conflict →
      ∃ way, FirstClash base overlay way conflict.base conflict.overlay ∧
        conflict.path = way.map Step.token ∧
        (way ≠ [] → Pointer.way? (Pointer.render conflict.path) base = some way) := by
  have located : ∀ conflict, merge base overlay = .error conflict →
      ∃ way, FirstClash base overlay way conflict.base conflict.overlay ∧
        conflict.path = way.map Step.token := fun conflict failed =>
    mergeAt_firstClash once failed
  refine ⟨⟨?_, ?_⟩, ?_⟩
  · rintro ⟨conflict, failed⟩
    obtain ⟨way, first, _⟩ := located conflict failed
    exact ⟨way, _, _, first.clash⟩
  · rintro ⟨way, below, above, clash⟩
    cases ended : merge base overlay with
    | ok result => exact absurd clash (merge_ok_iff.mp ended).not_clashesAt
    | error conflict => exact ⟨conflict, rfl⟩
  · intro conflict failed
    obtain ⟨way, first, path_eq⟩ := located conflict failed
    refine ⟨way, first, path_eq, fun below => ?_⟩
    rw [path_eq]
    exact Pointer.way?_render first.clash.inBase below

/-- Of two clashes the one under the key that the base lists first is reported. -/
theorem merge_clashes_escaped :
    let base : Json := .object
      [("", .array [.null, .object [("a/b", .object [("~1", .object [])])]]), ("x", .object [])]
    let overlay : Json := .object
      [("x", .array []), ("", .array [.null, .object [("a/b", .object [("~1", .array [])])]])]
    let way : List Step := [.member "", .item 1, .member "a/b", .member "~1"]
    base.distinctKeys = true ∧
      ∃ conflict, merge base overlay = .error conflict ∧
        Pointer.render conflict.path = "//1/a~1b/~01" ∧
        FirstClash base overlay way conflict.base conflict.overlay ∧
        Pointer.way? (Pointer.render conflict.path) base = some way := by
  intro base overlay way
  have once : base.distinctKeys = true := by decide
  have failed : merge base overlay =
      .error ⟨["", "1", "a/b", "~1"], .object [], .array []⟩ := by rfl
  have read : Pointer.way? (Pointer.render ["", "1", "a/b", "~1"]) base = some way := by
    decide
  obtain ⟨found, first, path_eq, leads⟩ := (merge_clashes once).2 _ failed
  have below : found ≠ [] := by
    rintro rfl
    contradiction
  obtain rfl := Option.some.inj (read.symm.trans (leads below))
  exact ⟨once, _, failed, by decide, first, read⟩

end Overlay

end ElmClient
