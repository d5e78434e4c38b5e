/-
Uniting contributions. Fields that are united in turn have the keys in the order in which
they first appeared, each once; what a key was given decides its field, by one rule for
each part of it. Uniting a contribution again changes nothing unless something else was
given in between, and then only shapes.
-/

import ElmClient.Proofs.Shape.Uniting
import Mathlib.Data.List.Induction

namespace ElmClient

/-! ### The rules -/

namespace Field

/-- What contributions have under a key, in order. -/
def given (key : String) (contributions : List (List Field)) : List Field :=
  contributions.filterMap (find? key)

end Field

def Shape.isObject : Shape → Bool
  | .object _ => true
  | _ => false

mutual

/-- What shapes that are given one after the other become. The last one stays; if it is an
object, it is united with the objects right in front of it. -/
inductive Shape.Unites : List Shape → Shape → Prop
  | last {before : List Shape} {shape : Shape} (simple : shape.isObject = false) :
      Shape.Unites (before ++ [shape]) shape
  | objects {before : List Shape} {run : List (List Field)} {fields : List Field}
      (apart : ∀ shape, before.getLast? = some shape → shape.isObject = false)
      (inhabited : run ≠ []) (united : Field.Unites run fields) :
      Shape.Unites (before ++ run.map .object) (.object fields)

/-- What contributions to one object become: the keys in the order in which they first
appear, each with the first documentation given, required if it was ever, and with what the
shapes given become. -/
inductive Field.Unites : List (List Field) → List Field → Prop
  | intro {contributions : List (List Field)} {fields : List Field}
      (keys : Field.keys fields = (contributions.flatMap Field.keys).eraseDups)
      (doc : ∀ field ∈ fields,
        field.doc = (Field.given field.key contributions).findSome? FieldOf.doc)
      (required : ∀ field ∈ fields,
        field.required = (Field.given field.key contributions).any FieldOf.required)
      (shape : ∀ field ∈ fields,
        Shape.Unites ((Field.given field.key contributions).map FieldOf.shape) field.shape) :
      Field.Unites contributions fields

end

namespace Field

/-! ### The field under one key -/

def join (field other : Field) : Field :=
  ⟨field.key, field.required || other.required, field.doc.or other.doc,
    uniteShapes field.shape other.shape⟩

/-- Fields under one key, one after the other. -/
def joined : List Field → Option Field
  | [] => none
  | first :: rest => some (rest.foldl join first)

variable {key : String}

theorem find?_unite_joined (present incoming : List Field) :
    find? key (unite present incoming) =
      joined ((find? key present).toList ++ (find? key incoming).toList) := by
  rw [find?_unite]
  cases inPresent : find? key present with
  | none => cases find? key incoming <;> rfl
  | some field =>
      have own := key_of_find? inPresent
      cases find? key incoming with
      | none => rfl
      | some other => rw [← own]; rfl

private theorem joined_toList (field : Option Field) : joined field.toList = field := by
  cases field <;> rfl

private theorem joined_joined_append (front back : List Field) :
    joined ((joined front).toList ++ back) = joined (front ++ back) := by
  cases front with
  | nil => rfl
  | cons first rest =>
      rw [joined, Option.toList_some, List.singleton_append, List.cons_append, joined, joined,
        List.foldl_append]

theorem find?_foldl_unite (contributions : List (List Field)) (present : List Field) :
    find? key (contributions.foldl unite present) =
      joined ((find? key present).toList ++ given key contributions) := by
  induction contributions generalizing present with
  | nil =>
      rw [given, List.filterMap_nil, List.append_nil, List.foldl_nil, joined_toList]
  | cons fields rest ih =>
      have split : given key (fields :: rest) = (find? key fields).toList ++ given key rest := by
        rw [given, List.filterMap_cons]
        cases find? key fields <;> rfl
      rw [List.foldl_cons, ih, find?_unite_joined, joined_joined_append, split, List.append_assoc]

section Joined

variable {fields : List Field} {field : Field}

private theorem joined_cases (equal : joined fields = some field) :
    ∃ first rest, fields = first :: rest ∧ field = rest.foldl join first := by
  cases fields with
  | nil => contradiction
  | cons first rest => exact ⟨first, rest, rfl, (Option.some.inj equal).symm⟩

theorem doc_foldl_join (first : Field) (rest : List Field) :
    (rest.foldl join first).doc = first.doc.or (rest.findSome? FieldOf.doc) := by
  induction rest generalizing first with
  | nil => rw [List.foldl_nil, List.findSome?_nil, Option.or_none]
  | cons second others ih =>
      rw [List.foldl_cons, ih, join, List.findSome?_cons]
      cases first.doc <;> cases second.doc <;> rfl

theorem required_foldl_join (first : Field) (rest : List Field) :
    (rest.foldl join first).required = (first.required || rest.any FieldOf.required) := by
  induction rest generalizing first with
  | nil => rw [List.foldl_nil, List.any_nil, Bool.or_false]
  | cons second others ih => rw [List.foldl_cons, ih, join, List.any_cons, Bool.or_assoc]

theorem shape_foldl_join (first : Field) (rest : List Field) :
    (rest.foldl join first).shape = (rest.map FieldOf.shape).foldl uniteShapes first.shape := by
  induction rest generalizing first with
  | nil => rfl
  | cons second others ih => rw [List.foldl_cons, ih, join, List.map_cons, List.foldl_cons]

theorem doc_joined (equal : joined fields = some field) :
    field.doc = fields.findSome? FieldOf.doc := by
  obtain ⟨first, rest, rfl, rfl⟩ := joined_cases equal
  rw [doc_foldl_join, List.findSome?_cons]
  cases first.doc <;> rfl

theorem required_joined (equal : joined fields = some field) :
    field.required = fields.any FieldOf.required := by
  obtain ⟨first, rest, rfl, rfl⟩ := joined_cases equal
  rw [required_foldl_join, List.any_cons]

end Joined

/-! ### Keys -/

theorem keys_unite (present incoming : List Field) :
    keys (unite present incoming) =
      keys present ++ (keys incoming).filter fun key => !(keys present).contains key := by
  unfold unite
  induction present generalizing incoming with
  | nil => simp [uniteWithin, keys]
  | cons field rest ih =>
      obtain ⟨name, required, doc, shape⟩ := field
      have unlisted : ((keys incoming).filter fun key => !(name :: keys rest).contains key) =
          ((keys incoming).filter fun key => key != name).filter fun key =>
            !(keys rest).contains key := by
        rw [List.filter_filter]
        refine List.filter_congr fun key _ => ?_
        rw [List.contains_cons, Bool.not_or, Bool.and_comm]
        rfl
      have listed : keys (⟨name, required, doc, shape⟩ :: rest) = name :: keys rest := rfl
      rw [uniteWithin, listed, unlisted]
      split
      case h_1 missing =>
        have absent : ((keys incoming).filter fun key => key != name) = keys incoming :=
          List.filter_eq_self.mpr fun key listed => bne_iff_ne.mpr fun same =>
            not_mem_keys_of_find?_none missing (same ▸ listed)
        rw [absent]
        exact congrArg (name :: ·) (ih incoming)
      case h_2 other found =>
        have kept : keys (incoming.filter fun field => field.key != name) =
            (keys incoming).filter fun key => key != name := by
          rw [keys, keys, List.filter_map]
          rfl
        rw [← kept]
        exact congrArg (name :: ·) (ih _)

theorem eraseDups_of_nodup {names : List String} (distinct : names.Nodup) :
    names.eraseDups = names := by
  induction names with
  | nil => rfl
  | cons name rest ih =>
      obtain ⟨absent, restDistinct⟩ := List.nodup_cons.mp distinct
      have others : (rest.filter fun other => !other == name) = rest :=
        List.filter_eq_self.mpr fun other listed => by
          simpa using fun same : other = name => absent (same ▸ listed)
      rw [List.eraseDups_cons, others, ih restDistinct]

theorem keys_foldl_unite {contributions : List (List Field)} {present : List Field}
    (presentOnce : (keys present).Nodup) (once : ∀ fields ∈ contributions, (keys fields).Nodup) :
    keys (contributions.foldl unite present) =
      (keys present ++ contributions.flatMap keys).eraseDups := by
  induction contributions generalizing present with
  | nil => rw [List.foldl_nil, List.flatMap_nil, List.append_nil, eraseDups_of_nodup presentOnce]
  | cons fields rest ih =>
      obtain ⟨first, later⟩ := List.forall_mem_cons.mp once
      have unitedOnce := keys_unite_nodup presentOnce first
      have united : (keys present ++ keys fields).eraseDups = keys (unite present fields) := by
        have added : ((keys fields).removeAll (keys present)).Nodup :=
          first.sublist List.filter_sublist
        rw [List.eraseDups_append, eraseDups_of_nodup presentOnce, eraseDups_of_nodup added,
          keys_unite]
        rfl
      have remaining : (rest.flatMap keys).removeAll (keys (unite present fields)) =
          (rest.flatMap keys).removeAll (keys present ++ keys fields) := by
        rw [← united]
        refine List.filter_congr fun key _ => congrArg not ?_
        simp only [List.elem_eq_mem, List.mem_eraseDups]
      rw [List.foldl_cons, ih unitedOnce later, List.flatMap_cons, ← List.append_assoc,
        List.eraseDups_append, List.eraseDups_append, eraseDups_of_nodup unitedOnce, ← united,
        united, remaining]

end Field

namespace Shape

/-! ### Shapes in turn -/

/-- Shapes that are united in turn end with one that is no object, or with objects that are
united, in front of which no object stands. -/
theorem foldl_uniteShapes_cases (first : Shape) (rest : List Shape) :
    (∃ before, first :: rest = before ++ [rest.foldl Field.uniteShapes first] ∧
        (rest.foldl Field.uniteShapes first).isObject = false) ∨
      ∃ before run, first :: rest = before ++ run.map .object ∧ run ≠ [] ∧
        (∀ shape, before.getLast? = some shape → shape.isObject = false) ∧
        rest.foldl Field.uniteShapes first = .object (run.foldl Field.unite []) := by
  induction rest using List.reverseRecOn with
  | nil =>
      cases simple : first.isObject with
      | false => exact .inl ⟨[], rfl, simple⟩
      | true =>
          cases first with
          | object fields => exact .inr ⟨[], [fields], rfl, List.cons_ne_nil _ _, nofun, rfl⟩
          | _ => contradiction
  | append_singleton rest last ih =>
      rw [List.foldl_append, List.foldl_cons, List.foldl_nil, ← List.cons_append]
      cases simple : last.isObject with
      | false =>
          have taken : Field.uniteShapes (rest.foldl Field.uniteShapes first) last = last := by
            cases rest.foldl Field.uniteShapes first <;> cases last <;>
              first | rfl | contradiction
          exact .inl ⟨first :: rest, by rw [taken], by rw [taken, simple]⟩
      | true =>
          cases last with
          | object fields =>
              rcases ih with ⟨before, listed, flat⟩ |
                ⟨before, run, listed, inhabited, apart, united⟩
              · refine .inr ⟨first :: rest, [fields], rfl, List.cons_ne_nil _ _, ?_, ?_⟩
                · rw [listed, List.getLast?_concat]
                  rintro shape equal
                  exact Option.some.inj equal ▸ flat
                · generalize rest.foldl Field.uniteShapes first = former at flat
                  cases former <;> first | rfl | contradiction
              · refine .inr ⟨before, run ++ [fields], ?_, by simp, apart, ?_⟩
                · rw [listed, List.map_append, List.append_assoc]
                  rfl
                · rw [united, List.foldl_append]
                  rfl
          | _ => contradiction

end Shape

private theorem Shape.sizeOf_lt_object {field : Field} {fields : List Field}
    (member : field ∈ fields) :
    sizeOf field.shape < sizeOf (Shape.object fields) := by
  have listed := List.sizeOf_lt_of_mem member
  obtain ⟨key, required, doc, shape⟩ := field
  simp at listed ⊢
  omega

namespace Field

private theorem mem_of_mem_given {key : String} {contributions : List (List Field)} {field : Field}
    (member : field ∈ given key contributions) : ∃ fields ∈ contributions, field ∈ fields := by
  obtain ⟨fields, listed, found⟩ := List.mem_filterMap.mp member
  exact ⟨fields, listed, mem_of_find? found⟩

private theorem exists_of_mem_shapes_given (key : String) {contributions : List (List Field)}
    {shape : Shape} (member : shape ∈ (given key contributions).map FieldOf.shape) :
    ∃ contribution ∈ contributions, ∃ origin ∈ contribution, origin.shape = shape := by
  obtain ⟨origin, inGiven, same⟩ := List.mem_map.mp member
  obtain ⟨contribution, contributed, inFields⟩ := mem_of_mem_given inGiven
  exact ⟨contribution, contributed, origin, inFields, same⟩

private theorem unites_of_size (size : Nat) {contributions : List (List Field)}
    (once : ∀ fields ∈ contributions, AllOnce fields)
    (small : ∀ fields ∈ contributions, ∀ field ∈ fields, sizeOf field.shape ≤ size) :
    Unites contributions (contributions.foldl unite []) := by
  -- objects under one key are contributions again, with smaller shapes
  induction size using Nat.strongRecOn generalizing contributions with
  | ind size ih =>
      have resultOnce := (allOnce_iff.mp (foldl_unite_allOnce allOnce_nil once)).1
      have joins : ∀ field ∈ contributions.foldl unite [],
          joined (given field.key contributions) = some field := by
        intro field member
        have found := find?_of_mem resultOnce member
        rwa [find?_foldl_unite] at found
      refine .intro ?_ (fun field member => doc_joined (joins field member))
        (fun field member => required_joined (joins field member)) ?_
      · exact keys_foldl_unite List.nodup_nil fun fields listed =>
          (allOnce_iff.mp (once fields listed)).1
      · intro field member
        obtain ⟨first, rest, listed, equal⟩ := joined_cases (joins field member)
        have shape_eq : field.shape = (rest.map FieldOf.shape).foldl uniteShapes first.shape := by
          rw [equal, shape_foldl_join]
        rw [listed, List.map_cons]
        rcases Shape.foldl_uniteShapes_cases first.shape (rest.map FieldOf.shape) with
          ⟨before, shapes, simple⟩ | ⟨before, run, shapes, inhabited, apart, united⟩
        · rw [shapes, shape_eq]
          exact .last simple
        · rw [shapes, shape_eq, united]
          -- The objects of the run stand in contributions, so their own shapes are smaller.
          have inside : ∀ fields ∈ run, ∃ contribution ∈ contributions,
              ∃ origin ∈ contribution, origin.shape = .object fields := by
            intro fields inRun
            apply exists_of_mem_shapes_given field.key
            rw [listed, List.map_cons, shapes]
            exact List.mem_append_right _ (List.mem_map_of_mem inRun)
          refine .objects apart inhabited ?_
          obtain ⟨sample, inRun⟩ := List.exists_mem_of_ne_nil run inhabited
          obtain ⟨contribution, contributed, origin, inFields, same⟩ := inside sample inRun
          have positive : 0 < size := by
            have bound := small contribution contributed origin inFields
            rw [same] at bound
            simp at bound
            omega
          refine ih (size - 1) (by omega) ?_ ?_
          · intro fields inRun
            obtain ⟨contribution, contributed, origin, inFields, same⟩ := inside fields inRun
            have everywhere := (allOnce_iff.mp (once contribution contributed)).2 origin inFields
            rwa [same] at everywhere
          · intro fields inRun inner member
            obtain ⟨contribution, contributed, origin, inFields, same⟩ := inside fields inRun
            have bound := small contribution contributed origin inFields
            have smaller := Shape.sizeOf_lt_object member
            rw [same] at bound
            omega

theorem unites_foldl {contributions : List (List Field)}
    (once : ∀ fields ∈ contributions, AllOnce fields) :
    Unites contributions (contributions.foldl unite []) :=
  unites_of_size (sizeOf contributions) once fun fields listed field member => by
    have outer := List.sizeOf_lt_of_mem listed
    have inner := List.sizeOf_lt_of_mem member
    obtain ⟨key, required, doc, shape⟩ := field
    simp at inner ⊢
    omega

theorem unite_nil (fields : List Field) : unite fields [] = fields := by
  unfold unite
  induction fields with
  | nil => rfl
  | cons field rest ih =>
      obtain ⟨key, required, doc, shape⟩ := field
      rw [uniteWithin, find?, ih]

theorem foldl_unite_filterMap (contributions : List (Option (List Field)))
    (present : List Field) :
    (contributions.filterMap id).foldl unite present =
      (contributions.map fun contributed => contributed.getD []).foldl unite present := by
  induction contributions generalizing present with
  | nil => rfl
  | cons contributed rest ih =>
      cases contributed with
      | none => exact (ih present).trans (by rw [List.map_cons, List.foldl_cons, Option.getD_none,
          unite_nil])
      | some fields => exact ih (unite present fields)

/-! ### Uniting again -/

theorem unite_eq_self {present incoming : List Field}
    (kept : ∀ key field, find? key incoming = some field →
      ∃ former, find? key present = some former ∧ join former field = former) :
    unite present incoming = present := by
  unfold unite
  induction present generalizing incoming with
  | nil =>
      cases incoming with
      | nil => rfl
      | cons field rest =>
          obtain ⟨former, found, _⟩ := kept field.key field (if_pos rfl)
          contradiction
  | cons head rest ih =>
      obtain ⟨name, required, doc, shape⟩ := head
      have later : ∀ key field, find? key incoming = some field → name ≠ key →
          ∃ former, find? key rest = some former ∧ join former field = former := by
        intro key field found other
        obtain ⟨former, inPresent, same⟩ := kept key field found
        rw [find?, if_neg other] at inPresent
        exact ⟨former, inPresent, same⟩
      rw [uniteWithin]
      split
      case h_1 missing =>
        refine congrArg (_ :: ·) (ih fun key field found => later key field found ?_)
        rintro rfl
        rw [missing] at found
        contradiction
      case h_2 field found =>
        obtain ⟨former, inPresent, same⟩ := kept name field found
        rw [find?, if_pos rfl] at inPresent
        obtain rfl := Option.some.inj inPresent
        refine congrArg₂ List.cons same (ih fun key other listed => ?_)
        by_cases own : name = key
        · subst own
          have gone := (List.mem_filter.mp (mem_of_find? listed)).2
          rw [key_of_find? listed, bne_self_eq_false] at gone
          contradiction
        · rw [find?_filter_ne own] at listed
          exact later key other listed own

theorem join_eq_self {field other : Field}
    (required : field.required = (field.required || other.required))
    (doc : field.doc = field.doc.or other.doc)
    (shape : uniteShapes field.shape other.shape = field.shape) : join field other = field := by
  obtain ⟨key, isRequired, text, own⟩ := field
  simp only [join] at required doc shape ⊢
  rw [← required, ← doc, shape]

theorem uniteShapes_again (present incoming : Shape) :
    uniteShapes incoming incoming = incoming ∧
      uniteShapes (uniteShapes present incoming) incoming = uniteShapes present incoming := by
  cases incoming with
  | object fields =>
      have inner : ∀ key field, find? key fields = some field → ∀ former,
          uniteShapes field.shape field.shape = field.shape ∧
            uniteShapes (uniteShapes former field.shape) field.shape =
              uniteShapes former field.shape := fun key field found former =>
        have smaller := Shape.sizeOf_lt_object (mem_of_find? found)
        uniteShapes_again former field.shape
      have itself : unite fields fields = fields := unite_eq_self fun key field found =>
        ⟨field, found, join_eq_self (Bool.or_self _).symm (Option.or_self).symm
          (inner key field found field.shape).1⟩
      refine ⟨congrArg Shape.object itself, ?_⟩
      cases present with
      | object former =>
          have again : unite (unite former fields) fields = unite former fields := by
            refine unite_eq_self fun key field found => ?_
            rw [find?_unite, found]
            cases find? key former with
            | none =>
                exact ⟨field, rfl, join_eq_self (Bool.or_self _).symm (Option.or_self).symm
                  (inner key field found field.shape).1⟩
            | some before =>
                refine ⟨_, rfl, join_eq_self ?_ ?_ (inner key field found before.shape).2⟩
                · rw [Bool.or_assoc, Bool.or_self]
                · rw [Option.or_assoc, Option.or_self]
          exact congrArg Shape.object again
      | _ => exact congrArg Shape.object itself
  | _ => cases present <;> exact ⟨rfl, rfl⟩
termination_by sizeOf incoming
decreasing_by simpa using smaller

/-- What was united with a contribution, and with others then. -/
def reunited (present contribution : List Field) (others : List (List Field)) : List Field :=
  others.foldl unite (unite present contribution)

section Again

variable {key : String} {field former : Field} {present contribution : List Field}
  {others : List (List Field)}

private theorem joined_of_reunited (found : find? key contribution = some field)
    (reached : find? key (reunited present contribution others) = some former) :
    ∃ fields, field ∈ fields ∧ joined fields = some former := by
  have listed : find? key ((contribution :: others).foldl unite present) = _ :=
    find?_foldl_unite (contribution :: others) present
  rw [List.foldl_cons] at listed
  rw [reunited, listed] at reached
  refine ⟨_, List.mem_append_right _ ?_, reached⟩
  exact List.mem_filterMap.mpr ⟨contribution, List.mem_cons_self, found⟩

private theorem has_reunited (found : find? key contribution = some field) :
    ∃ former, find? key (reunited present contribution others) = some former :=
  has_foldl_unite.mpr (Or.inl (has_unite.mpr (Or.inr ⟨field, found⟩)))

theorem join_reunited (found : find? key contribution = some field)
    (reached : find? key (reunited present contribution others) = some former) :
    join former field = { former with shape := uniteShapes former.shape field.shape } := by
  obtain ⟨fields, listed, equal⟩ := joined_of_reunited found reached
  have required : (former.required || field.required) = former.required := by
    rw [required_joined equal]
    cases wanted : field.required with
    | false => rw [Bool.or_false]
    | true => rw [Bool.or_true, List.any_eq_true.mpr ⟨field, listed, wanted⟩]
  have doc : former.doc.or field.doc = former.doc := by
    cases text : former.doc with
    | some own => rfl
    | none =>
        rw [doc_joined equal, List.findSome?_eq_none_iff] at text
        rw [text field listed, Option.or_none]
  rw [join, required, doc]

theorem join_reunited_eq_self (found : find? key contribution = some field)
    (reached : find? key (reunited present contribution others) = some former)
    (untouched : ∀ other ∈ others, key ∉ keys other) : join former field = former := by
  have nothing : given key others = [] := by
    refine List.filterMap_eq_nil_iff.mpr fun other listed => ?_
    cases inOther : find? key other with
    | none => rfl
    | some extra => exact absurd (has_iff_mem_keys.mp ⟨extra, inOther⟩) (untouched other listed)
  rw [join_reunited found reached]
  rw [reunited, find?_foldl_unite, nothing, List.append_nil, joined_toList, find?_unite,
    found] at reached
  cases before : find? key present with
  | none =>
      rw [before] at reached
      obtain rfl := Option.some.inj reached
      rw [(uniteShapes_again field.shape field.shape).1]
  | some earlier =>
      rw [before] at reached
      obtain rfl := Option.some.inj reached
      rw [(uniteShapes_again earlier.shape field.shape).2]

end Again

/-- What uniting a contribution again does, where only `others` were united in between:
keys stay in their order, required and documented as they were, and so do the shapes of all
keys that none of the others has. -/
structure UnitesAgain (reached contribution : List Field) (others : List (List Field)) :
    Prop where
  keys : keys (unite reached contribution) = keys reached
  fields : ∀ key former, find? key reached = some former →
    ∃ shape, find? key (unite reached contribution) = some { former with shape := shape } ∧
      ((∀ other ∈ others, key ∉ Field.keys other) → shape = former.shape)
  apart : (∀ key ∈ Field.keys contribution, ∀ other ∈ others, key ∉ Field.keys other) →
    unite reached contribution = reached

theorem reunited_unitesAgain (present contribution : List Field) (others : List (List Field)) :
    UnitesAgain (reunited present contribution others) contribution others where
  keys := by
    have none : ((keys contribution).filter fun key =>
        !(keys (reunited present contribution others)).contains key) = [] := by
      refine List.filter_eq_nil_iff.mpr fun key listed => ?_
      obtain ⟨field, found⟩ := has_iff_mem_keys.mpr listed
      simpa using has_iff_mem_keys.mp (has_reunited found)
    rw [keys_unite, none, List.append_nil]
  fields := by
    intro key former reached
    rw [find?_unite, reached]
    cases found : find? key contribution with
    | none => exact ⟨former.shape, rfl, fun _ => rfl⟩
    | some field =>
        have joins := join_reunited found reached
        refine ⟨uniteShapes former.shape field.shape, ?_, fun untouched => ?_⟩
        · rw [← joins, join, key_of_find? reached]
        · have same := join_reunited_eq_self found reached untouched
          rw [joins] at same
          exact congrArg FieldOf.shape same
  apart untouched := by
    refine unite_eq_self fun key field found => ?_
    have reachable : Has key (reunited present contribution others) := has_reunited found
    obtain ⟨former, reached⟩ := reachable
    have listed := has_iff_mem_keys.mp ⟨field, found⟩
    exact ⟨former, reached, join_reunited_eq_self found reached (untouched key listed)⟩

end Field

end ElmClient
