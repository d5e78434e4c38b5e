/-
What the functions of operations are called: the value name of the operation with one of
a few suffixes. Functions of two operations are called alike only where one operation is
called like the other with what makes one suffix another one.
-/

import ElmClient.Elm.Request
import ElmClient.Proofs.Name.Value
import Mathlib.Data.List.Pairwise

namespace ElmClient

theorem EffectProfile.functionSuffix_injective : Function.Injective functionSuffix := by
  rintro ⟨_ | _, _ | _ | _⟩ ⟨_ | _, _ | _ | _⟩ same <;>
    first
    | rfl
    | exact absurd same (by decide)

namespace Elm

open Name

/-! ### Suffixes -/

/-- What follows the value name of an operation: in its builder, and in the function of
every profile. -/
def requestSuffixes (profiles : List EffectProfile) : List String :=
  "Wire_" :: profiles.map EffectProfile.functionSuffix

def requestNames (profiles : List EffectProfile) (name : TypeName) : List String :=
  (requestSuffixes profiles).map (name.toValueName ++ ·)

/-- In front of one suffix the text makes another one. -/
def Extends (profiles : List EffectProfile) (tail : String) : Prop :=
  ∃ suffix ∈ requestSuffixes profiles, tail ++ suffix ∈ requestSuffixes profiles

theorem functionSuffix_capital (profile : EffectProfile) :
    profile.functionSuffix = "" ∨ Capital profile.functionSuffix.toList := by
  rcases profile with ⟨_ | _, _ | _ | _⟩
  · exact Or.inl rfl
  all_goals exact Or.inr ⟨_, _, rfl, by decide⟩

private theorem requestSuffixes_capital {profiles : List EffectProfile} {suffix : String}
    (member : suffix ∈ requestSuffixes profiles) : suffix = "" ∨ Capital suffix.toList := by
  rcases List.mem_cons.mp member with rfl | listed
  · exact Or.inr ⟨_, _, rfl, by decide⟩
  · obtain ⟨profile, _, rfl⟩ := List.mem_map.mp listed
    exact functionSuffix_capital profile

private theorem Extends.capital {profiles : List EffectProfile} {tail : String}
    (extends? : Extends profiles tail) : tail = "" ∨ Capital tail.toList := by
  obtain ⟨suffix, _, member⟩ := extends?
  cases characters : tail.toList with
  | nil => exact Or.inl (String.toList_inj.mp characters)
  | cons first rest =>
      rcases requestSuffixes_capital member with empty | ⟨head, others, text, upper⟩
      · rw [← String.toList_inj, String.toList_append, characters] at empty
        cases empty
      · rw [String.toList_append, characters] at text
        obtain ⟨rfl, -⟩ := List.cons.inj text
        exact Or.inr ⟨_, _, rfl, upper⟩

private theorem requestSuffixes_nodup {profiles : List EffectProfile} (distinct : profiles.Nodup) :
    (requestSuffixes profiles).Nodup := by
  refine List.nodup_cons.mpr ⟨fun again => ?_, distinct.map EffectProfile.functionSuffix_injective⟩
  obtain ⟨profile, _, same⟩ := List.mem_map.mp again
  rcases profile with ⟨_ | _, _ | _ | _⟩ <;> exact absurd same (by decide)

private theorem requestNames_nodup {profiles : List EffectProfile} (distinct : profiles.Nodup)
    (name : TypeName) : (requestNames profiles name).Nodup :=
  (requestSuffixes_nodup distinct).map fun _ _ same => (String.append_right_inj _).mp same

/-! ### Names of two operations -/

private theorem append_eq_append_iff {first second third fourth : String} :
    first ++ second = third ++ fourth ↔
      (∃ tail, first = third ++ tail ∧ fourth = tail ++ second) ∨
        ∃ tail, third = first ++ tail ∧ second = tail ++ fourth := by
  constructor
  · intro same
    have lists := congrArg String.toList same
    rw [String.toList_append, String.toList_append, List.append_eq_append_iff] at lists
    rcases lists with ⟨tail, longer, shorter⟩ | ⟨tail, longer, shorter⟩
    · refine Or.inr ⟨String.ofList tail, ?_, ?_⟩ <;>
        exact String.toList_inj.mp (by rwa [String.toList_append, String.toList_ofList])
    · refine Or.inl ⟨String.ofList tail, ?_, ?_⟩ <;>
        exact String.toList_inj.mp (by rwa [String.toList_append, String.toList_ofList])
  · rintro (⟨tail, rfl, rfl⟩ | ⟨tail, rfl, rfl⟩)
    · exact String.append_assoc ..
    · exact (String.append_assoc ..).symm

section Pairs

variable {profiles : List EffectProfile} {left right : TypeName} {tail : String}
  (leftProper : left.Proper) (rightProper : right.Proper) (different : left ≠ right)

include leftProper rightProper different

private theorem valueName_of_text (longer : Extends profiles tail)
    (text : left.text = right.escaped ++ tail) :
    left.toValueName = right.toValueName ++ tail := by
  rcases longer.capital with rfl | capital
  · rw [String.append_empty] at text ⊢
    exact (TypeName.toValueName_eq_iff_escaped leftProper rightProper different).mpr (Or.inl text)
  · exact (TypeName.toValueName_eq_append_iff leftProper rightProper capital).mpr text

theorem text_of_valueName (longer : Extends profiles tail)
    (value : left.toValueName = right.toValueName ++ tail) :
    left.text = right.escaped ++ tail ∨ right.text = left.escaped ++ tail := by
  rcases longer.capital with rfl | capital
  · rw [String.append_empty] at value ⊢
    rw [String.append_empty]
    exact (TypeName.toValueName_eq_iff_escaped leftProper rightProper different).mp value
  · exact Or.inl ((TypeName.toValueName_eq_append_iff leftProper rightProper capital).mp value)

/-- Where one operation is called like the other with a tail, a function of the one has the
name of a function of the other. -/
theorem requestNames_meet (longer : Extends profiles tail)
    (text : left.text = right.escaped ++ tail) :
    ∃ name ∈ requestNames profiles left, name ∈ requestNames profiles right := by
  have value := valueName_of_text leftProper rightProper different longer text
  obtain ⟨suffix, inSuffixes, extended⟩ := longer
  refine ⟨_, List.mem_map_of_mem inSuffixes, List.mem_map.mpr ⟨_, extended, ?_⟩⟩
  rw [value, String.append_assoc]

private theorem requestNames_disjoint_iff :
    List.Disjoint (requestNames profiles left) (requestNames profiles right) ↔
      ∀ tail, Extends profiles tail →
        left.text ≠ right.escaped ++ tail ∧ right.text ≠ left.escaped ++ tail := by
  constructor
  · intro disjoint tail longer
    refine ⟨fun text => ?_, fun text => ?_⟩
    · obtain ⟨name, inLeft, inRight⟩ :=
        requestNames_meet leftProper rightProper different longer text
      exact disjoint inLeft inRight
    · obtain ⟨name, inRight, inLeft⟩ :=
        requestNames_meet rightProper leftProper different.symm longer text
      exact disjoint inLeft inRight
  · intro apart name inLeft inRight
    obtain ⟨first, inSuffixes, rfl⟩ := List.mem_map.mp inLeft
    obtain ⟨second, alsoInSuffixes, same⟩ := List.mem_map.mp inRight
    -- the operation with the shorter suffix has the longer name
    rcases append_eq_append_iff.mp same with ⟨tail, value, rfl⟩ | ⟨tail, value, rfl⟩
    · have longer : Extends profiles tail := ⟨second, alsoInSuffixes, inSuffixes⟩
      rcases text_of_valueName rightProper leftProper different.symm longer value with text | text
      · exact (apart tail longer).2 text
      · exact (apart tail longer).1 text
    · have longer : Extends profiles tail := ⟨first, inSuffixes, alsoInSuffixes⟩
      rcases text_of_valueName leftProper rightProper different longer value with text | text
      · exact (apart tail longer).1 text
      · exact (apart tail longer).2 text

end Pairs

/-! ### Names of all operations -/

/-- The functions of all operations have distinct names exactly when no operation is called
like another one, escaped, with a tail. -/
theorem allRequestNames_nodup_iff {profiles : List EffectProfile} {names : List TypeName}
    (distinctProfiles : profiles.Nodup) (distinct : names.Nodup)
    (proper : ∀ name ∈ names, name.Proper) :
    (names.flatMap (requestNames profiles)).Nodup ↔
      ∀ name ∈ names, ∀ other ∈ names, name ≠ other → ∀ tail, Extends profiles tail →
        name.text ≠ other.escaped ++ tail := by
  have symmetric : Std.Symm (Function.onFun List.Disjoint (requestNames profiles)) :=
    ⟨fun _ _ disjoint _ inSecond inFirst => disjoint inFirst inSecond⟩
  rw [List.nodup_flatMap]
  constructor
  · rintro ⟨-, disjoint⟩ name inNames other alsoInNames different tail longer
    have apart := disjoint.forall inNames alsoInNames different
    exact ((requestNames_disjoint_iff (proper name inNames) (proper other alsoInNames)
      different).mp apart tail longer).1
  · intro apart
    refine ⟨fun name _ => requestNames_nodup distinctProfiles name, ?_⟩
    refine distinct.pairwise_of_forall_ne fun name inNames other alsoInNames different => ?_
    refine (requestNames_disjoint_iff (proper name inNames) (proper other alsoInNames)
      different).mpr fun tail longer => ?_
    exact ⟨apart name inNames other alsoInNames different tail longer,
      apart other alsoInNames name inNames different.symm tail longer⟩

/-! ### Helpers -/

theorem functionName_ne_helperName {profile : EffectProfile} (longer : profile ≠ .standard)
    (value : String) (union : Union) :
    value ++ profile.functionSuffix ≠ Stringifier.helperName union := by
  rcases profile with ⟨_ | _, _ | _ | _⟩
  · exact absurd rfl longer
  all_goals exact ne_of_ends (by simp [EffectProfile.functionSuffix])

theorem helperName_mem_requestNames {profiles : List EffectProfile} {name : TypeName}
    {union : Union} :
    Stringifier.helperName union ∈ requestNames profiles name ↔
      EffectProfile.standard ∈ profiles ∧ name.toValueName = Stringifier.helperName union := by
  constructor
  · intro member
    obtain ⟨suffix, inSuffixes, same⟩ := List.mem_map.mp member
    rcases List.mem_cons.mp inSuffixes with rfl | listed
    · exact absurd same (ne_of_ends (by simp))
    · obtain ⟨profile, inProfiles, rfl⟩ := List.mem_map.mp listed
      by_cases standard : profile = .standard
      · subst standard
        exact ⟨inProfiles, String.append_empty.symm.trans same⟩
      · exact absurd same (functionName_ne_helperName standard _ union)
  · rintro ⟨standard, same⟩
    refine List.mem_map.mpr ⟨"", List.mem_cons_of_mem _ (List.mem_map_of_mem standard), ?_⟩
    rw [String.append_empty, same]

end Elm

end ElmClient
