/-
The search for a component from itself. It finds the target exactly when some way leads
there. A search that fails has visited everything that can be reached: whatever a visited
component refers to was visited before or is still pending, also where one branch skips
what another has entered. In a resolved document a reference leads to one component, so the
ways that a search takes by name are ways through the components, and a component is found
from itself exactly when it lies on a cycle.
-/

import ElmClient.Elm.Recursion
import ElmClient.Proofs.Shape.Everywhere
import ElmClient.Proofs.Sound.WellFormed
import Mathlib.Logic.Relation

namespace ElmClient

/-! ### References of shapes -/

namespace Shape

/-- The shape refers to the target without passing through a union. -/
inductive Exposes (target : Reference) : Shape → Prop where
  | here : Exposes target (.ref target)
  | nullable {inner : Shape} (inside : Exposes target inner) : Exposes target (.nullable inner)
  | list {inner : Shape} (inside : Exposes target inner) : Exposes target (.list inner)
  | dict {inner : Shape} (inside : Exposes target inner) : Exposes target (.dict inner)
  | field {fields : List Field} {field : Field} (member : field ∈ fields)
      (inside : Exposes target field.shape) : Exposes target (.object fields)

end Shape

namespace Elm

private theorem mem_fieldReferences_iff {name : TypeName} {fields : List Field} :
    name ∈ fieldReferences fields ↔ ∃ field ∈ fields, name ∈ directReferences field.shape := by
  induction fields with
  | nil => simp [fieldReferences]
  | cons field rest ih => simp [fieldReferences, ih]

mutual

private theorem exposes_of_mem {name : TypeName} (shape : Shape)
    (listed : name ∈ directReferences shape) :
    ∃ target, shape.Exposes target ∧ target.typeName = name := by
  match shape with
  | .ref target => exact ⟨target, .here, (List.mem_singleton.mp listed).symm⟩
  | .nullable inner =>
      obtain ⟨target, inside, named⟩ := exposes_of_mem inner listed
      exact ⟨target, .nullable inside, named⟩
  | .list inner =>
      obtain ⟨target, inside, named⟩ := exposes_of_mem inner listed
      exact ⟨target, .list inside, named⟩
  | .dict inner =>
      obtain ⟨target, inside, named⟩ := exposes_of_mem inner listed
      exact ⟨target, .dict inside, named⟩
  | .object fields =>
      obtain ⟨field, member, target, inside, named⟩ := fieldExposes_of_mem fields listed
      exact ⟨target, .field member inside, named⟩
  | .primitive _ | .union _ _ | .enum _ | .bytes | .unit | .anyJson =>
      exact absurd listed List.not_mem_nil
termination_by structural shape

theorem fieldExposes_of_mem {name : TypeName} (fields : List (FieldOf Shape))
    (listed : name ∈ fieldReferences fields) :
    ∃ field ∈ fields, ∃ target, field.shape.Exposes target ∧ target.typeName = name := by
  match fields with
  | [] => exact absurd listed List.not_mem_nil
  | ⟨key, required, doc, shape⟩ :: rest =>
      rcases List.mem_append.mp listed with first | later
      · exact ⟨_, List.mem_cons_self, exposes_of_mem shape first⟩
      · obtain ⟨field, member, found⟩ := fieldExposes_of_mem rest later
        exact ⟨field, List.mem_cons_of_mem _ member, found⟩
termination_by structural fields

end

theorem mem_directReferences_iff {name : TypeName} {shape : Shape} :
    name ∈ directReferences shape ↔ ∃ target, shape.Exposes target ∧ target.typeName = name := by
  refine ⟨exposes_of_mem shape, ?_⟩
  rintro ⟨target, exposed, rfl⟩
  induction exposed with
  | here => exact List.mem_singleton_self _
  | nullable _ ih => exact ih
  | list _ ih => exact ih
  | dict _ ih => exact ih
  | field member _ ih => exact mem_fieldReferences_iff.mpr ⟨_, member, ih⟩

/-! ### Ways through components -/

namespace Naming

variable {naming : Naming}

def Leads (naming : Naming) (name next : TypeName) : Prop :=
  next ∈ naming.componentReferences name

/-- What is visited or pending, and what is referred to from there. -/
structure Frontier (naming : Naming) (target : TypeName) (visited pending : List TypeName) :
    Prop where
  missed : target ∉ visited
  closed : ∀ name ∈ visited, ∀ next, naming.Leads name next → next ∈ visited ∨ next ∈ pending

namespace Frontier

variable {target name : TypeName} {visited pending : List TypeName}

theorem skip (frontier : naming.Frontier target visited (name :: pending))
    (seen : name ∈ visited) : naming.Frontier target visited pending where
  missed := frontier.missed
  closed := by
    intro other member next leads
    rcases frontier.closed other member next leads with already | waiting
    · exact Or.inl already
    · rcases List.mem_cons.mp waiting with rfl | later
      · exact Or.inl seen
      · exact Or.inr later

theorem enter (frontier : naming.Frontier target visited (name :: pending))
    (other : name ≠ target) :
    naming.Frontier target (name :: visited) (naming.componentReferences name ++ pending) where
  missed := by
    rw [List.mem_cons, not_or]
    exact ⟨Ne.symm other, frontier.missed⟩
  closed := by
    intro entered member next leads
    rcases List.mem_cons.mp member with rfl | before
    · exact Or.inr (List.mem_append_left _ leads)
    · rcases frontier.closed entered before next leads with already | waiting
      · exact Or.inl (List.mem_cons_of_mem _ already)
      · rcases List.mem_cons.mp waiting with rfl | later
        · exact Or.inl List.mem_cons_self
        · exact Or.inr (List.mem_append_right _ later)

end Frontier

/-- A search that fails has a closed set of names without the target around it. -/
theorem closed_of_not_reaches {target : TypeName} {visited pending : List TypeName}
    (frontier : naming.Frontier target visited pending)
    (failed : naming.reaches target visited pending = false) :
    ∃ reached, naming.Frontier target reached [] ∧ visited ⊆ reached ∧ pending ⊆ reached := by
  fun_induction naming.reaches target visited pending with
  | case1 visited => exact ⟨visited, frontier, List.Subset.refl _, List.nil_subset _⟩
  | case2 => contradiction
  | case3 visited name pending other seen ih =>
      have known : name ∈ visited := List.contains_iff_mem.mp seen
      obtain ⟨reached, closed, past, later⟩ := ih (frontier.skip known) failed
      exact ⟨reached, closed, past, List.cons_subset.mpr ⟨past known, later⟩⟩
  | case4 visited name pending other fresh ih =>
      obtain ⟨reached, closed, past, later⟩ := ih (frontier.enter other) failed
      obtain ⟨entered, before⟩ := List.cons_subset.mp past
      exact ⟨reached, closed, before,
        List.cons_subset.mpr ⟨entered, (List.append_subset.mp later).2⟩⟩

private theorem way_of_reaches {target : TypeName} {visited pending : List TypeName}
    (found : naming.reaches target visited pending = true) :
    ∃ start ∈ pending, Relation.ReflTransGen naming.Leads start target := by
  fun_induction naming.reaches target visited pending with
  | case1 => contradiction
  | case2 visited pending => exact ⟨target, List.mem_cons_self, .refl⟩
  | case3 visited name pending other seen ih =>
      obtain ⟨start, member, way⟩ := ih found
      exact ⟨start, List.mem_cons_of_mem _ member, way⟩
  | case4 visited name pending other fresh ih =>
      obtain ⟨start, member, way⟩ := ih found
      rcases List.mem_append.mp member with next | later
      · exact ⟨name, List.mem_cons_self, way.head next⟩
      · exact ⟨start, List.mem_cons_of_mem _ later, way⟩

theorem reaches_iff {target : TypeName} {pending : List TypeName} :
    naming.reaches target [] pending = true ↔
      ∃ start ∈ pending, Relation.ReflTransGen naming.Leads start target := by
  refine ⟨way_of_reaches, ?_⟩
  rintro ⟨start, member, way⟩
  rw [← Bool.not_eq_false]
  intro failed
  have nothing : naming.Frontier target [] pending :=
    ⟨List.not_mem_nil, fun name visited => absurd visited List.not_mem_nil⟩
  obtain ⟨reached, closed, -, later⟩ := closed_of_not_reaches nothing failed
  have everywhere : ∀ name, Relation.ReflTransGen naming.Leads start name → name ∈ reached := by
    intro name leading
    induction leading with
    | refl => exact later member
    | tail _ leads known => exact (closed.closed _ known _ leads).resolve_right List.not_mem_nil
  exact closed.missed (everywhere target way)

/-- A component is recursive exactly when it lies on a cycle. -/
theorem isRecursive_iff {name : TypeName} {shape : Shape}
    (found : Keyed.find? name naming.components = some shape) :
    naming.isRecursive name shape = true ↔ Relation.TransGen naming.Leads name name := by
  have own : naming.componentReferences name = directReferences shape := by
    rw [componentReferences, found]
  rw [isRecursive, reaches_iff, Relation.TransGen.head'_iff, ← own]
  rfl

end Naming

end Elm

end ElmClient

namespace ElmClient

def Api.Refers (api : Api) (component next : Component) : Prop :=
  component ∈ api.components ∧ next ∈ api.components ∧
    ∃ target, component.shape.Exposes target ∧ target.component = .schemas ∧
      target.name = next.raw

def Api.Cyclic (api : Api) (component : Component) : Prop :=
  Relation.TransGen api.Refers component component

private theorem Shape.Exposes.nested {target : Reference} {shape : Shape}
    (exposed : shape.Exposes target) :
    Shape.ref target ∈ shape.nested := by
  induction exposed with
  | here => exact mem_nested_self _
  | nullable _ ih => exact List.mem_cons_of_mem _ ih
  | list _ ih => exact List.mem_cons_of_mem _ ih
  | dict _ ih => exact List.mem_cons_of_mem _ ih
  | field member _ ih => exact List.mem_cons_of_mem _ (mem_nestedFields.mpr ⟨_, member, ih⟩)

section Cycles

variable {document : Document} {api : Api} {registry : Registry}
  (sound : api.Sound document registry) (config : Config) (declared : DeclaredTypes)

include sound

private theorem Api.Sound.leads_iff {component : Component} (member : component ∈ api.components)
    (name : TypeName) :
    (Elm.Naming.ofApi config api declared).Leads component.name name ↔
      ∃ next, api.Refers component next ∧ next.name = name := by
  unfold Elm.Naming.Leads Elm.Naming.componentReferences
  rw [sound.find?_components config declared member, Elm.mem_directReferences_iff]
  constructor
  · rintro ⟨target, exposed, rfl⟩
    have shapeSound := sound.shapes component.shape
      (List.mem_append_left _ (List.mem_map_of_mem member))
    obtain ⟨section_, present⟩ := shapeSound _ exposed.nested
    have listed : target.name ∈ api.components.map Component.raw :=
      sound.raws.mem_iff.mpr ((Keyed.contains_iff_mem_keys _ _).mp present)
    obtain ⟨next, nextMember, raw⟩ := List.mem_map.mp listed
    refine ⟨next, ⟨member, nextMember, target, exposed, section_, raw.symm⟩, ?_⟩
    rw [sound.names next nextMember, raw]
    rfl
  · rintro ⟨next, ⟨-, nextMember, target, exposed, -, raw⟩, rfl⟩
    refine ⟨target, exposed, ?_⟩
    rw [sound.names next nextMember, ← raw]
    rfl

private theorem Api.Sound.transGen_leads_iff {component : Component}
    (member : component ∈ api.components) (name : TypeName) :
    Relation.TransGen (Elm.Naming.ofApi config api declared).Leads component.name name ↔
      ∃ next, Relation.TransGen api.Refers component next ∧ next.name = name := by
  constructor
  · intro way
    induction way with
    | single leads =>
        obtain ⟨next, refers, named⟩ := (sound.leads_iff config declared member _).mp leads
        exact ⟨next, .single refers, named⟩
    | tail _ leads ih =>
        obtain ⟨middle, before, rfl⟩ := ih
        have middleMember : middle ∈ api.components := by
          obtain ⟨_, -, last⟩ := Relation.TransGen.tail'_iff.mp before
          exact last.2.1
        obtain ⟨next, refers, named⟩ := (sound.leads_iff config declared middleMember _).mp leads
        exact ⟨next, before.tail refers, named⟩
  · rintro ⟨next, way, rfl⟩
    exact way.lift Component.name fun first second refers =>
      (sound.leads_iff config declared refers.1 _).mpr ⟨second, refers, rfl⟩

theorem Api.Sound.isRecursive_iff {component : Component} (member : component ∈ api.components) :
    (Elm.Naming.ofApi config api declared).isRecursive component.name component.shape = true ↔
      api.Cyclic component := by
  rw [Elm.Naming.isRecursive_iff (sound.find?_components config declared member),
    sound.transGen_leads_iff config declared member]
  constructor
  · rintro ⟨next, way, named⟩
    obtain ⟨_, -, last⟩ := Relation.TransGen.tail'_iff.mp way
    obtain rfl := List.inj_on_of_nodup_map sound.distinct last.2.1 member named
    exact way
  · intro cyclic
    exact ⟨component, cyclic, rfl⟩

end Cycles

end ElmClient
