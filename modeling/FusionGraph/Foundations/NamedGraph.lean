import FusionGraph.Foundations.BreadthFirst

/-!
# A relation under the names of its nodes

When nodes have names and no two have the same, an edge between nodes is an edge
between their names. If every node with an edge has a name, walks between named nodes
are the walks between their names, so both have the same distances.
-/

set_option autoImplicit false

namespace Foundations

namespace BreadthFirst

universe u v

variable {V : Type u} {Name : Type v}

/-- The edges between names. -/
def named (name : V → Option Name) (edge : V → V → Prop) (a b : Name) : Prop :=
  ∃ v w, name v = some a ∧ name w = some b ∧ edge v w

/-- No two nodes have the same name. -/
def NamesApart (name : V → Option Name) : Prop :=
  ∀ v w a, name v = some a → name w = some a → v = w

/-- Every node with an edge has a name. -/
def NamesEdges (name : V → Option Name) (edge : V → V → Prop) : Prop :=
  ∀ v w, edge v w → (name v).isSome ∧ (name w).isSome

variable {name : V → Option Name} {edge : V → V → Prop} {v w : V} {a b : Name}

/-- One edge more is an edge more between names. -/
theorem named_insert (s t : V) :
    named name (fun v w => edge v w ∨ (v = s ∧ w = t)) a b ↔
      named name edge a b ∨ (name s = some a ∧ name t = some b) := by
  constructor
  · rintro ⟨v, w, first, second, step | ⟨rfl, rfl⟩⟩
    · exact .inl ⟨v, w, first, second, step⟩
    · exact .inr ⟨first, second⟩
  · rintro (⟨v, w, first, second, step⟩ | ⟨first, second⟩)
    · exact ⟨v, w, first, second, .inl step⟩
    · exact ⟨s, t, first, second, .inr ⟨rfl, rfl⟩⟩

/-- One edge less is an edge less between names. -/
theorem named_delete (apart : NamesApart name) (s t : V) :
    named name (fun v w => edge v w ∧ ¬ (v = s ∧ w = t)) a b ↔
      named name edge a b ∧ ¬ (name s = some a ∧ name t = some b) := by
  constructor
  · rintro ⟨v, w, first, second, step, other⟩
    refine ⟨⟨v, w, first, second, step⟩, fun same => other ?_⟩
    exact ⟨apart v s a first same.1, apart w t b second same.2⟩
  · rintro ⟨⟨v, w, first, second, step⟩, other⟩
    refine ⟨v, w, first, second, step, ?_⟩
    rintro ⟨rfl, rfl⟩
    exact other ⟨first, second⟩

/-- The edges between names, turned around. -/
theorem named_flip : named name (fun v w => edge w v) a b ↔ named name edge b a := by
  constructor
  · rintro ⟨v, w, first, second, step⟩
    exact ⟨w, v, second, first, step⟩
  · rintro ⟨v, w, first, second, step⟩
    exact ⟨w, v, second, first, step⟩

/-- A walk from a named node is a walk from its name. -/
theorem Walk.named (named : NamesEdges name edge) {n : ℕ} (walk : Walk edge n v w)
    (first : name v = some a) (second : name w = some b) :
    Walk (BreadthFirst.named name edge) n a b := by
  induction walk generalizing b with
  | refl v =>
    obtain rfl := Option.some.inj (first.symm.trans second)
    exact .refl a
  | tail before last ih =>
    obtain ⟨middle, held⟩ := Option.isSome_iff_exists.mp (named _ _ last).1
    exact .tail (ih first held) ⟨_, _, held, second, last⟩

/-- A walk between names leads to a named node. -/
theorem Walk.of_named (apart : NamesApart name) {n : ℕ}
    (walk : Walk (BreadthFirst.named name edge) n a b) (first : name v = some a) :
    ∃ w, (name w = some b) ∧ Walk edge n v w := by
  induction walk with
  | refl a => exact ⟨v, first, .refl v⟩
  | tail before last ih =>
    obtain ⟨middle, held, walk⟩ := ih first
    obtain ⟨u, w, start, stop, step⟩ := last
    obtain rfl := apart middle u _ held start
    exact ⟨w, stop, .tail walk step⟩

/-- **Names keep distances.** -/
theorem isDistance_named (apart : NamesApart name) (named : NamesEdges name edge)
    (first : name v = some a) (second : name w = some b) (k : ℕ) :
    IsDistance (BreadthFirst.named name edge) (· = a) b k ↔ IsDistance edge (· = v) w k := by
  have lengths : walkLengths (BreadthFirst.named name edge) (· = a) b =
      walkLengths edge (· = v) w := by
    ext n
    constructor
    · rintro ⟨start, rfl, walk⟩
      obtain ⟨stop, held, walk⟩ := walk.of_named apart first
      obtain rfl := apart stop w b held second
      exact ⟨v, rfl, walk⟩
    · rintro ⟨start, rfl, walk⟩
      exact ⟨a, rfl, walk.named named first second⟩
  rw [IsDistance, IsDistance, lengths]

/-- A name at a distance from the name of a node is the name of a node. -/
theorem IsDistance.exists_node (apart : NamesApart name) {k : ℕ}
    (found : IsDistance (BreadthFirst.named name edge) (· = a) b k) (first : name v = some a) :
    ∃ w, name w = some b := by
  obtain ⟨⟨start, rfl, walk⟩, -⟩ := found
  obtain ⟨w, held, -⟩ := walk.of_named apart first
  exact ⟨w, held⟩

end BreadthFirst

end Foundations
