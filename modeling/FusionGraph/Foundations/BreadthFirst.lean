import Mathlib.Data.List.Nodup
import Mathlib.Data.Nat.Find
import Mathlib.Order.Bounds.Basic

/-!
# Breadth-first search over a relation

A walk follows the edges of a relation, and the distance of a node is the length
of a shortest walk from a start. The nodes of the next distance are the new
successors of the nodes of the current one (`isDistance_succ_iff`), and
`newNodes` is what a search finds of a list of successors: the nodes it has not
seen, each once.
-/

set_option autoImplicit false

namespace Foundations

namespace BreadthFirst

universe u

variable {V : Type u}

/-- A walk of the given length along the edges of a relation. -/
inductive Walk (edge : V → V → Prop) : ℕ → V → V → Prop where
  | refl (v : V) : Walk edge 0 v v
  | tail {n : ℕ} {s v w : V} (before : Walk edge n s v) (last : edge v w) : Walk edge (n + 1) s w

/-- A walk can be extended at its first node. -/
theorem Walk.head {edge : V → V → Prop} {n : ℕ} {u v w : V} (first : edge u v)
    (rest : Walk edge n v w) : Walk edge (n + 1) u w := by
  induction rest with
  | refl v => exact .tail (.refl u) first
  | tail before last ih => exact .tail (ih first) last

/-- A walk along the edges is a walk back along the reversed edges. -/
theorem Walk.reverse {edge other : V → V → Prop} (converse : ∀ v w, edge v w → other w v) {n : ℕ}
    {s v : V} (walk : Walk edge n s v) : Walk other n v s := by
  induction walk with
  | refl v => exact .refl v
  | tail before last ih => exact .head (converse _ _ last) ih

/-- The lengths of the walks from a start to a node. -/
def walkLengths (edge : V → V → Prop) (start : V → Prop) (v : V) : Set ℕ :=
  {n | ∃ s, start s ∧ Walk edge n s v}

/-- The length of a shortest walk from a start. -/
def IsDistance (edge : V → V → Prop) (start : V → Prop) (v : V) (k : ℕ) : Prop :=
  IsLeast (walkLengths edge start v) k

section Distance

variable {edge : V → V → Prop} {start : V → Prop} {v w : V} {k n : ℕ}

theorem isDistance_zero_iff : IsDistance edge start v 0 ↔ start v := by
  constructor
  · rintro ⟨⟨s, isStart, walk⟩, -⟩
    cases walk
    exact isStart
  · intro isStart
    exact ⟨⟨v, isStart, .refl v⟩, fun n _ => Nat.zero_le n⟩

theorem IsDistance.unique (first : IsDistance edge start v k) (second : IsDistance edge start v n) :
    k = n :=
  IsLeast.unique first second

/-- A node with a walk has a distance, which is at most the length of the walk. -/
theorem exists_isDistance_le (walk : n ∈ walkLengths edge start v) :
    ∃ k ≤ n, IsDistance edge start v k := by
  classical
  have some : ∃ k, k ∈ walkLengths edge start v := ⟨n, walk⟩
  exact ⟨Nat.find some, Nat.find_min' some walk, Nat.find_spec some, fun m member =>
    Nat.find_min' some member⟩

/-- An edge leads at most one step further. -/
theorem IsDistance.exists_le_succ (found : IsDistance edge start v k) (step : edge v w) :
    ∃ n ≤ k + 1, IsDistance edge start w n := by
  obtain ⟨s, isStart, walk⟩ := found.1
  exact exists_isDistance_le ⟨s, isStart, walk.tail step⟩

/-- **The nodes of the next distance are the new successors of those of the
current one.** -/
theorem isDistance_succ_iff :
    IsDistance edge start w (k + 1) ↔
      (∃ v, IsDistance edge start v k ∧ edge v w) ∧ ∀ n ≤ k, ¬ IsDistance edge start w n := by
  constructor
  · intro found
    have nearer : ∀ n ≤ k, ¬ IsDistance edge start w n := fun n small other => by
      have same := found.unique other
      omega
    obtain ⟨s, isStart, walk⟩ := found.1
    cases walk with
    | @tail _ _ v _ before last =>
      obtain ⟨m, small, distance⟩ := exists_isDistance_le (v := v) ⟨s, isStart, before⟩
      obtain ⟨n, bound, next⟩ := distance.exists_le_succ last
      have same := found.unique next
      obtain rfl : m = k := by omega
      exact ⟨⟨v, distance, last⟩, nearer⟩
  · rintro ⟨⟨v, distance, last⟩, nearer⟩
    obtain ⟨n, bound, next⟩ := distance.exists_le_succ last
    obtain rfl : n = k + 1 := by
      by_contra different
      exact nearer n (by omega) next
    exact next

end Distance

/-! ## New nodes -/

section NewNodes

variable [DecidableEq V]

/-- The nodes of a list that have not been seen, each at its first occurrence. -/
def newNodes : List V → List V → List V
  | _, [] => []
  | seen, v :: rest => if v ∈ seen then newNodes seen rest else v :: newNodes (v :: seen) rest

/-- Only membership in the seen nodes matters. -/
theorem newNodes_congr {seen other : List V} (same : ∀ v, v ∈ seen ↔ v ∈ other) (nodes : List V) :
    newNodes seen nodes = newNodes other nodes := by
  induction nodes generalizing seen other with
  | nil => rfl
  | cons v rest ih =>
      have next : newNodes (v :: seen) rest = newNodes (v :: other) rest :=
        ih fun w => by simp [same]
      simp only [newNodes, same, next, ih same]

theorem mem_newNodes {seen nodes : List V} {v : V} :
    v ∈ newNodes seen nodes ↔ v ∈ nodes ∧ v ∉ seen := by
  induction nodes generalizing seen with
  | nil => simp [newNodes]
  | cons w rest ih =>
      by_cases known : w ∈ seen
      · rw [newNodes, if_pos known, ih, List.mem_cons]
        constructor
        · rintro ⟨later, new⟩
          exact ⟨.inr later, new⟩
        · rintro ⟨rfl | later, new⟩
          · exact absurd known new
          · exact ⟨later, new⟩
      · rw [newNodes, if_neg known, List.mem_cons, ih, List.mem_cons, List.mem_cons, not_or]
        constructor
        · rintro (rfl | ⟨later, -, new⟩)
          · exact ⟨.inl rfl, known⟩
          · exact ⟨.inr later, new⟩
        · rintro ⟨rfl | later, new⟩
          · exact .inl rfl
          · by_cases same : v = w
            · exact .inl same
            · exact .inr ⟨later, same, new⟩

theorem newNodes_nodup (seen nodes : List V) : (newNodes seen nodes).Nodup := by
  induction nodes generalizing seen with
  | nil => exact List.nodup_nil
  | cons w rest ih =>
      by_cases known : w ∈ seen
      · rw [newNodes, if_pos known]
        exact ih seen
      · rw [newNodes, if_neg known, List.nodup_cons]
        exact ⟨fun again => (mem_newNodes.mp again).2 List.mem_cons_self, ih _⟩

/-- The new nodes of a second list are those that the first has not shown. -/
theorem newNodes_append (seen first second : List V) :
    newNodes seen (first ++ second) =
      newNodes seen first ++ newNodes (seen ++ newNodes seen first) second := by
  induction first generalizing seen with
  | nil => rw [List.nil_append, newNodes, List.nil_append, List.append_nil]
  | cons w rest ih =>
      by_cases known : w ∈ seen
      · rw [List.cons_append, newNodes, if_pos known, ih, newNodes, if_pos known]
      · have same : newNodes (w :: seen ++ newNodes (w :: seen) rest) second =
            newNodes (seen ++ w :: newNodes (w :: seen) rest) second :=
          newNodes_congr (fun v => by
            simp only [List.cons_append, List.mem_cons, List.mem_append]
            tauto) second
        rw [List.cons_append, newNodes, if_neg known, ih, newNodes, if_neg known, same]
        rfl

/-- Nodes that have been seen may be dropped beforehand. -/
theorem newNodes_filter {seen dropped : List V} (known : ∀ v ∈ dropped, v ∈ seen)
    (nodes : List V) :
    newNodes seen (nodes.filter fun v => decide (v ∉ dropped)) = newNodes seen nodes := by
  induction nodes generalizing seen with
  | nil => rfl
  | cons w rest ih =>
      have later : newNodes (w :: seen) (rest.filter fun v => decide (v ∉ dropped)) =
          newNodes (w :: seen) rest :=
        ih fun v member => List.mem_cons_of_mem w (known v member)
      by_cases gone : w ∈ dropped
      · rw [List.filter_cons_of_neg (by simpa using gone), ih known, newNodes,
          if_pos (known w gone)]
      · rw [List.filter_cons_of_pos (by simpa using gone), newNodes, newNodes, ih known, later]

end NewNodes

end BreadthFirst

end Foundations
