import FusionGraph.Foundations.BreadthFirst
import Mathlib.Data.List.Perm.Subperm

/-!
# Searching in the order of discovery

A search keeps the nodes it has found, each with a depth, in the order in which
it found them: a part that it has processed and a part that waits. `search`
processes the first waiting node until none waits; it has a depth limit and a cap
on the number of nodes.

`FifoOrder` says how the two lists are ordered, whatever the cap cuts off.
`FifoInvariant` adds that they hold the right nodes when nothing is cut off. Both
hold of the starts, and processing a node keeps them; when nothing waits any more
the list is the nodes within the depth limit with their distances
(`FifoInvariant.mem_iff`, `search_invariant`).
-/

set_option autoImplicit false

namespace Foundations

namespace BreadthFirst

universe u

variable {V : Type u}

/-- How the processed and the waiting entries of a search are ordered; `current`
is the depth of the entry processed last. -/
structure FifoOrder (current : ℕ) (done waiting : List (V × ℕ)) : Prop where
  nodup : ((done ++ waiting).map Prod.fst).Nodup
  sorted : ((done ++ waiting).map Prod.snd).Pairwise (· ≤ ·)
  last : (done.map Prod.snd).getLast?.getD 0 = current
  below : ∀ entry ∈ done, entry.2 ≤ current
  near : ∀ entry ∈ waiting, current ≤ entry.2 ∧ entry.2 ≤ current + 1

namespace FifoOrder

variable {current k : ℕ} {done waiting rest : List (V × ℕ)} {v : V}

/-- The starts wait at depth 0. -/
theorem of_starts {starts : List V} (nodup : starts.Nodup) :
    FifoOrder 0 [] (starts.map fun s => (s, 0)) where
  nodup := by simpa [Function.comp_def] using nodup
  sorted := by
    rw [List.nil_append, List.map_map]
    exact List.pairwise_map.mpr (List.pairwise_of_forall fun _ _ => Nat.le_refl 0)
  last := rfl
  below := by simp
  near entry member := by
    obtain ⟨s, -, rfl⟩ := List.mem_map.mp member
    exact ⟨Nat.le_refl 0, Nat.zero_le 1⟩

/-- The entries behind the first waiting one are at most one step deeper. -/
theorem rest_near (order : FifoOrder current done ((v, k) :: rest)) :
    ∀ entry ∈ rest, k ≤ entry.2 ∧ entry.2 ≤ k + 1 := fun entry member => by
  have ordered := order.sorted
  rw [List.map_append, List.map_cons, List.pairwise_append, List.pairwise_cons] at ordered
  have head := order.near (v, k) List.mem_cons_self
  have near := order.near entry (List.mem_cons_of_mem _ member)
  have above := ordered.2.1.1 entry.2 (List.mem_map_of_mem member)
  exact ⟨above, by omega⟩

/-- Nothing is more than one step deeper than the first waiting entry. -/
theorem le_succ (order : FifoOrder current done ((v, k) :: rest)) :
    ∀ entry ∈ done ++ (v, k) :: rest, entry.2 ≤ k + 1 := fun entry member => by
  have head := order.near (v, k) List.mem_cons_self
  rcases List.mem_append.mp member with before | later
  · have small := order.below entry before
    omega
  · rcases List.mem_cons.mp later with rfl | inRest
    · exact Nat.le_succ _
    · exact (order.rest_near entry inRest).2

/-- Processing the first waiting entry appends new nodes, one step deeper. -/
theorem process (order : FifoOrder current done ((v, k) :: rest)) {fresh : List V}
    (fresh_nodup : fresh.Nodup)
    (fresh_new : ∀ w ∈ fresh, w ∉ (done ++ (v, k) :: rest).map Prod.fst) :
    FifoOrder k (done ++ [(v, k)]) (rest ++ fresh.map fun w => (w, k + 1)) := by
  have together : (done ++ [(v, k)]) ++ (rest ++ fresh.map fun w => (w, k + 1)) =
      (done ++ (v, k) :: rest) ++ fresh.map fun w => (w, k + 1) := by simp
  have head := order.near (v, k) List.mem_cons_self
  have depths : ∀ entry ∈ fresh.map (fun w => (w, k + 1)), entry.2 = k + 1 := fun entry member => by
    obtain ⟨w, -, rfl⟩ := List.mem_map.mp member
    rfl
  refine ⟨?_, ?_, ?_, ?_, ?_⟩
  · rw [together, List.map_append, List.nodup_append]
    refine ⟨order.nodup, by simpa [Function.comp_def] using fresh_nodup, ?_⟩
    rintro old inOld new inNew rfl
    obtain ⟨entry, inFresh, rfl⟩ := List.mem_map.mp inNew
    obtain ⟨w, member, rfl⟩ := List.mem_map.mp inFresh
    exact fresh_new w member inOld
  · rw [together, List.map_append, List.pairwise_append]
    refine ⟨order.sorted, ?_, ?_⟩
    · rw [List.map_map]
      exact List.pairwise_map.mpr (List.pairwise_of_forall fun _ _ => Nat.le_refl _)
    · intro first inOld second inNew
      obtain ⟨entry, member, rfl⟩ := List.mem_map.mp inOld
      obtain ⟨new, inFresh, rfl⟩ := List.mem_map.mp inNew
      rw [depths new inFresh]
      exact order.le_succ entry member
  · rw [List.map_append, List.map_singleton, List.getLast?_concat, Option.getD_some]
  · intro entry member
    rcases List.mem_append.mp member with before | last
    · have small := order.below entry before
      omega
    · rw [List.mem_singleton.mp last]
  · intro entry member
    rcases List.mem_append.mp member with inRest | new
    · exact order.rest_near entry inRest
    · rw [depths entry new]
      omega

/-- A search finds as many nodes as there are, at most. -/
theorem length_le (order : FifoOrder current done waiting) {nodes : List V}
    (inside : ∀ entry ∈ done ++ waiting, entry.1 ∈ nodes) :
    done.length + waiting.length ≤ nodes.length := by
  have subset : (done ++ waiting).map Prod.fst ⊆ nodes := fun v member => by
    obtain ⟨entry, inLog, rfl⟩ := List.mem_map.mp member
    exact inside entry inLog
  have bound := (List.subperm_of_subset order.nodup subset).length_le
  rwa [List.length_map, List.length_append] at bound

/-- The depth of the last entry is the largest. -/
theorem isGreatest (order : FifoOrder current done waiting) (some : done ≠ []) :
    IsGreatest {k | k ∈ done.map Prod.snd} current := by
  constructor
  · have last := order.last
    rw [List.getLast?_eq_getLast_of_ne_nil (by simpa using some), Option.getD_some] at last
    exact last ▸ List.getLast_mem _
  · rintro k member
    obtain ⟨entry, inDone, rfl⟩ := List.mem_map.mp member
    exact order.below entry inDone

end FifoOrder

/-- The order of a search whose entries are the nodes found so far with lengths
of walks, and which has found all successors of the processed entries. -/
structure FifoInvariant (edge : V → V → Prop) (start : V → Prop) (limit current : ℕ)
    (done waiting : List (V × ℕ)) : Prop extends FifoOrder current done waiting where
  sound : ∀ entry ∈ done ++ waiting,
    entry.2 ≤ limit ∧ entry.2 ∈ walkLengths edge start entry.1
  starts : ∀ s, start s → (s, 0) ∈ done ++ waiting
  closed : ∀ entry ∈ done, entry.2 < limit → ∀ w, edge entry.1 w →
    ∃ k ≤ entry.2 + 1, (w, k) ∈ done ++ waiting

namespace FifoInvariant

variable {edge : V → V → Prop} {start : V → Prop} {limit current : ℕ}
  {done waiting rest : List (V × ℕ)} {v : V} {k : ℕ}

/-- The starts wait at depth 0. -/
theorem of_starts {starts : List V} (nodup : starts.Nodup) (exact : ∀ s, s ∈ starts ↔ start s) :
    FifoInvariant edge start limit 0 [] (starts.map fun s => (s, 0)) where
  toFifoOrder := .of_starts nodup
  sound entry member := by
    obtain ⟨s, inStarts, rfl⟩ := List.mem_map.mp member
    exact ⟨Nat.zero_le limit, s, (exact s).mp inStarts, .refl s⟩
  starts s isStart := List.mem_map.mpr ⟨s, (exact s).mpr isStart, rfl⟩
  closed := by simp

/-- Processing the first waiting entry appends its new successors, one step
deeper. At the depth limit there are none. -/
theorem process (invariant : FifoInvariant edge start limit current done ((v, k) :: rest))
    {fresh : List V} (fresh_nodup : fresh.Nodup)
    (fresh_new : ∀ w ∈ fresh, w ∉ (done ++ (v, k) :: rest).map Prod.fst)
    (fresh_edge : ∀ w ∈ fresh, k < limit ∧ edge v w)
    (covered : k < limit → ∀ w, edge v w →
      w ∈ fresh ∨ w ∈ (done ++ (v, k) :: rest).map Prod.fst) :
    FifoInvariant edge start limit k (done ++ [(v, k)])
      (rest ++ fresh.map fun w => (w, k + 1)) := by
  have together : (done ++ [(v, k)]) ++ (rest ++ fresh.map fun w => (w, k + 1)) =
      (done ++ (v, k) :: rest) ++ fresh.map fun w => (w, k + 1) := by simp
  refine ⟨invariant.toFifoOrder.process fresh_nodup fresh_new, ?_, ?_, ?_⟩
  · rw [together]
    intro entry member
    rcases List.mem_append.mp member with old | new
    · exact invariant.sound entry old
    · obtain ⟨w, inFresh, rfl⟩ := List.mem_map.mp new
      obtain ⟨room, step⟩ := fresh_edge w inFresh
      obtain ⟨-, s, isStart, walk⟩ := invariant.sound (v, k) (by simp)
      exact ⟨room, s, isStart, walk.tail step⟩
  · rw [together]
    exact fun s isStart => List.mem_append_left _ (invariant.starts s isStart)
  · rw [together]
    intro entry member room w step
    rcases List.mem_append.mp member with before | last
    · obtain ⟨n, small, found⟩ := invariant.closed entry before room w step
      exact ⟨n, small, List.mem_append_left _ found⟩
    · obtain rfl := List.mem_singleton.mp last
      rcases covered room w step with new | old
      · exact ⟨k + 1, Nat.le_refl _, List.mem_append_right _ (List.mem_map.mpr ⟨w, new, rfl⟩)⟩
      · obtain ⟨entry, inOld, rfl⟩ := List.mem_map.mp old
        exact ⟨entry.2, invariant.le_succ entry inOld, List.mem_append_left _ inOld⟩

/-- A walk within the limit leads to a processed node, at most as deep. -/
theorem exists_of_walk (invariant : FifoInvariant edge start limit current done []) {n : ℕ}
    {s : V} (isStart : start s) (walk : Walk edge n s v) (room : n ≤ limit) :
    ∃ k ≤ n, (v, k) ∈ done := by
  induction walk with
  | refl v => exact ⟨0, Nat.le_refl 0, by simpa using invariant.starts _ isStart⟩
  | @tail n s v w before last ih =>
      obtain ⟨k, small, found⟩ := ih isStart (by omega)
      obtain ⟨m, bound, next⟩ := invariant.closed (v, k) found (by omega : k < limit) w last
      exact ⟨m, by simp only at bound; omega, by simpa using next⟩

/-- **When nothing waits, the processed entries are the nodes within the limit,
with their distances.** -/
theorem mem_iff (invariant : FifoInvariant edge start limit current done []) :
    (v, k) ∈ done ↔ k ≤ limit ∧ IsDistance edge start v k := by
  have distinct : (done.map Prod.fst).Nodup := by simpa using invariant.nodup
  constructor
  · intro member
    obtain ⟨room, walk⟩ := invariant.sound (v, k) (by simpa using member)
    refine ⟨room, walk, ?_⟩
    rintro n ⟨s, isStart, other⟩
    by_cases small : n ≤ limit
    · obtain ⟨m, bound, found⟩ := invariant.exists_of_walk isStart other small
      have same := List.inj_on_of_nodup_map distinct member found rfl
      obtain ⟨-, rfl⟩ := Prod.mk.inj same
      exact bound
    · exact room.trans (Nat.le_of_not_le small)
  · rintro ⟨room, ⟨s, isStart, walk⟩, least⟩
    obtain ⟨m, bound, found⟩ := invariant.exists_of_walk isStart walk room
    obtain ⟨-, other⟩ := invariant.sound (v, m) (by simpa using found)
    obtain rfl : m = k := Nat.le_antisymm bound (least other)
    exact found

end FifoInvariant

/-! ## The search -/

section Search

variable [DecidableEq V] (successors : V → List V) (limit cap : ℕ)

/-- The nodes that processing an entry finds: its new successors above the depth
limit, as far as the cap on the number of nodes leaves room. -/
def discovered (seen : List V) (v : V) (depth : ℕ) : List V :=
  if limit ≤ depth then [] else (newNodes seen (successors v)).take (cap - seen.length)

/-- Processes the first waiting entry until none waits, for at most `fuel`
entries. -/
def search : ℕ → List (V × ℕ) → List (V × ℕ) → List (V × ℕ)
  | _, done, [] => done
  | 0, done, _ :: _ => done
  | fuel + 1, done, (v, depth) :: rest =>
    search fuel (done ++ [(v, depth)])
      (rest ++ (discovered successors limit cap ((done ++ (v, depth) :: rest).map Prod.fst) v
        depth).map fun w => (w, depth + 1))

variable {successors limit cap} {seen nodes : List V} {v w : V} {fuel depth current : ℕ}
  {done waiting rest : List (V × ℕ)}

theorem mem_of_mem_discovered (member : w ∈ discovered successors limit cap seen v depth) :
    depth < limit ∧ w ∈ successors v ∧ w ∉ seen := by
  by_cases deep : limit ≤ depth
  · simp [discovered, deep] at member
  · rw [discovered, if_neg deep] at member
    exact ⟨Nat.lt_of_not_le deep, mem_newNodes.mp (List.mem_of_mem_take member)⟩

theorem discovered_nodup : (discovered successors limit cap seen v depth).Nodup := by
  by_cases deep : limit ≤ depth
  · simp [discovered, deep]
  · rw [discovered, if_neg deep]
    exact (newNodes_nodup seen (successors v)).sublist (List.take_sublist _ _)

/-- Processing an entry keeps the order. -/
theorem FifoOrder.discover (order : FifoOrder current done ((v, depth) :: rest)) :
    FifoOrder depth (done ++ [(v, depth)])
      (rest ++ (discovered successors limit cap ((done ++ (v, depth) :: rest).map Prod.fst) v
        depth).map fun w => (w, depth + 1)) :=
  order.process discovered_nodup fun _ member => (mem_of_mem_discovered member).2.2

/-- Processing an entry stays inside a set of nodes that is closed under
successors. -/
theorem discover_inside
    (closed : ∀ v ∈ nodes, ∀ w ∈ successors v, w ∈ nodes)
    (inside : ∀ entry ∈ done ++ (v, depth) :: rest, entry.1 ∈ nodes) :
    ∀ entry ∈ (done ++ [(v, depth)]) ++
      (rest ++ (discovered successors limit cap seen v depth).map fun w => (w, depth + 1)),
      entry.1 ∈ nodes := by
  intro entry member
  rw [List.append_assoc, List.singleton_append, ← List.cons_append, ← List.append_assoc] at member
  rcases List.mem_append.mp member with old | new
  · exact inside entry old
  · obtain ⟨w, found, rfl⟩ := List.mem_map.mp new
    exact closed v (inside (v, depth) (by simp)) w (mem_of_mem_discovered found).2.1

/-- A cap that leaves room for every node cuts nothing off. -/
theorem mem_discovered_of_room (order : FifoOrder current done ((v, depth) :: rest))
    (closed : ∀ v ∈ nodes, ∀ w ∈ successors v, w ∈ nodes)
    (inside : ∀ entry ∈ done ++ (v, depth) :: rest, entry.1 ∈ nodes) (room : nodes.length ≤ cap)
    (high : depth < limit) (step : w ∈ successors v) :
    w ∈ discovered successors limit cap ((done ++ (v, depth) :: rest).map Prod.fst) v depth ∨
      w ∈ (done ++ (v, depth) :: rest).map Prod.fst := by
  by_cases known : w ∈ (done ++ (v, depth) :: rest).map Prod.fst
  · exact .inr known
  · refine .inl ?_
    rw [discovered, if_neg (Nat.not_le.mpr high), List.take_of_length_le]
    · exact mem_newNodes.mpr ⟨step, known⟩
    · -- the seen nodes and the new ones are different nodes
      have processed := order.process (newNodes_nodup _ (successors v)) fun w member =>
        (mem_newNodes.mp member).2
      have whole := processed.length_le fun entry member => show entry.1 ∈ nodes by
          rw [List.append_assoc, List.singleton_append, ← List.cons_append,
            ← List.append_assoc] at member
          rcases List.mem_append.mp member with old | new
          · exact inside entry old
          · obtain ⟨u, found, rfl⟩ := List.mem_map.mp new
            exact closed v (inside (v, depth) (by simp)) u (mem_newNodes.mp found).1
      simp only [List.length_append, List.length_map, List.length_cons, List.length_nil] at whole ⊢
      omega

/-- **A search that is cut off by the depth limit only keeps its invariant, and
nothing waits at its end.** -/
theorem search_invariant {edge : V → V → Prop} {start : V → Prop}
    (exact : ∀ v w, w ∈ successors v ↔ edge v w)
    (closed : ∀ v ∈ nodes, ∀ w ∈ successors v, w ∈ nodes) (room : nodes.length ≤ cap)
    (enough : nodes.length ≤ fuel + done.length)
    (inside : ∀ entry ∈ done ++ waiting, entry.1 ∈ nodes)
    (invariant : FifoInvariant edge start limit current done waiting) :
    ∃ last, FifoInvariant edge start limit last
      (search successors limit cap fuel done waiting) [] := by
  induction fuel generalizing current done waiting with
  | zero =>
      have bound := invariant.length_le inside
      obtain rfl : waiting = [] := List.length_eq_zero_iff.mp (by omega)
      exact ⟨current, invariant⟩
  | succ fuel ih =>
      cases waiting with
      | nil => exact ⟨current, invariant⟩
      | cons entry rest =>
          obtain ⟨v, depth⟩ := entry
          refine ih ?_ (discover_inside closed inside)
            (invariant.process discovered_nodup (fun w member => (mem_of_mem_discovered member).2.2)
              (fun w member => ⟨(mem_of_mem_discovered member).1,
                (exact v w).mp (mem_of_mem_discovered member).2.1⟩)
              fun high w step => mem_discovered_of_room invariant.toFifoOrder closed inside room high
                ((exact v w).mpr step))
          rw [List.length_append, List.length_singleton]
          omega

end Search

end BreadthFirst

end Foundations
