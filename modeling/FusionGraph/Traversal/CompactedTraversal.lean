import FusionGraph.Traversal.ShortestPaths

/-!
# Traversals of a compacted graph

Compaction keeps the edges of the merged topology, so it keeps every walk. It
does not keep the nodes: the rebuilt graph has as many nodes as the surviving
edges need, and a start node beyond them is no longer contained. The traversal
from a contained start is the same exactly when a surviving edge has an endpoint
at or beyond it.
-/

set_option autoImplicit false

namespace FusionGraph

open Foundations Foundations.BreadthFirst

namespace CsrGraph

variable {graph compacted : CsrGraph} {base : BaseLayer} {start maxDepth : ℕ}

/-- What a compaction returns is a graph that a builder has built. -/
theorem Stores.reachable_of_compact (stores : graph.Stores base)
    (outcome : graph.compact.2 = .ok compacted) : compacted.Reachable := by
  obtain ⟨-, builder, same, -, -⟩ := stores.compact_eq
  exact .built (same.symm.trans outcome)

/-- **Compaction keeps the edges.** -/
theorem Reachable.edge_compact (reachable : graph.Reachable)
    (outcome : graph.compact.2 = .ok compacted) (source target : ℕ) :
    compacted.Edge source target ↔ graph.Edge source target := by
  obtain ⟨base, stores⟩ := reachable.stores
  obtain ⟨delta, layer, storesLayer, records⟩ := stores.compact_records outcome
  rw [stores.edge_iff, storesLayer.edge_iff, delta, BaseLayer.merged_new, records.targets_merge,
    mergedSlice_eq_merged reachable.disjoint]

/-- `hasEdge` answers whether there is an edge. -/
theorem Reachable.hasEdge_iff (reachable : graph.Reachable) (source target : ℕ) :
    graph.hasEdge source target = .ok true ↔ graph.Edge source target := by
  obtain ⟨base, stores⟩ := reachable.stores
  rw [stores.hasEdge_eq reachable.disjoint, stores.edge_iff, Except.ok.injEq, decide_eq_true_iff]

/-- **A compacted graph contains the nodes up to the largest endpoint of a
surviving edge.** -/
theorem Reachable.contains_compact (reachable : graph.Reachable)
    (outcome : graph.compact.2 = .ok compacted) (node : ℕ) :
    compacted.contains node = true ↔
      ∃ source target, graph.hasEdge source target = .ok true ∧ (node ≤ source ∨ node ≤ target) := by
  obtain ⟨base, stores⟩ := reachable.stores
  obtain ⟨-, layer, storesLayer, records⟩ := stores.compact_records outcome
  rw [storesLayer.contains_iff, records.nodes, lt_nodeUniverse]
  have live : ∀ source target, graph.hasEdge source target = .ok true ↔
      ∃ weight, (source, target, weight) ∈ merge base graph.hasWeights graph.delta :=
    fun source target => by
      rw [reachable.hasEdge_iff, stores.edge_iff, exists_mem_merge reachable.disjoint]
  constructor
  · rintro ⟨⟨source, target, weight⟩, member, bound⟩
    exact ⟨source, target, (live source target).mpr ⟨weight, member⟩, bound⟩
  · rintro ⟨source, target, edge, bound⟩
    obtain ⟨weight, member⟩ := (live source target).mp edge
    exact ⟨(source, target, weight), member, bound⟩

end CsrGraph

/-- The start is still contained after compaction, and the traversal from it
visits the same nodes at the same depths. -/
def TraversalPreserved (platform : Target) (graph compacted : CsrGraph) (start maxDepth : ℕ) : Prop :=
  compacted.contains start = true ∧
    ∃ before after, bfs platform graph start maxDepth = .ok before ∧
      bfs platform compacted start maxDepth = .ok after ∧ before.nodeDepths = after.nodeDepths

/-- **Compaction preserves the traversal from a contained start exactly when a
surviving edge has an endpoint at or beyond the start.** -/
theorem traversal_preserved_iff {graph compacted : CsrGraph} {start : ℕ} (platform : Target)
    (reachable : graph.Reachable) (outcome : graph.compact.2 = .ok compacted)
    (contained : graph.contains start = true) (maxDepth : ℕ) :
    TraversalPreserved platform graph compacted start maxDepth ↔
      ∃ source target, graph.hasEdge source target = .ok true ∧ (start ≤ source ∨ start ≤ target) := by
  rw [← reachable.contains_compact outcome]
  refine ⟨fun preserved => preserved.1, fun kept => ⟨kept, ?_⟩⟩
  obtain ⟨base, stores⟩ := reachable.stores
  obtain ⟨before, ranBefore, pairsBefore⟩ := reachable.bfsBounded_nodeDepths platform [start] maxDepth
  obtain ⟨after, ranAfter, pairsAfter⟩ :=
    (stores.reachable_of_compact outcome).bfsBounded_nodeDepths platform [start] maxDepth
  refine ⟨before, after, ranBefore, ranAfter, ?_⟩
  have edges : compacted.Edge = graph.Edge := by
    funext source target
    exact propext (reachable.edge_compact outcome source target)
  have starts : compacted.IsStart [start] = graph.IsStart [start] := by
    funext node
    refine propext (and_congr_right fun member => ?_)
    obtain rfl := List.mem_singleton.mp member
    simp only [kept, contained]
  rw [pairsBefore, pairsAfter, edges, starts]

open CsrGraph in
theorem traversal_preserved_iff_witness : ∃ graph compacted : CsrGraph,
    graph.compact.2 = .ok compacted ∧ graph.contains 1 = true ∧
      TraversalPreserved .aarch64 graph compacted 1 5 := by
  have run : (buildAndMutate [(0, 1), (1, 2)] [.delete 1 2, .insert 0 2 .default]).passes
      (fun graph => graph.compact.2.passes (fun _ => graph.contains 1) &&
        (graph.hasEdge 0 2).passes id) = true := by
    decide +kernel
  obtain ⟨graph, built, tested⟩ := Checked.exists_of_passes run
  obtain ⟨compacts, reads⟩ := Bool.and_eq_true_iff.mp tested
  obtain ⟨compacted, outcome, contained⟩ := Checked.exists_of_passes compacts
  obtain ⟨found, edge, rfl⟩ := Checked.exists_of_passes reads
  exact ⟨graph, compacted, outcome, contained, (traversal_preserved_iff .aarch64
    (.of_buildAndMutate (by decide) built) outcome contained 5).mpr ⟨0, 2, edge, .inr (by decide)⟩⟩

open CsrGraph in
/-- With the base edges `(0, 1)` and `(1, 2)`, deleting `(1, 2)` leaves node 2
without an edge, and compaction drops it. -/
theorem compaction_drops_start : ∃ graph compacted : CsrGraph, graph.Reachable ∧
    buildAndMutate [(0, 1), (1, 2)] [.delete 1 2] = .ok graph ∧
    graph.compact.2 = .ok compacted ∧
    graph.contains 2 = true ∧ compacted.contains 2 = false ∧
    ¬ TraversalPreserved .other graph compacted 2 10 := by
  have run : (buildAndMutate [(0, 1), (1, 2)] [.delete 1 2]).passes (fun graph =>
      graph.compact.2.passes fun compacted =>
        graph.contains 2 && !compacted.contains 2) = true := by
    decide +kernel
  obtain ⟨graph, built, compacts⟩ := Checked.exists_of_passes run
  obtain ⟨compacted, outcome, tested⟩ := Checked.exists_of_passes compacts
  obtain ⟨before, after⟩ := Bool.and_eq_true_iff.mp tested
  rw [Bool.not_eq_true'] at after
  exact ⟨graph, compacted, .of_buildAndMutate (by decide) built, built, outcome, before, after,
    fun preserved => by simp [TraversalPreserved, after] at preserved⟩

end FusionGraph
