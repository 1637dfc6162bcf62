import FusionGraph.Traversal.CompactedTraversal

/-!
# Start nodes

A search follows inserted edges to nodes beyond the base layer, and marks such
nodes in the overflow set of its tracker. A start node is asked for with
`contains` first, which compares it with the number of base nodes. So a search
works from a node of the live graph exactly when the node is a base node; from a
node that only insertions have brought in, it returns nothing.
-/

set_option autoImplicit false

namespace FusionGraph

open Foundations Foundations.BreadthFirst

/-- An edge that `has_edge` reports. -/
def CsrGraph.LiveEdge (graph : CsrGraph) (source target : ℕ) : Prop :=
  graph.hasEdge source target = .ok true

/-- The search from the start visits exactly the nodes at distance at most
`maxDepth` along the live edges, once each, and the start itself at depth 0. -/
def TraversesFrom (platform : Target) (graph : CsrGraph) (start maxDepth : ℕ) : Prop :=
  ∃ result, bfs platform graph start maxDepth = .ok result ∧ result.visited.Nodup ∧
    result.depths.length = result.visited.length ∧ (start, 0) ∈ result.nodeDepths ∧
    result.nodeDepths = {entry | entry.2 ≤ maxDepth ∧
      IsDistance graph.LiveEdge (fun node => node = start) entry.1 entry.2}

variable {graph : CsrGraph} {start : ℕ}

/-- The one start of a search is the node itself, when it is contained. -/
theorem CsrGraph.isStart_singleton (contained : graph.contains start = true) :
    graph.IsStart [start] = fun node => node = start := by
  funext node
  refine propext ⟨fun isStart => List.mem_singleton.mp isStart.1, ?_⟩
  rintro rfl
  exact ⟨List.mem_singleton.mpr rfl, contained⟩

/-- **A search works from a node exactly when the node is contained**, that is
when it is below the number of base nodes. -/
theorem traverses_from_iff (platform : Target) (reachable : graph.Reachable) (start maxDepth : ℕ) :
    TraversesFrom platform graph start maxDepth ↔ graph.contains start = true := by
  have live : graph.LiveEdge = graph.Edge := by
    funext source target
    exact propext (reachable.hasEdge_iff source target)
  obtain ⟨result, ran, correct⟩ := bfs_correct_on_merged_topology platform reachable [start] maxDepth
  constructor
  · rintro ⟨found, returned, -, -, atStart, -⟩
    obtain rfl : found = result := Except.ok.inj (returned.symm.trans ran)
    obtain ⟨-, distance⟩ := (correct.mem_nodeDepths start 0).mp atStart
    exact (isDistance_zero_iff.mp distance).2
  · intro contained
    have pairs : result.nodeDepths = {entry | entry.2 ≤ maxDepth ∧
        IsDistance graph.LiveEdge (fun node => node = start) entry.1 entry.2} := by
      ext ⟨node, depth⟩
      rw [correct.mem_nodeDepths, graph.isStart_singleton contained, live]
      exact Iff.rfl
    refine ⟨result, ran, correct.visited_nodup, correct.length_depths, ?_, pairs⟩
    rw [pairs]
    exact ⟨Nat.zero_le maxDepth, isDistance_zero_iff.mpr rfl⟩

open CsrGraph in
theorem traverses_from_iff_witness : ∃ graph : CsrGraph,
    buildAndMutate [(0, 1)] [.insert 1 5 .default] = .ok graph ∧
      TraversesFrom .aarch64 graph 1 3 := by
  obtain ⟨graph, built, contained⟩ := Checked.exists_of_passes
    (show (buildAndMutate [(0, 1)] [.insert 1 5 .default]).passes (fun graph => graph.contains 1) =
      true by decide +kernel)
  exact ⟨graph, built,
    (traverses_from_iff .aarch64 (.of_buildAndMutate (by decide) built) 1 3).mpr contained⟩

open CsrGraph in
/-- With the base edge `(0, 1)` and the inserted edges `(1, 5)` and `(5, 0)`, the
search from 0 visits node 5, and the search from 5 visits nothing. -/
theorem inserted_node_is_no_start : ∃ (graph : CsrGraph) (first second : BfsResult),
    buildAndMutate [(0, 1)] [.insert 1 5 .default, .insert 5 0 .default] = .ok graph ∧
    graph.Reachable ∧ graph.LiveEdge 5 0 ∧
    bfs .other graph 0 10 = .ok first ∧ 5 ∈ first.visited ∧
    bfs .other graph 5 10 = .ok second ∧ second.visited = [] ∧
    ¬ TraversesFrom .other graph 5 10 := by
  obtain ⟨graph, built, ran⟩ := Checked.exists_of_passes
    (show (buildAndMutate [(0, 1)] [.insert 1 5 .default, .insert 5 0 .default]).passes
      (fun graph => decide (graph.hasEdge 5 0 = .ok true) &&
        (bfs .other graph 0 10).passes fun first => decide (5 ∈ first.visited) &&
          (bfs .other graph 5 10).passes fun second => decide (second = .empty)) = true by
      decide +kernel)
  obtain ⟨edge, ran⟩ := Bool.and_eq_true_iff.mp ran
  obtain ⟨first, fromBase, ran⟩ := Checked.exists_of_passes ran
  obtain ⟨visits, ran⟩ := Bool.and_eq_true_iff.mp ran
  obtain ⟨second, fromInserted, empty⟩ := Checked.exists_of_passes ran
  obtain rfl := of_decide_eq_true empty
  have inserted : graph.hasEdge 5 0 = .ok true := of_decide_eq_true edge
  refine ⟨graph, first, .empty, built, .of_buildAndMutate (by decide) built, inserted, fromBase,
    of_decide_eq_true visits, fromInserted, rfl, ?_⟩
  rintro ⟨result, returned, -, -, atStart, -⟩
  obtain rfl : .empty = result := Except.ok.inj (fromInserted.symm.trans returned)
  exact List.not_mem_nil atStart

end FusionGraph
