import FusionGraph.Foundations.SearchBounds
import FusionGraph.Traversal.ShortestPaths

/-!
# The bounds of a breadth-first search only truncate

The depth limit and the cap on the nodes cut the result of the unbounded search
off: a bounded search visits the first nodes, within the depth limit, that the
unbounded one visits, at the same depths (`bounds_only_truncate`). A capped search
therefore reports every node at its distance.
-/

set_option autoImplicit false

namespace FusionGraph

open Foundations Foundations.BreadthFirst

namespace CsrGraph

variable {graph : CsrGraph} {base : BaseLayer} {starts : List ℕ}

/-- A smaller cap admits the first of the start nodes. -/
theorem admittedStarts_take {maxNodes more : ℕ} (smaller : maxNodes ≤ more) :
    graph.admittedStarts starts maxNodes =
      (graph.admittedStarts starts more).take maxNodes := by
  rw [admittedStarts, admittedStarts, List.take_take, min_eq_left smaller]

/-- **The log of a bounded search is cut off from the log of a less bounded one.** -/
theorem searchLog_truncates {maxDepth deep maxNodes more : ℕ} (shallow : maxDepth ≤ deep)
    (smaller : maxNodes ≤ more) :
    graph.searchLog base starts maxDepth maxNodes =
      ((graph.searchLog base starts deep more).filter
        fun entry => decide (entry.2 ≤ maxDepth)).take maxNodes := by
  have order : FifoOrder 0 [] ((graph.admittedStarts starts more).map fun start => (start, 0)) :=
    .of_starts (graph.admittedStarts_nodup starts more)
  have within : ∀ entry ∈ [] ++ (graph.admittedStarts starts more).map fun start => (start, 0),
      entry.2 ≤ maxDepth := by
    intro entry member
    obtain ⟨start, -, rfl⟩ := List.mem_map.mp member
    exact Nat.zero_le maxDepth
  have filtered : graph.searchLog base starts maxDepth more =
      (graph.searchLog base starts deep more).filter fun entry => decide (entry.2 ≤ maxDepth) := by
    have cut : search (base.merged graph.delta) maxDepth more graph.nodeBound []
        ((graph.admittedStarts starts more).map fun start => (start, 0)) =
      (search (base.merged graph.delta) deep more graph.nodeBound []
        ((graph.admittedStarts starts more).map (fun start => (start, 0)) ++ [])).filter
          fun entry => decide (entry.2 ≤ maxDepth) :=
      search_filter shallow order within (by simp) (.inl rfl)
    rwa [List.append_nil] at cut
  rw [← filtered]
  refine search_take smaller ?_
  rw [List.nil_append, List.nil_append, admittedStarts_take smaller, List.map_take]

end CsrGraph

/-- **Bounds only truncate.** On every reachable graph, the nodes that a search with
a depth limit and a cap visits, with their depths, are the first entries, as many
as the cap says, among those within the depth limit of the search without bounds;
and every depth is a distance. -/
theorem bounds_only_truncate (target : Target) {graph : CsrGraph} (reachable : graph.Reachable)
    (starts : List ℕ) {maxDepth : ℕ} (inRange : maxDepth ≤ u32Max) (maxNodes : Usize) :
    ∃ bounded full, bfsBounded target graph starts maxDepth (some maxNodes.val) = .ok bounded ∧
      bfsBounded target graph starts u32Max none = .ok full ∧
      bounded.depths.length = bounded.visited.length ∧
      full.depths.length = full.visited.length ∧
      bounded.visited.zip bounded.depths = ((full.visited.zip full.depths).filter
        fun entry => decide (entry.2 ≤ maxDepth)).take maxNodes.val ∧
      ∀ entry ∈ bounded.visited.zip bounded.depths,
        IsDistance graph.Edge (graph.IsStart starts) entry.1 entry.2 := by
  obtain ⟨base, stores⟩ := reachable.stores
  obtain ⟨bounded, ran, lists⟩ := stores.bfsBoundedWithBackend_eq starts maxDepth
    (some maxNodes.val) (selectBackend target)
  obtain ⟨full, fullRan, fullLists⟩ := stores.bfsBoundedWithBackend_eq starts u32Max none
    (selectBackend target)
  obtain ⟨last, invariant⟩ := stores.searchLog_invariant reachable starts u32Max
  have truncated : graph.searchLog base starts maxDepth maxNodes.val =
      ((graph.searchLog base starts u32Max usizeMax).filter
        fun entry => decide (entry.2 ≤ maxDepth)).take maxNodes.val :=
    CsrGraph.searchLog_truncates inRange maxNodes.property
  refine ⟨bounded, full, ran, fullRan, ?_, ?_, ?_, ?_⟩
  · rw [lists.depths, lists.visited, List.length_map, List.length_map]
  · rw [fullLists.depths, fullLists.visited, List.length_map, List.length_map]
  · rw [lists.zip_eq, fullLists.zip_eq]
    exact truncated
  · intro entry member
    rw [lists.zip_eq] at member
    have inFull : entry ∈ graph.searchLog base starts u32Max usizeMax := by
      have kept : entry ∈ graph.searchLog base starts maxDepth maxNodes.val := member
      rw [truncated] at kept
      exact (List.mem_filter.mp (List.mem_of_mem_take kept)).1
    exact (invariant.mem_iff.mp inFull).2

open CsrGraph in
theorem bounds_only_truncate_witness : ∃ (graph : CsrGraph) (bounded : BfsResult),
    graph.Reachable ∧ bfsBounded .aarch64 graph [0] 1 (some 2) = .ok bounded ∧
      ∃ full, bfsBounded .aarch64 graph [0] u32Max none = .ok full ∧
        bounded.visited.zip bounded.depths = ((full.visited.zip full.depths).filter
          fun entry => decide (entry.2 ≤ 1)).take 2 := by
  obtain ⟨graph, built, -⟩ := Checked.exists_of_passes
    (show (buildAndMutate [(0, 1), (0, 2), (1, 3)] [.insert 0 3 .default]).passes
      (fun _ => true) = true by decide +kernel)
  have reachable := Reachable.of_buildAndMutate (by decide) built
  obtain ⟨bounded, full, ran, fullRan, -, -, truncated, -⟩ :=
    bounds_only_truncate .aarch64 reachable [0] (by decide : 1 ≤ u32Max) ⟨2, by decide⟩
  exact ⟨graph, bounded, reachable, ran, full, fullRan, truncated⟩

end FusionGraph
