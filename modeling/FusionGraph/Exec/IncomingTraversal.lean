import FusionGraph.Exec.GraphTraversal
import FusionGraph.Traversal.DirectionOptimized

/-!
# Incoming traversals

An incoming traversal searches the transpose, with the graph itself as the
transpose of that. Both searches it may run return a breadth-first result along
the reversed edges, and a walk along the reversed edges is a walk of the graph
read from its end.
-/

set_option autoImplicit false

namespace FusionGraph

open Foundations Foundations.BreadthFirst

/-- The specification of an incoming breadth-first search without a cap on the
nodes. -/
structure TraversalSpec.Incoming (spec : TraversalSpec) (starts : List ℕ) (maxDepth : ℕ) :
    Prop where
  start : spec.start = starts
  maxDepth : spec.maxDepth = maxDepth
  maxNodes : spec.maxNodes = none
  algorithm : spec.algorithm = .bfs
  direction : spec.direction = .incoming

/-- The lengths of the walks of a graph from a node to a contained start. -/
def CsrGraph.lengthsToStart (graph : CsrGraph) (starts : List ℕ) (node : ℕ) : Set ℕ :=
  {length | ∃ start ∈ starts, graph.contains start = true ∧ Walk graph.Edge length node start}

variable {graph reverse : CsrGraph} {base reversed : BaseLayer}

theorem Transposed.symm (transposed : Transposed base reversed) : Transposed reversed base where
  nodes := transposed.nodes.symm
  converse source target := (transposed.converse target source).symm

/-- The uncapped search that the operator runs on a graph with a transpose. -/
def uncappedSearch (target : Target) (forward reverse : CsrGraph) (maxDepth : ℕ) :
    List ℕ → Outcome BfsResult
  | [start] => Checked.orElse (bfsDirectionOptimized target forward reverse start maxDepth)
      (bfsBounded target forward [start] maxDepth none)
  | starts => bfsBounded target forward starts maxDepth none

/-- The search that the operator runs on a graph with a transpose is
breadth-first. -/
theorem CsrGraph.Stores.uncappedSearch_eq (stores : graph.Stores base)
    (reachable : graph.Reachable) (clean : graph.delta = DeltaLayer.new)
    (storesReverse : reverse.Stores reversed) (cleanReverse : reverse.delta = DeltaLayer.new)
    (transposed : Transposed base reversed) (sameEdges : graph.edgeCount = reverse.edgeCount)
    (target : Target) (starts : List ℕ) (maxDepth : ℕ) :
    ∃ result, uncappedSearch target graph reverse maxDepth starts = .ok result ∧
      result.IsBreadthFirst graph.Edge (graph.IsStart starts) maxDepth := by
  obtain ⟨plain, ran, correct⟩ := bfs_correct_on_merged_topology target reachable starts maxDepth
  match starts with
  | [] => exact ⟨plain, ran, correct⟩
  | [start] =>
    obtain ⟨result, log, last, returned, lists, invariant⟩ := stores.bfsDirectionOptimizedBy_eq
      bottomUp target clean storesReverse cleanReverse transposed sameEdges start maxDepth
    refine ⟨result, ?_, lists.isBreadthFirst invariant⟩
    rw [uncappedSearch, bfsDirectionOptimized, returned, Checked.orElse_ok]
  | first :: second :: rest => exact ⟨plain, ran, correct⟩

/-- A shortest walk back along the transpose is a shortest walk to a start. -/
theorem walkLengths_transposed (transposed : Transposed base reversed)
    (stores : graph.Stores base) (clean : graph.delta = DeltaLayer.new)
    (storesReverse : reverse.Stores reversed) (cleanReverse : reverse.delta = DeltaLayer.new)
    (starts : List ℕ) (node : ℕ) :
    walkLengths reverse.Edge (reverse.IsStart starts) node = graph.lengthsToStart starts node := by
  have edges : ∀ v w, reverse.Edge v w ↔ graph.Edge w v := fun v w => by
    rw [stores.edge_iff, storesReverse.edge_iff, clean, cleanReverse, BaseLayer.merged_new,
      BaseLayer.merged_new, transposed.converse]
  have contained : ∀ start, reverse.contains start = true ↔ graph.contains start = true :=
    fun start => by rw [stores.contains_iff, storesReverse.contains_iff, transposed.nodes]
  ext length
  constructor
  · rintro ⟨start, ⟨listed, inside⟩, walk⟩
    exact ⟨start, listed, (contained start).mp inside, walk.reverse fun v w => (edges v w).mp⟩
  · rintro ⟨start, listed, inside, walk⟩
    exact ⟨start, ⟨listed, (contained start).mpr inside⟩, walk.reverse fun v w => (edges w v).mpr⟩

/-- The operator of an incoming search runs the search of the transpose. -/
theorem GraphTraversalExec.execute_incoming {spec : TraversalSpec} {starts : List ℕ} {maxDepth : ℕ}
    (incoming : spec.Incoming starts maxDepth) (target : Target) (graph reverse : CsrGraph)
    {result : BfsResult}
    (ran : uncappedSearch target reverse graph maxDepth starts = .ok result) :
    ((GraphTraversalExec.new graph spec).withReverse reverse).execute target 0 =
      .ok { nodeId := result.visited, depth := result.depths,
            path := result.visited.map fun _ => none } := by
  have valid : ((GraphTraversalExec.new graph spec).withReverse reverse).validateSpec = .ok () := by
    simp [validateSpec, GraphTraversalExec.new, withReverse, incoming.algorithm, incoming.direction]
  have collected : ((GraphTraversalExec.new graph spec).withReverse reverse).collectBfsRows target
      usizeMax = .ok (result.visited, result.depths) := by
    rw [collectBfsRows, if_neg (by decide)]
    simp only [GraphTraversalExec.new, withReverse, incoming.direction, incoming.start,
      incoming.maxDepth, if_true, Checked.expect, Checked.ok_bind, Checked.pure_eq_ok]
    match starts with
    | [] => simp only [show bfsBounded target reverse [] maxDepth none = .ok result from ran,
        Checked.ok_bind]
    | [start] => simp only [uncappedSearch] at ran; simp only [ran, Checked.ok_bind]
    | first :: second :: rest => simp only [show bfsBounded target reverse (first :: second :: rest)
        maxDepth none = .ok result from ran, Checked.ok_bind]
  rw [execute, if_neg (by simp), valid, Checked.ok_bind]
  have uncapped : spec.maxNodes.getD usizeMax = usizeMax := by rw [incoming.maxNodes, Option.getD_none]
  simp only [GraphTraversalExec.new, withReverse, uncapped] at collected ⊢
  simp only [collected, Checked.mapError, Checked.ok_bind, Checked.pure_eq_ok]

/-- **An incoming traversal answers who can reach the start nodes**: on a graph
built from one list of edges and its transpose, it returns one row for each node
with a walk to a contained start within the depth limit, with the length of a
shortest one, and no other row. -/
theorem incoming_finds_ancestors (target : Target) (size : Usize) {edges : List (ℕ × ℕ)}
    (endpoints : ∀ edge ∈ edges, edge.1 < u32Max ∧ edge.2 < u32Max)
    (count : edges.length ≤ u32Max) :
    ∃ graph reverse, (CsrBuilder.afterCalls [.shardSize size, .edges edges]).build = .ok graph ∧
      graph.transpose.2 = .ok reverse ∧
      ∀ (spec : TraversalSpec) (starts : List ℕ) (maxDepth : ℕ), spec.Incoming starts maxDepth →
        ∃ batch, ((GraphTraversalExec.new graph spec).withReverse reverse).execute target 0 =
          .ok batch ∧ batch.nodeId.Nodup ∧ batch.depth.length = batch.nodeId.length ∧
          ∀ node depth, (node, depth) ∈ batch.rows ↔
            depth ≤ maxDepth ∧ IsLeast (graph.lengthsToStart starts node) depth := by
  obtain ⟨graph, reverse, base, reversed, built, clean, stores, outcome, cleanReverse, storesReverse,
    transposed, sameEdges⟩ := CsrBuilder.exists_build_transposed size endpoints count
  refine ⟨graph, reverse, built, outcome, fun spec starts maxDepth incoming => ?_⟩
  have reachableReverse : reverse.Reachable := (stores.transpose_records outcome).1
  obtain ⟨result, ran, correct⟩ := storesReverse.uncappedSearch_eq reachableReverse cleanReverse
    stores clean transposed.symm sameEdges.symm target starts maxDepth
  refine ⟨_, GraphTraversalExec.execute_incoming incoming target graph reverse ran,
    correct.visited_nodup, correct.length_depths, fun node depth => ?_⟩
  rw [← walkLengths_transposed transposed stores clean storesReverse cleanReverse starts node]
  exact correct.mem_nodeDepths node depth

theorem incoming_finds_ancestors_witness : ∃ graph reverse batch,
    (CsrBuilder.afterCalls [.shardSize ⟨0, by decide⟩, .edges [(0, 1), (1, 2), (3, 2)]]).build =
      .ok graph ∧ graph.transpose.2 = .ok reverse ∧
    ((GraphTraversalExec.new graph { TraversalSpec.default with
      start := [2, 9], direction := .incoming }).withReverse reverse).execute .other 0 =
        .ok batch ∧ batch.nodeId.Nodup := by
  obtain ⟨graph, reverse, built, outcome, answers⟩ := incoming_finds_ancestors .other
    ⟨0, by decide⟩ (show ∀ edge ∈ [(0, 1), (1, 2), (3, 2)],
      edge.1 < u32Max ∧ edge.2 < u32Max by decide) (by decide)
  obtain ⟨batch, ran, nodup, -⟩ := answers { TraversalSpec.default with
    start := [2, 9], direction := .incoming } [2, 9] 10 ⟨rfl, rfl, rfl, rfl, rfl⟩
  exact ⟨graph, reverse, batch, built, outcome, ran, nodup⟩

end FusionGraph
