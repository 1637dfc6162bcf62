import FusionGraph.Core.Transpose
import FusionGraph.Traversal.Dobfs
import FusionGraph.Traversal.BfsSpec

/-!
# The fallback on live mutations

A forward graph with mutations is searched by the ordinary search, but only after
its counts were compared with those of the reverse graph. The counts of the
forward graph are those of its base; a transpose that was taken of it has the
counts of its live edges. So the search falls back exactly when the mutations
leave both counts as they were, and else it returns an error.
-/

set_option autoImplicit false

namespace FusionGraph

open Foundations

/-- The search of a graph with its reverse returns what the ordinary search does. -/
def FallsBack (target : Target) (forward reverse : CsrGraph) (start maxDepth : ℕ) : Prop :=
  ∃ result reference, bfsDirectionOptimized target forward reverse start maxDepth = .ok result ∧
    bfs target forward start maxDepth = .ok reference ∧
    result.visited = reference.visited ∧ result.depths = reference.depths ∧
    result.levels = reference.levels

/-- The mutations keep the counts of the base: as many inserted edges that it does
not have as edges of it with a tombstone, and the same largest endpoint. -/
structure DeltaLayer.KeepsCounts (delta : DeltaLayer) (base : BaseLayer) : Prop where
  edges : (delta.snapshotInsertions.filter fun entry =>
      decide (entry.1.2 ∉ base.targets entry.1.1)).length =
    (base.storedEdges.filter fun edge => delta.isDeleted edge.1 edge.2.1).length
  nodes : nodeUniverse (CsrGraph.merge base false delta) = base.rows.length

/-! ## The counts of the live edges -/

/-- The live edges are the base edges without the tombstones and with the new
insertions. -/
theorem CsrGraph.length_merge_add (base : BaseLayer) (weighted : Bool) (delta : DeltaLayer) :
    (merge base weighted delta).length +
        (base.storedEdges.filter fun edge => delta.isDeleted edge.1 edge.2.1).length =
      base.rows.flatten.length + (delta.snapshotInsertions.filter fun entry =>
        decide (entry.1.2 ∉ base.targets entry.1.1)).length := by
  have split := List.length_eq_length_filter_add (l := base.storedEdges)
    fun edge => delta.isDeleted edge.1 edge.2.1
  rw [merge, mergedEdges, List.length_append, List.length_map, ← base.length_storedEdges, split]
  have kept : (base.storedEdges.filter fun edge =>
      decide ((edge.1, edge.2.1) ∉ delta.snapshotDeletions)) =
        base.storedEdges.filter fun edge => !delta.isDeleted edge.1 edge.2.1 :=
    List.filter_congr fun edge _ => by simp [DeltaLayer.isDeleted]
  rw [kept]
  omega

namespace CsrGraph

variable {graph reverse : CsrGraph} {base : BaseLayer}

/-- **A transpose has the counts of its graph exactly when the mutations keep them.** -/
theorem Stores.counts_transpose_iff (stores : graph.Stores base)
    (outcome : graph.transpose.2 = .ok reverse) :
    graph.nodeCount = reverse.nodeCount ∧ graph.edgeCount = reverse.edgeCount ↔
      graph.delta.KeepsCounts base := by
  obtain ⟨-, -, layer, storesReverse, records⟩ := stores.transpose_records outcome
  have total := length_merge_add base false graph.delta
  rw [stores.nodeCount, stores.edgeCount, storesReverse.nodeCount, storesReverse.edgeCount,
    records.nodes, records.count, nodeUniverse_reversedEdges, length_reversedEdges]
  constructor
  · rintro ⟨nodes, edges⟩
    exact ⟨by omega, nodes.symm⟩
  · intro keeps
    have edges := keeps.edges
    exact ⟨keeps.nodes.symm, by omega⟩

end CsrGraph

/-! ## The guards of the search -/

section Guards

variable {choose : Heuristic} {target : Target} {forward reverse : CsrGraph}

/-- Counts that differ are an error, with mutations or without. -/
theorem bfsDirectionOptimizedBy_of_counts_ne
    (differ : ¬ (forward.nodeCount = reverse.nodeCount ∧ forward.edgeCount = reverse.edgeCount))
    (start maxDepth : ℕ) :
    ∃ reason, bfsDirectionOptimizedBy choose target forward reverse start maxDepth =
      Checked.fail (.invalidTraversal reason) := by
  rw [bfsDirectionOptimizedBy, if_pos (by tauto)]
  exact ⟨_, rfl⟩

/-- With equal counts and a clean reverse graph, mutations lead to the ordinary
search. -/
theorem bfsDirectionOptimizedBy_of_mutated
    (same : forward.nodeCount = reverse.nodeCount ∧ forward.edgeCount = reverse.edgeCount)
    (clean : reverse.delta = DeltaLayer.new) (mutated : forward.delta.isEmpty = false)
    (start maxDepth : ℕ) :
    bfsDirectionOptimizedBy choose target forward reverse start maxDepth =
      bfs target forward start maxDepth := by
  rw [bfsDirectionOptimizedBy, if_neg (by tauto), if_neg (by simp [clean]),
    if_pos (by simp [mutated])]

end Guards

/-- **The search falls back on live mutations exactly when they keep the counts of
the base.** -/
theorem fallsBack_iff_keepsCounts {graph reverse : CsrGraph} (reachable : graph.Reachable)
    (mutated : graph.delta.isEmpty = false) (outcome : graph.transpose.2 = .ok reverse) :
    ∃ base, graph.Stores base ∧ ∀ target start maxDepth,
      FallsBack target graph reverse start maxDepth ↔ graph.delta.KeepsCounts base := by
  obtain ⟨base, stores⟩ := reachable.stores
  obtain ⟨-, clean, -⟩ := stores.transpose_records outcome
  refine ⟨base, stores, fun target start maxDepth => ?_⟩
  rw [← stores.counts_transpose_iff outcome]
  constructor
  · rintro ⟨result, -, returned, -⟩
    by_contra differ
    obtain ⟨reason, failed⟩ : ∃ reason, bfsDirectionOptimized target graph reverse start maxDepth =
        Checked.fail (.invalidTraversal reason) :=
      bfsDirectionOptimizedBy_of_counts_ne differ start maxDepth
    rw [failed] at returned
    cases returned
  · intro same
    obtain ⟨reference, ran, -⟩ :=
      stores.bfsBoundedWithBackend_eq [start] maxDepth none (selectBackend target)
    exact ⟨reference, reference,
      (bfsDirectionOptimizedBy_of_mutated same clean mutated start maxDepth).trans ran, ran,
      rfl, rfl, rfl⟩

theorem fallsBack_iff_keepsCounts_witness : ∃ graph reverse : CsrGraph,
    CsrGraph.buildAndMutate [(0, 1), (1, 2)] [.insert 0 2 .default, .delete 0 1] = .ok graph ∧
      graph.transpose.2 = .ok reverse ∧ FallsBack .other graph reverse 0 10 := by
  obtain ⟨graph, built, passed⟩ := Checked.exists_of_passes
    (show (CsrGraph.buildAndMutate [(0, 1), (1, 2)]
        [.insert 0 2 .default, .delete 0 1]).passes (fun graph =>
      !graph.delta.isEmpty && graph.transpose.2.passes fun reverse => decide
        (graph.nodeCount = reverse.nodeCount ∧ graph.edgeCount = reverse.edgeCount)) = true by
      decide +kernel)
  obtain ⟨mutated, counts⟩ := Bool.and_eq_true_iff.mp passed
  obtain ⟨reverse, outcome, same⟩ := Checked.exists_of_passes counts
  obtain ⟨base, stores, fallsBack⟩ := fallsBack_iff_keepsCounts
    (.of_buildAndMutate (by decide) built) (by simpa using mutated) outcome
  exact ⟨graph, reverse, built, outcome, (fallsBack .other 0 10).mpr
    ((stores.counts_transpose_iff outcome).mp (of_decide_eq_true same))⟩

/-- One inserted edge to a new node: the transpose of that very state is refused. -/
theorem inserted_node_refuses_transpose : ∃ graph reverse : CsrGraph,
    CsrGraph.buildAndMutate [(0, 1), (1, 2)] [.insert 2 3 .default] = .ok graph ∧
      graph.transpose.2 = .ok reverse ∧
      bfsDirectionOptimized .other graph reverse 0 10 = Checked.fail (.invalidTraversal
        "reverse graph is not the transpose of forward: 3/4 nodes, 2/3 edges") ∧
      ¬ FallsBack .other graph reverse 0 10 := by
  obtain ⟨graph, built, passed⟩ := Checked.exists_of_passes
    (show (CsrGraph.buildAndMutate [(0, 1), (1, 2)] [.insert 2 3 .default]).passes (fun graph =>
      graph.transpose.2.passes fun reverse => decide ((graph.nodeCount = 3 ∧ reverse.nodeCount = 4) ∧
        graph.edgeCount = 2 ∧ reverse.edgeCount = 3)) = true by decide +kernel)
  obtain ⟨reverse, outcome, counts⟩ := Checked.exists_of_passes passed
  obtain ⟨⟨forwardNodes, reverseNodes⟩, forwardEdges, reverseEdges⟩ := of_decide_eq_true counts
  have refused : bfsDirectionOptimized .other graph reverse 0 10 = Checked.fail (.invalidTraversal
      "reverse graph is not the transpose of forward: 3/4 nodes, 2/3 edges") := by
    rw [bfsDirectionOptimized, bfsDirectionOptimizedBy, forwardNodes, reverseNodes, forwardEdges,
      reverseEdges]
    rfl
  refine ⟨graph, reverse, built, outcome, refused, ?_⟩
  rintro ⟨result, -, returned, -⟩
  rw [refused] at returned
  cases returned

end FusionGraph
