import FusionGraph.Traversal.BoundedSearch

/-!
# The fast path equals the slow path

A search of a graph with an empty delta layer filters base slices, a search of a
graph with mutations asks the merged iterator. Mutations that change no edge put
the same graph on the slow path: its merged rows are the base rows, entry by
entry (`BaseLayer.merged_of_idle`), so the two searches have the same log, and
without a cap on the nodes they examine the same edges.
-/

set_option autoImplicit false

namespace FusionGraph

open Foundations Foundations.BreadthFirst

/-- The mutations change no edge of the base layer. -/
structure BaseLayer.Idle (base : BaseLayer) (delta : DeltaLayer) : Prop where
  inserted : ∀ source target, (source, target) ∈ delta.insertions → target ∈ base.targets source
  deleted : ∀ source target, (source, target) ∈ delta.deletions → target ∉ base.targets source

namespace BaseLayer

variable {base : BaseLayer} {delta : DeltaLayer}

/-- **Under idle mutations the merged rows are the base rows.** -/
theorem merged_of_idle (idle : base.Idle delta) : base.merged delta = base.targets := by
  funext node
  have live : base.liveTargets delta node = base.targets node := by
    refine List.filter_eq_self.mpr ?_
    intro target member
    have kept : (node, target) ∉ delta.deletions :=
      fun gone => idle.deleted node target gone member
    simp [DeltaLayer.isDeleted, kept]
  have fresh : (delta.neighbors node).filter
      (fun target => decide (target ∉ base.liveTargets delta node)) = [] := by
    refine List.filter_eq_nil_iff.mpr ?_
    intro target member
    have known := idle.inserted node target ((delta.mem_neighbors node target).mp member)
    simp [live, known]
  rw [merged, fresh, live, List.append_nil]

theorem idle_new (base : BaseLayer) : base.Idle .new where
  inserted _ _ member := absurd member (DeltaLayer.notMem_insertions_new _)
  deleted _ _ member := absurd member (DeltaLayer.notMem_deletions_new _)

/-- A row has at most as many entries as the layer has edges. -/
theorem length_targets_le (base : BaseLayer) (node : ℕ) : (base.targets node).length ≤ u32Max := by
  refine Nat.le_trans ?_ base.edges_le
  rcases Nat.lt_or_ge node base.rows.length with inside | outside
  · rw [targets, List.length_map, row_of_lt base inside]
    exact (List.sublist_flatten_of_mem (List.getElem_mem inside)).length_le
  · rw [targets_of_le base outside]
    exact Nat.zero_le _

/-- Idle insertions are at most as many as the edges. -/
theorem Idle.length_insertions_le (idle : base.Idle delta) :
    delta.insertions.entries.length ≤ u32Max := by
  have subset : delta.insertions.keys ⊆ base.storedEdges.map fun edge => (edge.1, edge.2.1) := by
    rintro ⟨source, target⟩ member
    obtain ⟨entry, inRow, rfl⟩ :=
      List.mem_map.mp (idle.inserted source target (AList.mem_keys.mpr member))
    exact List.mem_map.mpr ⟨(source, entry), mem_storedEdges.mpr inRow, rfl⟩
  have few := (List.subperm_of_subset delta.insertions.keys_nodup subset).length_le
  rw [List.length_map, base.length_storedEdges] at few
  have keys : delta.insertions.keys.length = delta.insertions.entries.length := List.length_map _
  exact (keys ▸ few).trans base.edges_le

end BaseLayer

namespace CsrGraph

variable {graph : CsrGraph} {base : BaseLayer} {delta : DeltaLayer}

/-- A graph with idle mutations cannot reach a cap at the end of `usize`. -/
theorem Stores.uncapped (stores : graph.Stores base) (idle : base.Idle graph.delta) :
    graph.Uncapped base usizeMax := by
  intro node
  have row := base.length_targets_le node
  have nodes := base.nodes_le
  have few := idle.length_insertions_le
  rw [nodeBound, stores.nodeCount, BaseLayer.merged_of_idle idle]
  simp only [u32Max, usizeMax] at row nodes few ⊢
  omega

/-- Idle mutations do not change the log of a search. -/
theorem Stores.searchLog_of_idle (stores : graph.Stores base) (clean : graph.delta = .new)
    (idle : base.Idle delta) (starts : List ℕ) (maxDepth maxNodes : ℕ) :
    (graph.withDelta delta).searchLog base starts maxDepth maxNodes =
      graph.searchLog base starts maxDepth maxNodes := by
  have closed : ∀ v ∈ List.range base.rows.length, ∀ w ∈ base.targets v,
      w ∈ List.range base.rows.length := by
    intro v _ w member
    exact List.mem_range.mpr (BaseLayer.target_lt member)
  have inside : ∀ entry ∈ [] ++ (graph.admittedStarts starts maxNodes).map fun start => (start, 0),
      entry.1 ∈ List.range base.rows.length := by
    intro entry member
    obtain ⟨start, admitted, rfl⟩ := List.mem_map.mp member
    have contained := (contains_of_mem_admittedStarts admitted).2
    exact List.mem_range.mpr ((stores.contains_iff start).mp contained)
  have bound : graph.nodeBound = base.rows.length := by
    rw [nodeBound, clean, stores.nodeCount]
    rfl
  have more : (graph.withDelta delta).nodeBound =
      base.rows.length + delta.insertions.entries.length := by
    rw [nodeBound, (stores.withDelta delta).nodeCount]
    rfl
  have rows : base.merged graph.delta = base.targets := by
    rw [clean, BaseLayer.merged_of_idle base.idle_new]
  have merged : base.merged (graph.withDelta delta).delta = base.targets :=
    BaseLayer.merged_of_idle idle
  rw [searchLog, searchLog, bound, more, rows, merged]
  exact search_fuel closed (.of_starts (graph.admittedStarts_nodup starts maxNodes)) inside
    (by rw [List.length_range]; exact Nat.le_refl _) _

end CsrGraph

/-- Two results that list one log agree in all but the number of edges examined. -/
theorem BfsResult.Lists.agree {first second : BfsResult} {log : List (ℕ × ℕ)}
    (lists : first.Lists log) (other : second.Lists log) :
    second.visited = first.visited ∧ second.depths = first.depths ∧
      second.levels = first.levels ∧ second.maxDepthReached = first.maxDepthReached := by
  have deepest : second.maxDepthReached = first.maxDepthReached :=
    other.maxDepthReached.trans lists.maxDepthReached.symm
  refine ⟨other.visited.trans lists.visited.symm, other.depths.trans lists.depths.symm, ?_, deepest⟩
  rw [other.levels, lists.levels, deepest]

/-- **The fast path equals the slow path.** For a built graph and mutations that
change no edge (every inserted pair is a base edge, no deleted pair is one), the
search with the mutations pending returns what the search without them returns;
and without a cap on the nodes both examine the same number of edges. -/
theorem fast_path_equals_slow_path (target : Target) {builder : CsrBuilder} {graph : CsrGraph}
    (built : builder.build = .ok graph) {delta : DeltaLayer} (pending : delta.isEmpty = false)
    (inserted : ∀ u v, (u, v) ∈ delta.insertions → graph.baseContains u v = .ok true)
    (deleted : ∀ u v, (u, v) ∈ delta.deletions → graph.baseContains u v = .ok false)
    (starts : List ℕ) (maxDepth : ℕ) (maxNodes : Option Usize) :
    graph.delta.isEmpty = true ∧ (graph.withDelta delta).delta.isEmpty = false ∧
    ∃ fast slow, bfsBounded target graph starts maxDepth (maxNodes.map Subtype.val) = .ok fast ∧
      bfsBounded target (graph.withDelta delta) starts maxDepth (maxNodes.map Subtype.val) =
        .ok slow ∧
      slow.visited = fast.visited ∧ slow.depths = fast.depths ∧ slow.levels = fast.levels ∧
      slow.maxDepthReached = fast.maxDepthReached ∧
      (maxNodes = none → slow.edgesExamined = fast.edgesExamined) := by
  obtain ⟨clean, base, stores⟩ := CsrBuilder.stores_of_build built
  have idle : base.Idle delta := by
    constructor
    · intro u v member
      have known := inserted u v member
      rw [stores.baseContains_eq] at known
      exact of_decide_eq_true (Except.ok.inj known)
    · intro u v member
      have unknown := deleted u v member
      rw [stores.baseContains_eq] at unknown
      exact of_decide_eq_false (Except.ok.inj unknown)
  have still : base.Idle graph.delta := clean ▸ base.idle_new
  obtain ⟨fast, ran, lists, examined⟩ := stores.bfsBoundedWithBackend_examined starts maxDepth
    (maxNodes.map Subtype.val) (selectBackend target)
  obtain ⟨slow, slowRan, slowLists, slowExamined⟩ :=
    (stores.withDelta delta).bfsBoundedWithBackend_examined starts maxDepth
      (maxNodes.map Subtype.val) (selectBackend target)
  have same := stores.searchLog_of_idle clean idle starts maxDepth
    ((maxNodes.map Subtype.val).getD usizeMax)
  rw [same] at slowLists slowExamined
  obtain ⟨visited, depths, levels, deepest⟩ := lists.agree slowLists
  refine ⟨by rw [clean]; rfl, pending, fast, slow, ran, slowRan, visited, depths, levels, deepest,
    ?_⟩
  rintro rfl
  rw [examined (stores.uncapped still), slowExamined ((stores.withDelta delta).uncapped idle),
    BaseLayer.merged_of_idle still]
  exact congrArg (fun rows => examinedEdges rows maxDepth _) (BaseLayer.merged_of_idle idle)

theorem fast_path_equals_slow_path_witness : ∃ (graph : CsrGraph) (fast slow : BfsResult),
    (CsrBuilder.new.withEdges [(0, 1), (0, 1), (1, 2)]).build = .ok graph ∧
      bfsBounded (.x86_64 ⟨true, false⟩) graph [0] 5 none = .ok fast ∧
      bfsBounded (.x86_64 ⟨true, false⟩)
        (graph.withDelta ((DeltaLayer.new.insert 0 1 .default).delete 1 0)) [0] 5 none =
        .ok slow ∧
      slow.visited = fast.visited ∧ slow.edgesExamined = fast.edgesExamined := by
  obtain ⟨graph, built, passed⟩ := Checked.exists_of_passes
    (show (CsrBuilder.new.withEdges [(0, 1), (0, 1), (1, 2)]).build.passes (fun graph =>
      decide (graph.baseContains 0 1 = .ok true) && decide (graph.baseContains 1 0 = .ok false)) =
        true by decide +kernel)
  obtain ⟨known, unknown⟩ := Bool.and_eq_true_iff.mp passed
  obtain ⟨-, -, fast, slow, ran, slowRan, visited, -, -, -, examined⟩ :=
    fast_path_equals_slow_path (.x86_64 ⟨true, false⟩) built
      (show ((DeltaLayer.new.insert 0 1 .default).delete 1 0).isEmpty = false by rfl)
      (fun u v member => by
        obtain ⟨-, rfl, rfl⟩ : (u = 1 → ¬ v = 0) ∧ u = 0 ∧ v = 1 := by simpa using member
        exact of_decide_eq_true known)
      (fun u v member => by
        obtain ⟨rfl, rfl⟩ : u = 1 ∧ v = 0 := by simpa using member
        exact of_decide_eq_true unknown)
      [0] 5 none
  exact ⟨graph, fast, slow, built, ran, slowRan, visited, examined rfl⟩

end FusionGraph
