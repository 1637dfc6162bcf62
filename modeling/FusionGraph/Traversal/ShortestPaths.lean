import FusionGraph.Traversal.BfsSpec

/-!
# Breadth-first search finds shortest paths

`IsBreadthFirst` says what the result of a search means in terms of walks along
the neighbors that the graph yields. A search without a cap on the nodes returns
such a result on every reachable graph, from any start nodes.
-/

set_option autoImplicit false

namespace FusionGraph

open Foundations Foundations.BreadthFirst Foundations.StableBuckets

namespace CsrGraph

/-- The edges of the merged topology: the nodes that `neighbors` yields. -/
def Edge (graph : CsrGraph) (source target : ℕ) : Prop :=
  ∃ neighbors, graph.neighbors source = .ok neighbors ∧ target ∈ neighbors

/-- The start nodes that the graph contains. -/
def IsStart (graph : CsrGraph) (starts : List ℕ) (node : ℕ) : Prop :=
  node ∈ starts ∧ graph.contains node = true

variable {graph : CsrGraph} {base : BaseLayer} {starts : List ℕ} {maxDepth node depth : ℕ}

theorem Stores.edge_iff (stores : graph.Stores base) (source target : ℕ) :
    graph.Edge source target ↔ target ∈ base.merged graph.delta source := by
  simp [Edge, stores.neighbors_eq]

/-- The node count of the base layer and the insertions fit `usize`. -/
theorem Stores.nodeBound_le (stores : graph.Stores base) (reachable : graph.Reachable) :
    graph.nodeBound ≤ usizeMax := by
  have nodes := base.nodes_le
  have insertions := reachable.fits
  rw [nodeBound, stores.nodeCount]
  simp only [u32Max, isizeMax, usizeMax] at nodes insertions ⊢
  omega

/-- A search without a cap keeps the invariant of searches that cut nothing off. -/
theorem Stores.searchLog_invariant (stores : graph.Stores base) (reachable : graph.Reachable)
    (starts : List ℕ) (maxDepth : ℕ) :
    ∃ last, FifoInvariant graph.Edge (graph.IsStart starts) maxDepth last
      (graph.searchLog base starts maxDepth usizeMax) [] := by
  have bound := stores.nodeBound_le reachable
  have exact : ∀ node, node ∈ graph.admittedStarts starts usizeMax ↔ graph.IsStart starts node := by
    intro node
    refine ⟨contains_of_mem_admittedStarts, fun ⟨listed, contained⟩ => ?_⟩
    have new : node ∈ newNodes [] (starts.filter graph.contains) :=
      mem_newNodes.mpr ⟨List.mem_filter.mpr ⟨listed, contained⟩, List.not_mem_nil⟩
    have few : (newNodes [] (starts.filter graph.contains)).length ≤ graph.nodeBound := by
      rw [← stores.length_admissibleNodes]
      refine (List.subperm_of_subset (newNodes_nodup [] _) fun start member => ?_).length_le
      have contained := (List.mem_filter.mp (mem_newNodes.mp member).1).2
      exact List.mem_append_left _ (List.mem_range.mpr ((stores.contains_iff start).mp contained))
    rwa [admittedStarts, List.take_of_length_le (few.trans bound)]
  have closed : ∀ v ∈ graph.admissibleNodes base, ∀ w ∈ base.merged graph.delta v,
      w ∈ graph.admissibleNodes base := fun _ _ _ member => mem_admissibleNodes_of_merged member
  exact search_invariant (fun source target => (stores.edge_iff source target).symm) closed
    (stores.length_admissibleNodes ▸ bound) (stores.length_admissibleNodes ▸ Nat.le_refl _)
    (stores.admittedStarts_inside starts usizeMax)
    (.of_starts (graph.admittedStarts_nodup starts usizeMax) exact)

end CsrGraph

/-- What a breadth-first search from several start nodes returns. -/
structure BfsResult.IsBreadthFirst (result : BfsResult) (edge : ℕ → ℕ → Prop) (start : ℕ → Prop)
    (maxDepth : ℕ) : Prop where
  /-- No node is visited twice. -/
  visited_nodup : result.visited.Nodup
  /-- The visited nodes are those that a walk of at most `maxDepth` edges reaches. -/
  mem_visited : ∀ node, node ∈ result.visited ↔
    ∃ length ≤ maxDepth, length ∈ walkLengths edge start node
  /-- Every visited node has a depth. -/
  length_depths : result.depths.length = result.visited.length
  /-- The depth of a node is the length of a shortest walk. -/
  depth_isDistance : ∀ entry ∈ result.visited.zip result.depths,
    IsDistance edge start entry.1 entry.2
  depths_sorted : result.depths.Pairwise (· ≤ ·)
  length_levels : result.levels.length = if result.visited = [] then 0 else result.maxDepthReached + 1
  /-- A level is the sublist of the nodes with its depth. -/
  level : ∀ depth < result.levels.length, result.levels[depth]? =
    some (((result.visited.zip result.depths).filter fun entry => decide (entry.2 = depth)).map
      Prod.fst)
  flatten_levels : result.levels.flatten = result.visited
  maxDepth_of_nil : result.visited = [] → result.maxDepthReached = 0
  maxDepth_isGreatest : result.visited ≠ [] →
    IsGreatest {depth | depth ∈ result.depths} result.maxDepthReached

namespace BfsResult

variable {result : BfsResult} {log : List (ℕ × ℕ)} {edge : ℕ → ℕ → Prop} {start : ℕ → Prop}
  {limit last : ℕ}

theorem Lists.zip_eq (lists : result.Lists log) : result.visited.zip result.depths = log := by
  rw [lists.visited, lists.depths, List.zip_map', List.map_id']

theorem Lists.visited_eq_nil_iff (lists : result.Lists log) : result.visited = [] ↔ log = [] := by
  rw [lists.visited, List.map_eq_nil_iff]

/-- A log that keeps the invariant of a search is a breadth-first result. -/
theorem Lists.isBreadthFirst (lists : result.Lists log)
    (invariant : FifoInvariant edge start limit last log []) :
    result.IsBreadthFirst edge start limit := by
  have isLast := lists.maxDepthReached.trans invariant.last
  have members : ∀ entry ∈ log, entry.2 < result.maxDepthReached + 1 := fun entry member => by
    rw [isLast]
    exact Nat.lt_succ_of_le (invariant.below entry member)
  have sorted : log.Pairwise fun a b => a.2 ≤ b.2 := by
    have depths := invariant.sorted
    rwa [List.append_nil, List.pairwise_map] at depths
  refine ⟨?_, fun node => ?_, ?_, fun entry member => ?_, ?_, ?_, fun depth bound => ?_, ?_,
    fun none => ?_, fun some => ?_⟩
  · simpa [lists.visited] using invariant.nodup
  · rw [lists.visited, List.mem_map]
    constructor
    · rintro ⟨entry, member, rfl⟩
      exact ⟨entry.2, invariant.sound entry (by simpa using member)⟩
    · rintro ⟨length, room, walk⟩
      obtain ⟨depth, least, distance⟩ := exists_isDistance_le walk
      exact ⟨(node, depth), invariant.mem_iff.mpr ⟨least.trans room, distance⟩, rfl⟩
  · rw [lists.depths, lists.visited, List.length_map, List.length_map]
  · rw [lists.zip_eq] at member
    exact (invariant.mem_iff.mp member).2
  · rw [lists.depths, List.pairwise_map]
    exact sorted
  · rw [lists.levels]
    by_cases empty : log = []
    · rw [if_pos empty, if_pos (lists.visited_eq_nil_iff.mpr empty), List.length_nil]
    · rw [if_neg empty, if_neg (mt lists.visited_eq_nil_iff.mp empty), List.length_map,
        List.length_range]
  · rw [lists.zip_eq]
    rw [lists.levels] at bound ⊢
    by_cases empty : log = []
    · rw [if_pos empty] at bound
      exact absurd bound (Nat.not_lt_zero depth)
    · rw [if_neg empty, List.length_map, List.length_range] at bound
      rw [if_neg empty, List.getElem?_map, List.getElem?_range bound]
      rfl
  · rw [lists.levels, lists.visited]
    by_cases empty : log = []
    · rw [if_pos empty, empty]
      rfl
    · rw [if_neg empty]
      have whole := flatten_buckets Prod.snd sorted members
      have levels : (List.range (result.maxDepthReached + 1)).map (levelAt log) =
          (buckets Prod.snd (result.maxDepthReached + 1) log).map (List.map Prod.fst) := by
        rw [buckets, List.map_map]
        rfl
      rw [levels, ← List.map_flatten, whole]
  · rw [isLast, ← invariant.last, lists.visited_eq_nil_iff.mp none]
    rfl
  · rw [isLast, lists.depths]
    exact invariant.isGreatest (mt lists.visited_eq_nil_iff.mpr some)

end BfsResult

/-- The pairs of a visited node and its depth. -/
def BfsResult.nodeDepths (result : BfsResult) : Set (ℕ × ℕ) :=
  {entry | entry ∈ result.visited.zip result.depths}

/-- The depths of a breadth-first result are the distances within the limit. -/
theorem BfsResult.IsBreadthFirst.mem_nodeDepths {result : BfsResult} {edge : ℕ → ℕ → Prop}
    {start : ℕ → Prop} {maxDepth : ℕ} (correct : result.IsBreadthFirst edge start maxDepth)
    (node k : ℕ) :
    (node, k) ∈ result.nodeDepths ↔ k ≤ maxDepth ∧ IsDistance edge start node k := by
  constructor
  · intro member
    have distance := correct.depth_isDistance (node, k) member
    obtain ⟨length, room, walk⟩ := (correct.mem_visited node).mp (List.of_mem_zip member).1
    exact ⟨(distance.2 walk).trans room, distance⟩
  · rintro ⟨room, distance⟩
    obtain ⟨i, bound, rfl⟩ := List.mem_iff_getElem.mp
      ((correct.mem_visited node).mpr ⟨k, room, distance.1⟩)
    have inDepths : i < result.depths.length := correct.length_depths ▸ bound
    have entry : (result.visited[i], result.depths[i]) ∈ result.nodeDepths := by
      rw [← List.getElem_zip (h := by simp [bound, inDepths])]
      exact List.getElem_mem _
    rwa [← (correct.depth_isDistance _ entry).unique distance]

/-- A search without a cap returns the nodes within the depth limit with their
distances. -/
theorem CsrGraph.Reachable.bfsBounded_nodeDepths {graph : CsrGraph} (reachable : graph.Reachable)
    (target : Target) (starts : List ℕ) (maxDepth : ℕ) :
    ∃ result, bfsBounded target graph starts maxDepth none = .ok result ∧
      result.nodeDepths = {entry | entry.2 ≤ maxDepth ∧
        IsDistance graph.Edge (graph.IsStart starts) entry.1 entry.2} := by
  obtain ⟨base, stores⟩ := reachable.stores
  obtain ⟨result, ran, lists⟩ :=
    stores.bfsBoundedWithBackend_eq starts maxDepth none (selectBackend target)
  obtain ⟨last, invariant⟩ := stores.searchLog_invariant reachable starts maxDepth
  refine ⟨result, ran, Set.ext fun entry => ?_⟩
  rw [BfsResult.nodeDepths, Set.mem_ofPred_eq, lists.zip_eq]
  exact invariant.mem_iff

/-- **Without a cap on the nodes, a search of any reachable graph finds exactly
the nodes within the depth limit, in order of depth, at the length of a shortest
walk along the merged topology.** -/
theorem bfs_correct_on_merged_topology (target : Target) {graph : CsrGraph}
    (reachable : graph.Reachable) (starts : List ℕ) (maxDepth : ℕ) :
    ∃ result, bfsBounded target graph starts maxDepth none = .ok result ∧
      result.IsBreadthFirst graph.Edge (graph.IsStart starts) maxDepth := by
  obtain ⟨base, stores⟩ := reachable.stores
  obtain ⟨result, ran, lists⟩ :=
    stores.bfsBoundedWithBackend_eq starts maxDepth none (selectBackend target)
  obtain ⟨last, invariant⟩ := stores.searchLog_invariant reachable starts maxDepth
  exact ⟨result, ran, lists.isBreadthFirst invariant⟩

open CsrGraph in
theorem bfs_correct_on_merged_topology_witness : ∃ (graph : CsrGraph) (result : BfsResult),
    graph.Reachable ∧ bfsBounded (.x86_64 ⟨true, false⟩) graph [0, 9, 0] 2 none = .ok result ∧
      result.visited = [0, 1, 5, 3] ∧
      result.IsBreadthFirst graph.Edge (graph.IsStart [0, 9, 0]) 2 := by
  have run : ((buildAndMutate [(0, 1), (1, 2), (1, 3)] [.delete 1 2, .insert 0 5 .default]).bind
      fun graph => (bfsBounded (.x86_64 ⟨true, false⟩) graph [0, 9, 0] 2 none).map
        BfsResult.visited).toOption = some [0, 1, 5, 3] := by decide +kernel
  cases built : buildAndMutate [(0, 1), (1, 2), (1, 3)] [.delete 1 2, .insert 0 5 .default] with
  | error fault => simp [built, Except.bind, Except.toOption] at run
  | ok graph =>
    have reachable := Reachable.of_buildAndMutate (by decide) built
    obtain ⟨result, outcome, correct⟩ :=
      bfs_correct_on_merged_topology (.x86_64 ⟨true, false⟩) reachable [0, 9, 0] 2
    refine ⟨graph, result, reachable, outcome, ?_, correct⟩
    simpa [built, Except.bind, outcome, Except.map, Except.toOption] using run
end FusionGraph
