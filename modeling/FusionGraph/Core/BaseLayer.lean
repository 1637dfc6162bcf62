import FusionGraph.Core.Graph
import FusionGraph.Foundations.PackedRows

/-!
# The base layer as a list of rows

What the shards store is a list of adjacency rows, one for each node, whose
entries are a target and, in a weighted graph, a weight. `BaseLayer` is that
list with the bounds every built graph satisfies, and `CsrGraph.Stores` says
that the shards of a graph are the rows cut into consecutive non-empty runs.

The readers of a graph are then functions of the rows and of the delta layer:
`Stores.baseNeighborSlice_eq`, `Stores.neighbors_eq`, `Stores.hasEdge_eq` and
`Stores.baseContains_eq`. None of them depends on how the rows are cut.
-/

set_option autoImplicit false

namespace FusionGraph

open Foundations Foundations.PackedRows

/-- A stored edge of a row: its target and its weight, if the graph has weights. -/
abbrev RowEntry := ℕ × Option Float32

/-- The adjacency rows of a base layer. -/
structure BaseLayer where
  /-- Whether edges carry weights. -/
  weighted : Bool
  /-- The outgoing edges of each node, in storage order. -/
  rows : List (List RowEntry)
  /-- An entry has a weight exactly in a weighted layer. -/
  weights_match : ∀ entry ∈ rows.flatten, entry.2.isSome = weighted
  /-- Targets are nodes. -/
  targets_lt : ∀ entry ∈ rows.flatten, entry.1 < rows.length
  /-- Every node identifier fits `u32`. -/
  nodes_le : rows.length ≤ u32Max + 1
  /-- The number of edges fits a row pointer. -/
  edges_le : rows.flatten.length ≤ u32Max

namespace BaseLayer

/-- The layer without nodes. -/
def empty : BaseLayer where
  weighted := false
  rows := []
  weights_match := by simp
  targets_lt := by simp
  nodes_le := by simp
  edges_le := by simp

/-- The outgoing edges of a node; none for an identifier that is not a node. -/
def row (base : BaseLayer) (node : ℕ) : List RowEntry := base.rows[node]?.getD []

/-- The targets of the outgoing edges of a node. -/
def targets (base : BaseLayer) (node : ℕ) : List ℕ := (base.row node).map Prod.fst

theorem row_of_lt (base : BaseLayer) {node : ℕ} (bound : node < base.rows.length) :
    base.row node = base.rows[node] := by
  simp [row, bound]

theorem row_of_le (base : BaseLayer) {node : ℕ} (bound : base.rows.length ≤ node) :
    base.row node = [] := by
  simp [row, bound]

/-- The edge count is the sum of the row lengths. -/
theorem length_flatten_rows (base : BaseLayer) :
    base.rows.flatten.length =
      ((List.range base.rows.length).map fun node => (base.targets node).length).sum := by
  rw [List.length_flatten]
  congr 1
  refine List.ext_getElem (by simp) fun i inside _ => ?_
  rw [List.length_map] at inside
  simp [targets, row_of_lt base inside]

theorem targets_of_le (base : BaseLayer) {node : ℕ} (bound : base.rows.length ≤ node) :
    base.targets node = [] := by
  rw [targets, row_of_le base bound, List.map_nil]

theorem mem_flatten_of_mem_row {base : BaseLayer} {node : ℕ} {entry : RowEntry}
    (member : entry ∈ base.row node) : entry ∈ base.rows.flatten := by
  rcases Nat.lt_or_ge node base.rows.length with inside | outside
  · rw [row_of_lt base inside] at member
    exact List.mem_flatten.mpr ⟨_, List.getElem_mem inside, member⟩
  · simp [row_of_le base outside] at member

/-- The target of a base edge is a node. -/
theorem target_lt {base : BaseLayer} {node target : ℕ} (member : target ∈ base.targets node) :
    target < base.rows.length := by
  obtain ⟨entry, inRow, rfl⟩ := List.mem_map.mp member
  exact base.targets_lt entry (mem_flatten_of_mem_row inRow)

/-- The source of a base edge is a node. -/
theorem source_lt {base : BaseLayer} {node target : ℕ} (member : target ∈ base.targets node) :
    node < base.rows.length := by
  by_contra outside
  simp [targets_of_le base (Nat.le_of_not_lt outside)] at member

theorem target_le_u32Max {base : BaseLayer} {node target : ℕ}
    (member : target ∈ base.targets node) : target ≤ u32Max := by
  have inside := target_lt member
  have nodes := base.nodes_le
  simp only [u32Max] at nodes ⊢
  omega

theorem source_le_u32Max {base : BaseLayer} {node target : ℕ}
    (member : target ∈ base.targets node) : node ≤ u32Max := by
  have inside := source_lt member
  have nodes := base.nodes_le
  simp only [u32Max] at nodes ⊢
  omega

end BaseLayer

/-! ## Rows cut into shards -/

/-- The shard that stores the given rows from the node `start` on. -/
def CsrShard.ofRows (weighted : Bool) (id start : ℕ) (rows : List (List RowEntry)) : CsrShard where
  id := id
  nodeRange := ⟨start, start + rows.length⟩
  rowPtrs := offsets rows
  colIndices := rows.flatten.map Prod.fst
  weights := if weighted then some (rows.flatten.map fun entry => entry.2.getD 0) else none

/-- Consecutive shards, one for each run of rows, numbered from `id` on. -/
def shardsOfRuns (weighted : Bool) : (id start : ℕ) → List (List (List RowEntry)) → List CsrShard
  | _, _, [] => []
  | id, start, run :: runs =>
    .ofRows weighted id start run :: shardsOfRuns weighted (id + 1) (start + run.length) runs

/-- The base layer of a graph holds the given rows. -/
structure CsrGraph.Stores (graph : CsrGraph) (base : BaseLayer) : Prop where
  shards : ∃ runs : List (List (List RowEntry)), runs.flatten = base.rows ∧ (∀ run ∈ runs, run ≠ []) ∧
    graph.shards = shardsOfRuns base.weighted 0 0 runs
  nodeCount : graph.nodeCount = base.rows.length
  edgeCount : graph.edgeCount = base.rows.flatten.length

/-- The stored edges between two positions of a shard, with their weights. -/
def CsrShard.entriesBetween (shard : CsrShard) (start stop : ℕ) : List RowEntry :=
  (List.range' start (stop - start)).filterMap fun idx =>
    (shard.colIndex idx).map fun target => (target, shard.weight idx)

/-- The base edges of a node with their weights, as the accessors of its shard
give them. -/
def CsrGraph.baseRow (graph : CsrGraph) (node : ℕ) : Outcome (List RowEntry) :=
  match graph.globalToShard node with
  | none => .ok []
  | some (shardIdx, offset) =>
    match graph.shards[shardIdx]? with
    | none => .ok []
    | some shard => do
      let (start, stop) ← shard.neighborRange offset
      pure (shard.entriesBetween start stop)

namespace CsrShard

variable {weighted : Bool} {id start : ℕ} {rows : List (List RowEntry)}

@[simp] theorem nodeCount_ofRows : (ofRows weighted id start rows).nodeCount = rows.length := by
  simp [ofRows, nodeCount, NodeRange.len]

/-- The positions of a row lie between its offset and the next one. -/
theorem neighborRange_ofRows {i : ℕ} (bound : i < rows.length) :
    (ofRows weighted id start rows).neighborRange i = .ok (offset rows i, offset rows (i + 1)) := by
  have count : ¬ (ofRows weighted id start rows).nodeCount ≤ i := by
    rw [nodeCount_ofRows]
    omega
  have first : (ofRows weighted id start rows).rowPtrs[i]? = some (offset rows i) :=
    getElem?_offsets rows (Nat.le_of_lt bound)
  have last : (ofRows weighted id start rows).rowPtrs[i + 1]? = some (offset rows (i + 1)) :=
    getElem?_offsets rows bound
  simp only [neighborRange, count, if_false, Checked.index_eq_ok first, Checked.index_eq_ok last,
    Checked.ok_bind, Checked.pure_eq_ok]

theorem extract_colIndices_ofRows {i : ℕ} (bound : i < rows.length) :
    (ofRows weighted id start rows).colIndices.extract (offset rows i) (offset rows (i + 1)) =
      rows[i].map Prod.fst := by
  have packed := congrArg (List.map Prod.fst) (extract_flatten_row rows bound)
  simpa only [ofRows, List.extract_eq_take_drop, List.map_take, List.map_drop] using packed

/-- **The slice of a row holds its targets.** -/
theorem neighborSlice_ofRows {i : ℕ} (bound : i < rows.length) :
    (ofRows weighted id start rows).neighborSlice i = .ok (rows[i].map Prod.fst) := by
  have ordered := offset_mono rows (Nat.le_succ i)
  have fits : offset rows (i + 1) ≤ (ofRows weighted id start rows).colIndices.length := by
    simpa only [ofRows, List.length_map] using offset_le rows (i + 1)
  simp only [neighborSlice, neighborRange_ofRows bound, Checked.ok_bind,
    Checked.slice_of_le ordered fits, extract_colIndices_ofRows bound]

/-- The position of the `j`-th entry of a row. -/
theorem getElem?_flatten_offset {i j : ℕ} (bound : i < rows.length) (inRow : j < rows[i].length) :
    rows.flatten[offset rows i + j]? = some rows[i][j] := by
  have packed := extract_flatten_row rows bound
  have width := offset_succ rows bound
  rw [List.extract_eq_take_drop] at packed
  have entry := congrArg (fun list => list[j]?) packed
  simp only [List.getElem?_take, List.getElem?_drop, List.getElem?_eq_getElem inRow] at entry
  rwa [if_pos (by omega)] at entry

/-- The positions of a row hold its targets and weights. -/
theorem entries_ofRows {i : ℕ} (bound : i < rows.length)
    (matched : ∀ entry ∈ rows.flatten, entry.2.isSome = weighted) :
    (ofRows weighted id start rows).entriesBetween (offset rows i) (offset rows (i + 1)) =
      rows[i] := by
  have width : offset rows (i + 1) - offset rows i = rows[i].length := by
    have next := offset_succ rows bound
    omega
  rw [entriesBetween, width, List.range'_eq_map_range, List.filterMap_map]
  have each : ∀ j ∈ List.range rows[i].length,
      ((fun idx => ((ofRows weighted id start rows).colIndex idx).map fun target =>
        (target, (ofRows weighted id start rows).weight idx)) ∘ (offset rows i + ·)) j =
          rows[i][j]? := by
    intro j member
    have inRow : j < rows[i].length := List.mem_range.mp member
    have entry := getElem?_flatten_offset bound inRow
    have inside := matched rows[i][j] (List.mem_of_getElem? entry)
    simp only [Function.comp_apply, colIndex, ofRows, List.getElem?_map, entry, Option.map_some,
      List.getElem?_eq_getElem inRow, CsrShard.weight, Option.some.injEq]
    refine Prod.ext rfl ?_
    cases weighted with
    | true =>
      obtain ⟨value, found⟩ := Option.isSome_iff_exists.mp inside
      simp only [if_true, Option.bind_some, List.getElem?_map, entry, Option.map_some, found,
        Option.getD_some]
    | false => simpa using (Option.isNone_iff_eq_none.mp (Option.isSome_eq_false_iff.mp inside)).symm
  rw [List.filterMap_congr each]
  exact filterMap_range_getElem? rows[i]

end CsrShard

/-! ## Locating a node -/

/-- Shards that start beyond a node do not precede it. -/
theorem findIdx_shardsOfRuns_of_lt {weighted : Bool} {id start node : ℕ}
    (runs : List (List (List RowEntry))) (beyond : node < start) :
    (shardsOfRuns weighted id start runs).findIdx
      (fun shard => !decide (shard.nodeRange.start ≤ node)) = 0 := by
  cases runs with
  | nil => rfl
  | cons run runs =>
    have notYet : ¬ start ≤ node := by omega
    simp [shardsOfRuns, List.findIdx_cons, CsrShard.ofRows, notYet]

/-- The shard that holds a node is the last one that starts at or before it. -/
theorem findIdx_shardsOfRuns (weighted : Bool) {node : ℕ} :
    ∀ {runs : List (List (List RowEntry))} (id : ℕ) {start : ℕ}, start ≤ node →
      node < start + runs.flatten.length →
      ∃ k first run, (shardsOfRuns weighted id start runs).findIdx
          (fun shard => !decide (shard.nodeRange.start ≤ node)) = k + 1 ∧
        (shardsOfRuns weighted id start runs)[k]? = some (.ofRows weighted (id + k) first run) ∧
        run ∈ runs ∧ first ≤ node ∧ node < first + run.length ∧
        run[node - first]? = runs.flatten[node - start]?
  | [], id, start, after, before => by simp at before; omega
  | run :: runs, id, start, after, before => by
      have head : (CsrShard.ofRows weighted id start run).nodeRange.start = start := rfl
      by_cases here : node < start + run.length
      · refine ⟨0, start, run, ?_, rfl, List.mem_cons_self, after, here, ?_⟩
        · simp [shardsOfRuns, List.findIdx_cons, head, after, findIdx_shardsOfRuns_of_lt runs here]
        · rw [List.flatten_cons, List.getElem?_append_left (by omega)]
      · have later : node < start + run.length + runs.flatten.length := by
          rw [List.flatten_cons, List.length_append] at before
          omega
        obtain ⟨k, first, found, point, shard, inRuns, above, below, row⟩ :=
          findIdx_shardsOfRuns weighted (id + 1)
            (by omega : start + run.length ≤ node) later
        refine ⟨k + 1, first, found, ?_, ?_, List.mem_cons_of_mem run inRuns, above, below, ?_⟩
        · simp [shardsOfRuns, List.findIdx_cons, head, after, point]
        · rw [shardsOfRuns, List.getElem?_cons_succ, shard]
          congr 2
          omega
        · rw [row, List.flatten_cons, List.getElem?_append_right (by omega)]
          congr 1
          omega

/-- Every shard covers nodes of the graph only. -/
theorem contains_of_mem_shardsOfRuns {weighted : Bool} {node : ℕ} {shard : CsrShard} :
    ∀ {runs : List (List (List RowEntry))} {id start : ℕ},
      shard ∈ shardsOfRuns weighted id start runs → shard.contains node = true →
      node < start + runs.flatten.length
  | [], _, _, member, _ => by simp [shardsOfRuns] at member
  | run :: runs, id, start, member, inside => by
      rw [List.flatten_cons, List.length_append]
      rcases List.mem_cons.mp member with rfl | later
      · have range : start ≤ node ∧ node < start + run.length := of_decide_eq_true inside
        omega
      · have bound := contains_of_mem_shardsOfRuns later inside
        omega

namespace CsrGraph

namespace Stores

variable {graph : CsrGraph} {base : BaseLayer}

theorem contains_iff (stores : graph.Stores base) (node : ℕ) :
    graph.contains node = true ↔ node < base.rows.length := by
  have nodes := base.nodes_le
  simp only [contains, nodeIndex, usizeTryFrom, stores.nodeCount]
  by_cases fits : node ≤ usizeMax
  · simp [fits]
  · simp only [fits, if_false, Option.any_none, Bool.false_eq_true, false_iff, not_lt]
    simp only [u32Max, usizeMax] at nodes fits
    omega

/-- The shard and the offset of a node lead to its row. -/
theorem globalToShard_of_lt (stores : graph.Stores base) {node : ℕ}
    (bound : node < base.rows.length) :
    ∃ k first run, graph.globalToShard node = some (k, node - first) ∧
      graph.shards[k]? = some (.ofRows base.weighted k first run) ∧
      (∀ entry ∈ run.flatten, entry.2.isSome = base.weighted) ∧ first ≤ node ∧
      node < first + run.length ∧ run[node - first]? = some base.rows[node] := by
  obtain ⟨runs, whole, -, cut⟩ := stores.shards
  have fits : node ≤ usizeMax := by
    have nodes := base.nodes_le
    simp only [u32Max, usizeMax] at nodes ⊢
    omega
  obtain ⟨k, first, run, point, shard, inRuns, above, below, row⟩ :=
    findIdx_shardsOfRuns base.weighted 0 (Nat.zero_le node)
      (by rw [whole, Nat.zero_add]; exact bound)
  rw [← cut] at point shard
  simp only [Nat.zero_add, Nat.sub_zero, whole, List.getElem?_eq_getElem bound] at shard row
  have matched : ∀ entry ∈ run.flatten, entry.2.isSome = base.weighted := by
    intro entry member
    obtain ⟨list, inRun, inList⟩ := List.mem_flatten.mp member
    have inRows : list ∈ base.rows := whole ▸ List.mem_flatten.mpr ⟨run, inRuns, inRun⟩
    exact base.weights_match entry (List.mem_flatten.mpr ⟨list, inRows, inList⟩)
  refine ⟨k, first, run, ?_, shard, matched, above, below, row⟩
  have holds : (CsrShard.ofRows base.weighted k first run).contains node = true := by
    simp [CsrShard.contains, NodeRange.contains, CsrShard.ofRows, above, below]
  simp only [globalToShard, nodeIndex, usizeTryFrom_of_le fits, Option.bind_eq_bind,
    Option.bind_some, shardPartitionPoint, point, checkedSub, Nat.le_add_left, if_true,
    Nat.add_sub_cancel, shard, holds]
  rfl

/-- An identifier that is not a node has no shard. -/
theorem globalToShard_of_le (stores : graph.Stores base) {node : ℕ}
    (bound : base.rows.length ≤ node) : graph.globalToShard node = none := by
  obtain ⟨runs, whole, -, cut⟩ := stores.shards
  rw [Option.eq_none_iff_forall_not_mem]
  intro place found
  simp only [globalToShard, Option.bind_eq_bind, Option.mem_def, Option.bind_eq_some_iff] at found
  obtain ⟨id, index, k, _, shard, at_k, inside⟩ := found
  have same : id = node := by
    simp only [nodeIndex, usizeTryFrom] at index
    split at index <;> simp_all
  subst same
  by_cases holds : shard.contains id = true
  · have member : shard ∈ shardsOfRuns base.weighted 0 0 runs := by
      rw [← cut]
      exact List.mem_of_getElem? at_k
    have before := contains_of_mem_shardsOfRuns member holds
    rw [whole] at before
    omega
  · simp [holds] at inside

/-! ## The readers -/

/-- **The base slice of a node is the targets of its row.** -/
theorem baseNeighborSlice_eq (stores : graph.Stores base) (node : ℕ) :
    graph.baseNeighborSlice node = .ok (base.targets node) := by
  rcases Nat.lt_or_ge node base.rows.length with inside | outside
  · obtain ⟨k, first, run, place, shard, -, above, below, row⟩ :=
      stores.globalToShard_of_lt inside
    obtain ⟨bound, entry⟩ := List.getElem?_eq_some_iff.mp row
    simp only [baseNeighborSlice, place, shard, CsrShard.neighborSlice_ofRows bound, entry,
      BaseLayer.targets, BaseLayer.row_of_lt base inside]
  · simp only [baseNeighborSlice, stores.globalToShard_of_le outside,
      BaseLayer.targets_of_le base outside]

/-- **The shard accessors give the row of a node, with its weights.** -/
theorem baseRow_eq (stores : graph.Stores base) (node : ℕ) :
    graph.baseRow node = .ok (base.row node) := by
  rcases Nat.lt_or_ge node base.rows.length with inside | outside
  · obtain ⟨k, first, run, place, shard, matched, above, below, row⟩ :=
      stores.globalToShard_of_lt inside
    obtain ⟨bound, entry⟩ := List.getElem?_eq_some_iff.mp row
    simp only [baseRow, place, shard, CsrShard.neighborRange_ofRows bound, Checked.ok_bind,
      CsrShard.entries_ofRows bound matched, entry, BaseLayer.row_of_lt base inside,
      Checked.pure_eq_ok]
  · simp only [baseRow, stores.globalToShard_of_le outside, BaseLayer.row_of_le base outside]

/-- The base iterator has the targets of the row pending. -/
theorem baseNeighbors_eq (stores : graph.Stores base) (node : ℕ) :
    ∃ iter, graph.baseNeighbors node = .ok iter ∧ iter.pending = base.targets node := by
  rcases Nat.lt_or_ge node base.rows.length with inside | outside
  · obtain ⟨k, first, run, place, shard, -, above, below, row⟩ :=
      stores.globalToShard_of_lt inside
    obtain ⟨bound, entry⟩ := List.getElem?_eq_some_iff.mp row
    refine ⟨_, by simp only [baseNeighbors, place, shard, BaseNeighborIter.new,
      CsrShard.neighborRange_ofRows bound, Checked.ok_bind, Checked.pure_eq_ok]; rfl, ?_⟩
    simp only [BaseNeighborIter.pending, CsrShard.extract_colIndices_ofRows bound, entry,
      BaseLayer.targets, BaseLayer.row_of_lt base inside]
  · exact ⟨.empty, by simp only [baseNeighbors, stores.globalToShard_of_le outside],
      by rw [BaseNeighborIter.pending_empty, BaseLayer.targets_of_le base outside]⟩

end Stores

end CsrGraph

namespace BaseLayer

/-- The base targets of a node that carry no tombstone. -/
def liveTargets (base : BaseLayer) (delta : DeltaLayer) (node : ℕ) : List ℕ :=
  (base.targets node).filter fun target => !delta.isDeleted node target

/-- The neighbors of a node under a delta layer: the live base targets, then the
inserted targets that are not among them. -/
def merged (base : BaseLayer) (delta : DeltaLayer) (node : ℕ) : List ℕ :=
  base.liveTargets delta node ++
    (delta.neighbors node).filter fun target => decide (target ∉ base.liveTargets delta node)

@[simp] theorem mem_liveTargets {base : BaseLayer} {delta : DeltaLayer} {node target : ℕ} :
    target ∈ base.liveTargets delta node ↔
      target ∈ base.targets node ∧ (node, target) ∉ delta.deletions := by
  simp [liveTargets, DeltaLayer.isDeleted]

/-- **A neighbor is a live base edge or an inserted edge.** -/
theorem mem_merged {base : BaseLayer} {delta : DeltaLayer} {node target : ℕ} :
    target ∈ base.merged delta node ↔
      (target ∈ base.targets node ∧ (node, target) ∉ delta.deletions) ∨
        (node, target) ∈ delta.insertions := by
  simp only [merged, List.mem_append, mem_liveTargets, List.mem_filter, DeltaLayer.mem_neighbors,
    decide_eq_true_eq]
  tauto

/-- Neighbors repeat only where the base targets do. -/
theorem merged_nodup {base : BaseLayer} {delta : DeltaLayer} {node : ℕ}
    (nodup : (base.targets node).Nodup) : (base.merged delta node).Nodup := by
  rw [merged, List.nodup_append]
  refine ⟨nodup.filter _, (delta.neighbors_nodup node).filter _, ?_⟩
  rintro kept inKept fresh inFresh rfl
  exact of_decide_eq_true (List.mem_filter.mp inFresh).2 inKept

/-- Without mutations the neighbors are the base targets. -/
theorem merged_new (base : BaseLayer) (node : ℕ) :
    base.merged DeltaLayer.new node = base.targets node := by
  have live : base.liveTargets DeltaLayer.new node = base.targets node :=
    List.filter_eq_self.mpr fun target _ => by simp [DeltaLayer.isDeleted]
  have none : DeltaLayer.new.neighbors node = [] := rfl
  rw [merged, live, none, List.filter_nil, List.append_nil]

end BaseLayer

namespace CsrGraph

namespace Stores

variable {graph : CsrGraph} {base : BaseLayer}

/-- **The neighbors of a node are the merged row.** -/
theorem neighbors_eq (stores : graph.Stores base) (node : ℕ) :
    graph.neighbors node = .ok (base.merged graph.delta node) := by
  obtain ⟨iter, started, pending⟩ := stores.baseNeighbors_eq node
  have bound := iter.length_pending_le
  simp only [neighbors, neighborIter, started, Checked.ok_bind, Checked.pure_eq_ok]
  rw [NeighborIter.collect_eq]
  · have live : (NeighborIter.mk graph node iter (graph.delta.neighbors node) []).pendingBase =
        base.liveTargets graph.delta node := by
      simp only [NeighborIter.pendingBase, pending, BaseLayer.liveTargets]
      rfl
    simp only [live, BaseLayer.merged, List.not_mem_nil, not_false_eq_true, true_and]
  · have filtered := List.length_filter_le
      (NeighborIter.mk graph node iter (graph.delta.neighbors node) []).live iter.pending
    simp only [NeighborIter.pendingBase]
    omega

/-- **`hasEdge` is membership in the merged row**, when no edge is both inserted
and deleted. -/
theorem hasEdge_eq (stores : graph.Stores base) (disjoint : graph.delta.Disjoint)
    (source target : ℕ) :
    graph.hasEdge source target = .ok (decide (target ∈ base.merged graph.delta source)) := by
  simp only [hasEdge]
  by_cases deleted : (source, target) ∈ graph.delta.deletions
  · have absent : target ∉ base.merged graph.delta source := by
      rw [BaseLayer.mem_merged]
      rintro (⟨-, live⟩ | inserted)
      · exact live deleted
      · exact disjoint _ inserted deleted
    simp [deleted, absent]
  · by_cases inserted : (source, target) ∈ graph.delta.insertions
    · have present : target ∈ base.merged graph.delta source :=
        BaseLayer.mem_merged.mpr (.inr inserted)
      simp [deleted, inserted, present]
    · simp only [DeltaLayer.isDeleted_eq_true, deleted, if_false, DeltaLayer.hasInsertion_eq_true,
        inserted, stores.neighbors_eq, Checked.ok_bind, Checked.pure_eq_ok, Except.ok.injEq]
      rw [Bool.eq_iff_iff, List.any_eq_true, decide_eq_true_iff]
      simp

/-- **`baseContains` is membership in the base row.** -/
theorem baseContains_eq (stores : graph.Stores base) (source target : ℕ) :
    graph.baseContains source target = .ok (decide (target ∈ base.targets source)) := by
  simp only [baseContains]
  by_cases fits : target ≤ u32Max
  · simp only [u32TryFrom_of_le fits, stores.baseNeighborSlice_eq, Checked.ok_bind,
      Checked.pure_eq_ok]
  · have absent : target ∉ base.targets source := fun member =>
      fits (BaseLayer.target_le_u32Max member)
    simp [u32TryFrom, fits, absent]

/-- The rows do not depend on the delta layer. -/
theorem withDelta (stores : graph.Stores base) (delta : DeltaLayer) :
    (graph.withDelta delta).Stores base :=
  ⟨stores.shards, stores.nodeCount, stores.edgeCount⟩

end Stores

/-- The empty graph stores the layer without nodes. -/
theorem empty_stores : empty.Stores BaseLayer.empty :=
  ⟨⟨[], rfl, by simp, rfl⟩, rfl, rfl⟩

end CsrGraph

end FusionGraph
