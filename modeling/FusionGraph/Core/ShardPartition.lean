import FusionGraph.Core.Construction
import FusionGraph.Foundations.Tiling

/-!
# The shards of a built graph partition its nodes

Whatever the shard size, the shards that a builder returns are numbered in order,
their node ranges tile the nodes of the graph, each stores a well-formed piece of
the CSR arrays, and a shard that is larger than the shard size has one node.
-/

set_option autoImplicit false

namespace FusionGraph

open Foundations Foundations.PackedRows

namespace CsrShard

/-- The bytes of the row pointers, the targets and the weights. -/
def payload (self : CsrShard) : ℕ :=
  (self.nodeCount + 1) * 4 + self.edgeCount * if self.hasWeights then 8 else 4

/-- The arrays of a shard fit together, and the shard is as large as it may be. -/
structure WellFormed (self : CsrShard) (shardSize : ℕ) : Prop where
  rowPtrs_length : self.rowPtrs.length = self.nodeCount + 1
  rowPtrs_first : self.rowPtrs.head? = some 0
  rowPtrs_sorted : self.rowPtrs.Pairwise (· ≤ ·)
  rowPtrs_last : self.rowPtrs.getLast? = some self.colIndices.length
  weights_length : ∀ weights, self.weights = some weights →
    weights.length = self.colIndices.length
  single : shardSize < self.payload → self.nodeCount = 1

end CsrShard

/-- The start and the end of the node range of each shard. -/
def nodeBlocks (shards : List CsrShard) : List (ℕ × ℕ) :=
  shards.map fun shard => (shard.nodeRange.start, shard.nodeRange.stop)

/-- The shards are numbered in order and cut the nodes and the edges of a graph into
well-formed pieces. -/
structure ShardPartition (shardSize nodeCount edgeCount : ℕ) (shards : List CsrShard) : Prop where
  ids : shards.map CsrShard.id = List.range shards.length
  nodes : Tiles 0 (nodeBlocks shards) nodeCount
  edges : (shards.map CsrShard.edgeCount).sum = edgeCount
  wellFormed : ∀ shard ∈ shards, shard.WellFormed shardSize

section Runs

variable {weighted : Bool} {id start shardSize : ℕ} {run : List (List RowEntry)}
  {runs : List (List (List RowEntry))}

theorem offsets_sorted {α : Type} (rows : List (List α)) : (offsets rows).Pairwise (· ≤ ·) := by
  rw [offsets, List.pairwise_map]
  exact List.pairwise_lt_range.imp fun ordered => offset_mono rows ordered.le

@[simp] theorem CsrShard.edgeCount_ofRows :
    (CsrShard.ofRows weighted id start run).edgeCount = run.flatten.length :=
  List.length_map _

theorem CsrShard.payload_ofRows :
    (CsrShard.ofRows weighted id start run).payload =
      runMemory (CsrBuilder.bytesPerEdge weighted) run := by
  rw [payload, nodeCount_ofRows, edgeCount_ofRows, runMemory, CsrBuilder.bytesPerEdge]
  cases weighted <;> rfl

/-- A shard of a run that fits, or that has one row, is well formed. -/
theorem wellFormed_ofRows
    (fits : run.length = 1 ∨ runMemory (CsrBuilder.bytesPerEdge weighted) run ≤ shardSize) :
    (CsrShard.ofRows weighted id start run).WellFormed shardSize where
  rowPtrs_length := by rw [CsrShard.nodeCount_ofRows]; exact length_offsets run
  rowPtrs_first := by
    rw [List.head?_eq_getElem?]
    exact getElem?_offsets run (Nat.zero_le _)
  rowPtrs_sorted := offsets_sorted run
  rowPtrs_last := by
    rw [List.getLast?_eq_getElem?]
    have last := getElem?_offsets run (Nat.le_refl run.length)
    have entries := length_offsets run
    rw [offset_length] at last
    rw [CsrShard.ofRows, entries, List.length_map]
    exact last
  weights_length := by
    intro weights stored
    cases weighted with
    | true =>
      obtain rfl := Option.some.inj stored
      rw [CsrShard.ofRows, List.length_map, List.length_map]
    | false => cases stored
  single := by
    intro heavy
    rw [CsrShard.payload_ofRows] at heavy
    rw [CsrShard.nodeCount_ofRows]
    exact fits.resolve_right heavy.not_ge

theorem ids_shardsOfRuns :
    (shardsOfRuns weighted id start runs).map CsrShard.id = List.range' id runs.length := by
  induction runs generalizing id start with
  | nil => rfl
  | cons run runs ih =>
      rw [shardsOfRuns, List.map_cons, ih, List.length_cons, List.range'_succ]
      rfl

theorem length_shardsOfRuns : (shardsOfRuns weighted id start runs).length = runs.length := by
  have ids := congrArg List.length (@ids_shardsOfRuns weighted id start runs)
  rwa [List.length_map, List.length_range'] at ids

/-- The node ranges of the runs tile the nodes. -/
theorem tiles_shardsOfRuns (nonempty : ∀ run ∈ runs, run ≠ []) :
    Tiles start (nodeBlocks (shardsOfRuns weighted id start runs))
      (start + runs.flatten.length) := by
  induction runs generalizing id start with
  | nil => exact .nil start
  | cons run runs ih =>
      obtain ⟨some, later⟩ := List.forall_mem_cons.mp nonempty
      have positive := List.length_pos_iff.mpr some
      rw [List.flatten_cons, List.length_append, ← Nat.add_assoc]
      exact .cons (Nat.lt_add_of_pos_right positive) (ih later)

theorem sum_edgeCount_shardsOfRuns :
    ((shardsOfRuns weighted id start runs).map CsrShard.edgeCount).sum =
      runs.flatten.flatten.length := by
  induction runs generalizing id start with
  | nil => rfl
  | cons run runs ih =>
      rw [shardsOfRuns, List.map_cons, List.sum_cons, ih, List.flatten_cons, List.flatten_append,
        List.length_append, CsrShard.edgeCount_ofRows]

end Runs

/-- Every run that the sharding loop cuts fits, or has one row. -/
theorem Cuts.fits {shardSize bytesPerEdge target : ℕ} {rows : List (List RowEntry)}
    {runs : List (List (List RowEntry))} (cuts : Cuts shardSize bytesPerEdge target rows runs) :
    ∀ run ∈ runs, run.length = 1 ∨ runMemory bytesPerEdge run ≤ shardSize := by
  induction cuts with
  | nil => exact fun run member => absurd member List.not_mem_nil
  | cons _ fits _ _ ih => exact List.forall_mem_cons.mpr ⟨fits, ih⟩

/-- The shards of the runs are well formed when every run fits. -/
theorem wellFormed_shardsOfRuns {weighted : Bool} {id start shardSize : ℕ}
    {runs : List (List (List RowEntry))}
    (fits : ∀ run ∈ runs, run.length = 1 ∨
      runMemory (CsrBuilder.bytesPerEdge weighted) run ≤ shardSize) :
    ∀ shard ∈ shardsOfRuns weighted id start runs, shard.WellFormed shardSize := by
  induction runs generalizing id start with
  | nil => exact fun shard member => absurd member List.not_mem_nil
  | cons run runs ih =>
      obtain ⟨first, later⟩ := List.forall_mem_cons.mp fits
      exact List.forall_mem_cons.mpr ⟨wellFormed_ofRows first, ih later⟩

/-- **Runs that the sharding loop cuts are a partition.** -/
theorem Cuts.partition {weighted : Bool} {shardSize target : ℕ} {rows : List (List RowEntry)}
    {runs : List (List (List RowEntry))}
    (cuts : Cuts shardSize (CsrBuilder.bytesPerEdge weighted) target rows runs) :
    ShardPartition shardSize rows.length rows.flatten.length (shardsOfRuns weighted 0 0 runs) where
  ids := by rw [ids_shardsOfRuns, length_shardsOfRuns, List.range_eq_range']
  nodes := by
    have tiles := @tiles_shardsOfRuns weighted 0 0 runs cuts.ne_nil
    rwa [cuts.flatten_eq, Nat.zero_add] at tiles
  edges := by rw [sum_edgeCount_shardsOfRuns, cuts.flatten_eq]
  wellFormed := wellFormed_shardsOfRuns cuts.fits

theorem ShardPartition.empty (shardSize : ℕ) : ShardPartition shardSize 0 0 [] :=
  ⟨rfl, .nil 0, rfl, fun _ member => absurd member List.not_mem_nil⟩

namespace CsrBuilder

/-- The shards of a built graph are what the partitioning of its arrays returned. -/
theorem partition_of_build {self : CsrBuilder} (nonempty : self.edges ≠ []) {graph : CsrGraph}
    (built : self.build = .ok graph) :
    ∃ rowPtrs colIndices weights,
      self.sortEdges.buildCsrArrays graph.nodeCount = .ok (rowPtrs, colIndices, weights) ∧
        self.sortEdges.partitionIntoShards graph.nodeCount rowPtrs colIndices weights =
          .ok graph.shards := by
  have some : ¬ self.edges.isEmpty = true := by simpa using nonempty
  rw [build, if_neg some] at built
  obtain ⟨_, -, built⟩ := Checked.bind_eq_ok.mp built
  obtain ⟨nodes, -, built⟩ := Checked.bind_eq_ok.mp built
  split at built
  · cases built
  · obtain ⟨⟨rowPtrs, colIndices, weights⟩, arrays, built⟩ := Checked.bind_eq_ok.mp built
    obtain ⟨shards, cut, built⟩ := Checked.bind_eq_ok.mp built
    obtain rfl := Except.ok.inj built
    exact ⟨rowPtrs, colIndices, weights, arrays, cut⟩

/-- **The shards of a builder partition its nodes and edges, for every shard size.** A
builder whose endpoints are below `u32::MAX` refuses more than `u32::MAX` edges; else
its arrays are cut, without an abort, into numbered shards that tile the nodes. -/
theorem shards_partition_nodes (self : CsrBuilder)
    (endpoints : ∀ edge ∈ self.edges, edge.1 < u32Max ∧ edge.2 < u32Max) :
    (u32Max < self.sortEdges.edges.length ∧ self.build = Checked.fail (.unsupportedGraphSize
        s!"edge count {self.sortEdges.edges.length} exceeds CSR row pointer capacity")) ∨
      ∃ graph, self.build = .ok graph ∧
        ShardPartition self.config.shardSize graph.nodeCount graph.edgeCount graph.shards ∧
        (self.edges ≠ [] → ∃ rowPtrs colIndices weights,
          self.sortEdges.buildCsrArrays graph.nodeCount = .ok (rowPtrs, colIndices, weights) ∧
            self.sortEdges.partitionIntoShards graph.nodeCount rowPtrs colIndices weights =
              .ok graph.shards) := by
  have length : self.sortEdges.edges.length = self.storedEdges.length := by
    rw [edges_sortEdges, List.length_map, storedEdges_sortEdges,
      (StableBuckets.sortByKey_perm Prod.fst self.storedEdges).length_eq]
  have valid : ∀ edge ∈ self.edges, edge.1 ≤ u32Max ∧ edge.2 ≤ u32Max := fun edge member =>
    ⟨(endpoints edge member).1.le, (endpoints edge member).2.le⟩
  by_cases none : self.edges = []
  · have empty : self.build = .ok .empty := by simp [build, none]
    exact .inr ⟨.empty, empty, .empty _, fun some => absurd none some⟩
  · by_cases count : self.storedEdges.length ≤ u32Max
    · obtain ⟨target, runs, -, cuts, outcome⟩ := build_eq none valid count
      have nodes : nodeTotal self.storedEdges ≤ u32Max :=
        @nodeTotal_le self.storedEdges (u32Max - 1) fun edge member => by
          have below := endpoints _ (mem_edges_of_mem_storedEdges member)
          exact ⟨Nat.le_sub_one_of_lt below.1, Nat.le_sub_one_of_lt below.2⟩
      have few : runs.length ≤ u32Max := by
        have short := cuts.length_le
        rw [show (BaseLayer.ofEdges (fit_of_valid valid count)).rows.length = _ from
          length_rowsOfEdges] at short
        exact short.trans nodes
      rw [builtOrFail, if_pos few] at outcome
      exact .inr ⟨_, outcome, cuts.partition, fun some => partition_of_build some outcome⟩
    · refine .inl ⟨length ▸ Nat.lt_of_not_le count, ?_⟩
      rw [length]
      exact build_too_many valid (Nat.lt_of_not_le count)

theorem shards_partition_nodes_witness : ∃ graph : CsrGraph,
    ((new.withShardSize ⟨16, by decide⟩).withEdges [(2, 0), (0, 1), (0, 2), (0, 0)]).build =
      .ok graph ∧ nodeBlocks graph.shards = [(0, 1), (1, 3)] ∧
      ShardPartition 16 graph.nodeCount graph.edgeCount graph.shards := by
  obtain ⟨graph, built, blocks⟩ := Checked.exists_of_passes
    (show ((new.withShardSize ⟨16, by decide⟩).withEdges
        [(2, 0), (0, 1), (0, 2), (0, 0)]).build.passes
      (fun graph => decide (nodeBlocks graph.shards = [(0, 1), (1, 3)])) = true by decide +kernel)
  refine ⟨graph, built, of_decide_eq_true blocks, ?_⟩
  rcases shards_partition_nodes ((new.withShardSize ⟨16, by decide⟩).withEdges
    [(2, 0), (0, 1), (0, 2), (0, 0)]) (by decide) with ⟨many, -⟩ | ⟨found, same, partition, -⟩
  · exact absurd many (by decide)
  · obtain rfl := Except.ok.inj (same.symm.trans built)
    exact partition

end CsrBuilder

end FusionGraph
