import FusionGraph.Core.Construction

/-!
# Compaction and transposition

Compaction drains the delta layer, collects the base edges that carry no
tombstone and the insertions that are not base edges, and hands the list to a
new builder. The delta layer is shared, so the call also changes the graph it is
made on, whether or not the builder succeeds: `CsrGraph.compact` returns that
graph beside its outcome.

The list that is handed to the builder is `mergedEdges` of the base layer and
the drained mutations (`CsrGraph.Stores.rebuild_eq`), and the transpose is built
from the reversed list (`CsrGraph.Stores.transpose_eq`).
-/

set_option autoImplicit false

namespace FusionGraph

open Foundations Foundations.StableBuckets

/-- Thresholds that trigger compaction. -/
structure CompactionPolicy where
  /-- Compact when the number of delta entries reaches this. -/
  maxDeltaEntries : ℕ
  /-- Compact when the delta entries reach this fraction of the base edges. -/
  maxDeltaRatio : Float

namespace CsrGraph

/-- Whether the delta layer has grown past the thresholds of the policy. -/
def shouldCompact (self : CsrGraph) (policy : CompactionPolicy) : Bool :=
  let deltaLen := self.delta.len
  if deltaLen = 0 then false
  else if policy.maxDeltaEntries ≤ deltaLen then true
  else decide (0 < self.edgeCount) &&
    decide (Float.ofNat self.edgeCount * policy.maxDeltaRatio ≤ Float.ofNat deltaLen)

/-- Whether some shard stores weights. -/
def hasWeights (self : CsrGraph) : Bool := self.shards.any CsrShard.hasWeights

/-- The edges of one node of a shard, as the walk over the base layer visits them. -/
def walkRow (self : CsrGraph) (shard : CsrShard) (localOffset : ℕ) : Outcome (List StoredEdge) :=
  match self.shardToGlobal shard.id localOffset with
  | none => .ok []
  | some source => do
    let (start, stop) ← shard.neighborRange localOffset
    pure ((shard.entriesBetween start stop).map (Prod.mk source))

/-- The edges of one shard. -/
def walkShard (self : CsrGraph) (shard : CsrShard) : Outcome (List StoredEdge) := do
  let rows ← (List.range shard.nodeCount).mapM (self.walkRow shard)
  pure rows.flatten

/-- The edges of the base layer, by shard, node and position. -/
def walkBase (self : CsrGraph) : Outcome (List StoredEdge) := do
  let shards ← self.shards.mapM self.walkShard
  pure shards.flatten

/-- The inserted edges that the base layer does not have. -/
def freshInsertions (self : CsrGraph) (insertions : List (EdgeKey × EdgeData)) :
    Outcome (List (EdgeKey × EdgeData)) := do
  let known ← insertions.mapM fun entry => self.baseContains entry.1.1 entry.1.2
  pure ((insertions.zip known).filterMap fun (entry, known) => if known then none else some entry)

/-- The weight of an inserted edge in a weighted graph. -/
def insertionWeight (data : EdgeData) : Float32 := data.weight.elim 1.0 Float.toFloat32

/-- Builds the graph of the base layer under the given mutations. -/
def rebuild (self : CsrGraph) (deletions : List EdgeKey)
    (insertions : List (EdgeKey × EdgeData)) : Outcome CsrGraph := do
  let hasWeights := self.hasWeights
  let walked ← self.walkBase
  let kept := walked.filter fun edge => decide ((edge.1, edge.2.1) ∉ deletions)
  let fresh ← self.freshInsertions insertions
  let edges := kept.map (fun edge => (edge.1, edge.2.1)) ++ fresh.map Prod.fst
  if hasWeights then
    let weights := kept.map (fun edge => edge.2.2.getD 1.0) ++
      fresh.map fun entry => insertionWeight entry.2
    (CsrBuilder.new.withWeightedEdges
      ((edges.zip weights).map fun ((source, target), weight) => (source, target, weight))).build
  else (CsrBuilder.new.withEdges edges).build

/-- Compacts the delta layer into a new graph: the graph after the call, whose
delta layer has been drained, and the outcome. -/
def compact (self : CsrGraph) : CsrGraph × Outcome CsrGraph :=
  let (deletions, delta) := self.delta.drainDeletions
  let (insertions, delta) := delta.drainInsertions
  let drained := self.withDelta delta
  (drained, drained.rebuild deletions insertions)

/-- Builds the transposed graph of the base layer under the given mutations. -/
def transposeFrom (self : CsrGraph) (deletions : List EdgeKey)
    (insertions : List (EdgeKey × EdgeData)) : Outcome CsrGraph := do
  let walked ← self.walkBase
  let kept := walked.filter fun edge => decide ((edge.1, edge.2.1) ∉ deletions)
  let fresh ← self.freshInsertions insertions
  let edges := kept.map (fun edge => (edge.2.1, edge.1)) ++
    fresh.map fun entry => (entry.1.2, entry.1.1)
  (CsrBuilder.new.withEdges edges).build

/-- Builds the transposed graph of a snapshot of both layers: the graph after the call,
whose delta layer has only been read, and the outcome. -/
def transpose (self : CsrGraph) : CsrGraph × Outcome CsrGraph :=
  let deletions := self.delta.snapshotDeletions
  let insertions := self.delta.snapshotInsertions
  (self, self.transposeFrom deletions insertions)

end CsrGraph

/-! ## The base layer as an edge list -/

namespace BaseLayer

/-- The edges of the base layer, by node and position. -/
def storedEdges (base : BaseLayer) : List StoredEdge := numbered 0 base.rows

/-- The edges with a given source are the row of that node. -/
theorem bucket_storedEdges (base : BaseLayer) (node : ℕ) :
    bucket Prod.fst base.storedEdges node = (base.row node).map (Prod.mk node) := by
  simpa [storedEdges, row] using bucket_numbered 0 node base.rows

theorem length_storedEdges (base : BaseLayer) :
    base.storedEdges.length = base.rows.flatten.length := by
  rw [← map_snd_numbered 0 base.rows, List.length_map]
  rfl

/-- The edges of a base layer that records edges are these. -/
theorem Records.storedEdges_perm {base : BaseLayer} {edges : List StoredEdge}
    (records : base.Records edges) : base.storedEdges.Perm edges := by
  refine perm_of_bucket_eq Prod.fst fun node => ?_
  rw [bucket_storedEdges, records.row, entriesFrom, List.map_map]
  have own : ∀ edge ∈ bucket Prod.fst edges node, (Prod.mk node ∘ Prod.snd) edge = edge :=
    fun edge member => by rw [Function.comp_apply, ← ((mem_bucket Prod.fst).mp member).2]
  exact (List.map_congr_left own).trans (List.map_id _)

theorem mem_storedEdges {base : BaseLayer} {edge : StoredEdge} :
    edge ∈ base.storedEdges ↔ edge.2 ∈ base.row edge.1 := by
  have inBucket : edge ∈ base.storedEdges ↔ edge ∈ bucket Prod.fst base.storedEdges edge.1 := by
    simp [mem_bucket]
  rw [inBucket, bucket_storedEdges]
  constructor
  · intro member
    obtain ⟨entry, inRow, same⟩ := List.mem_map.mp member
    rw [← same]
    exact inRow
  · intro inRow
    exact List.mem_map.mpr ⟨edge.2, inRow, rfl⟩

end BaseLayer

namespace CsrGraph

variable {graph : CsrGraph} {weighted : Bool}

/-- Walking a shard gives the edges of its rows. -/
theorem walkShard_ofRows {id start : ℕ} {run : List (List RowEntry)}
    (shard : graph.shards[id]? = some (.ofRows weighted id start run))
    (matched : ∀ entry ∈ run.flatten, entry.2.isSome = weighted) :
    graph.walkShard (.ofRows weighted id start run) = .ok (numbered start run) := by
  have each : ∀ i ∈ List.range run.length,
      graph.walkRow (.ofRows weighted id start run) i =
        .ok ((run[i]?.getD []).map (Prod.mk (start + i))) := by
    intro i member
    have bound : i < run.length := List.mem_range.mp member
    have few : ¬ run.length ≤ i := Nat.not_le_of_lt bound
    have place : graph.shardToGlobal id i = some (start + i) := by
      simp only [shardToGlobal, shard, Option.bind_some, CsrShard.nodeCount_ofRows, few, if_false]
      rfl
    have own : (CsrShard.ofRows weighted id start run).id = id := rfl
    simp only [walkRow, own, place, CsrShard.neighborRange_ofRows bound, Checked.ok_bind,
      CsrShard.entries_ofRows bound matched, Checked.pure_eq_ok, List.getElem?_eq_getElem bound,
      Option.getD_some]
  rw [walkShard, CsrShard.nodeCount_ofRows, Checked.mapM_eq_ok each, Checked.ok_bind,
    numbered_eq_flatMap, List.flatMap_def]
  rfl

/-- Walking consecutive shards gives the edges of their rows. -/
theorem mapM_walkShard {runs : List (List (List RowEntry))} (before : List CsrShard) (start : ℕ)
    (shards : graph.shards = before ++ shardsOfRuns weighted before.length start runs)
    (matched : ∀ entry ∈ runs.flatten.flatten, entry.2.isSome = weighted) :
    ∃ walked, (shardsOfRuns weighted before.length start runs).mapM graph.walkShard = .ok walked ∧
      walked.flatten = numbered start runs.flatten := by
  induction runs generalizing before start with
  | nil => exact ⟨[], rfl, rfl⟩
  | cons run runs ih =>
      have here : graph.shards[before.length]? =
          some (.ofRows weighted before.length start run) := by
        simp [shards, shardsOfRuns]
      have first := walkShard_ofRows here fun entry member => matched entry (by
        rw [List.flatten_cons, List.flatten_append]
        exact List.mem_append_left _ member)
      obtain ⟨walked, walk, flat⟩ := ih
        (before ++ [.ofRows weighted before.length start run]) (start + run.length)
        (by simpa [shardsOfRuns] using shards)
        fun entry member => matched entry (by
          rw [List.flatten_cons, List.flatten_append]
          exact List.mem_append_right _ member)
      rw [List.length_append, List.length_singleton] at walk
      refine ⟨numbered start run :: walked, ?_, ?_⟩
      · rw [shardsOfRuns, List.mapM_cons, first, Checked.ok_bind, walk, Checked.ok_bind]
        rfl
      · rw [List.flatten_cons, flat, List.flatten_cons, numbered_append]

namespace Stores

variable {base : BaseLayer}

/-- **The walk visits exactly the edges of the base layer.** -/
theorem walkBase_eq (stores : graph.Stores base) : graph.walkBase = .ok base.storedEdges := by
  obtain ⟨runs, whole, -, cut⟩ := stores.shards
  obtain ⟨walked, walk, flat⟩ := mapM_walkShard [] 0 cut (by rw [whole]; exact base.weights_match)
  rw [List.length_nil, ← cut] at walk
  rw [walkBase, walk, Checked.ok_bind, Checked.pure_eq_ok, flat, whole]
  rfl

/-- The graph has weights when its base layer is weighted and has a node. -/
theorem hasWeights_eq (stores : graph.Stores base) :
    graph.hasWeights = (base.weighted && !base.rows.isEmpty) := by
  obtain ⟨runs, whole, nonempty, cut⟩ := stores.shards
  have each : ∀ (id start : ℕ) (cuts : List (List (List RowEntry))),
      (shardsOfRuns base.weighted id start cuts).any CsrShard.hasWeights =
        (base.weighted && !cuts.isEmpty) := by
    intro id start cuts
    induction cuts generalizing id start with
    | nil => simp [shardsOfRuns]
    | cons run cuts ih =>
        rw [shardsOfRuns, List.any_cons, ih]
        cases base.weighted <;> simp [CsrShard.hasWeights, CsrShard.ofRows]
  rw [hasWeights, cut, each, ← whole]
  cases runs with
  | nil => rfl
  | cons run runs =>
    obtain ⟨row, rest, rfl⟩ := List.exists_cons_of_ne_nil (nonempty run List.mem_cons_self)
    simp

/-- The entries of the base layer have weights exactly when the graph does. -/
theorem isSome_of_mem_row (stores : graph.Stores base) {node : ℕ} {entry : RowEntry}
    (member : entry ∈ base.row node) : entry.2.isSome = graph.hasWeights := by
  have inRows := BaseLayer.mem_flatten_of_mem_row member
  have some : base.rows.isEmpty = false := by
    cases rows : base.rows with
    | nil => simp [rows] at inRows
    | cons row rest => rfl
  rw [stores.hasWeights_eq, some, base.weights_match entry inRows]
  simp

/-- The insertions that are not base edges. -/
theorem freshInsertions_eq (stores : graph.Stores base) (insertions : List (EdgeKey × EdgeData)) :
    graph.freshInsertions insertions = .ok (insertions.filter fun entry =>
      decide (entry.1.2 ∉ base.targets entry.1.1)) := by
  have each : ∀ entry ∈ insertions, graph.baseContains entry.1.1 entry.1.2 =
      .ok (decide (entry.1.2 ∈ base.targets entry.1.1)) :=
    fun entry _ => stores.baseContains_eq entry.1.1 entry.1.2
  rw [freshInsertions, Checked.mapM_eq_ok each, Checked.ok_bind, Checked.pure_eq_ok]
  congr 1
  clear each
  induction insertions with
  | nil => rfl
  | cons entry rest ih =>
      rw [List.map_cons, List.zip_cons_cons, List.filterMap_cons, ih, List.filter_cons]
      by_cases known : entry.1.2 ∈ base.targets entry.1.1 <;> simp [known]

end Stores

end CsrGraph

/-! ## The edges that compaction and transposition build from -/

/-- The edges of a base layer under the given mutations: the base edges without
tombstone, and then the insertions that are not base edges. -/
def mergedEdges (base : BaseLayer) (weighted : Bool) (deletions : List EdgeKey)
    (insertions : List (EdgeKey × EdgeData)) : List StoredEdge :=
  (base.storedEdges.filter fun edge => decide ((edge.1, edge.2.1) ∉ deletions)) ++
    (insertions.filter fun entry => decide (entry.1.2 ∉ base.targets entry.1.1)).map fun entry =>
      (entry.1.1, entry.1.2, if weighted then some (CsrGraph.insertionWeight entry.2) else none)

/-- The edges turned around, without their weights. -/
def reversedEdges (edges : List StoredEdge) : List StoredEdge :=
  edges.map fun edge => (edge.2.1, edge.1, none)

namespace CsrGraph

namespace Stores

variable {graph : CsrGraph} {base : BaseLayer}

/-- **Compaction builds from the merged edges.** -/
theorem rebuild_eq (stores : graph.Stores base) (deletions : List EdgeKey)
    (insertions : List (EdgeKey × EdgeData)) :
    ∃ builder : CsrBuilder, graph.rebuild deletions insertions = builder.build ∧
      builder.config.shardSize = defaultShardSize ∧
      builder.Holds graph.hasWeights (mergedEdges base graph.hasWeights deletions insertions) := by
  have matched : ∀ edge ∈ base.storedEdges, edge.2.2.isSome = graph.hasWeights :=
    fun edge member => stores.isSome_of_mem_row (BaseLayer.mem_storedEdges.mp member)
  simp only [rebuild, stores.walkBase_eq, stores.freshInsertions_eq, Checked.ok_bind]
  cases heavy : graph.hasWeights with
  | true =>
    refine ⟨_, if_pos rfl, rfl, ?_⟩
    convert CsrBuilder.Holds.withWeightedEdges _ using 1
    rw [List.zip_append (by simp), List.zip_map', List.zip_map', List.map_append, List.map_append,
      List.map_map, List.map_map, List.map_map, List.map_map, mergedEdges]
    congr 1
    refine (List.map_id'' (fun _ => rfl) _).symm.trans (List.map_congr_left fun edge member => ?_)
    have present := matched edge (List.mem_filter.mp member).1
    obtain ⟨source, target, weight⟩ := edge
    obtain ⟨value, rfl⟩ := Option.isSome_iff_exists.mp (present.trans heavy)
    rfl
  | false =>
    refine ⟨_, if_neg (by simp), rfl, ?_⟩
    convert CsrBuilder.Holds.withEdges _ using 1
    rw [List.map_append, List.map_map, List.map_map, mergedEdges]
    congr 1
    refine (List.map_id'' (fun _ => rfl) _).symm.trans (List.map_congr_left fun edge member => ?_)
    have absent := matched edge (List.mem_filter.mp member).1
    obtain ⟨source, target, weight⟩ := edge
    cases weight with
    | none => rfl
    | some value => simp [heavy] at absent

/-- **Transposition builds from the reversed merged edges.** -/
theorem transposeFrom_eq (stores : graph.Stores base) (deletions : List EdgeKey)
    (insertions : List (EdgeKey × EdgeData)) :
    ∃ builder : CsrBuilder, graph.transposeFrom deletions insertions = builder.build ∧
      builder.config.shardSize = defaultShardSize ∧
      builder.Holds false (reversedEdges (mergedEdges base false deletions insertions)) := by
  simp only [transposeFrom, stores.walkBase_eq, stores.freshInsertions_eq, Checked.ok_bind]
  refine ⟨_, rfl, rfl, ?_⟩
  convert CsrBuilder.Holds.withEdges _ using 1
  simp only [reversedEdges, mergedEdges, List.map_append, List.map_map]
  rfl

theorem transpose_eq (stores : graph.Stores base) :
    ∃ builder : CsrBuilder, graph.transpose.2 = builder.build ∧
      builder.config.shardSize = defaultShardSize ∧
      builder.Holds false (reversedEdges (mergedEdges base false graph.delta.snapshotDeletions
        graph.delta.snapshotInsertions)) :=
  stores.transposeFrom_eq _ _

end Stores

end CsrGraph

end FusionGraph
