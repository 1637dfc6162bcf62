import FusionGraph.Core.Compaction

/-!
# Compaction is an exact merge

`CsrGraph.Reachable` are the graphs that a builder returns and that any calls on
the delta layer lead to. Each stores a base layer and has disjoint insertions
and tombstones.

On such a graph, a compaction that succeeds leaves at every node the base edges
without tombstone, in their order and with their weights, and behind them the
inserted edges that are not base edges, in the order of the drain. Its neighbors
are therefore the neighbors before the call.
-/

set_option autoImplicit false

namespace FusionGraph

open Foundations Foundations.StableBuckets

namespace CsrGraph

/-! ## Reachable graphs -/

/-- The graph after a call on its delta layer. -/
def mutate (self : CsrGraph) (op : DeltaOp) : CsrGraph := self.withDelta (self.delta.apply op)

/-- The graph of an edge list after a sequence of calls on its delta layer. -/
def buildAndMutate (edges : List (ℕ × ℕ)) (ops : List DeltaOp) : Outcome CsrGraph := do
  let graph ← fromEdges edges
  pure (ops.foldl mutate graph)

/-- The graphs that a builder returns and that calls on the delta layer lead to.
The hash map of the delta layer is iterated in any order, and an allocation of
more than `isize::MAX` bytes does not succeed. -/
inductive Reachable : CsrGraph → Prop where
  | built {builder : CsrBuilder} {graph : CsrGraph} (outcome : builder.build = .ok graph) :
      Reachable graph
  | mutated {graph : CsrGraph} (before : Reachable graph) (op : DeltaOp)
      (fits : (graph.mutate op).delta.insertions.entries.length ≤ isizeMax) :
      Reachable (graph.mutate op)
  | reordered {graph : CsrGraph} {delta : DeltaLayer} (before : Reachable graph)
      (same : graph.delta.SameEntries delta) : Reachable (graph.withDelta delta)

namespace Reachable

variable {graph : CsrGraph}

theorem stores (reachable : graph.Reachable) : ∃ base, graph.Stores base := by
  induction reachable with
  | built outcome => exact (CsrBuilder.stores_of_build outcome).2
  | mutated _ op _ ih =>
      obtain ⟨base, stores⟩ := ih
      exact ⟨base, stores.withDelta _⟩
  | reordered _ _ ih =>
      obtain ⟨base, stores⟩ := ih
      exact ⟨base, stores.withDelta _⟩

theorem disjoint (reachable : graph.Reachable) : graph.delta.Disjoint := by
  induction reachable with
  | built outcome =>
      rw [(CsrBuilder.stores_of_build outcome).1]
      exact .new
  | mutated _ op _ ih => exact ih.apply op
  | reordered _ same ih => exact same.disjoint ih

theorem fits (reachable : graph.Reachable) :
    graph.delta.insertions.entries.length ≤ isizeMax := by
  induction reachable with
  | built outcome =>
      rw [(CsrBuilder.stores_of_build outcome).1]
      exact Nat.zero_le _
  | mutated _ _ fits _ => exact fits
  | reordered _ same ih => exact same.insertions.length_eq ▸ ih

/-- Few enough calls on a built graph lead to reachable graphs. -/
theorem of_buildAndMutate {edges : List (ℕ × ℕ)} {ops : List DeltaOp}
    (fits : ops.length ≤ isizeMax) (outcome : buildAndMutate edges ops = .ok graph) :
    graph.Reachable := by
  obtain ⟨start, built, rfl⟩ : ∃ start, fromEdges edges = .ok start ∧
      ops.foldl mutate start = graph := by
    obtain ⟨start, built, last⟩ := Checked.bind_eq_ok.mp outcome
    exact ⟨start, built, Except.ok.inj last⟩
  clear outcome
  suffices both : (ops.foldl mutate start).Reachable ∧
      (ops.foldl mutate start).delta.insertions.entries.length ≤ ops.length from both.1
  induction ops using List.reverseRecOn with
  | nil =>
      refine ⟨.built built, ?_⟩
      rw [List.foldl_nil, (CsrBuilder.stores_of_build built).1]
      exact Nat.zero_le _
  | append_singleton ops op ih =>
      rw [List.length_append, List.length_singleton] at fits ⊢
      obtain ⟨reached, bound⟩ := ih (by omega)
      have added := (ops.foldl mutate start).delta.length_insertions_apply op
      rw [List.foldl_append, List.foldl_cons, List.foldl_nil]
      exact ⟨.mutated reached op (by simp only [mutate, withDelta]; omega),
        by simp only [mutate, withDelta]; omega⟩

end Reachable

/-! ## What compaction hands to the builder -/

/-- The edges of a base layer under a delta layer. -/
def merge (base : BaseLayer) (weighted : Bool) (delta : DeltaLayer) : List StoredEdge :=
  mergedEdges base weighted delta.snapshotDeletions delta.snapshotInsertions

/-- The number of edges of a graph: base edges without tombstone and insertions
that are not base edges. -/
def liveEdgeCount (graph : CsrGraph) : Outcome ℕ := do
  let walked ← graph.walkBase
  let fresh ← graph.freshInsertions graph.delta.snapshotInsertions
  pure ((walked.filter fun edge => !graph.delta.isDeleted edge.1 edge.2.1).length + fresh.length)

variable {graph : CsrGraph} {base : BaseLayer}

theorem Stores.liveEdgeCount_eq (stores : graph.Stores base) :
    graph.liveEdgeCount = .ok (merge base graph.hasWeights graph.delta).length := by
  simp only [liveEdgeCount, stores.walkBase_eq, stores.freshInsertions_eq,
    Checked.ok_bind, Checked.pure_eq_ok, merge, mergedEdges, List.length_append,
    List.length_map]
  congr 3
  exact List.filter_congr fun edge _ => by simp [DeltaLayer.isDeleted]

/-- The weights do not change the number of edges. -/
theorem length_merge (base : BaseLayer) (first second : Bool) (delta : DeltaLayer) :
    (merge base first delta).length = (merge base second delta).length := by
  simp only [merge, mergedEdges, List.length_append, List.length_map]

/-- The merge has at most the base edges and the insertions. -/
theorem Stores.length_merge_le (stores : graph.Stores base) (weighted : Bool) (delta : DeltaLayer) :
    (merge base weighted delta).length ≤
      graph.edgeCount + delta.insertions.entries.length := by
  have edges : base.storedEdges.length = graph.edgeCount := by
    rw [stores.edgeCount, base.length_storedEdges]
  have inserted : delta.snapshotInsertions.length = delta.insertions.entries.length := by
    rw [DeltaLayer.snapshotInsertions, List.length_map]
  rw [merge, mergedEdges, List.length_append, List.length_map, ← edges, ← inserted]
  exact Nat.add_le_add (List.length_filter_le _ _) (List.length_filter_le _ _)

/-- Compaction empties the delta layer and builds from the merge. -/
theorem Stores.compact_eq (stores : graph.Stores base) :
    graph.compact.1 = graph.withDelta .new ∧
      ∃ builder : CsrBuilder, graph.compact.2 = builder.build ∧
        builder.config.shardSize = defaultShardSize ∧
        builder.Holds graph.hasWeights (merge base graph.hasWeights graph.delta) := by
  have drains : graph.compact = (graph.withDelta .new,
      (graph.withDelta .new).rebuild graph.delta.snapshotDeletions
        graph.delta.snapshotInsertions) := by
    simp only [compact, DeltaLayer.drainDeletions_eq, DeltaLayer.drainInsertions_eq]
    rfl
  rw [drains]
  exact ⟨rfl, (stores.withDelta .new).rebuild_eq _ _⟩

/-- The default shard size has room for a few edges. -/
theorem defaultShardSize_roomy {builder : CsrBuilder}
    (size : builder.config.shardSize = defaultShardSize) : 28 ≤ builder.config.shardSize.val := by
  rw [size]
  decide

/-- A merge within the limits is compacted. -/
theorem Stores.compact_ok (stores : graph.Stores base)
    (valid : ∀ edge ∈ merge base graph.hasWeights graph.delta,
      edge.1 ≤ u32Max ∧ edge.2.1 ≤ u32Max)
    (count : (merge base graph.hasWeights graph.delta).length ≤ u32Max) :
    ∃ compacted layer, graph.compact.2 = .ok compacted ∧ compacted.delta = DeltaLayer.new ∧
      compacted.Stores layer ∧ layer.Records (merge base graph.hasWeights graph.delta) := by
  obtain ⟨-, builder, outcome, size, holds⟩ := stores.compact_eq
  rw [outcome]
  exact holds.build_ok valid count (.inr (defaultShardSize_roomy size))

/-- A merge outside the limits makes compaction fail with an error. -/
theorem Stores.compact_error (stores : graph.Stores base)
    (unfit : ¬ ((∀ edge ∈ merge base graph.hasWeights graph.delta,
        edge.1 ≤ u32Max ∧ edge.2.1 ≤ u32Max) ∧
      (merge base graph.hasWeights graph.delta).length ≤ u32Max)) :
    ∃ reason, graph.compact.2 = Checked.fail reason := by
  obtain ⟨-, builder, outcome, -, holds⟩ := stores.compact_eq
  rw [outcome]
  exact holds.build_error unfit

/-- What a compaction returns records the merge. -/
theorem Stores.compact_records (stores : graph.Stores base) {compacted : CsrGraph}
    (outcome : graph.compact.2 = .ok compacted) :
    compacted.delta = DeltaLayer.new ∧ ∃ layer, compacted.Stores layer ∧
      layer.Records (merge base graph.hasWeights graph.delta) := by
  obtain ⟨-, builder, same, size, holds⟩ := stores.compact_eq
  exact holds.records_of_build (defaultShardSize_roomy size) (same.symm.trans outcome)

end CsrGraph

/-! ## The rows of a merge -/

/-- The inserted edges of a source that are not among the given targets, in the
order of a drain. -/
def freshEntries (delta : DeltaLayer) (weighted : Bool) (source : ℕ) (known : List ℕ) :
    List RowEntry :=
  (delta.snapshotInsertions.filter fun entry =>
      decide (entry.1.1 = source ∧ entry.1.2 ∉ known)).map fun entry =>
    (entry.1.2, if weighted then some (CsrGraph.insertionWeight entry.2) else none)

/-- A base row under a delta layer: its entries without tombstone, and then the
inserted edges that it does not have. -/
def mergedRow (delta : DeltaLayer) (weighted : Bool) (source : ℕ) (row : List RowEntry) :
    List RowEntry :=
  (row.filter fun entry => !delta.isDeleted source entry.1) ++
    freshEntries delta weighted source (row.map Prod.fst)

/-- The targets of a merged row. -/
def mergedSlice (delta : DeltaLayer) (source : ℕ) (slice : List ℕ) : List ℕ :=
  (slice.filter fun target => !delta.isDeleted source target) ++
    (freshEntries delta false source slice).map Prod.fst

section MergedRows

variable {delta : DeltaLayer} {weighted : Bool} {source : ℕ}

theorem map_fst_freshEntries (known : List ℕ) :
    (freshEntries delta weighted source known).map Prod.fst =
      (freshEntries delta false source known).map Prod.fst := by
  simp only [freshEntries, List.map_map]
  rfl

theorem map_fst_mergedRow (row : List RowEntry) :
    (mergedRow delta weighted source row).map Prod.fst =
      mergedSlice delta source (row.map Prod.fst) := by
  rw [mergedRow, List.map_append, map_fst_freshEntries, mergedSlice, List.filter_map]
  rfl

/-- The fresh targets are the inserted targets that are not known. -/
theorem freshTargets_eq (known : List ℕ) :
    (freshEntries delta false source known).map Prod.fst =
      (delta.neighbors source).filter fun target => decide (target ∉ known) := by
  have keys : delta.insertions.keys = delta.snapshotInsertions.map Prod.fst :=
    delta.map_fst_snapshotInsertions.symm
  rw [DeltaLayer.neighbors, keys, freshEntries, List.map_map]
  induction delta.snapshotInsertions with
  | nil => rfl
  | cons entry rest ih =>
      by_cases own : entry.1.1 = source
      · by_cases known : entry.1.2 ∈ known <;> simp_all
      · simp_all

/-- The fresh targets are distinct. -/
theorem freshTargets_nodup (known : List ℕ) :
    ((freshEntries delta false source known).map Prod.fst).Nodup := by
  rw [freshTargets_eq]
  exact (delta.neighbors_nodup source).filter _

/-- **The edges of a merge with a given source are the merged row.** -/
theorem entriesFrom_merge (base : BaseLayer) (source : ℕ) :
    entriesFrom (CsrGraph.merge base weighted delta) source =
      mergedRow delta weighted source (base.row source) := by
  rw [entriesFrom, CsrGraph.merge, mergedEdges, bucket_append, List.map_append, mergedRow]
  congr 1
  · have commute : bucket Prod.fst (base.storedEdges.filter fun edge =>
        decide ((edge.1, edge.2.1) ∉ delta.snapshotDeletions)) source =
          (bucket Prod.fst base.storedEdges source).filter fun edge =>
            decide ((edge.1, edge.2.1) ∉ delta.snapshotDeletions) := by
      simp only [bucket, List.filter_filter, Bool.and_comm]
    rw [commute, base.bucket_storedEdges, List.filter_map, List.map_map,
      show (Prod.snd ∘ Prod.mk source : RowEntry → RowEntry) = id from rfl, List.map_id]
    refine List.filter_congr fun entry _ => ?_
    simp [DeltaLayer.isDeleted]
  · rw [bucket, List.filter_map, List.map_map, List.filter_filter, freshEntries]
    congr 1
    refine List.filter_congr fun entry _ => ?_
    simp only [Function.comp_apply, ← Bool.decide_and, decide_eq_decide]
    constructor
    · rintro ⟨rfl, absent⟩
      exact ⟨rfl, absent⟩
    · rintro ⟨rfl, absent⟩
      exact ⟨rfl, absent⟩

/-- **The merged row has the neighbors that the two layers have together.** -/
theorem mergedSlice_eq_merged (disjoint : delta.Disjoint) (base : BaseLayer) :
    mergedSlice delta source (base.targets source) = base.merged delta source := by
  rw [mergedSlice, freshTargets_eq, BaseLayer.merged]
  congr 1
  refine List.filter_congr fun target member => ?_
  have inserted := (delta.mem_neighbors source target).mp member
  simp [disjoint _ inserted]

/-- An edge of a list is an entry of its source. -/
theorem mem_entriesFrom {edges : List StoredEdge} {edge : StoredEdge} :
    edge ∈ edges ↔ edge.2 ∈ entriesFrom edges edge.1 := by
  constructor
  · intro member
    exact List.mem_map.mpr ⟨edge, (mem_bucket Prod.fst).mpr ⟨member, rfl⟩, rfl⟩
  · intro member
    obtain ⟨other, inBucket, same⟩ := List.mem_map.mp member
    obtain ⟨inEdges, source⟩ := (mem_bucket Prod.fst).mp inBucket
    rwa [← Prod.ext source same]

/-- **The merge has an edge exactly when it is a neighbor pair of the two layers.** -/
theorem exists_mem_merge (disjoint : delta.Disjoint) (base : BaseLayer) (target : ℕ) :
    (∃ weight, (source, target, weight) ∈ CsrGraph.merge base weighted delta) ↔
      target ∈ base.merged delta source := by
  have row : (entriesFrom (CsrGraph.merge base weighted delta) source).map Prod.fst =
      base.merged delta source := by
    rw [entriesFrom_merge, map_fst_mergedRow, ← mergedSlice_eq_merged disjoint, BaseLayer.targets]
  rw [← row, List.mem_map]
  constructor
  · rintro ⟨weight, member⟩
    exact ⟨(target, weight), mem_entriesFrom.mp member, rfl⟩
  · rintro ⟨⟨found, weight⟩, member, rfl⟩
    exact ⟨weight, mem_entriesFrom.mpr member⟩

end MergedRows

/-- The targets of a compacted graph are the merged rows. -/
theorem BaseLayer.Records.targets_merge {base layer : BaseLayer} {weighted : Bool}
    {delta : DeltaLayer} (records : layer.Records (CsrGraph.merge base weighted delta))
    (node : ℕ) : layer.targets node = mergedSlice delta node (base.targets node) := by
  rw [BaseLayer.targets, records.row, entriesFrom_merge, map_fst_mergedRow, BaseLayer.targets]

namespace CsrGraph

variable {graph compacted : CsrGraph}

/-- **Compaction is an exact merge.** On every reachable graph on which it
returns a graph, each base list of that graph is the base list of the node
without the tombstoned targets, followed by the inserted targets that are not in
it, each once; the entries keep their weights; the neighbors are the neighbors
from before the call; the edge count is the sum of the lengths; and no mutation
is pending in either graph. -/
theorem compact_exact_merge (reachable : graph.Reachable)
    (outcome : graph.compact.2 = .ok compacted) :
    graph.compact.1.delta = .new ∧ compacted.delta = .new ∧
      ∃ (slice merged : ℕ → List ℕ) (row : ℕ → List RowEntry),
        (∀ node, graph.baseNeighborSlice node = .ok (slice node) ∧
          graph.baseRow node = .ok (row node)) ∧
        (∀ node, merged node = (slice node).filter (fun target => !graph.delta.isDeleted node target) ++
            (freshEntries graph.delta false node (slice node)).map Prod.fst ∧
          ((freshEntries graph.delta false node (slice node)).map Prod.fst).Nodup) ∧
        (∀ node, compacted.baseNeighborSlice node = .ok (merged node)) ∧
        (∀ node, compacted.baseRow node = .ok
          ((row node).filter (fun entry => !graph.delta.isDeleted node entry.1) ++
            freshEntries graph.delta graph.hasWeights node (slice node))) ∧
        (∀ node, ∃ before after, graph.neighbors node = .ok before ∧
          compacted.neighbors node = .ok after ∧ after.Perm before) ∧
        compacted.edgeCount = ((List.range compacted.nodeCount).map fun node =>
          (merged node).length).sum ∧
        ∀ node, compacted.nodeCount ≤ node → merged node = [] := by
  obtain ⟨base, stores⟩ := reachable.stores
  obtain ⟨delta, layer, storesLayer, records⟩ := stores.compact_records outcome
  have rows : ∀ node, layer.row node =
      mergedRow graph.delta graph.hasWeights node (base.row node) := fun node => by
    rw [records.row, entriesFrom_merge]
  have targets := records.targets_merge
  refine ⟨by rw [stores.compact_eq.1]; rfl, delta, base.targets, layer.targets, base.row,
    fun node => ⟨stores.baseNeighborSlice_eq node, stores.baseRow_eq node⟩,
    fun node => ⟨targets node, freshTargets_nodup _⟩, storesLayer.baseNeighborSlice_eq,
    fun node => by rw [storesLayer.baseRow_eq, rows]; rfl, fun node => ?_, ?_, fun node beyond => ?_⟩
  · refine ⟨_, _, stores.neighbors_eq node, storesLayer.neighbors_eq node, ?_⟩
    rw [delta, BaseLayer.merged_new, targets, mergedSlice_eq_merged reachable.disjoint]
  · rw [storesLayer.edgeCount, storesLayer.nodeCount, layer.length_flatten_rows]
  · rw [storesLayer.nodeCount] at beyond
    exact BaseLayer.targets_of_le layer beyond

theorem compact_exact_merge_witness : ∃ start graph compacted : CsrGraph,
    (CsrBuilder.new.withWeightedEdges [(0, 1, 2.5), (1, 2, 0.5)]).build = .ok start ∧
      graph = (start.mutate (.delete 0 1)).mutate (.insert 0 2 .default) ∧ graph.Reachable ∧
      graph.hasWeights = true ∧ graph.hasEdge 0 1 = .ok false ∧ graph.hasEdge 0 2 = .ok true ∧
      graph.compact.2 = .ok compacted ∧ graph.compact.1.delta = .new ∧ compacted.delta = .new ∧
      ∃ entry, graph.baseRow 1 = .ok [entry] ∧ compacted.baseRow 1 = .ok [entry] := by
  obtain ⟨start, built, ran⟩ := Checked.exists_of_passes
    (show (CsrBuilder.new.withWeightedEdges [(0, 1, 2.5), (1, 2, 0.5)]).build.passes (fun start =>
      let deleted := start.mutate (.delete 0 1)
      let graph := deleted.mutate (.insert 0 2 .default)
      decide (deleted.delta.insertions.entries.length ≤ isizeMax ∧
        graph.delta.insertions.entries.length ≤ isizeMax) &&
      decide (graph.hasWeights = true ∧ graph.hasEdge 0 1 = .ok false ∧
        graph.hasEdge 0 2 = .ok true ∧ graph.delta.snapshotInsertions.map Prod.fst = [(0, 2)] ∧
        graph.delta.snapshotDeletions = [(0, 1)]) &&
      (graph.baseRow 1).passes fun row => decide (row.length = 1) &&
        graph.compact.2.passes fun _ => true) = true by decide +kernel)
  obtain ⟨state, ran⟩ := Bool.and_eq_true_iff.mp ran
  obtain ⟨few, state⟩ := Bool.and_eq_true_iff.mp state
  obtain ⟨fewDeleted, few⟩ := of_decide_eq_true few
  obtain ⟨weighted, absent, present, inserted, deleted⟩ := of_decide_eq_true state
  obtain ⟨found, stored, ran⟩ := Checked.exists_of_passes ran
  obtain ⟨single, ran⟩ := Bool.and_eq_true_iff.mp ran
  obtain ⟨entry, rfl⟩ := List.length_eq_one_iff.mp (of_decide_eq_true single)
  obtain ⟨compacted, outcome, -⟩ := Checked.exists_of_passes ran
  have reachable := Reachable.mutated (.mutated (.built built) _ fewDeleted) _ few
  obtain ⟨drained, clean, slice, merged, row, layers, -, -, rows, -⟩ :=
    compact_exact_merge reachable outcome
  refine ⟨start, _, compacted, built, rfl, reachable, weighted, absent, present, outcome, drained,
    clean, entry, stored, ?_⟩
  have kept : ∀ target, ((start.mutate (.delete 0 1)).mutate
      (.insert 0 2 .default)).delta.isDeleted 1 target = false := fun target => by
    simp [DeltaLayer.isDeleted, ← DeltaLayer.mem_snapshotDeletions, deleted]
  have fresh : freshEntries ((start.mutate (.delete 0 1)).mutate (.insert 0 2 .default)).delta
      true 1 (slice 1) = [] := by
    have elsewhere : ∀ pending ∈ ((start.mutate (.delete 0 1)).mutate
        (.insert 0 2 .default)).delta.snapshotInsertions, pending.1 = (0, 2) :=
      fun pending member => by simpa [inserted] using List.mem_map_of_mem (f := Prod.fst) member
    rw [freshEntries, List.map_eq_nil_iff, List.filter_eq_nil_iff]
    intro pending member
    simp [elsewhere pending member]
  have same : row 1 = [entry] := Except.ok.inj ((layers 1).2.symm.trans stored)
  rw [rows 1, weighted, fresh, same]
  simp [kept]

end CsrGraph

end FusionGraph
