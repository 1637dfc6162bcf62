import FusionGraph.Core.Merge

/-!
# The transposed graph

`transpose` hands the live edges to a builder, each turned around. What it
returns has the in-neighbors of a node as the base list of the node
(`Reachable.mem_targets_transpose`), and as many nodes and edges as the live
edges need.
-/

set_option autoImplicit false

namespace FusionGraph

open Foundations Foundations.StableBuckets

/-- Turning edges around keeps their endpoints. -/
theorem nodeUniverse_reversedEdges (edges : List StoredEdge) :
    nodeUniverse (reversedEdges edges) = nodeUniverse edges := by
  refine eq_of_forall_lt_iff fun node => ?_
  rw [lt_nodeUniverse, lt_nodeUniverse]
  constructor
  · rintro ⟨edge, member, bound⟩
    obtain ⟨original, inEdges, rfl⟩ := List.mem_map.mp member
    exact ⟨original, inEdges, bound.symm⟩
  · rintro ⟨edge, member, bound⟩
    exact ⟨_, List.mem_map.mpr ⟨edge, member, rfl⟩, bound.symm⟩

/-- A layer that records edges has the nodes of its stored edges. -/
theorem BaseLayer.Records.nodes_storedEdges {base : BaseLayer} {edges : List StoredEdge}
    (records : base.Records edges) : base.rows.length = nodeUniverse base.storedEdges := by
  refine eq_of_forall_lt_iff fun node => ?_
  have same : ∀ edge, edge ∈ base.storedEdges ↔ edge ∈ edges := fun edge => by
    rw [BaseLayer.mem_storedEdges, records.row, mem_entriesFrom]
  simp only [records.nodes, lt_nodeUniverse, same]

@[simp] theorem length_reversedEdges (edges : List StoredEdge) :
    (reversedEdges edges).length = edges.length := List.length_map _

/-- The targets of a layer that records reversed edges are the sources. -/
theorem BaseLayer.Records.mem_targets_reversed {layer : BaseLayer} {edges : List StoredEdge}
    (records : layer.Records (reversedEdges edges)) (source target : ℕ) :
    source ∈ layer.targets target ↔ ∃ weight, (source, target, weight) ∈ edges := by
  rw [BaseLayer.targets, records.row, List.mem_map]
  constructor
  · rintro ⟨entry, member, rfl⟩
    have reversed : (target, entry) ∈ reversedEdges edges := mem_entriesFrom.mpr member
    obtain ⟨⟨source, other, weight⟩, inEdges, same⟩ := List.mem_map.mp reversed
    obtain ⟨rfl, rfl⟩ := Prod.mk.inj same
    exact ⟨weight, inEdges⟩
  · rintro ⟨weight, member⟩
    exact ⟨(source, none), mem_entriesFrom.mp (List.mem_map.mpr ⟨_, member, rfl⟩), rfl⟩

/-- The multiplicity of a target among the entries of a source. -/
theorem count_entriesFrom (edges : List StoredEdge) (source target : ℕ) :
    ((entriesFrom edges source).map Prod.fst).count target =
      edges.countP fun edge => decide (edge.1 = source ∧ edge.2.1 = target) := by
  rw [entriesFrom, bucket, List.map_map, List.count_eq_countP, List.countP_map, List.countP_filter]
  refine List.countP_congr fun edge _ => ?_
  simp [and_comm]

/-- Turning the edges around turns the multiplicities around. -/
theorem count_entriesFrom_reversedEdges (edges : List StoredEdge) (source target : ℕ) :
    ((entriesFrom (reversedEdges edges) target).map Prod.fst).count source =
      edges.countP fun edge => decide (edge.1 = source ∧ edge.2.1 = target) := by
  rw [count_entriesFrom, reversedEdges, List.countP_map]
  refine List.countP_congr fun edge _ => ?_
  simp [and_comm]

namespace CsrGraph

variable {graph reverse : CsrGraph} {base : BaseLayer}

/-- Live edges within the limits are transposed. -/
theorem Stores.transpose_ok (stores : graph.Stores base)
    (valid : ∀ edge ∈ merge base false graph.delta, edge.1 ≤ u32Max ∧ edge.2.1 ≤ u32Max)
    (count : (merge base false graph.delta).length ≤ u32Max) :
    ∃ reverse, graph.transpose.2 = .ok reverse := by
  obtain ⟨builder, outcome, size, holds⟩ := stores.transpose_eq
  obtain ⟨reverse, -, built, -⟩ := holds.build_ok
    (fun edge member => by
      obtain ⟨original, inEdges, rfl⟩ := List.mem_map.mp member
      exact (valid original inEdges).symm)
    (by rwa [length_reversedEdges]) (.inr (defaultShardSize_roomy size))
  exact ⟨reverse, outcome.trans built⟩

/-- The live edges of a graph without mutations are the base edges. -/
theorem merge_new (base : BaseLayer) : merge base false DeltaLayer.new = base.storedEdges := by
  rw [merge, mergedEdges]
  simp [DeltaLayer.snapshotDeletions, DeltaLayer.snapshotInsertions, DeltaLayer.new]

/-- A graph without mutations is transposed. -/
theorem Stores.transpose_ok_of_clean (stores : graph.Stores base)
    (clean : graph.delta = DeltaLayer.new) : ∃ reverse, graph.transpose.2 = .ok reverse := by
  refine stores.transpose_ok (fun edge member => ?_) ?_
  · rw [clean, merge_new] at member
    have inRow : edge.2.1 ∈ base.targets edge.1 :=
      List.mem_map_of_mem (BaseLayer.mem_storedEdges.mp member)
    exact ⟨BaseLayer.source_le_u32Max inRow, BaseLayer.target_le_u32Max inRow⟩
  · rw [clean, merge_new, base.length_storedEdges]
    exact base.edges_le

/-- **What a transposition returns records the live edges, turned around.** -/
theorem Stores.transpose_records (stores : graph.Stores base)
    (outcome : graph.transpose.2 = .ok reverse) :
    reverse.Reachable ∧ reverse.delta = DeltaLayer.new ∧ ∃ layer, reverse.Stores layer ∧
      layer.Records (reversedEdges (merge base false graph.delta)) := by
  obtain ⟨builder, same, size, holds⟩ := stores.transpose_eq
  have built := same.symm.trans outcome
  exact ⟨.built built, holds.records_of_build (defaultShardSize_roomy size) built⟩

/-- **The transpose lists an in-neighbor as often as the edge occurs.** -/
theorem Reachable.count_targets_transpose (reachable : graph.Reachable) {layer : BaseLayer}
    (records : layer.Records (reversedEdges (merge base false graph.delta))) (source target : ℕ) :
    (layer.targets target).count source = (base.merged graph.delta source).count target := by
  rw [BaseLayer.targets, records.row, count_entriesFrom_reversedEdges, ← count_entriesFrom,
    entriesFrom_merge, map_fst_mergedRow, ← mergedSlice_eq_merged reachable.disjoint,
    BaseLayer.targets]

/-- **The transpose lists the in-neighbors of a node.** -/
theorem Reachable.mem_targets_transpose (reachable : graph.Reachable) {layer : BaseLayer}
    (records : layer.Records (reversedEdges (merge base false graph.delta))) (source target : ℕ) :
    source ∈ layer.targets target ↔ target ∈ base.merged graph.delta source := by
  rw [records.mem_targets_reversed, exists_mem_merge reachable.disjoint]

end CsrGraph

end FusionGraph
