import FusionGraph.Core.ShardPartition
import FusionGraph.Core.Transpose

/-!
# Node identifiers and places in shards

A node is addressed by its identifier or by a shard index with an offset in that
shard. The node ranges of the shards tile the nodes, so the two addressings are
inverse to each other: `globalToShard` is defined exactly on the nodes of the
graph, `shardToGlobal` exactly on the offsets within a shard.
-/

set_option autoImplicit false

namespace FusionGraph

open Foundations

namespace CsrGraph

/-- The graphs that a builder, a compaction or a transposition returns. -/
inductive Produced : CsrGraph → Prop where
  | build {builder : CsrBuilder} {graph : CsrGraph} (outcome : builder.build = .ok graph) :
      Produced graph
  | compact {source graph : CsrGraph} (before : source.Reachable)
      (outcome : source.compact.2 = .ok graph) : Produced graph
  | transpose {source graph : CsrGraph} (before : source.Reachable)
      (outcome : source.transpose.2 = .ok graph) : Produced graph

theorem Produced.stores {graph : CsrGraph} (produced : graph.Produced) :
    ∃ base, graph.Stores base := by
  cases produced with
  | build outcome => exact (CsrBuilder.stores_of_build outcome).2
  | compact before outcome =>
    obtain ⟨base, stores⟩ := before.stores
    obtain ⟨-, layer, kept, -⟩ := stores.compact_records outcome
    exact ⟨layer, kept⟩
  | transpose before outcome =>
    obtain ⟨base, stores⟩ := before.stores
    obtain ⟨builder, same, -, -⟩ := stores.transpose_eq
    exact (CsrBuilder.stores_of_build (same.symm.trans outcome)).2

namespace Stores

variable {graph : CsrGraph} {base : BaseLayer} {node shardIdx offset : ℕ}

/-- The shards of a graph tile its nodes. -/
theorem tiles (stores : graph.Stores base) :
    Tiles 0 (nodeBlocks graph.shards) base.rows.length := by
  obtain ⟨runs, whole, nonempty, cut⟩ := stores.shards
  have tiles := @tiles_shardsOfRuns base.weighted 0 0 _ nonempty
  rwa [← cut, whole, Nat.zero_add] at tiles

/-- A place within a shard is a node of the graph. -/
theorem shardToGlobal_eq_some : graph.shardToGlobal shardIdx offset = some node ↔
    ∃ shard, graph.shards[shardIdx]? = some shard ∧ offset < shard.nodeCount ∧
      node = shard.nodeRange.start + offset := by
  rw [shardToGlobal, Option.bind_eq_some_iff]
  refine exists_congr fun shard => and_congr_right fun _ => ?_
  by_cases inside : offset < shard.nodeCount
  · rw [if_neg (Nat.not_le_of_lt inside), Option.some.injEq]
    exact ⟨fun same => ⟨inside, same.symm⟩, fun found => found.2.symm⟩
  · rw [if_pos (Nat.le_of_not_lt inside)]
    constructor
    · intro found
      cases found
    · rintro ⟨within, -⟩
      exact absurd within inside

theorem isSome_globalToShard (stores : graph.Stores base) (node : ℕ) :
    (graph.globalToShard node).isSome = graph.contains node := by
  rcases Nat.lt_or_ge node base.rows.length with inside | outside
  · obtain ⟨k, first, run, place, -⟩ := stores.globalToShard_of_lt inside
    rw [place, (stores.contains_iff node).mpr inside]
    rfl
  · have absent : ¬ graph.contains node = true := fun found =>
      outside.not_gt ((stores.contains_iff node).mp found)
    rw [stores.globalToShard_of_le outside, Bool.eq_false_of_not_eq_true absent]
    rfl

/-- The place of a node leads back to the node. -/
theorem shardToGlobal_globalToShard (stores : graph.Stores base) {place : ℕ × ℕ}
    (found : graph.globalToShard node = some place) :
    graph.shardToGlobal place.1 place.2 = some node := by
  have inside : node < base.rows.length := by
    refine (stores.contains_iff node).mp ?_
    rw [← stores.isSome_globalToShard, found]
    rfl
  obtain ⟨k, first, run, located, shard, -, above, below, -⟩ := stores.globalToShard_of_lt inside
  obtain rfl := Option.some.inj (located.symm.trans found)
  refine shardToGlobal_eq_some.mpr ⟨_, shard, ?_, ?_⟩
  · rw [CsrShard.nodeCount_ofRows]
    omega
  · exact (Nat.add_sub_cancel' above).symm

/-- A place leads to a node that has this place. -/
theorem globalToShard_shardToGlobal (stores : graph.Stores base)
    (found : graph.shardToGlobal shardIdx offset = some node) :
    graph.contains node = true ∧ graph.globalToShard node = some (shardIdx, offset) := by
  obtain ⟨shard, here, inShard, rfl⟩ := shardToGlobal_eq_some.mp found
  have block : ∀ {i : ℕ} {shard : CsrShard}, graph.shards[i]? = some shard →
      (nodeBlocks graph.shards)[i]? = some (shard.nodeRange.start, shard.nodeRange.stop) := by
    intro i shard found
    rw [nodeBlocks, List.getElem?_map, found, Option.map_some]
  obtain ⟨-, -, last⟩ := stores.tiles.bounds (List.mem_of_getElem? (block here))
  have inBlock : shard.nodeRange.start + offset < shard.nodeRange.stop := by
    rw [CsrShard.nodeCount, NodeRange.len] at inShard
    omega
  have inside : shard.nodeRange.start + offset < base.rows.length := inBlock.trans_le last
  obtain ⟨k, first, run, located, other, -, above, below, -⟩ := stores.globalToShard_of_lt inside
  obtain rfl : shardIdx = k := stores.tiles.index_unique (block here) (block other)
    ⟨Nat.le_add_right _ _, inBlock⟩ ⟨above, below⟩
  obtain rfl := Option.some.inj (here.symm.trans other)
  refine ⟨(stores.contains_iff _).mpr inside, ?_⟩
  rw [located, CsrShard.ofRows, Nat.add_sub_cancel_left]

end Stores

/-- **Identifiers and places are in bijection**: `globalToShard` is defined exactly on
the nodes of the graph, `shardToGlobal` exactly on the offsets within a shard, and each
undoes the other. -/
theorem node_addressing_bijection {graph : CsrGraph} (produced : graph.Produced)
    (node shardIdx offset : ℕ) :
    (graph.globalToShard node).isSome = graph.contains node ∧
      (∀ place, graph.globalToShard node = some place →
        graph.shardToGlobal place.1 place.2 = some node) ∧
      (∀ found, graph.shardToGlobal shardIdx offset = some found →
        graph.contains found = true ∧ graph.globalToShard found = some (shardIdx, offset)) ∧
      (graph.shardToGlobal shardIdx offset = none ↔
        graph.shards.length ≤ shardIdx ∨
          ∃ shard, graph.shards[shardIdx]? = some shard ∧ shard.nodeCount ≤ offset) := by
  obtain ⟨base, stores⟩ := produced.stores
  refine ⟨stores.isSome_globalToShard node, fun _ => stores.shardToGlobal_globalToShard,
    fun _ => stores.globalToShard_shardToGlobal, ?_⟩
  rw [Option.eq_none_iff_forall_ne_some]
  constructor
  · intro none
    rcases Nat.lt_or_ge shardIdx graph.shards.length with inside | outside
    · refine .inr ⟨graph.shards[shardIdx], List.getElem?_eq_getElem inside, ?_⟩
      by_contra small
      exact none _ (Stores.shardToGlobal_eq_some.mpr
        ⟨_, List.getElem?_eq_getElem inside, Nat.lt_of_not_le small, rfl⟩)
    · exact .inl outside
  · intro beyond found same
    obtain ⟨shard, here, inShard, -⟩ := Stores.shardToGlobal_eq_some.mp same
    rcases beyond with outside | ⟨other, there, large⟩
    · rw [List.getElem?_eq_none outside] at here
      cases here
    · obtain rfl := Option.some.inj (here.symm.trans there)
      exact absurd inShard large.not_gt

theorem node_addressing_bijection_witness : ∃ graph : CsrGraph, graph.Produced ∧
    graph.globalToShard 2 = some (1, 1) ∧ graph.shardToGlobal 1 1 = some 2 ∧
      graph.shardToGlobal 1 2 = none := by
  obtain ⟨graph, built, passes⟩ := Checked.exists_of_passes
    (show ((CsrBuilder.new.withShardSize ⟨16, by decide⟩).withEdges
        [(2, 0), (0, 1), (0, 2), (0, 0)]).build.passes
      (fun graph => decide (graph.globalToShard 2 = some (1, 1)) &&
        decide (graph.shards[1]?.map CsrShard.nodeCount = some 2)) = true by decide +kernel)
  obtain ⟨located, size⟩ := Bool.and_eq_true_iff.mp passes
  obtain ⟨shard, here, nodes⟩ := Option.map_eq_some_iff.mp (of_decide_eq_true size)
  have produced : graph.Produced := .build built
  obtain ⟨-, back, -, none⟩ := node_addressing_bijection produced 2 1 2
  exact ⟨graph, produced, of_decide_eq_true located, back _ (of_decide_eq_true located),
    none.mpr (.inr ⟨shard, here, nodes.le⟩)⟩

end CsrGraph

end FusionGraph
