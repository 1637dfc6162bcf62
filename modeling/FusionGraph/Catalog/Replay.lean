import FusionGraph.Catalog.Catalog

/-!
# The live edges through a rebuild and a replay

A compaction rebuilds a graph from the mutations that it has drained and then
replays into the new graph what it has drained after that. This file says which
edges are live after each of the two, one edge at a time
(`CsrGraph.Sound.has_rebuild`, `CsrGraph.Sound.has_replay`), and when a rebuild
succeeds (`CsrGraph.FitsRebuild`).
-/

set_option autoImplicit false

namespace FusionGraph

open Foundations

namespace CsrGraph

/-- The graph stores a base layer, and the halves of its delta layer are disjoint. -/
structure Sound (graph : CsrGraph) : Prop where
  stores : ∃ base, graph.Stores base
  disjoint : graph.delta.Disjoint

/-- The base layer has the edge. -/
def BaseHas (graph : CsrGraph) (key : EdgeKey) : Prop := graph.baseContains key.1 key.2 = .ok true

/-- The edge is live. -/
def Has (graph : CsrGraph) (key : EdgeKey) : Prop := graph.hasEdge key.1 key.2 = .ok true

/-- The drained insertions that are not base edges have endpoints in the `u32`
range, and so is the number of edges that a rebuild has to store. -/
structure FitsRebuild (graph : CsrGraph) (deletions : List EdgeKey)
    (insertions : List (EdgeKey × EdgeData)) : Prop where
  endpoints : ∀ entry ∈ insertions, graph.BaseHas entry.1 ∨
    (entry.1.1 ≤ u32Max ∧ entry.1.2 ≤ u32Max)
  count : ∃ walked fresh, graph.walkBase = .ok walked ∧
    graph.freshInsertions insertions = .ok fresh ∧
    (walked.filter fun edge => decide ((edge.1, edge.2.1) ∉ deletions)).length + fresh.length ≤
      u32Max

/-- A test for rebuilds that fit. -/
def fitsRebuild (graph : CsrGraph) (deletions : List EdgeKey)
    (insertions : List (EdgeKey × EdgeData)) : Bool :=
  (insertions.all fun entry => (graph.baseContains entry.1.1 entry.1.2).passes id ||
      (decide (entry.1.1 ≤ u32Max) && decide (entry.1.2 ≤ u32Max))) &&
    graph.walkBase.passes fun walked => (graph.freshInsertions insertions).passes fun fresh =>
      decide ((walked.filter fun edge => decide ((edge.1, edge.2.1) ∉ deletions)).length +
        fresh.length ≤ u32Max)

variable {graph : CsrGraph} {base : BaseLayer} {key : EdgeKey} {deletions : List EdgeKey}
  {insertions : List (EdgeKey × EdgeData)}

theorem FitsRebuild.of_test (passes : graph.fitsRebuild deletions insertions = true) :
    graph.FitsRebuild deletions insertions := by
  rw [fitsRebuild, Bool.and_eq_true, List.all_eq_true] at passes
  obtain ⟨endpoints, walks⟩ := passes
  obtain ⟨walked, walk, passes⟩ := Checked.exists_of_passes walks
  obtain ⟨fresh, filtered, count⟩ := Checked.exists_of_passes passes
  refine ⟨fun entry member => ?_, walked, fresh, walk, filtered, of_decide_eq_true count⟩
  have within := endpoints entry member
  rw [Bool.or_eq_true, Bool.and_eq_true, decide_eq_true_iff, decide_eq_true_iff] at within
  rcases within with known | inRange
  · obtain ⟨found, same, rfl⟩ := Checked.exists_of_passes known
    exact .inl same
  · exact .inr inRange

theorem Reachable.sound (reachable : graph.Reachable) : graph.Sound :=
  ⟨reachable.stores, reachable.disjoint⟩

theorem Sound.withDelta {delta : DeltaLayer} (sound : graph.Sound) (disjoint : delta.Disjoint) :
    (graph.withDelta delta).Sound := by
  obtain ⟨base, stores⟩ := sound.stores
  exact ⟨⟨base, stores.withDelta delta⟩, disjoint⟩

theorem Stores.baseHas_iff (stores : graph.Stores base) :
    graph.BaseHas key ↔ key.2 ∈ base.targets key.1 := by
  rw [BaseHas, stores.baseContains_eq, Except.ok.injEq, decide_eq_true_iff]

/-- The base layer is not changed by mutations. -/
@[simp] theorem baseHas_withDelta (delta : DeltaLayer) :
    (graph.withDelta delta).BaseHas key ↔ graph.BaseHas key := Iff.rfl

/-- **The live edges** are the base edges without tombstone and the insertions. -/
theorem Sound.has_iff (sound : graph.Sound) :
    graph.Has key ↔ (graph.BaseHas key ∧ key ∉ graph.delta.deletions) ∨
      key ∈ graph.delta.insertions := by
  obtain ⟨base, stores⟩ := sound.stores
  rw [Has, stores.hasEdge_eq sound.disjoint, Except.ok.injEq, decide_eq_true_iff,
    BaseLayer.mem_merged, stores.baseHas_iff]

/-- A query on a sound graph returns. -/
theorem Sound.hasEdge_of_not_has (sound : graph.Sound) (dead : ¬ graph.Has key) :
    graph.hasEdge key.1 key.2 = .ok false := by
  obtain ⟨base, stores⟩ := sound.stores
  rw [Has, stores.hasEdge_eq sound.disjoint, Except.ok.injEq] at dead
  rw [stores.hasEdge_eq sound.disjoint, Bool.eq_false_of_not_eq_true dead]

/-- Two queries on sound graphs agree when the edge is live in both or in neither. -/
theorem Sound.hasEdge_eq_of_iff {other : CsrGraph} (sound : graph.Sound) (soundOther : other.Sound)
    (same : graph.Has key ↔ other.Has key) :
    graph.hasEdge key.1 key.2 = other.hasEdge key.1 key.2 := by
  by_cases live : graph.Has key
  · exact Eq.trans live (same.mp live).symm
  · rw [sound.hasEdge_of_not_has live, soundOther.hasEdge_of_not_has fun has => live (same.mpr has)]

/-! ## Mutations and replays -/

theorem Sound.mutate (sound : graph.Sound) (op : DeltaOp) : (graph.mutate op).Sound :=
  sound.withDelta (sound.disjoint.apply op)

theorem Sound.has_insert (sound : graph.Sound) (source target : ℕ) (data : EdgeData) :
    (graph.mutate (.insert source target data)).Has key ↔
      key = (source, target) ∨ graph.Has key := by
  rw [(sound.mutate _).has_iff, sound.has_iff]
  simp only [CsrGraph.mutate, delta_withDelta, DeltaLayer.apply, DeltaLayer.mem_deletions_insert,
    DeltaLayer.mem_insertions_insert, baseHas_withDelta]
  tauto

theorem Sound.has_delete (sound : graph.Sound) (source target : ℕ) :
    (graph.mutate (.delete source target)).Has key ↔
      key ≠ (source, target) ∧ graph.Has key := by
  rw [(sound.mutate _).has_iff, sound.has_iff]
  simp only [CsrGraph.mutate, delta_withDelta, DeltaLayer.apply, DeltaLayer.mem_deletions_delete,
    DeltaLayer.mem_insertions_delete, baseHas_withDelta]
  tauto

/-- Replayed insertions are live. -/
theorem Sound.has_replayInsertions (sound : graph.Sound)
    (insertions : List (EdgeKey × EdgeData)) :
    (GraphCatalog.replay graph insertions []).Sound ∧ ∀ key,
      (GraphCatalog.replay graph insertions []).Has key ↔
        key ∈ insertions.map Prod.fst ∨ graph.Has key := by
  induction insertions generalizing graph with
  | nil => exact ⟨sound, fun key => by simp [GraphCatalog.replay]⟩
  | cons entry rest ih =>
      obtain ⟨⟨source, target⟩, data⟩ := entry
      obtain ⟨soundRest, live⟩ := ih (sound.mutate (.insert source target data))
      refine ⟨soundRest, fun key => (live key).trans ?_⟩
      rw [sound.has_insert, List.map_cons, List.mem_cons]
      tauto

/-- Replayed deletions are dead. -/
theorem Sound.has_replayDeletions (sound : graph.Sound) (deletions : List EdgeKey) :
    (GraphCatalog.replay graph [] deletions).Sound ∧ ∀ key,
      (GraphCatalog.replay graph [] deletions).Has key ↔ key ∉ deletions ∧ graph.Has key := by
  induction deletions generalizing graph with
  | nil => exact ⟨sound, fun key => by simp [GraphCatalog.replay]⟩
  | cons first rest ih =>
      obtain ⟨source, target⟩ := first
      obtain ⟨soundRest, live⟩ := ih (sound.mutate (.delete source target))
      refine ⟨soundRest, fun key => (live key).trans ?_⟩
      rw [sound.has_delete, List.mem_cons]
      tauto

/-! ## Rebuilds -/

/-- An edge of a merge is a base edge without tombstone or a fresh insertion. -/
theorem exists_mem_mergedEdges (weighted : Bool) :
    (∃ weight, (key.1, key.2, weight) ∈ mergedEdges base weighted deletions insertions) ↔
      (key.2 ∈ base.targets key.1 ∧ key ∉ deletions) ∨
        (key.2 ∉ base.targets key.1 ∧ key ∈ insertions.map Prod.fst) := by
  simp only [mergedEdges, List.mem_append, List.mem_filter, BaseLayer.mem_storedEdges,
    List.mem_map, decide_eq_true_eq, exists_or]
  constructor
  · rintro (⟨weight, member, live⟩ | ⟨weight, entry, ⟨member, fresh⟩, same⟩)
    · exact .inl ⟨List.mem_map.mpr ⟨_, member, rfl⟩, live⟩
    · simp only [Prod.mk.injEq] at same
      obtain rfl : entry.1 = key := Prod.ext same.1 same.2.1
      exact .inr ⟨fresh, entry, member, rfl⟩
  · rintro (⟨member, live⟩ | ⟨fresh, entry, member, rfl⟩)
    · obtain ⟨stored, inRow, same⟩ := List.mem_map.mp member
      refine .inl ⟨stored.2, ?_, live⟩
      rw [← same]
      exact inRow
    · exact .inr ⟨_, entry, ⟨member, fresh⟩, rfl⟩

/-- **What a rebuild stores**: the base edges without a drained tombstone and the
drained insertions that are not base edges. -/
theorem Sound.has_rebuild {compacted : CsrGraph} (sound : graph.Sound)
    (rebuilt : graph.rebuild deletions insertions = .ok compacted) :
    compacted.Sound ∧ compacted.delta = DeltaLayer.new ∧ ∀ key, compacted.Has key ↔
      (graph.BaseHas key ∧ key ∉ deletions) ∨
        (¬ graph.BaseHas key ∧ key ∈ insertions.map Prod.fst) := by
  obtain ⟨base, stores⟩ := sound.stores
  obtain ⟨builder, outcome, size, holds⟩ := stores.rebuild_eq deletions insertions
  obtain ⟨delta, layer, storesLayer, records⟩ :=
    holds.records_of_build (defaultShardSize_roomy size) (outcome.symm.trans rebuilt)
  have soundNew : compacted.Sound := ⟨⟨layer, storesLayer⟩, by rw [delta]; exact .new⟩
  refine ⟨soundNew, delta, fun key => ?_⟩
  rw [soundNew.has_iff, storesLayer.baseHas_iff, stores.baseHas_iff, delta,
    BaseLayer.targets, records.row, ← exists_mem_mergedEdges graph.hasWeights]
  simp only [DeltaLayer.notMem_deletions_new, not_false_eq_true, and_true,
    DeltaLayer.notMem_insertions_new, or_false, List.mem_map, Prod.exists, exists_and_right,
    exists_eq_right, mem_entriesFrom]

/-- **A rebuild that fits succeeds.** -/
theorem FitsRebuild.rebuild_ok (fits : graph.FitsRebuild deletions insertions)
    (sound : graph.Sound) : ∃ compacted, graph.rebuild deletions insertions = .ok compacted := by
  obtain ⟨base, stores⟩ := sound.stores
  obtain ⟨builder, outcome, size, holds⟩ := stores.rebuild_eq deletions insertions
  have inRange : ∀ edge ∈ mergedEdges base graph.hasWeights deletions insertions,
      edge.1 ≤ u32Max ∧ edge.2.1 ≤ u32Max := by
    rintro ⟨source, target, weight⟩ member
    have inBase : target ∈ base.targets source → source ≤ u32Max ∧ target ≤ u32Max :=
      fun known => ⟨BaseLayer.source_le_u32Max known, BaseLayer.target_le_u32Max known⟩
    rcases (@exists_mem_mergedEdges base (source, target) deletions insertions
      graph.hasWeights).mp ⟨weight, member⟩ with ⟨known, -⟩ | ⟨-, inserted⟩
    · exact inBase known
    · obtain ⟨entry, drained, same⟩ := List.mem_map.mp inserted
      rcases fits.endpoints entry drained with known | within
      · rw [stores.baseHas_iff, same] at known
        exact inBase known
      · rwa [same] at within
  have few : (mergedEdges base graph.hasWeights deletions insertions).length ≤ u32Max := by
    obtain ⟨walked, fresh, walk, filtered, count⟩ := fits.count
    rw [stores.walkBase_eq, Except.ok.injEq] at walk
    rw [stores.freshInsertions_eq, Except.ok.injEq] at filtered
    subst walk filtered
    rwa [mergedEdges, List.length_append, List.length_map]
  obtain ⟨compacted, -, built, -⟩ := holds.build_ok inRange few (.inr (defaultShardSize_roomy size))
  exact ⟨compacted, outcome.trans built⟩

end CsrGraph

end FusionGraph
