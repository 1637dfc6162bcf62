import FusionGraph.Core.Construction

/-!
# Calls of both kinds on one builder

`with_edges` extends the edges and leaves the weights alone, and `build` pairs
edges and weights by position once any call was weighted. This module says what
a builder holds after any sequence of calls, and when the graph it builds has
every edge that was added, each with the weight it was added with: exactly when
the sequence has no weighted call, or no plain call that adds an edge.
-/

set_option autoImplicit false

namespace FusionGraph

open Foundations

namespace BuilderCall

/-- The call is one of `with_weighted_edges`, with any batch. -/
def isWeighted : BuilderCall → Bool
  | .weightedEdges _ => true
  | _ => false

end BuilderCall

/-- No call is weighted, or no plain call adds an edge. -/
def OneKind (calls : List BuilderCall) : Prop :=
  (∀ batch, .weightedEdges batch ∉ calls) ∨ ∀ batch, .edges batch ∈ calls → batch = []

/-- The graph has every edge that was added: as many edges, at each source the
targets added with it, and beside them the weights of the weighted ones. -/
structure CsrGraph.KeepsAdded (graph : CsrGraph) (added : List StoredEdge) : Prop where
  edgeCount : graph.edgeCount = added.length
  targets : ∀ node, ∃ targets, graph.baseNeighborSlice node = .ok targets ∧
    targets.Perm ((added.filter fun edge => edge.1 = node).map fun edge => edge.2.1)
  weights : ∀ node, ∃ row order, graph.baseRow node = .ok row ∧ order.Perm row ∧
    List.Forall₂ (fun edge entry => entry.1 = edge.2.1 ∧ ∀ weight, edge.2.2 = some weight →
      entry.2 = some weight) (added.filter fun edge => edge.1 = node) order

namespace CsrBuilder

/-! ## What the builder holds after any calls -/

/-- Every call extends the edges. -/
theorem edges_afterCalls (calls : List BuilderCall) :
    (afterCalls calls).edges = (addedEdges calls).map fun edge => (edge.1, edge.2.1) := by
  induction calls using List.reverseRecOn with
  | nil => rfl
  | append_singleton calls step ih =>
      rw [afterCalls, List.foldl_concat, addedEdges, List.flatMap_append, List.map_append]
      rw [afterCalls, addedEdges] at ih
      cases step <;>
        simp [call, withShardSize, withEdges, withWeightedEdges, BuilderCall.added, ih,
          Function.comp_def]

/-- Only the weighted calls extend the weights. -/
theorem weights_afterCalls (calls : List BuilderCall) :
    (afterCalls calls).weights = (addedEdges calls).filterMap fun edge => edge.2.2 := by
  induction calls using List.reverseRecOn with
  | nil => rfl
  | append_singleton calls step ih =>
      rw [afterCalls, List.foldl_concat, addedEdges, List.flatMap_append, List.filterMap_append]
      rw [afterCalls, addedEdges] at ih
      cases step <;>
        simp [call, withShardSize, withEdges, withWeightedEdges, BuilderCall.added, ih,
          List.filterMap_map]

/-- A builder stores at most its edges. -/
theorem length_storedEdges_le (self : CsrBuilder) :
    self.storedEdges.length ≤ self.edges.length := by
  rw [storedEdges]
  split
  · rw [List.length_map, List.length_zip]
    exact Nat.min_le_left _ _
  · rw [List.length_map]

/-- One weighted call makes the builder weighted. -/
theorem includeWeights_afterCalls (calls : List BuilderCall) :
    (afterCalls calls).config.includeWeights = calls.any BuilderCall.isWeighted := by
  induction calls using List.reverseRecOn with
  | nil => rfl
  | append_singleton calls step ih =>
      rw [afterCalls, List.foldl_concat, List.any_append]
      rw [afterCalls] at ih
      cases step <;>
        simp [call, withShardSize, withEdges, withWeightedEdges, BuilderCall.isWeighted, ih]

/-- An edge was added with a weight exactly by a weighted call. -/
theorem weight_of_mem_addedEdges {calls : List BuilderCall} {edge : StoredEdge}
    (member : edge ∈ addedEdges calls) :
    (∃ batch, .weightedEdges batch ∈ calls ∧ edge.2.2.isSome) ∨
      ∃ batch, .edges batch ∈ calls ∧ batch ≠ [] ∧ edge.2.2 = none := by
  obtain ⟨step, inCalls, inStep⟩ := List.mem_flatMap.mp member
  cases step with
  | shardSize size => exact absurd inStep List.not_mem_nil
  | edges batch =>
      obtain ⟨pair, inBatch, rfl⟩ := List.mem_map.mp inStep
      exact .inr ⟨batch, inCalls, List.ne_nil_of_mem inBatch, rfl⟩
  | weightedEdges batch =>
      obtain ⟨triple, -, rfl⟩ := List.mem_map.mp inStep
      exact .inl ⟨batch, inCalls, rfl⟩

/-- Calls of one kind hold what they added. -/
theorem Holds.of_oneKind {calls : List BuilderCall} (oneKind : OneKind calls) :
    ∃ weighted, (CsrBuilder.afterCalls calls).Holds weighted (addedEdges calls) := by
  rcases oneKind with plain | heavy
  · refine ⟨false, .afterCalls fun step member => ?_⟩
    cases step with
    | shardSize => trivial
    | edges => rfl
    | weightedEdges batch => exact absurd member (plain batch)
  · have weighted : ∀ edge ∈ addedEdges calls, edge.2.2.isSome = true := by
      intro edge member
      rcases weight_of_mem_addedEdges member with ⟨-, -, some⟩ | ⟨batch, inCalls, some, -⟩
      · exact some
      · exact absurd (heavy batch inCalls) some
    refine ⟨true, edges_afterCalls calls, fun _ => ?_, weighted, ?_⟩
    · rw [weights_afterCalls, ← List.filterMap_eq_map]
      refine List.filterMap_congr fun edge member => ?_
      obtain ⟨weight, same⟩ := Option.isSome_iff_exists.mp (weighted edge member)
      rw [Function.comp_apply, same]
      rfl
    · by_cases none : addedEdges calls = []
      · exact .inr ⟨rfl, none⟩
      · obtain ⟨edge, member⟩ := List.exists_mem_of_ne_nil _ none
        refine .inl ((includeWeights_afterCalls calls).trans (List.any_eq_true.mpr ?_))
        rcases weight_of_mem_addedEdges member with ⟨batch, inCalls, -⟩ | ⟨batch, inCalls, some, -⟩
        · exact ⟨_, inCalls, rfl⟩
        · exact absurd (heavy batch inCalls) some

/-- Calls of both kinds store fewer edges than they added. -/
theorem length_storedEdges_lt {calls : List BuilderCall} (mixed : ¬ OneKind calls) :
    (afterCalls calls).storedEdges.length < (addedEdges calls).length := by
  rw [OneKind, not_or, not_forall, not_forall] at mixed
  obtain ⟨⟨heavy, inCalls⟩, ⟨plain, some⟩⟩ := mixed
  rw [not_not] at inCalls
  rw [Classical.not_imp] at some
  have weighted : (afterCalls calls).config.includeWeights = true :=
    (includeWeights_afterCalls calls).trans (List.any_eq_true.mpr ⟨_, inCalls, rfl⟩)
  have stored : (afterCalls calls).storedEdges.length ≤ (afterCalls calls).weights.length := by
    rw [storedEdges, if_pos weighted, List.length_map, List.length_zip]
    exact Nat.min_le_right _ _
  refine stored.trans_lt ?_
  obtain ⟨⟨source, target⟩, inBatch⟩ := List.exists_mem_of_ne_nil plain some.2
  have member : (source, target, none) ∈ addedEdges calls :=
    List.mem_flatMap.mpr ⟨_, some.1, List.mem_map.mpr ⟨_, inBatch, rfl⟩⟩
  rw [weights_afterCalls]
  exact List.length_filterMap_lt_length_iff_exists.mpr ⟨_, member, rfl⟩

/-! ## What it builds -/

/-- With endpoints below `u32::MAX` and at most that many edges, calls of any
kinds build a graph whose rows are the edges that are stored. -/
theorem build_afterCalls {calls : List BuilderCall}
    (endpoints : ∀ edge ∈ addedEdges calls, edge.1 < u32Max ∧ edge.2.1 < u32Max)
    (count : (addedEdges calls).length ≤ u32Max) :
    ∃ graph base, (afterCalls calls).build = .ok graph ∧ graph.Stores base ∧
      base.rows.flatten.length = (afterCalls calls).storedEdges.length ∧
      ∀ node, base.row node = entriesFrom (afterCalls calls).storedEdges node := by
  have below : ∀ edge ∈ (afterCalls calls).edges, edge.1 < u32Max ∧ edge.2 < u32Max := by
    intro edge member
    rw [edges_afterCalls] at member
    obtain ⟨entry, inAdded, rfl⟩ := List.mem_map.mp member
    exact endpoints entry inAdded
  have valid : ∀ edge ∈ (afterCalls calls).edges, edge.1 ≤ u32Max ∧ edge.2 ≤ u32Max :=
    fun edge member => ⟨(below edge member).1.le, (below edge member).2.le⟩
  by_cases none : (afterCalls calls).edges = []
  · have empty : (afterCalls calls).storedEdges = [] := by
      have short := (afterCalls calls).length_storedEdges_le
      rw [none] at short
      exact List.length_eq_zero_iff.mp (Nat.le_zero.mp short)
    refine ⟨.empty, .empty, by simp [build, none], CsrGraph.empty_stores, ?_, fun node => ?_⟩
    · rw [empty]
      rfl
    · rw [empty]
      simp [BaseLayer.row, BaseLayer.empty, entriesFrom, StableBuckets.bucket]
  · have few : (afterCalls calls).storedEdges.length ≤ u32Max := by
      refine (length_storedEdges_le _).trans ?_
      rwa [edges_afterCalls, List.length_map]
    have room : nodeTotal (afterCalls calls).storedEdges ≤ u32Max :=
      @nodeTotal_le _ (u32Max - 1) fun edge member => by
        have bound := below _ (mem_edges_of_mem_storedEdges member)
        exact ⟨Nat.le_sub_one_of_lt bound.1, Nat.le_sub_one_of_lt bound.2⟩
    obtain ⟨graph, built, -, stores⟩ := build_stores none valid few (.inl room)
    exact ⟨graph, _, built, stores, BaseLayer.length_flatten_ofEdges _, BaseLayer.row_ofEdges _⟩

/-- Calls of one kind build a graph that keeps their edges. -/
theorem keepsAdded_of_oneKind {calls : List BuilderCall} (oneKind : OneKind calls)
    {graph : CsrGraph} {base : BaseLayer} (stores : graph.Stores base)
    (stored : base.rows.flatten.length = (afterCalls calls).storedEdges.length)
    (rows : ∀ node, base.row node = entriesFrom (afterCalls calls).storedEdges node) :
    graph.KeepsAdded (addedEdges calls) := by
  obtain ⟨weighted, holds⟩ := Holds.of_oneKind oneKind
  rw [holds.storedEdges_eq] at stored
  refine ⟨stores.edgeCount.trans stored, fun node => ?_, fun node => ?_⟩
  · refine ⟨_, stores.baseNeighborSlice_eq node, ?_⟩
    rw [BaseLayer.targets, rows, holds.storedEdges_eq, entriesFrom, List.map_map]
    rfl
  · refine ⟨_, _, stores.baseRow_eq node, .refl _, ?_⟩
    rw [rows, holds.storedEdges_eq, entriesFrom, List.forall₂_map_right_iff]
    exact List.forall₂_same.mpr fun edge _ => ⟨rfl, fun weight same => same⟩

/-- **A builder keeps every edge and its weight exactly when its calls are of one
kind.** Otherwise the edges and weights are paired by position and the edges
without a partner are dropped. -/
theorem build_keepsAdded_iff {calls : List BuilderCall}
    (endpoints : ∀ edge ∈ addedEdges calls, edge.1 < u32Max ∧ edge.2.1 < u32Max)
    (count : (addedEdges calls).length ≤ u32Max) :
    ∃ graph, (afterCalls calls).build = .ok graph ∧
      (graph.KeepsAdded (addedEdges calls) ↔ OneKind calls) := by
  obtain ⟨graph, base, built, stores, stored, rows⟩ := build_afterCalls endpoints count
  refine ⟨graph, built, fun keeps => ?_, fun oneKind =>
    keepsAdded_of_oneKind oneKind stores stored rows⟩
  by_contra mixed
  have all := keeps.edgeCount
  rw [stores.edgeCount, stored] at all
  exact absurd all (length_storedEdges_lt mixed).ne

theorem build_keepsAdded_iff_witness : ∃ graph,
    (afterCalls [.weightedEdges [(1, 0, 2.5)], .edges [], .weightedEdges [(0, 1, 0.5)]]).build =
        .ok graph ∧
      graph.KeepsAdded [(1, 0, some 2.5), (0, 1, some 0.5)] := by
  obtain ⟨graph, built, keeps⟩ := @build_keepsAdded_iff
    [.weightedEdges [(1, 0, 2.5)], .edges [], .weightedEdges [(0, 1, 0.5)]]
    (by simp [addedEdges, BuilderCall.added, u32Max])
    (by simp [addedEdges, BuilderCall.added, u32Max])
  exact ⟨graph, built, keeps.mpr (.inr fun batch member => by simpa using member)⟩

/-- A plain edge and then a weighted one: one edge is built, the first with the
weight of the second. -/
theorem build_loses_weighted_edge : ∃ graph,
    (afterCalls [.edges [(0, 1)], .weightedEdges [(1, 2, 9.0)]]).build = .ok graph ∧
      graph.edgeCount = 1 ∧ graph.baseRow 0 = .ok [(1, some 9.0)] ∧
      graph.baseNeighborSlice 1 = .ok [] ∧
      ¬ graph.KeepsAdded (addedEdges [.edges [(0, 1)], .weightedEdges [(1, 2, 9.0)]]) := by
  obtain ⟨graph, base, built, stores, stored, rows⟩ := @build_afterCalls
    [.edges [(0, 1)], .weightedEdges [(1, 2, 9.0)]]
    (by simp [addedEdges, BuilderCall.added, u32Max])
    (by simp [addedEdges, BuilderCall.added, u32Max])
  have one : graph.edgeCount = 1 := stores.edgeCount.trans stored
  refine ⟨graph, built, one, ?_, ?_, fun keeps => ?_⟩
  · rw [stores.baseRow_eq, rows]
    rfl
  · rw [stores.baseNeighborSlice_eq, BaseLayer.targets, rows]
    rfl
  · have two := keeps.edgeCount
    rw [one] at two
    exact absurd two (by decide)

end CsrBuilder

end FusionGraph
