import FusionGraph.Core.Merge

/-!
# The store refines a set of edges

The store is a base layer, a delta layer and a compaction that replaces the one
by the merge of both. What it is for is a set of edges: an insertion adds an
edge, a deletion removes it, and a compaction leaves the set alone.

`StoreInvariant` relates a graph to that set. It holds of a built graph, every
step of a run keeps it, and it is what makes every compaction succeed
(`store_refines_edge_set`).
-/

set_option autoImplicit false

namespace FusionGraph

open Foundations Foundations.StableBuckets

/-- A step of a store: a write, or a compaction whose result replaces the graph. -/
inductive StoreStep where
  | insert (source target : ℕ) (data : EdgeData)
  | delete (source target : ℕ)
  | compact

namespace StoreStep

/-- The endpoints of the step are below `u32::MAX`. -/
def InRange : StoreStep → Prop
  | insert source target _ | delete source target => source < u32Max ∧ target < u32Max
  | compact => True

/-- The step on a graph. -/
def run (graph : CsrGraph) : StoreStep → Outcome CsrGraph
  | insert source target data => .ok (graph.mutate (.insert source target data))
  | delete source target => .ok (graph.mutate (.delete source target))
  | compact => graph.compact.2

/-- The step on the set of edges that the store stands for. -/
def onSet (edges : Set EdgeKey) : StoreStep → Set EdgeKey
  | insert source target _ => edges ∪ {(source, target)}
  | delete source target => edges \ {(source, target)}
  | compact => edges

end StoreStep

/-- The set of edges after a sequence of steps. -/
def edgesAfter (edges : Set EdgeKey) (steps : List StoreStep) : Set EdgeKey :=
  steps.foldl StoreStep.onSet edges

/-- The runs of a store from a graph. Before a step the hash maps may be found in
any order; endpoints and the number of edges stay below `u32::MAX`. -/
inductive StoreRun (start : CsrGraph) : List StoreStep → Outcome CsrGraph → Prop where
  | start : StoreRun start [] (.ok start)
  | next {steps : List StoreStep} {graph : CsrGraph} {order : DeltaLayer} {live : ℕ}
      (before : StoreRun start steps (.ok graph)) (same : graph.delta.SameEntries order)
      (count : (graph.withDelta order).liveEdgeCount = .ok live) (few : live < u32Max)
      (step : StoreStep) (inRange : step.InRange) :
      StoreRun start (steps ++ [step]) (step.run (graph.withDelta order))

/-- The graph stands for the given set of edges; its endpoints are in range, and
its base rows have no repetitions when that is asked for. -/
structure StoreInvariant (distinct : Prop) (graph : CsrGraph) (edges : Set EdgeKey)
    (base : BaseLayer) : Prop where
  stores : graph.Stores base
  disjoint : graph.delta.Disjoint
  members : ∀ source target, target ∈ base.merged graph.delta source ↔ (source, target) ∈ edges
  inserted : ∀ key ∈ graph.delta.insertions, key.1 < u32Max ∧ key.2 < u32Max
  nodes : base.rows.length ≤ u32Max
  nodup : distinct → ∀ node, (base.targets node).Nodup

namespace StoreInvariant

variable {distinct : Prop} {graph : CsrGraph} {edges : Set EdgeKey} {base : BaseLayer}

/-- The iteration order of the hash maps does not matter. -/
theorem reorder (invariant : StoreInvariant distinct graph edges base) {order : DeltaLayer}
    (same : graph.delta.SameEntries order) :
    StoreInvariant distinct (graph.withDelta order) edges base where
  stores := invariant.stores.withDelta order
  disjoint := same.disjoint invariant.disjoint
  members source target := by
    rw [← invariant.members, BaseLayer.mem_merged, BaseLayer.mem_merged]
    have inserted := AList.mem_of_perm (a := (source, target)) same.insertions
    have deleted := AList.mem_of_perm (a := (source, target)) same.deletions
    simp only [CsrGraph.withDelta, inserted, deleted]
  inserted key member := invariant.inserted key ((AList.mem_of_perm same.insertions).mpr member)
  nodes := invariant.nodes
  nodup := invariant.nodup

theorem insert (invariant : StoreInvariant distinct graph edges base) {source target : ℕ}
    (data : EdgeData) (inRange : source < u32Max ∧ target < u32Max) :
    StoreInvariant distinct (graph.mutate (.insert source target data))
      (edges ∪ {(source, target)}) base where
  stores := invariant.stores.withDelta _
  disjoint := invariant.disjoint.apply _
  members u v := by
    have before := invariant.members u v
    rw [BaseLayer.mem_merged] at before ⊢
    simp only [CsrGraph.mutate, CsrGraph.withDelta, DeltaLayer.apply,
      DeltaLayer.mem_deletions_insert, DeltaLayer.mem_insertions_insert, Set.mem_union,
      Set.mem_singleton_iff, ← before]
    tauto
  inserted key member := by
    simp only [CsrGraph.mutate, CsrGraph.withDelta, DeltaLayer.apply,
      DeltaLayer.mem_insertions_insert] at member
    rcases member with rfl | old
    · exact inRange
    · exact invariant.inserted key old
  nodes := invariant.nodes
  nodup := invariant.nodup

theorem delete (invariant : StoreInvariant distinct graph edges base) (source target : ℕ) :
    StoreInvariant distinct (graph.mutate (.delete source target))
      (edges \ {(source, target)}) base where
  stores := invariant.stores.withDelta _
  disjoint := invariant.disjoint.apply _
  members u v := by
    have before := invariant.members u v
    rw [BaseLayer.mem_merged] at before ⊢
    simp only [CsrGraph.mutate, CsrGraph.withDelta, DeltaLayer.apply,
      DeltaLayer.mem_deletions_delete, DeltaLayer.mem_insertions_delete, Set.mem_sdiff,
      Set.mem_singleton_iff, ← before]
    tauto
  inserted key member := by
    simp only [CsrGraph.mutate, CsrGraph.withDelta, DeltaLayer.apply,
      DeltaLayer.mem_insertions_delete] at member
    exact invariant.inserted key member.2
  nodes := invariant.nodes
  nodup := invariant.nodup

/-- The edges of the merge have endpoints in range. -/
theorem merge_inRange (invariant : StoreInvariant distinct graph edges base) (weighted : Bool) :
    ∀ edge ∈ CsrGraph.merge base weighted graph.delta,
      edge.1 < u32Max ∧ edge.2.1 < u32Max := by
  rintro ⟨source, target, weight⟩ member
  have neighbor := (exists_mem_merge invariant.disjoint base target).mp ⟨weight, member⟩
  have nodes := invariant.nodes
  rcases BaseLayer.mem_merged.mp neighbor with ⟨inBase, -⟩ | inserted
  · have above := BaseLayer.source_lt inBase
    have below := BaseLayer.target_lt inBase
    exact ⟨above.trans_le nodes, below.trans_le nodes⟩
  · exact invariant.inserted _ inserted

/-- **A compaction of few enough edges succeeds and keeps the set.** -/
theorem compact (invariant : StoreInvariant distinct graph edges base) {live : ℕ}
    (count : graph.liveEdgeCount = .ok live) (few : live < u32Max) :
    ∃ compacted layer, graph.compact.2 = .ok compacted ∧
      StoreInvariant distinct compacted edges layer := by
  have inRange := invariant.merge_inRange graph.hasWeights
  have length : (CsrGraph.merge base graph.hasWeights graph.delta).length = live := by
    rw [invariant.stores.liveEdgeCount_eq, Except.ok.injEq] at count
    exact count
  obtain ⟨compacted, layer, outcome, delta, stores, records⟩ := invariant.stores.compact_ok
    (fun edge member => ⟨(inRange edge member).1.le, (inRange edge member).2.le⟩)
    (by rw [length]; exact few.le)
  refine ⟨compacted, layer, outcome, stores, by rw [delta]; exact .new, fun source target => ?_,
    by simp [delta], ?_, fun asked node => ?_⟩
  · rw [delta, BaseLayer.merged_new, records.targets_merge,
      mergedSlice_eq_merged invariant.disjoint, invariant.members]
  · rw [records.nodes]
    by_contra many
    obtain ⟨edge, member, bound⟩ := lt_nodeUniverse.mp (Nat.lt_of_not_le many)
    have below := inRange edge member
    omega
  · rw [records.targets_merge, mergedSlice_eq_merged invariant.disjoint]
    exact BaseLayer.merged_nodup (invariant.nodup asked node)

/-- **Every step of a run succeeds and keeps the relation to the set.** -/
theorem step (invariant : StoreInvariant distinct graph edges base) {live : ℕ}
    (count : graph.liveEdgeCount = .ok live) (few : live < u32Max) {step : StoreStep}
    (inRange : step.InRange) :
    ∃ next layer, step.run graph = .ok next ∧
      StoreInvariant distinct next (step.onSet edges) layer := by
  cases step with
  | insert source target data => exact ⟨_, base, rfl, invariant.insert data inRange⟩
  | delete source target => exact ⟨_, base, rfl, invariant.delete source target⟩
  | compact => exact invariant.compact count few

/-- What the readers see of a graph that stands for a set. -/
theorem reads (invariant : StoreInvariant distinct graph edges base) (source target : ℕ) :
    ∃ neighbors, graph.neighbors source = .ok neighbors ∧
      (target ∈ neighbors ↔ (source, target) ∈ edges) ∧
      (graph.hasEdge source target = .ok true ↔ (source, target) ∈ edges) ∧
      (graph.hasEdge source target = .ok false ↔ (source, target) ∉ edges) ∧
      (distinct → neighbors.Nodup) := by
  refine ⟨_, invariant.stores.neighbors_eq source, invariant.members source target, ?_, ?_,
    fun asked => BaseLayer.merged_nodup (invariant.nodup asked source)⟩
  · simp [invariant.stores.hasEdge_eq invariant.disjoint, invariant.members]
  · simp [invariant.stores.hasEdge_eq invariant.disjoint, invariant.members]

/-- A built graph stands for the pairs of its edges. -/
theorem built {start : CsrGraph} {added : List StoredEdge} (stores : start.Stores base)
    (delta : start.delta = .new) (records : base.Records added)
    (inRange : ∀ edge ∈ added, edge.1 < u32Max ∧ edge.2.1 < u32Max) :
    StoreInvariant (added.map fun edge => (edge.1, edge.2.1)).Nodup start
      {key | ∃ edge ∈ added, key = (edge.1, edge.2.1)} base where
  stores := stores
  disjoint := by rw [delta]; exact .new
  members source target := by
    rw [delta, BaseLayer.merged_new, BaseLayer.targets, records.row, List.mem_map]
    constructor
    · rintro ⟨entry, member, rfl⟩
      exact ⟨(source, entry), mem_entriesFrom.mpr member, rfl⟩
    · rintro ⟨edge, member, same⟩
      obtain ⟨rfl, rfl⟩ := Prod.mk.inj same
      exact ⟨edge.2, mem_entriesFrom.mp member, rfl⟩
  inserted := by simp [delta]
  nodes := by
    rw [records.nodes]
    by_contra many
    obtain ⟨edge, member, bound⟩ := lt_nodeUniverse.mp (Nat.lt_of_not_le many)
    have below := inRange edge member
    omega
  nodup distinctPairs node := by
    have pairs : (bucket Prod.fst added node).map (fun edge => (edge.1, edge.2.1)) =
        (base.targets node).map (Prod.mk node) := by
      rw [BaseLayer.targets, records.row, entriesFrom, List.map_map, List.map_map]
      refine List.map_congr_left fun edge member => ?_
      rw [Function.comp_apply, Function.comp_apply, ((mem_bucket Prod.fst).mp member).2]
    have sub := (List.filter_sublist (l := added)
      (p := fun edge => decide (edge.1 = node))).map fun edge => (edge.1, edge.2.1)
    have kept := distinctPairs.sublist sub
    rw [show (List.filter (fun edge => decide (edge.1 = node)) added) =
      bucket Prod.fst added node from rfl, pairs] at kept
    exact kept.of_map _

end StoreInvariant

/-- **A run keeps the relation between the graph and the set.** -/
theorem StoreRun.invariant {distinct : Prop} {start : CsrGraph} {edges : Set EdgeKey}
    {base : BaseLayer} (initial : StoreInvariant distinct start edges base)
    {steps : List StoreStep} {outcome : Outcome CsrGraph} (run : StoreRun start steps outcome) :
    ∃ graph layer, outcome = .ok graph ∧
      StoreInvariant distinct graph (edgesAfter edges steps) layer := by
  suffices general : ∀ (steps : List StoreStep) (outcome : Outcome CsrGraph),
      StoreRun start steps outcome → ∃ graph layer, outcome = .ok graph ∧
        StoreInvariant distinct graph (edgesAfter edges steps) layer from general steps outcome run
  intro steps outcome run
  induction run with
  | start => exact ⟨start, base, rfl, initial⟩
  | @next steps graph order live before same count few step inRange ih =>
      obtain ⟨current, layer, outcome, invariant⟩ := ih
      obtain rfl := Except.ok.inj outcome
      obtain ⟨after, layer', moved, kept⟩ := (invariant.reorder same).step count few inRange
      refine ⟨after, layer', moved, ?_⟩
      rw [edgesAfter, List.foldl_append]
      exact kept

/-- **Steps in range that add fewer than `u32::MAX` edges in total are a run.** -/
theorem StoreRun.exists_of_total {distinct : Prop} {start : CsrGraph} {edges : Set EdgeKey}
    {base : BaseLayer} (steps : List StoreStep) (initial : StoreInvariant distinct start edges base)
    (inRange : ∀ step ∈ steps, step.InRange)
    (total : start.edgeCount + start.delta.insertions.entries.length + steps.length ≤ u32Max) :
    ∃ graph, StoreRun start steps (.ok graph) ∧
      graph.edgeCount + graph.delta.insertions.entries.length ≤
        start.edgeCount + start.delta.insertions.entries.length + steps.length := by
  induction steps using List.reverseRecOn with
  | nil => exact ⟨start, .start, Nat.le_refl _⟩
  | append_singleton steps step ih =>
      rw [List.length_append, List.length_singleton] at total ⊢
      obtain ⟨graph, before, bound⟩ :=
        ih (fun step member => inRange step (List.mem_append_left _ member)) (by omega)
      obtain ⟨same, layer, returned, invariant⟩ := before.invariant initial
      obtain rfl := Except.ok.inj returned
      have count := invariant.stores.liveEdgeCount_eq
      have size := invariant.stores.length_merge_le graph.hasWeights graph.delta
      have few : (CsrGraph.merge layer graph.hasWeights graph.delta).length < u32Max := by
        simp only [u32Max] at total ⊢
        omega
      have stepInRange := inRange step (List.mem_append_right _ List.mem_cons_self)
      have same : graph.delta.SameEntries graph.delta := ⟨List.Perm.refl _, List.Perm.refl _⟩
      have next := StoreRun.next before same count few step stepInRange
      cases step with
      | insert source target data =>
          have added := graph.delta.length_insertions_apply (.insert source target data)
          exact ⟨_, next, by simp only [CsrGraph.mutate, CsrGraph.withDelta]; omega⟩
      | delete source target =>
          have added := graph.delta.length_insertions_apply (.delete source target)
          exact ⟨_, next, by simp only [CsrGraph.mutate, CsrGraph.withDelta]; omega⟩
      | compact =>
          obtain ⟨compacted, merged, outcome, -⟩ := invariant.compact count few
          obtain ⟨delta, found, stores, records⟩ := invariant.stores.compact_records outcome
          have next : StoreRun start (steps ++ [.compact]) (.ok compacted) := outcome ▸ next
          refine ⟨compacted, next, ?_⟩
          rw [stores.edgeCount, records.count, delta]
          simp only [DeltaLayer.new, AList.empty_entries, List.length_nil]
          omega

/-- **The base and delta store refines a set of edges over whole runs.** From any
edge list with endpoints below `u32::MAX`, every step of every run succeeds, and
after it both query paths agree with the set, the halves of the delta layer are
disjoint, and neighbors repeat only if the initial edges do. -/
theorem store_refines_edge_set {weighted : Bool} {calls : List BuilderCall}
    (only : ∀ step ∈ calls, step.AddsOnly weighted)
    (endpoints : ∀ edge ∈ addedEdges calls, edge.1 < u32Max ∧ edge.2.1 < u32Max)
    (count : (addedEdges calls).length ≤ u32Max) :
    ∃ start, (CsrBuilder.afterCalls calls).build = .ok start ∧
      ∀ steps outcome, StoreRun start steps outcome →
        ∃ graph, outcome = .ok graph ∧ graph.delta.Disjoint ∧
          ∀ source target, ∃ neighbors, graph.neighbors source = .ok neighbors ∧
            (target ∈ neighbors ↔ (source, target) ∈ edgesAfter
              {key | ∃ edge ∈ addedEdges calls, key = (edge.1, edge.2.1)} steps) ∧
            (graph.hasEdge source target = .ok true ↔ (source, target) ∈ edgesAfter
              {key | ∃ edge ∈ addedEdges calls, key = (edge.1, edge.2.1)} steps) ∧
            (graph.hasEdge source target = .ok false ↔ (source, target) ∉ edgesAfter
              {key | ∃ edge ∈ addedEdges calls, key = (edge.1, edge.2.1)} steps) ∧
            (((addedEdges calls).map fun edge => (edge.1, edge.2.1)).Nodup → neighbors.Nodup) := by
  obtain ⟨start, base, built, delta, stores, records⟩ := (CsrBuilder.Holds.afterCalls only).build_ok
    (fun edge member => ⟨(endpoints edge member).1.le, (endpoints edge member).2.le⟩) count
    (.inl (nodeUniverse_le endpoints))
  refine ⟨start, built, fun steps outcome run => ?_⟩
  obtain ⟨graph, layer, returned, invariant⟩ :=
    run.invariant (.built stores delta records endpoints)
  exact ⟨graph, returned, invariant.disjoint, invariant.reads⟩

theorem store_refines_edge_set_witness : ∃ start graph : CsrGraph,
    (CsrBuilder.afterCalls [.edges [(0, 1), (1, 2)]]).build = .ok start ∧
      StoreRun start [.delete 0 1, .insert 2 0 .default, .compact] (.ok graph) ∧
      graph.hasEdge 0 1 = .ok false ∧ graph.hasEdge 2 0 = .ok true := by
  have only : ∀ step ∈ [BuilderCall.edges [(0, 1), (1, 2)]], step.AddsOnly false := by
    simp [BuilderCall.AddsOnly]
  obtain ⟨start, built, runs⟩ := store_refines_edge_set only
    (by simp [addedEdges, BuilderCall.added, u32Max])
    (by simp [addedEdges, BuilderCall.added, u32Max])
  obtain ⟨found, base, same, delta, stores, records⟩ :=
    (CsrBuilder.Holds.afterCalls only).build_ok (by simp [addedEdges, BuilderCall.added, u32Max])
      (by simp [addedEdges, BuilderCall.added, u32Max]) (.inl (by decide))
  obtain rfl := Except.ok.inj (built.symm.trans same)
  obtain ⟨graph, run, -⟩ := StoreRun.exists_of_total [.delete 0 1, .insert 2 0 .default, .compact]
    (.built stores delta records (by simp [addedEdges, BuilderCall.added, u32Max]))
    (by simp [StoreStep.InRange, u32Max]) (by
      rw [stores.edgeCount, records.count, delta]
      simp [addedEdges, BuilderCall.added, DeltaLayer.new, u32Max])
  obtain ⟨after, returned, -, reads⟩ := runs _ _ run
  obtain rfl := Except.ok.inj returned
  refine ⟨start, graph, built, run, ?_, ?_⟩
  · obtain ⟨neighbors, -, -, -, absent, -⟩ := reads 0 1
    exact absent.mpr (by simp [edgesAfter, StoreStep.onSet, addedEdges, BuilderCall.added])
  · obtain ⟨neighbors, -, -, present, -, -⟩ := reads 2 0
    exact present.mpr (by simp [edgesAfter, StoreStep.onSet, addedEdges, BuilderCall.added])

end FusionGraph
