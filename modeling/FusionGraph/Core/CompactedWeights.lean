import FusionGraph.Core.Merge
import FusionGraph.Foundations.Runs

/-!
# Weights of inserted edges after compaction

The delta layer keeps the data of the last insertion of an edge. A compaction
puts it into the new base layer at one place only: where the base layer has
weights and does not have the edge. A base layer without weights stays without
weights, and a base edge keeps the weight that it has. So the weight of an
insertion survives exactly when the base layer has weights and every base edge
between the same nodes already carries it (`inserted_weight_survives_iff`).
-/

set_option autoImplicit false

namespace FusionGraph

open Foundations

namespace DeltaOp

/-- Whether the call decides about an edge. -/
def touches (key : EdgeKey) : DeltaOp → Bool
  | insert source target _ => decide ((source, target) = key)
  | delete source target => decide ((source, target) = key)
  | clear => true

/-- The last call that decides about an edge. -/
def last (key : EdgeKey) (ops : List DeltaOp) : Option DeltaOp :=
  (ops.filter (touches key)).getLast?

theorem last_append_of_touches {key : EdgeKey} {op : DeltaOp} (touched : op.touches key = true)
    (ops : List DeltaOp) : last key (ops ++ [op]) = some op := by
  rw [last, List.filter_append, List.filter_cons_of_pos touched, List.filter_nil,
    List.getLast?_concat]

theorem last_append_of_not_touches {key : EdgeKey} {op : DeltaOp}
    (untouched : op.touches key = false) (ops : List DeltaOp) :
    last key (ops ++ [op]) = last key ops := by
  have dropped : ¬ op.touches key = true := by simp [untouched]
  rw [last, List.filter_append, List.filter_cons_of_neg dropped, List.filter_nil, List.append_nil,
    last]

end DeltaOp

namespace DeltaLayer

/-- A call leaves the data of every other edge alone. -/
theorem lookup_apply_of_not_touches {key : EdgeKey} {op : DeltaOp}
    (untouched : op.touches key = false) (self : DeltaLayer) :
    (self.apply op).insertions.lookup key = self.insertions.lookup key := by
  cases op with
  | insert source target data =>
      have other : key ≠ (source, target) := by
        intro same
        simp [DeltaOp.touches, same] at untouched
      exact AList.lookup_insert_ne other
  | delete source target =>
      have other : key ≠ (source, target) := by
        intro same
        simp [DeltaOp.touches, same] at untouched
      exact AList.lookup_erase_ne other
  | clear => cases untouched

end DeltaLayer

/-- A fresh entry is the data of an insertion, with its weight in a weighted layer. -/
theorem mem_freshEntries {delta : DeltaLayer} {weighted : Bool} {source target : ℕ}
    {weight : Option Float32} {known : List ℕ} :
    (target, weight) ∈ freshEntries delta weighted source known ↔
      target ∉ known ∧ ∃ data, delta.insertions.lookup (source, target) = some data ∧
        weight = if weighted then some (CsrGraph.insertionWeight data) else none := by
  have stored : ∀ key data, (key, data) ∈ delta.snapshotInsertions ↔
      delta.insertions.lookup key = some data := by
    intro key data
    rw [← Option.mem_def, AList.mem_lookup_iff, DeltaLayer.snapshotInsertions, List.mem_map]
    constructor
    · rintro ⟨entry, member, same⟩
      obtain ⟨rfl, rfl⟩ := Prod.mk.inj same
      exact member
    · intro member
      exact ⟨_, member, rfl⟩
  rw [freshEntries, List.mem_map]
  constructor
  · rintro ⟨⟨⟨u, v⟩, data⟩, member, same⟩
    obtain ⟨inserted, own⟩ := List.mem_filter.mp member
    obtain ⟨rfl, absent⟩ := of_decide_eq_true own
    obtain ⟨rfl, rfl⟩ := Prod.mk.inj same
    exact ⟨absent, data, (stored _ _).mp inserted, rfl⟩
  · rintro ⟨absent, data, found, rfl⟩
    refine ⟨((source, target), data), List.mem_filter.mpr ⟨(stored _ _).mpr found, ?_⟩, rfl⟩
    exact decide_eq_true ⟨rfl, absent⟩

namespace CsrGraph

/-- A call on the delta layer of a graph. The hash maps may be found in any order
afterwards. -/
def DeltaStep (graph : CsrGraph) (op : DeltaOp) (next : CsrGraph) : Prop :=
  ∃ order, (graph.mutate op).delta.SameEntries order ∧ next = (graph.mutate op).withDelta order

/-- The delta layer is disjoint and keeps the data of the last insertions. -/
structure KeepsInsertions (base : BaseLayer) (ops : List DeltaOp) (graph : CsrGraph) : Prop where
  stores : graph.Stores base
  disjoint : graph.delta.Disjoint
  lookup : ∀ source target data,
    DeltaOp.last (source, target) ops = some (.insert source target data) →
      graph.delta.insertions.lookup (source, target) = some data

namespace KeepsInsertions

variable {base : BaseLayer} {ops : List DeltaOp} {graph next : CsrGraph} {op : DeltaOp}

theorem of_clean (stores : graph.Stores base) (clean : graph.delta = .new) :
    KeepsInsertions base [] graph where
  stores := stores
  disjoint := clean ▸ .new
  lookup _ _ _ impossible := by cases impossible

/-- A call keeps the relation. -/
theorem step (keeps : KeepsInsertions base ops graph) (moved : graph.DeltaStep op next) :
    KeepsInsertions base (ops ++ [op]) next := by
  obtain ⟨order, same, rfl⟩ := moved
  refine ⟨(keeps.stores.withDelta _).withDelta _, same.disjoint (keeps.disjoint.apply op), ?_⟩
  intro source target data final
  have reordered : order.insertions.lookup (source, target) =
      (graph.delta.apply op).insertions.lookup (source, target) :=
    (AList.perm_lookup same.insertions).symm
  refine reordered.trans ?_
  cases touched : op.touches (source, target) with
  | true =>
    rw [DeltaOp.last_append_of_touches touched] at final
    obtain rfl := Option.some.inj final
    exact AList.lookup_insert _
  | false =>
    rw [DeltaOp.last_append_of_not_touches touched] at final
    rw [DeltaLayer.lookup_apply_of_not_touches touched]
    exact keeps.lookup source target data final

/-- A run from a built graph keeps the relation. -/
theorem of_run {start : CsrGraph} (stores : start.Stores base) (clean : start.delta = .new)
    (run : Run DeltaStep start ops graph) : KeepsInsertions base ops graph :=
  run.invariant (KeepsInsertions base) (.of_clean stores clean) fun _ keeps moved =>
    keeps.step moved

end KeepsInsertions

/-- **The weight of an inserted edge survives compaction exactly when the base
layer has weights and every base edge between the two nodes already carries it.** -/
theorem inserted_weight_survives_iff {builder : CsrBuilder} {start : CsrGraph}
    (built : builder.build = .ok start) {ops : List DeltaOp} {graph compacted : CsrGraph}
    (run : Run DeltaStep start ops graph) (outcome : graph.compact.2 = .ok compacted)
    {source target : ℕ} {data : EdgeData}
    (final : DeltaOp.last (source, target) ops = some (.insert source target data)) :
    ∃ row merged, graph.baseRow source = .ok row ∧ compacted.baseRow source = .ok merged ∧
      ((∀ weight, (target, weight) ∈ merged → weight = some (insertionWeight data)) ↔
        graph.hasWeights = true ∧
          ∀ weight, (target, weight) ∈ row → weight = some (insertionWeight data)) := by
  obtain ⟨clean, base, initial⟩ := CsrBuilder.stores_of_build built
  have keeps := KeepsInsertions.of_run initial clean run
  have stores := keeps.stores
  have inserted := keeps.lookup source target data final
  have live : graph.delta.isDeleted source target = false := by
    have present : (source, target) ∈ graph.delta.insertions :=
      AList.lookup_isSome.mp (inserted ▸ rfl)
    simpa [DeltaLayer.isDeleted] using keeps.disjoint _ present
  obtain ⟨-, layer, compactedStores, records⟩ := stores.compact_records outcome
  have merged : ∀ weight, (target, weight) ∈ layer.row source ↔
      (target, weight) ∈ base.row source ∨ target ∉ base.targets source ∧
        weight = if graph.hasWeights then some (insertionWeight data) else none := by
    intro weight
    rw [records.row, entriesFrom_merge, mergedRow, List.mem_append, List.mem_filter,
      mem_freshEntries, inserted]
    simp [live, BaseLayer.targets]
  refine ⟨base.row source, layer.row source, stores.baseRow_eq source,
    compactedStores.baseRow_eq source, ?_, ?_⟩
  · intro survives
    have old : ∀ weight, (target, weight) ∈ base.row source →
        weight = some (insertionWeight data) := by
      intro weight member
      exact survives weight ((merged weight).mpr (.inl member))
    refine ⟨?_, old⟩
    by_cases known : target ∈ base.targets source
    · obtain ⟨⟨_, weight⟩, member, rfl⟩ := List.mem_map.mp known
      rw [← stores.isSome_of_mem_row member, old weight member]
      rfl
    · by_contra unweighted
      have lost := survives none ((merged none).mpr (.inr ⟨known, (if_neg unweighted).symm⟩))
      cases lost
  · rintro ⟨weighted, old⟩ weight member
    rcases (merged weight).mp member with before | ⟨-, fresh⟩
    · exact old weight before
    · rw [fresh, if_pos weighted]

/-- A call that leaves the hash maps in the order of the model. -/
theorem DeltaStep.mutate (graph : CsrGraph) (op : DeltaOp) :
    graph.DeltaStep op (graph.mutate op) :=
  ⟨_, ⟨List.Perm.refl _, List.Perm.refl _⟩, rfl⟩

theorem inserted_weight_survives_iff_witness : ∃ start graph compacted : CsrGraph,
    (CsrBuilder.new.withWeightedEdges [(0, 1, 2.5)]).build = .ok start ∧
      Run DeltaStep start [.insert 1 2 ⟨some 9.0, none⟩] graph ∧
      graph.compact.2 = .ok compacted ∧ graph.hasWeights = true ∧
      ∃ merged, compacted.baseRow 1 = .ok merged ∧
        ∀ weight, (2, weight) ∈ merged → weight = some (insertionWeight ⟨some 9.0, none⟩) := by
  obtain ⟨start, built, passed⟩ := Checked.exists_of_passes
    (show (CsrBuilder.new.withWeightedEdges [(0, 1, 2.5)]).build.passes (fun start =>
      (start.mutate (.insert 1 2 ⟨some 9.0, none⟩)).hasWeights &&
        (start.mutate (.insert 1 2 ⟨some 9.0, none⟩)).compact.2.passes fun _ =>
          (start.mutate (.insert 1 2 ⟨some 9.0, none⟩)).baseRow 1 |>.passes fun row =>
            row.isEmpty) = true by decide +kernel)
  obtain ⟨weighted, passed⟩ := Bool.and_eq_true_iff.mp passed
  obtain ⟨compacted, outcome, passed⟩ := Checked.exists_of_passes passed
  obtain ⟨row, found, empty⟩ := Checked.exists_of_passes passed
  obtain rfl := List.isEmpty_iff.mp empty
  have run : Run DeltaStep start ([] ++ [.insert 1 2 ⟨some 9.0, none⟩]) _ :=
    Run.start.step (DeltaStep.mutate start _)
  have final : DeltaOp.last (1, 2) ([] ++ [.insert 1 2 ⟨some 9.0, none⟩]) =
      some (.insert 1 2 ⟨some 9.0, none⟩) := rfl
  obtain ⟨before, merged, same, returned, survives⟩ :=
    inserted_weight_survives_iff built run outcome final
  obtain rfl : before = [] := Except.ok.inj (same.symm.trans found)
  exact ⟨start, _, compacted, built, run, outcome, weighted, merged, returned,
    survives.mpr ⟨weighted, fun _ impossible => absurd impossible List.not_mem_nil⟩⟩

/-- With the unweighted base edge `(0, 1)` and an insertion of `(1, 2)` with the
weight 9.0, the compacted graph has the edge without a weight. -/
theorem compaction_drops_weight : ∃ (start graph compacted : CsrGraph) (data : EdgeData),
    data.weight = some 9.0 ∧ (CsrBuilder.new.withEdges [(0, 1)]).build = .ok start ∧
      Run DeltaStep start [.insert 1 2 data] graph ∧
      DeltaOp.last (1, 2) [.insert 1 2 data] = some (.insert 1 2 data) ∧
      graph.compact.2 = .ok compacted ∧ compacted.baseRow 1 = .ok [(2, none)] ∧
      ¬ ∀ row weight, compacted.baseRow 1 = .ok row → (2, weight) ∈ row →
        weight = some (insertionWeight data) := by
  obtain ⟨start, built, passed⟩ := Checked.exists_of_passes
    (show (CsrBuilder.new.withEdges [(0, 1)]).build.passes (fun start =>
      (start.mutate (.insert 1 2 ⟨some 9.0, none⟩)).compact.2.passes fun compacted =>
        (compacted.baseRow 1).passes fun row =>
          decide (row.map Prod.fst = [2]) && row.all fun entry => entry.2.isNone) = true by
      decide +kernel)
  obtain ⟨compacted, outcome, passed⟩ := Checked.exists_of_passes passed
  obtain ⟨row, returned, shape⟩ := Checked.exists_of_passes passed
  obtain rfl : row = [(2, none)] := by
    obtain ⟨targets, weightless⟩ := Bool.and_eq_true_iff.mp shape
    obtain ⟨⟨target, weight⟩, rfl, own⟩ := List.map_eq_singleton_iff.mp (of_decide_eq_true targets)
    obtain rfl : target = 2 := own
    have absent : weight = none := by simpa using weightless
    rw [absent]
  have run : Run DeltaStep start ([] ++ [.insert 1 2 ⟨some 9.0, none⟩]) _ :=
    Run.start.step (DeltaStep.mutate start _)
  refine ⟨start, _, compacted, ⟨some 9.0, none⟩, rfl, built, run, rfl, outcome, returned, ?_⟩
  intro survives
  have lost := survives [(2, none)] none returned List.mem_cons_self
  cases lost

end CsrGraph

end FusionGraph
