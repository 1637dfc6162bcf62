import FusionGraph.Catalog.Catalog

/-!
# A failed compaction

Compaction drains the delta layer before the builder validates the merged edges,
and nothing puts the drained mutations back when the builder fails. So a failed
compaction always loses an edge: a merge that does not fit has an insertion that
is not a base edge, and that edge is gone afterwards
(`failure_loses_nothing_iff`).
-/

set_option autoImplicit false

namespace FusionGraph

open Foundations

namespace CsrGraph

/-- Two graphs answer both edge queries alike, up to the order of neighbors. -/
def SameEdges (first second : CsrGraph) : Prop :=
  ∀ source, (∀ target, first.hasEdge source target = second.hasEdge source target) ∧
    ∃ before after, first.neighbors source = .ok before ∧ second.neighbors source = .ok after ∧
      after.Perm before

/-- Every pending insertion is a base edge or has endpoints in the `u32` range,
and so is the number of live edges. -/
structure FitsCompaction (graph : CsrGraph) : Prop where
  endpoints : ∀ key ∈ graph.delta.insertions,
    graph.baseContains key.1 key.2 = .ok true ∨ (key.1 ≤ u32Max ∧ key.2 ≤ u32Max)
  count : ∃ live, graph.liveEdgeCount = .ok live ∧ live ≤ u32Max

end CsrGraph

/-- A compaction that fails leaves the edges of the graph alone, and so does one
through a catalog, for the graph that the name is bound to afterwards. -/
structure FailureLosesNothing (Dictionary : Type) (graph : CsrGraph) : Prop where
  compact : ∀ fault, graph.compact.2 = .error fault → graph.SameEdges graph.compact.1
  catalog : ∀ (catalog : GraphCatalog Dictionary) (name : String) (policy : CompactionPolicy)
    (ref : GraphRef) (fault : Fault GraphError), catalog.get name = some ref →
      catalog.graphs ref = graph → (catalog.compactIfNeeded name policy).2 = .error fault →
      ∃ after, (catalog.compactIfNeeded name policy).1.get name = some after ∧
        graph.SameEdges ((catalog.compactIfNeeded name policy).1.graphs after)

section Proof

variable {Dictionary : Type} {graph : CsrGraph} {base : BaseLayer}

/-- The merge of a graph that fits is within the limits of the builder. -/
theorem CsrGraph.FitsCompaction.merge (fits : graph.FitsCompaction) (stores : graph.Stores base)
    (disjoint : graph.delta.Disjoint) :
    (∀ edge ∈ CsrGraph.merge base graph.hasWeights graph.delta,
      edge.1 ≤ u32Max ∧ edge.2.1 ≤ u32Max) ∧
      (CsrGraph.merge base graph.hasWeights graph.delta).length ≤ u32Max := by
  constructor
  · rintro ⟨source, target, weight⟩ member
    have neighbor := (exists_mem_merge disjoint base target).mp ⟨weight, member⟩
    have inBase : target ∈ base.targets source → source ≤ u32Max ∧ target ≤ u32Max :=
      fun known => ⟨BaseLayer.source_le_u32Max known, BaseLayer.target_le_u32Max known⟩
    rcases BaseLayer.mem_merged.mp neighbor with ⟨known, -⟩ | inserted
    · exact inBase known
    · rcases fits.endpoints _ inserted with known | inRange
      · rw [stores.baseContains_eq, Except.ok.injEq, decide_eq_true_eq] at known
        exact inBase known
      · exact inRange
  · obtain ⟨live, count, few⟩ := fits.count
    rw [stores.liveEdgeCount_eq, Except.ok.injEq] at count
    exact count ▸ few

/-- A graph that does not fit has an insertion that is not a base edge. -/
theorem exists_fresh_of_not_fits (stores : graph.Stores base) (unfit : ¬ graph.FitsCompaction) :
    ∃ key ∈ graph.delta.insertions, key.2 ∉ base.targets key.1 := by
  by_contra none
  push Not at none
  refine unfit ⟨fun key member => .inl ?_, _, stores.liveEdgeCount_eq, ?_⟩
  · rw [stores.baseContains_eq, decide_eq_true (none key member)]
  · have fresh : (graph.delta.snapshotInsertions.filter fun entry =>
        decide (entry.1.2 ∉ base.targets entry.1.1)) = [] := by
      refine List.filter_eq_nil_iff.mpr fun entry member => ?_
      have key : entry.1 ∈ graph.delta.insertions := by
        rw [AList.mem_keys, ← DeltaLayer.map_fst_snapshotInsertions]
        exact List.mem_map_of_mem member
      simp [none _ key]
    have edges : base.storedEdges.length ≤ u32Max := by
      rw [base.length_storedEdges]
      exact base.edges_le
    rw [CsrGraph.merge, mergedEdges, fresh, List.map_nil, List.append_nil]
    exact (List.length_filter_le _ _).trans edges

/-- A compaction through a catalog fails only where the compaction of the graph
does. -/
theorem GraphCatalog.compactIfNeeded_error {catalog : GraphCatalog Dictionary} {name : String}
    {policy : CompactionPolicy} {ref : GraphRef} {fault : Fault GraphError}
    (bound : catalog.get name = some ref)
    (failed : (catalog.compactIfNeeded name policy).2 = .error fault) :
    (catalog.graphs ref).compact.2 = .error fault := by
  cases found : catalog.entry name with
  | none => simp [get, found] at bound
  | some entry =>
    obtain rfl : (catalog.entries entry).forward = ref := by simpa [get, found] using bound
    simp only [compactIfNeeded, found] at failed
    by_cases due : (catalog.graphs (catalog.entries entry).forward).shouldCompact policy = true
    · rw [if_pos due] at failed
      cases outcome : (catalog.graphs (catalog.entries entry).forward).compact with
      | mk drained result =>
        cases result with
        | error cause => simpa [outcome] using failed
        | ok compacted => simp [outcome] at failed
    · rw [if_neg due] at failed
      cases failed

/-- **A failed compaction loses nothing exactly when no compaction fails**: the
pending insertions that are not base edges have endpoints in the `u32` range,
and so is the number of live edges. -/
theorem failure_loses_nothing_iff (reachable : graph.Reachable) :
    FailureLosesNothing Dictionary graph ↔ graph.FitsCompaction := by
  obtain ⟨base, stores⟩ := reachable.stores
  have disjoint := reachable.disjoint
  constructor
  · intro nothing
    by_contra unfit
    have fault : ∃ reason, graph.compact.2 = Checked.fail reason :=
      stores.compact_error fun within => unfit
        ⟨fun key member => .inr (by
            obtain ⟨weight, merged⟩ : ∃ weight, (key.1, key.2, weight) ∈
                CsrGraph.merge base graph.hasWeights graph.delta :=
              (exists_mem_merge disjoint base key.2).mpr (BaseLayer.mem_merged.mpr (.inr member))
            exact within.1 _ merged),
          _, stores.liveEdgeCount_eq, within.2⟩
    obtain ⟨reason, failed⟩ := fault
    obtain ⟨⟨source, target⟩, inserted, fresh⟩ := exists_fresh_of_not_fits stores unfit
    have same := (nothing.compact _ failed source).1 target
    rw [stores.compact_eq.1, stores.hasEdge_eq disjoint,
      (stores.withDelta .new).hasEdge_eq .new] at same
    have before : target ∈ base.merged graph.delta source := BaseLayer.mem_merged.mpr (.inr inserted)
    have after : target ∉ base.merged .new source := by
      rw [BaseLayer.merged_new]
      exact fresh
    simp [before, after] at same
  · intro fits
    have within := fits.merge stores disjoint
    obtain ⟨compacted, -, outcome, -⟩ := stores.compact_ok within.1 within.2
    constructor
    · intro fault failed
      rw [outcome] at failed
      cases failed
    · intro catalog name policy ref fault bound same failed
      have failed := GraphCatalog.compactIfNeeded_error bound failed
      rw [same, outcome] at failed
      cases failed

theorem failure_loses_nothing_iff_witness : ∃ graph : CsrGraph, graph.Reachable ∧
    CsrGraph.buildAndMutate [(0, 1)] [.insert 0 2 .default] = .ok graph ∧ graph.FitsCompaction ∧
    FailureLosesNothing Unit graph := by
  obtain ⟨graph, built, ran⟩ := Checked.exists_of_passes
    (show (CsrGraph.buildAndMutate [(0, 1)] [.insert 0 2 .default]).passes (fun graph =>
      decide (graph.delta.insertions.keys = [(0, 2)] ∧ graph.liveEdgeCount = .ok 2)) = true by
        decide +kernel)
  obtain ⟨pending, count⟩ := of_decide_eq_true ran
  have reachable := CsrGraph.Reachable.of_buildAndMutate (by decide) built
  have fits : graph.FitsCompaction := by
    refine ⟨fun key member => .inr ?_, 2, count, by decide⟩
    obtain rfl : key = (0, 2) := by simpa [pending] using AList.mem_keys.mp member
    decide
  exact ⟨graph, reachable, built, fits, (failure_loses_nothing_iff reachable).mpr fits⟩

/-- With the base edge `(0, 1)`, an insertion of the edge from 2 to `2 ^ 32` makes
compaction fail, and the edge is gone afterwards. -/
theorem failed_compaction_loses_edge : ∃ graph : CsrGraph, graph.Reachable ∧
    CsrGraph.buildAndMutate [(0, 1)] [.insert 2 4294967296 .default] = .ok graph ∧
    graph.compact.2 = Checked.fail (.invalidEdge 2 4294967296) ∧
    graph.hasEdge 2 4294967296 = .ok true ∧ graph.compact.1.hasEdge 2 4294967296 = .ok false ∧
    ¬ FailureLosesNothing Unit graph := by
  obtain ⟨graph, built, run⟩ := Checked.exists_of_passes
    (show (CsrGraph.buildAndMutate [(0, 1)] [.insert 2 4294967296 .default]).passes (fun graph =>
        decide (graph.hasEdge 2 4294967296 = .ok true ∧
          graph.compact.1.hasEdge 2 4294967296 = .ok false ∧
          graph.compact.2.map (fun _ => ()) = Checked.fail (.invalidEdge 2 4294967296))) = true by
      decide +kernel)
  obtain ⟨before, after, failed⟩ := of_decide_eq_true run
  have stopped : graph.compact.2 = Checked.fail (.invalidEdge 2 4294967296) := by
    cases outcome : graph.compact.2 with
    | error fault => simpa [outcome, Except.map, Checked.fail] using failed
    | ok compacted => simp [outcome, Except.map, Checked.fail] at failed
  refine ⟨graph, .of_buildAndMutate (by decide) built, built, stopped, before, after,
    fun nothing => ?_⟩
  have same := (nothing.compact _ stopped 2).1 4294967296
  rw [before, after] at same
  cases same

end Proof

end FusionGraph
