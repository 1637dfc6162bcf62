import FusionGraph.Catalog.Catalog
import FusionGraph.Core.Transpose

/-!
# The laws of transposition

A transposition turns the merged topology around with all multiplicities, and a
second one turns it back, whatever the storage order of the graph in between. It
reads the delta layer through snapshots: the graph that is transposed, and every
other graph of a catalog, stays as it was.
-/

set_option autoImplicit false

namespace FusionGraph

open Foundations

section Frame

variable {Dictionary : Type}

/-- Building a transpose changes no graph that is in use. -/
theorem GraphCatalog.graphs_reverse (catalog : GraphCatalog Dictionary) (name : String)
    {ref : GraphRef} (inUse : ref < catalog.graphCount) :
    (catalog.reverse name).1.graphs ref = catalog.graphs ref := by
  cases found : catalog.entry name with
  | none => simp only [reverse_eq, found]
  | some entry =>
    cases memoized : (catalog.entries entry).reverse with
    | some reverse => simp only [GraphCatalog.reverse_eq, found, memoized]
    | none =>
      cases outcome : (catalog.graphs (catalog.entries entry).forward).transpose.2 with
      | error fault => simp only [GraphCatalog.reverse_eq, found, memoized, outcome]
      | ok built =>
        simp only [GraphCatalog.reverse_eq, found, memoized, outcome, allocGraph]
        exact Function.update_of_ne inUse.ne ..

end Frame

namespace CsrGraph

variable {graph reverse : CsrGraph} {base : BaseLayer}

/-- What a transposition returns lists every in-neighbor as often as the edge
occurs. -/
theorem Reachable.transpose_counts (reachable : graph.Reachable) (stores : graph.Stores base)
    (outcome : graph.transpose.2 = .ok reverse) :
    reverse.Reachable ∧ reverse.delta = DeltaLayer.new ∧ ∃ layer : BaseLayer, reverse.Stores layer ∧
      ∀ source target,
        (layer.merged reverse.delta target).count source =
          (base.merged graph.delta source).count target := by
  obtain ⟨reachableReverse, clean, layer, storesReverse, records⟩ :=
    stores.transpose_records outcome
  refine ⟨reachableReverse, clean, layer, storesReverse, fun source target => ?_⟩
  rw [clean, BaseLayer.merged_new, reachable.count_targets_transpose records]

/-- **Transposition reverses the merged topology exactly**: the graph stays as it was,
the multiplicities agree edge by edge, the result has no pending mutation, a second
transposition returns the neighbors of the graph, and no shared graph changes. -/
theorem transpose_reverses_merged_topology (reachable : graph.Reachable)
    (outcome : graph.transpose.2 = .ok reverse) :
    graph.transpose.1 = graph ∧ reverse.delta.isEmpty = true ∧
    (∀ source target, ∃ targets sources, graph.neighbors source = .ok targets ∧
      reverse.neighbors target = .ok sources ∧ sources.count source = targets.count target) ∧
    (∃ again, reverse.transpose.2 = .ok again ∧ ∀ node, ∃ before after,
      graph.neighbors node = .ok before ∧ again.neighbors node = .ok after ∧ after.Perm before) ∧
    ∀ (Dictionary : Type) (catalog : GraphCatalog Dictionary) (name : String) (ref : GraphRef),
      ref < catalog.graphCount → (catalog.reverse name).1.graphs ref = catalog.graphs ref := by
  obtain ⟨base, stores⟩ := reachable.stores
  obtain ⟨reachableReverse, clean, layer, storesReverse, counts⟩ :=
    reachable.transpose_counts stores outcome
  refine ⟨rfl, by rw [clean, DeltaLayer.isEmpty_new], fun source target => ?_, ?_, ?_⟩
  · exact ⟨_, _, stores.neighbors_eq source, storesReverse.neighbors_eq target, counts source target⟩
  · obtain ⟨again, second⟩ := storesReverse.transpose_ok_of_clean clean
    obtain ⟨-, -, last, storesAgain, back⟩ := reachableReverse.transpose_counts storesReverse second
    refine ⟨again, second, fun node => ⟨_, _, stores.neighbors_eq node,
      storesAgain.neighbors_eq node, ?_⟩⟩
    refine List.perm_iff_count.mpr fun target => ?_
    rw [back target node, counts node target]
  · intro Dictionary catalog name ref inUse
    exact catalog.graphs_reverse name inUse

theorem transpose_reverses_merged_topology_witness : ∃ graph reverse : CsrGraph,
    buildAndMutate [(0, 1), (0, 1), (1, 2)] [.delete 1 2, .insert 7 0 .default] = .ok graph ∧
    graph.transpose = (graph, .ok reverse) ∧ reverse.delta.isEmpty = true := by
  obtain ⟨graph, built, ran⟩ := Checked.exists_of_passes
    (show (buildAndMutate [(0, 1), (0, 1), (1, 2)] [.delete 1 2, .insert 7 0 .default]).passes
      (fun graph => graph.transpose.2.passes fun _ => true) = true by decide +kernel)
  obtain ⟨reverse, outcome, -⟩ := Checked.exists_of_passes ran
  obtain ⟨unchanged, clean, -⟩ :=
    transpose_reverses_merged_topology (.of_buildAndMutate (by decide) built) outcome
  exact ⟨graph, reverse, built, Prod.ext unchanged outcome, clean⟩

end CsrGraph

end FusionGraph
