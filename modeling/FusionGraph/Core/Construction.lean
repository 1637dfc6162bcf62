import FusionGraph.Core.BuilderSpec
import Mathlib.Order.Bounds.Basic

/-!
# A built graph represents its edge list

A builder is configured and fed by any sequence of calls. When all of its edges
come from calls of one kind and their endpoints and number fit, the graph it
builds has one node for each identifier up to the largest endpoint, and the base
row of each node is the input edges with that source, in input order, with
their own weights.
-/

set_option autoImplicit false

namespace FusionGraph

open Foundations Foundations.StableBuckets

/-- A call on a builder. -/
inductive BuilderCall where
  | shardSize (size : Usize)
  | edges (batch : List (ℕ × ℕ))
  | weightedEdges (batch : List (ℕ × ℕ × Float32))

namespace BuilderCall

/-- The edges that a call adds. -/
def added : BuilderCall → List StoredEdge
  | .shardSize _ => []
  | .edges batch => batch.map fun edge => (edge.1, edge.2, none)
  | .weightedEdges batch => batch.map fun edge => (edge.1, edge.2.1, some edge.2.2)

/-- The call adds no edges of the other kind. -/
def AddsOnly (weighted : Bool) : BuilderCall → Prop
  | .shardSize _ => True
  | .edges _ => weighted = false
  | .weightedEdges _ => weighted = true

end BuilderCall

/-- The edges that a sequence of calls adds, in insertion order. -/
def addedEdges (calls : List BuilderCall) : List StoredEdge := calls.flatMap BuilderCall.added

namespace CsrBuilder

/-- The builder after a call. -/
def call (self : CsrBuilder) : BuilderCall → CsrBuilder
  | .shardSize size => self.withShardSize size
  | .edges batch => self.withEdges batch
  | .weightedEdges batch => self.withWeightedEdges batch

/-- A new builder after a sequence of calls. -/
def afterCalls (calls : List BuilderCall) : CsrBuilder := calls.foldl call new

/-- The builder holds exactly the given edges, all of one kind. -/
structure Holds (builder : CsrBuilder) (weighted : Bool) (added : List StoredEdge) : Prop where
  edges : builder.edges = added.map fun edge => (edge.1, edge.2.1)
  weights : weighted = true → builder.weights = added.map fun edge => edge.2.2.getD 0
  matched : ∀ edge ∈ added, edge.2.2.isSome = weighted
  config : builder.config.includeWeights = weighted ∨ weighted = true ∧ added = []

theorem Holds.new (weighted : Bool) : new.Holds weighted [] where
  edges := rfl
  weights _ := rfl
  matched := by simp
  config := by cases weighted <;> simp [CsrBuilder.new, CsrBuildConfig.default]

variable {builder : CsrBuilder} {weighted : Bool} {added : List StoredEdge}

/-- A call of the same kind adds its edges. -/
theorem Holds.call (holds : builder.Holds weighted added) {step : BuilderCall}
    (only : step.AddsOnly weighted) :
    (builder.call step).Holds weighted (added ++ step.added) := by
  cases step with
  | shardSize size =>
      simp only [BuilderCall.added, List.append_nil]
      exact ⟨holds.edges, holds.weights, holds.matched, holds.config⟩
  | edges batch =>
      have plain : weighted = false := only
      subst plain
      refine ⟨?_, by simp, ?_, ?_⟩
      · simp [CsrBuilder.call, CsrBuilder.withEdges, holds.edges, BuilderCall.added, Function.comp_def]
      · intro edge member
        rcases List.mem_append.mp member with old | fresh
        · exact holds.matched edge old
        · obtain ⟨pair, -, rfl⟩ := List.mem_map.mp fresh
          rfl
      · rcases holds.config with same | ⟨absurd, -⟩
        · exact .inl same
        · cases absurd
  | weightedEdges batch =>
      have heavy : weighted = true := only
      subst heavy
      refine ⟨?_, fun _ => ?_, ?_, .inl rfl⟩
      · simp [CsrBuilder.call, CsrBuilder.withWeightedEdges, holds.edges, BuilderCall.added,
          Function.comp_def]
      · simp [CsrBuilder.call, CsrBuilder.withWeightedEdges, holds.weights rfl, BuilderCall.added,
          Function.comp_def]
      · intro edge member
        rcases List.mem_append.mp member with old | fresh
        · exact holds.matched edge old
        · obtain ⟨triple, -, rfl⟩ := List.mem_map.mp fresh
          rfl

theorem Holds.withEdges (batch : List (ℕ × ℕ)) :
    (CsrBuilder.new.withEdges batch).Holds false (batch.map fun edge => (edge.1, edge.2, none)) :=
  (Holds.new false).call (show (BuilderCall.edges batch).AddsOnly false from rfl)

theorem Holds.withWeightedEdges (batch : List (ℕ × ℕ × Float32)) :
    (CsrBuilder.new.withWeightedEdges batch).Holds true
      (batch.map fun edge => (edge.1, edge.2.1, some edge.2.2)) :=
  (Holds.new true).call (show (BuilderCall.weightedEdges batch).AddsOnly true from rfl)

/-- Calls of one kind add their edges one after another. -/
theorem Holds.afterCalls {calls : List BuilderCall} (only : ∀ step ∈ calls, step.AddsOnly weighted) :
    (afterCalls calls).Holds weighted (addedEdges calls) := by
  induction calls using List.reverseRecOn with
  | nil => exact .new weighted
  | append_singleton calls step ih =>
      have earlier := ih fun call member => only call (List.mem_append_left [step] member)
      have last := earlier.call (only step (List.mem_append_right calls List.mem_cons_self))
      simpa [CsrBuilder.afterCalls, addedEdges] using last

/-- The edges that are stored are the edges that were added. -/
theorem Holds.storedEdges_eq (holds : builder.Holds weighted added) :
    builder.storedEdges = added := by
  have kept : ∀ edge ∈ added, (edge.1, edge.2.1, if weighted then some (edge.2.2.getD 0) else none) =
      edge := by
    rintro ⟨source, target, weight⟩ member
    have present := holds.matched _ member
    cases weight with
    | none => simp [← present]
    | some value => simp [← present]
  rcases holds.config with same | ⟨heavy, none⟩
  · cases weighted with
    | false =>
      simp only [storedEdges, same, Bool.false_eq_true, if_false, holds.edges, List.map_map]
      exact (List.map_congr_left fun edge member => by simpa using kept edge member).trans
        (List.map_id' _)
    | true =>
      simp only [storedEdges, same, if_true, holds.edges, holds.weights rfl, List.zip_map',
        List.map_map]
      exact (List.map_congr_left fun edge member => by simpa using kept edge member).trans
        (List.map_id' _)
  · have empty : builder.edges = [] := by simp [holds.edges, none]
    simp [storedEdges, empty, none]

end CsrBuilder

variable {builder : CsrBuilder} {weighted : Bool} {added : List StoredEdge}

/-- The number of nodes of the graph of a list of edges. -/
def nodeUniverse (edges : List StoredEdge) : ℕ := if edges = [] then 0 else nodeTotal edges

/-- A node of the graph is at most some endpoint. -/
theorem lt_nodeUniverse {edges : List StoredEdge} {node : ℕ} :
    node < nodeUniverse edges ↔ ∃ edge ∈ edges, node ≤ edge.1 ∨ node ≤ edge.2.1 := by
  constructor
  · intro inside
    have nonempty : edges ≠ [] := by
      rintro rfl
      simp [nodeUniverse] at inside
    rw [nodeUniverse, if_neg nonempty, nodeTotal, Nat.lt_succ_iff] at inside
    have endpoints : (edges.flatMap fun edge => [edge.1, edge.2.1]) ≠ [] := by
      obtain ⟨edge, rest, rfl⟩ := List.exists_cons_of_ne_nil nonempty
      simp
    have largest := List.maximum_mem (List.foldr_max_of_ne_nil endpoints).symm
    obtain ⟨edge, member, endpoint⟩ := List.mem_flatMap.mp largest
    simp only [List.mem_cons, List.not_mem_nil, or_false] at endpoint
    rcases endpoint with source | target
    · exact ⟨edge, member, .inl (source ▸ inside)⟩
    · exact ⟨edge, member, .inr (target ▸ inside)⟩
  · rintro ⟨edge, member, bound⟩
    have nonempty := List.ne_nil_of_mem member
    have below := CsrBuilder.endpoints_lt_nodeTotal member
    rw [nodeUniverse, if_neg nonempty]
    omega

/-- Endpoints below a limit are the nodes of a graph with at most so many. -/
theorem nodeUniverse_le {edges : List StoredEdge} {limit : ℕ}
    (endpoints : ∀ edge ∈ edges, edge.1 < limit ∧ edge.2.1 < limit) :
    nodeUniverse edges ≤ limit := by
  by_contra many
  obtain ⟨edge, member, bound⟩ := lt_nodeUniverse.mp (Nat.lt_of_not_le many)
  have below := endpoints edge member
  omega

/-- The base layer is exactly the given edges. -/
structure BaseLayer.Records (base : BaseLayer) (edges : List StoredEdge) : Prop where
  row : ∀ node, base.row node = entriesFrom edges node
  nodes : base.rows.length = nodeUniverse edges
  count : base.rows.flatten.length = edges.length

namespace CsrBuilder

/-- **A builder whose edges are valid builds the graph that records them.** -/
theorem Holds.build_ok (holds : builder.Holds weighted added)
    (valid : ∀ edge ∈ added, edge.1 ≤ u32Max ∧ edge.2.1 ≤ u32Max)
    (count : added.length ≤ u32Max)
    (room : nodeUniverse added ≤ u32Max ∨ 28 ≤ builder.config.shardSize.val) :
    ∃ graph base, builder.build = .ok graph ∧ graph.delta = DeltaLayer.new ∧
      graph.Stores base ∧ base.Records added := by
  by_cases none : added = []
  · have empty : builder.edges = [] := by simp [holds.edges, none]
    refine ⟨.empty, .empty, by simp [build, empty], rfl, CsrGraph.empty_stores, ?_, ?_, ?_⟩
    · intro node
      simp [BaseLayer.row, BaseLayer.empty, none, entriesFrom, bucket]
    · simp [BaseLayer.empty, none, nodeUniverse]
    · simp [BaseLayer.empty, none]
  · have stored := holds.storedEdges_eq
    have inRange : ∀ edge ∈ builder.edges, edge.1 ≤ u32Max ∧ edge.2 ≤ u32Max := by
      intro edge member
      rw [holds.edges] at member
      obtain ⟨entry, inAdded, rfl⟩ := List.mem_map.mp member
      exact valid entry inAdded
    obtain ⟨graph, built, delta, stores⟩ := build_stores
      (by simpa [holds.edges] using none) inRange (by rw [stored]; exact count)
      (by simpa [stored, nodeUniverse, none] using room)
    refine ⟨graph, _, built, delta, stores, ?_, ?_, ?_⟩
    · intro node
      rw [BaseLayer.row_ofEdges, stored]
    · rw [BaseLayer.ofEdges, length_rowsOfEdges, stored, nodeUniverse, if_neg none]
    · rw [BaseLayer.length_flatten_ofEdges, stored]

/-- The first edge that is out of range stops the builder. -/
theorem Holds.build_invalid (holds : builder.Holds weighted added)
    (invalid : ¬ ∀ edge ∈ added, edge.1 ≤ u32Max ∧ edge.2.1 ≤ u32Max) :
    ∃ passed edge rest, added = passed ++ edge :: rest ∧
      (∀ earlier ∈ passed, earlier.1 ≤ u32Max ∧ earlier.2.1 ≤ u32Max) ∧
      (u32Max < edge.1 ∨ u32Max < edge.2.1) ∧
      builder.build = Checked.fail (.invalidEdge edge.1 edge.2.1) := by
  obtain ⟨passed, edge, rest, split, before, failing⟩ := exists_first_failing invalid
  have beyond : u32Max < edge.1 ∨ u32Max < edge.2.1 := by omega
  refine ⟨passed, edge, rest, split, before, beyond, ?_⟩
  have edges : builder.edges = passed.map (fun edge => (edge.1, edge.2.1)) ++
      (edge.1, edge.2.1) :: rest.map fun edge => (edge.1, edge.2.1) := by
    rw [holds.edges, split, List.map_append, List.map_cons]
  refine CsrBuilder.build_invalid edges (fun earlier member => ?_) beyond
  obtain ⟨entry, inPassed, rfl⟩ := List.mem_map.mp member
  exact before entry inPassed

/-- **A builder that holds edges in range, but too many, or an edge out of range,
returns an error.** -/
theorem Holds.build_error (holds : builder.Holds weighted added)
    (unfit : ¬ ((∀ edge ∈ added, edge.1 ≤ u32Max ∧ edge.2.1 ≤ u32Max) ∧
      added.length ≤ u32Max)) :
    ∃ reason, builder.build = Checked.fail reason := by
  by_cases valid : ∀ edge ∈ added, edge.1 ≤ u32Max ∧ edge.2.1 ≤ u32Max
  · have many : u32Max < added.length := Nat.lt_of_not_le fun few => unfit ⟨valid, few⟩
    refine ⟨_, build_too_many ?_ (by rw [holds.storedEdges_eq]; exact many)⟩
    intro edge member
    rw [holds.edges] at member
    obtain ⟨entry, inAdded, rfl⟩ := List.mem_map.mp member
    exact valid entry inAdded
  · obtain ⟨-, edge, -, -, -, -, stopped⟩ := holds.build_invalid valid
    exact ⟨_, stopped⟩

/-- What a builder builds a graph of is in range, and not too much. -/
theorem Holds.fit_of_build (holds : builder.Holds weighted added) {graph : CsrGraph}
    (built : builder.build = .ok graph) :
    (∀ edge ∈ added, edge.1 ≤ u32Max ∧ edge.2.1 ≤ u32Max) ∧ added.length ≤ u32Max := by
  by_contra unfit
  obtain ⟨reason, failed⟩ := holds.build_error unfit
  rw [failed] at built
  cases built

/-- **A built graph records the edges that the builder holds.** -/
theorem Holds.records_of_build (holds : builder.Holds weighted added)
    (roomy : 28 ≤ builder.config.shardSize.val) {graph : CsrGraph}
    (built : builder.build = .ok graph) :
    graph.delta = DeltaLayer.new ∧ ∃ layer, graph.Stores layer ∧ layer.Records added := by
  obtain ⟨valid, count⟩ := holds.fit_of_build built
  obtain ⟨found, layer, same, delta, stores, records⟩ := holds.build_ok valid count (.inr roomy)
  obtain rfl : found = graph := Except.ok.inj (same.symm.trans built)
  exact ⟨delta, layer, stores, records⟩

end CsrBuilder

/-- The base layer of a graph is exactly the given edges. -/
structure CsrGraph.Represents (graph : CsrGraph) (edges : List StoredEdge) : Prop where
  nodeCount : ∃ largest, graph.nodeCount = largest + 1 ∧
    IsGreatest {node | ∃ edge ∈ edges, node = edge.1 ∨ node = edge.2.1} largest
  edgeCount : graph.edgeCount = edges.length
  targets : ∀ node, graph.baseNeighborSlice node =
    .ok ((edges.filter fun edge => edge.1 = node).map fun edge => edge.2.1)
  row : ∀ node, graph.baseRow node = .ok ((edges.filter fun edge => edge.1 = node).map Prod.snd)

/-- The number of nodes is the largest endpoint and one. -/
theorem nodeUniverse_greatest {edges : List StoredEdge} (nonempty : edges ≠ []) :
    ∃ largest, nodeUniverse edges = largest + 1 ∧
      IsGreatest {node | ∃ edge ∈ edges, node = edge.1 ∨ node = edge.2.1} largest := by
  have total : nodeUniverse edges = nodeTotal edges := if_neg nonempty
  obtain ⟨largest, same⟩ : ∃ largest, nodeUniverse edges = largest + 1 := ⟨_, total⟩
  refine ⟨largest, same, ?_, ?_⟩
  · obtain ⟨edge, member, bound⟩ := lt_nodeUniverse.mp (show largest < nodeUniverse edges by omega)
    have below := CsrBuilder.endpoints_lt_nodeTotal member
    refine ⟨edge, member, ?_⟩
    omega
  · rintro node ⟨edge, member, endpoint⟩
    have below := CsrBuilder.endpoints_lt_nodeTotal member
    omega

/-- A graph whose base layer records its edges represents them. -/
theorem CsrGraph.Stores.represents {graph : CsrGraph} {base : BaseLayer} {edges : List StoredEdge}
    (stores : graph.Stores base) (records : base.Records edges) (nonempty : edges ≠ []) :
    graph.Represents edges where
  nodeCount := by
    rw [stores.nodeCount, records.nodes]
    exact nodeUniverse_greatest nonempty
  edgeCount := by rw [stores.edgeCount, records.count]
  targets node := by
    rw [stores.baseNeighborSlice_eq, BaseLayer.targets, records.row, entriesFrom, List.map_map]
    rfl
  row node := by rw [stores.baseRow_eq, records.row]; rfl

namespace CsrBuilder

/-- Calls of one kind with endpoints in range build a graph that represents
their edges. -/
theorem build_represents {calls : List BuilderCall}
    (only : ∀ step ∈ calls, step.AddsOnly weighted) (nonempty : addedEdges calls ≠ [])
    (endpoints : ∀ edge ∈ addedEdges calls, edge.1 < u32Max ∧ edge.2.1 < u32Max)
    (count : (addedEdges calls).length ≤ u32Max) :
    ∃ graph, (afterCalls calls).build = .ok graph ∧ graph.Represents (addedEdges calls) := by
  obtain ⟨graph, base, built, -, stores, records⟩ := (Holds.afterCalls only).build_ok
    (fun edge member => ⟨(endpoints edge member).1.le, (endpoints edge member).2.le⟩) count
    (.inl (nodeUniverse_le endpoints))
  exact ⟨graph, built, stores.represents records nonempty⟩

/-- **Construction represents exactly the input edges, for every shard size.** The
builder returns a graph whose base rows are the input edges of each source, in
input order and with their own weights, whatever the shard sizes among the
calls; and an endpoint beyond the `u32` range makes it fail on the first edge
that has one. -/
theorem construction_represents_input {calls : List BuilderCall}
    (only : ∀ step ∈ calls, step.AddsOnly weighted) (nonempty : addedEdges calls ≠ []) :
    ((∀ edge ∈ addedEdges calls, edge.1 < u32Max ∧ edge.2.1 < u32Max) →
      (addedEdges calls).length ≤ u32Max →
      ∃ graph, (afterCalls calls).build = .ok graph ∧ graph.Represents (addedEdges calls) ∧
        ∀ others, (∀ step ∈ others, step.AddsOnly weighted) →
          addedEdges others = addedEdges calls →
          ∃ other, (afterCalls others).build = .ok other ∧
            other.nodeCount = graph.nodeCount ∧ other.edgeCount = graph.edgeCount ∧
            ∀ node, other.baseNeighborSlice node = graph.baseNeighborSlice node ∧
              other.baseRow node = graph.baseRow node) ∧
    ((∃ edge ∈ addedEdges calls, u32Max < edge.1 ∨ u32Max < edge.2.1) →
      ∃ passed edge rest, addedEdges calls = passed ++ edge :: rest ∧
        (∀ earlier ∈ passed, earlier.1 ≤ u32Max ∧ earlier.2.1 ≤ u32Max) ∧
        (u32Max < edge.1 ∨ u32Max < edge.2.1) ∧
        (afterCalls calls).build = Checked.fail (.invalidEdge edge.1 edge.2.1)) := by
  refine ⟨fun endpoints count => ?_, fun ⟨bad, member, beyond⟩ => ?_⟩
  · obtain ⟨graph, built, represents⟩ := build_represents only nonempty endpoints count
    refine ⟨graph, built, represents, fun others same added => ?_⟩
    obtain ⟨other, builtOther, alike⟩ := build_represents same (by rw [added]; exact nonempty)
      (by rw [added]; exact endpoints) (by rw [added]; exact count)
    rw [added] at alike
    obtain ⟨largest, nodes, greatest⟩ := represents.nodeCount
    obtain ⟨otherLargest, otherNodes, otherGreatest⟩ := alike.nodeCount
    exact ⟨other, builtOther, by rw [nodes, otherNodes, greatest.unique otherGreatest],
      by rw [represents.edgeCount, alike.edgeCount],
      fun node => ⟨by rw [represents.targets, alike.targets], by rw [represents.row, alike.row]⟩⟩
  · exact (Holds.afterCalls only).build_invalid fun all => by
      have fits := all bad member
      omega

theorem construction_represents_input_witness :
    ∃ graph, (afterCalls [.shardSize ⟨0, by decide⟩, .edges [(2, 0), (0, 1)],
        .edges [(2, 1), (2, 0)]]).build = .ok graph ∧
      graph.baseNeighborSlice 2 = .ok [0, 1, 0] := by
  have only : ∀ step ∈ [BuilderCall.shardSize ⟨0, by decide⟩, .edges [(2, 0), (0, 1)],
      .edges [(2, 1), (2, 0)]], step.AddsOnly false := by
    simp [BuilderCall.AddsOnly]
  obtain ⟨graph, built, represents, -⟩ := (construction_represents_input only
    (by simp [addedEdges, BuilderCall.added])).1
    (by simp [addedEdges, BuilderCall.added, u32Max]) (by simp [addedEdges, BuilderCall.added, u32Max])
  exact ⟨graph, built, by rw [represents.targets]; rfl⟩

end CsrBuilder

end FusionGraph
