import FusionGraph.Core.Sharding
import Mathlib.Data.List.MinMax
import Mathlib.Data.List.Perm.Basic

/-!
# What the builder builds

The edges that a builder stores are its edges, paired with its weights when it
has weights (`CsrBuilder.storedEdges`). When their endpoints and their number
fit, the built graph stores, at each node, the edges with that source in the
order in which they were added (`CsrBuilder.build_eq`). Nothing in that result
depends on the shard size.

The builder fails on the first edge whose endpoint is beyond the `u32` range
(`CsrBuilder.build_invalid`), and whatever it returns stores such a base layer
(`CsrBuilder.stores_of_build`).
-/

set_option autoImplicit false

namespace FusionGraph

open Foundations Foundations.PackedRows Foundations.StableBuckets

/-- An edge with its weight: a source and a row entry. -/
abbrev StoredEdge := ℕ × RowEntry

/-- The number of nodes of a list of edges: its largest endpoint and one. -/
def nodeTotal (edges : List StoredEdge) : ℕ :=
  (edges.flatMap fun edge => [edge.1, edge.2.1]).foldr max 0 + 1

/-- The edges can be stored in a graph with the given number of nodes. -/
structure EdgesFit (weighted : Bool) (nodes : ℕ) (edges : List StoredEdge) : Prop where
  weights_match : ∀ edge ∈ edges, edge.2.2.isSome = weighted
  sources_lt : ∀ edge ∈ edges, edge.1 < nodes
  targets_lt : ∀ edge ∈ edges, edge.2.1 < nodes
  nodes_le : nodes ≤ u32Max + 1
  edges_le : edges.length ≤ u32Max

/-- The rows of a list of edges. -/
def rowsOfEdges (nodes : ℕ) (edges : List StoredEdge) : List (List RowEntry) :=
  (buckets Prod.fst nodes edges).map (List.map Prod.snd)

section Rows

variable {nodes : ℕ} {edges : List StoredEdge}

@[simp] theorem length_rowsOfEdges : (rowsOfEdges nodes edges).length = nodes := by
  simp [rowsOfEdges]

theorem rowsOfEdges_sortByKey (nodes : ℕ) (edges : List StoredEdge) :
    rowsOfEdges nodes (sortByKey Prod.fst edges) = rowsOfEdges nodes edges := by
  simp only [rowsOfEdges, buckets]
  congr 1
  exact List.map_congr_left fun k _ => bucket_sortByKey Prod.fst edges k

/-- Sorted edges are stored in their order. -/
theorem flatten_rowsOfEdges (sorted : SortedByKey Prod.fst edges)
    (sources : ∀ edge ∈ edges, edge.1 < nodes) :
    (rowsOfEdges nodes edges).flatten = edges.map Prod.snd := by
  rw [rowsOfEdges, ← List.map_flatten, flatten_buckets Prod.fst sorted sources]

/-- The rows hold exactly the edges. -/
theorem flatten_rowsOfEdges_perm (sources : ∀ edge ∈ edges, edge.1 < nodes) :
    (rowsOfEdges nodes edges).flatten.Perm (edges.map Prod.snd) := by
  rw [rowsOfEdges, ← List.map_flatten]
  exact (flatten_buckets_perm Prod.fst sources).map Prod.snd

end Rows

/-- The base layer of a list of edges. -/
def BaseLayer.ofEdges {weighted : Bool} {nodes : ℕ} {edges : List StoredEdge}
    (fit : EdgesFit weighted nodes edges) : BaseLayer where
  weighted := weighted
  rows := rowsOfEdges nodes edges
  weights_match entry member := by
    obtain ⟨edge, inEdges, rfl⟩ :=
      List.mem_map.mp ((flatten_rowsOfEdges_perm fit.sources_lt).mem_iff.mp member)
    exact fit.weights_match edge inEdges
  targets_lt entry member := by
    obtain ⟨edge, inEdges, rfl⟩ :=
      List.mem_map.mp ((flatten_rowsOfEdges_perm fit.sources_lt).mem_iff.mp member)
    rw [length_rowsOfEdges]
    exact fit.targets_lt edge inEdges
  nodes_le := by rw [length_rowsOfEdges]; exact fit.nodes_le
  edges_le := by
    rw [(flatten_rowsOfEdges_perm fit.sources_lt).length_eq, List.length_map]
    exact fit.edges_le

/-- The entries of the edges with the given source, in order. -/
def entriesFrom (edges : List StoredEdge) (source : ℕ) : List RowEntry :=
  (bucket Prod.fst edges source).map Prod.snd

namespace BaseLayer

variable {weighted : Bool} {nodes : ℕ} {edges : List StoredEdge}

/-- **The row of a node is its edges, in order.** -/
theorem row_ofEdges (fit : EdgesFit weighted nodes edges) (node : ℕ) :
    (ofEdges fit).row node = entriesFrom edges node := by
  rcases Nat.lt_or_ge node nodes with inside | outside
  · simp [row, ofEdges, rowsOfEdges, entriesFrom, getElem?_buckets Prod.fst edges inside]
  · have none : bucket Prod.fst edges node = [] :=
      List.filter_eq_nil_iff.mpr fun edge member => by
        have source := fit.sources_lt edge member
        simp only [decide_eq_true_eq]
        omega
    rw [row_of_le _ (by simpa [ofEdges] using outside), entriesFrom, none, List.map_nil]

theorem length_flatten_ofEdges (fit : EdgesFit weighted nodes edges) :
    (ofEdges fit).rows.flatten.length = edges.length := by
  rw [ofEdges, (flatten_rowsOfEdges_perm fit.sources_lt).length_eq, List.length_map]

end BaseLayer

/-- The graph whose shards store the given runs of rows. -/
def builtGraph (base : BaseLayer) (runs : List (List (List RowEntry))) : CsrGraph where
  shards := shardsOfRuns base.weighted 0 0 runs
  nodeCount := base.rows.length
  edgeCount := base.rows.flatten.length
  delta := DeltaLayer.new

theorem builtGraph_stores {base : BaseLayer} {runs : List (List (List RowEntry))}
    (whole : runs.flatten = base.rows) (nonempty : ∀ run ∈ runs, run ≠ []) :
    (builtGraph base runs).Stores base :=
  ⟨⟨runs, whole, nonempty, rfl⟩, rfl, rfl⟩

namespace CsrBuilder

/-! ## The edges that a builder stores -/

/-- The edges of the builder, paired with its weights when it has weights. -/
def storedEdges (self : CsrBuilder) : List StoredEdge :=
  if self.config.includeWeights then
    (self.edges.zip self.weights).map fun pair => (pair.1.1, pair.1.2, some pair.2)
  else self.edges.map fun edge => (edge.1, edge.2, none)

theorem isSome_of_mem_storedEdges {self : CsrBuilder} {edge : StoredEdge}
    (member : edge ∈ self.storedEdges) : edge.2.2.isSome = self.config.includeWeights := by
  unfold storedEdges at member
  cases weighted : self.config.includeWeights with
  | true =>
    simp only [weighted, if_true, List.mem_map] at member
    obtain ⟨pair, -, rfl⟩ := member
    rfl
  | false =>
    simp only [weighted, Bool.false_eq_true, if_false, List.mem_map] at member
    obtain ⟨edge, -, rfl⟩ := member
    rfl

/-- A stored edge is an edge of the builder. -/
theorem mem_edges_of_mem_storedEdges {self : CsrBuilder} {edge : StoredEdge}
    (member : edge ∈ self.storedEdges) : (edge.1, edge.2.1) ∈ self.edges := by
  unfold storedEdges at member
  split at member
  · obtain ⟨pair, inZip, rfl⟩ := List.mem_map.mp member
    exact (List.of_mem_zip inZip).1
  · obtain ⟨pair, inEdges, rfl⟩ := List.mem_map.mp member
    exact inEdges

theorem includeWeights_sortEdges (self : CsrBuilder) :
    self.sortEdges.config = self.config := by
  unfold sortEdges
  split <;> rfl

theorem zip_map_fst_map_snd {α β : Type} (pairs : List (α × β)) :
    (pairs.map Prod.fst).zip (pairs.map Prod.snd) = pairs := by
  rw [List.zip_map', List.map_id'' fun _ => rfl]

/-- Sorting the builder sorts its stored edges. -/
theorem storedEdges_sortEdges (self : CsrBuilder) :
    self.sortEdges.storedEdges = sortByKey Prod.fst self.storedEdges := by
  cases weighted : self.config.includeWeights with
  | true =>
    simp only [storedEdges, sortEdges, weighted, if_true, zip_map_fst_map_snd, sortByKey]
    exact List.map_insertionSort _ _ _ _ fun _ _ _ _ => Iff.rfl
  | false =>
    simp only [storedEdges, sortEdges, weighted, Bool.false_eq_true, if_false, sortByKey]
    exact List.map_insertionSort _ _ _ _ fun _ _ _ _ => Iff.rfl

/-- After sorting, the edges are the first column of the stored edges. -/
theorem edges_sortEdges (self : CsrBuilder) :
    self.sortEdges.edges = self.sortEdges.storedEdges.map fun edge => (edge.1, edge.2.1) := by
  cases weighted : self.config.includeWeights with
  | true =>
    simp only [storedEdges, sortEdges, weighted, if_true, zip_map_fst_map_snd, List.map_map]
    exact List.map_congr_left fun pair _ => rfl
  | false =>
    simp only [storedEdges, sortEdges, weighted, Bool.false_eq_true, if_false, List.map_map]
    exact (List.map_id'' (fun _ => rfl) _).symm

/-- After sorting, the weights are the second column of the stored edges. -/
theorem weights_sortEdges (self : CsrBuilder) (weighted : self.config.includeWeights = true) :
    self.sortEdges.weights = self.sortEdges.storedEdges.map fun edge => edge.2.2.getD 0 := by
  simp only [storedEdges, sortEdges, weighted, if_true, zip_map_fst_map_snd, List.map_map]
  exact List.map_congr_left fun pair _ => rfl

theorem sorted_sortEdges (self : CsrBuilder) : SortedByKey Prod.fst self.sortEdges.edges := by
  rw [edges_sortEdges, storedEdges_sortEdges, SortedByKey, List.pairwise_map]
  exact sortByKey_sorted Prod.fst self.storedEdges

theorem maxNode_sortEdges (self : CsrBuilder) :
    self.sortEdges.maxNode + 1 = nodeTotal self.storedEdges := by
  have perm : self.sortEdges.storedEdges.Perm self.storedEdges := by
    rw [storedEdges_sortEdges]
    exact sortByKey_perm Prod.fst self.storedEdges
  rw [maxNode, edges_sortEdges, List.flatMap_map, nodeTotal]
  congr 1
  exact (perm.flatMap_right _).foldr_eq 0

/-! ## Building -/

/-- The largest endpoint bounds every endpoint. -/
theorem endpoints_lt_nodeTotal {edges : List StoredEdge} {edge : StoredEdge}
    (member : edge ∈ edges) : edge.1 < nodeTotal edges ∧ edge.2.1 < nodeTotal edges := by
  have both : ∀ value ∈ edges.flatMap fun edge => [edge.1, edge.2.1], value < nodeTotal edges :=
    fun value member => Nat.lt_succ_of_le (List.le_max_of_le member (Nat.le_refl value))
  exact ⟨both _ (List.mem_flatMap.mpr ⟨edge, member, by simp⟩),
    both _ (List.mem_flatMap.mpr ⟨edge, member, by simp⟩)⟩

theorem nodeTotal_le {edges : List StoredEdge} {limit : ℕ}
    (bound : ∀ edge ∈ edges, edge.1 ≤ limit ∧ edge.2.1 ≤ limit) : nodeTotal edges ≤ limit + 1 := by
  refine Nat.succ_le_succ (List.max_le_of_forall_le _ limit fun value member => ?_)
  obtain ⟨edge, inEdges, inPair⟩ := List.mem_flatMap.mp member
  have ends := bound edge inEdges
  simp only [List.mem_cons, List.not_mem_nil, or_false] at inPair
  rcases inPair with rfl | rfl
  · exact ends.1
  · exact ends.2

/-- Edges with endpoints and number in range fit a graph. -/
theorem fit_of_valid {self : CsrBuilder}
    (valid : ∀ edge ∈ self.edges, edge.1 ≤ u32Max ∧ edge.2 ≤ u32Max)
    (count : self.storedEdges.length ≤ u32Max) :
    EdgesFit self.config.includeWeights (nodeTotal self.storedEdges) self.storedEdges where
  weights_match _ member := isSome_of_mem_storedEdges member
  sources_lt _ member := (endpoints_lt_nodeTotal member).1
  targets_lt _ member := (endpoints_lt_nodeTotal member).2
  nodes_le := nodeTotal_le fun _ member => valid _ (mem_edges_of_mem_storedEdges member)
  edges_le := count

/-- The three arrays of a sorted builder are the arrays of its rows. -/
theorem arrays_sortEdges {self : CsrBuilder} {nodes : ℕ}
    (fit : EdgesFit self.config.includeWeights nodes self.storedEdges) :
    ∃ rowPtrs colIndices weights,
      self.sortEdges.buildCsrArrays nodes = .ok (rowPtrs, colIndices, weights) ∧
        Arrays (BaseLayer.ofEdges fit).rows self.config.includeWeights rowPtrs colIndices weights := by
  have perm : self.sortEdges.storedEdges.Perm self.storedEdges := by
    rw [storedEdges_sortEdges]
    exact sortByKey_perm Prod.fst self.storedEdges
  have sorted := self.sorted_sortEdges
  have sortedStored : SortedByKey Prod.fst self.sortEdges.storedEdges := by
    rw [storedEdges_sortEdges]
    exact sortByKey_sorted Prod.fst self.storedEdges
  have rows : (BaseLayer.ofEdges fit).rows = rowsOfEdges nodes self.sortEdges.storedEdges := by
    rw [storedEdges_sortEdges, rowsOfEdges_sortByKey]
    rfl
  have flat : (BaseLayer.ofEdges fit).rows.flatten = self.sortEdges.storedEdges.map Prod.snd := by
    rw [rows]
    exact flatten_rowsOfEdges sortedStored fun edge member =>
      fit.sources_lt edge (perm.mem_iff.mp member)
  have column : ∀ edge ∈ self.sortEdges.edges, edge.1 < nodes ∧ edge.2 ≤ u32Max := by
    intro edge member
    rw [edges_sortEdges] at member
    obtain ⟨stored, inStored, rfl⟩ := List.mem_map.mp member
    have inEdges := perm.mem_iff.mp inStored
    have target := fit.targets_lt stored inEdges
    have limit := fit.nodes_le
    exact ⟨fit.sources_lt stored inEdges, by simp only [u32Max] at limit ⊢; omega⟩
  have length : self.sortEdges.edges.length ≤ u32Max := by
    rw [edges_sortEdges, List.length_map, perm.length_eq]
    exact fit.edges_le
  have built := buildCsrArrays_eq sorted (fun edge member => (column edge member).1)
    (fun edge member => (column edge member).2) fit.nodes_le length fun weighted => by
      rw [includeWeights_sortEdges] at weighted
      rw [weights_sortEdges self weighted, edges_sortEdges, List.length_map, List.length_map]
  refine ⟨_, _, _, built, ?_, ?_, ?_⟩
  · have pairs : (buckets Prod.fst nodes self.sortEdges.edges) =
        (buckets Prod.fst nodes self.sortEdges.storedEdges).map
          (List.map fun edge => (edge.1, edge.2.1)) := by
      rw [edges_sortEdges]
      simp only [buckets, List.map_map]
      refine List.map_congr_left fun k _ => ?_
      simp only [bucket, Function.comp_apply, List.filter_map]
      rfl
    rw [pairs, offsets_map, rows, rowsOfEdges, offsets_map]
  · rw [flat, edges_sortEdges, List.map_map, List.map_map]
    rfl
  · rw [includeWeights_sortEdges, flat, List.map_map]
    cases weighted : self.config.includeWeights with
    | true => simp only [if_true, weights_sortEdges self weighted]; rfl
    | false => rfl

/-- The bytes of an edge in a weighted and in an unweighted shard. -/
def bytesPerEdge (weighted : Bool) : ℕ := if weighted then 8 else 4

theorem bytesPerEdge_le (weighted : Bool) : bytesPerEdge weighted ≤ 8 := by
  cases weighted <;> simp [bytesPerEdge]

theorem bytesPerEdge_of_arrays {rows : List (List RowEntry)} {weighted : Bool}
    {rowPtrs colIndices : List ℕ} {weights : Option (List Float32)}
    (arrays : Arrays rows weighted rowPtrs colIndices weights) :
    (if weights.isSome then 8 else 4) = bytesPerEdge weighted := by
  rw [arrays.weights]
  cases weighted <;> rfl

/-- The target is at least one and leaves room in `usize`. For as many nodes as
there are identifiers it is at least two when the shard size exceeds 12 bytes. -/
theorem targetNodesPerShard_eq {shardSize nodeCount edgeCount bytes : ℕ}
    (size : shardSize ≤ usizeMax) (positive : 0 < nodeCount) (nodes : nodeCount ≤ u32Max + 1)
    (edges : edgeCount ≤ u32Max) (few : bytes ≤ 8) :
    ∃ target, targetNodesPerShard shardSize nodeCount edgeCount bytes = .ok target ∧
      1 ≤ target ∧ nodeCount + target ≤ usizeMax ∧
      (nodeCount = u32Max + 1 → 12 < shardSize → 2 ≤ target) := by
  have edgeBytes : edgeCount * bytes ≤ u32Max * 8 := Nat.mul_le_mul edges few
  simp only [u32Max, usizeMax] at *
  obtain ⟨total, totalEq⟩ : ∃ total, total = (nodeCount + 1) * 4 + edgeCount * bytes := ⟨_, rfl⟩
  have sum : saturatingAdd (saturatingMul (nodeCount + 1) 4) (saturatingMul edgeCount bytes) =
      total := by
    simp only [saturatingAdd, saturatingMul, usizeMax]
    omega
  have average : 5 ≤ (total + nodeCount - 1) / nodeCount := by
    rw [Nat.le_div_iff_mul_le positive]
    omega
  refine ⟨max ((shardSize + max ((total + nodeCount - 1) / nodeCount) 1 - 1) /
    max ((total + nodeCount - 1) / nodeCount) 1) 1, ?_, Nat.le_max_right _ _, ?_, ?_⟩
  · simp only [targetNodesPerShard, sum, Checked.divCeil_of_pos positive, Checked.ok_bind,
      Checked.pure_eq_ok]
    rw [Checked.divCeil_of_pos (by omega), Checked.ok_bind]
  · have quotient : (shardSize + max ((total + nodeCount - 1) / nodeCount) 1 - 1) /
        max ((total + nodeCount - 1) / nodeCount) 1 ≤ shardSize / 5 + 1 := by
      rw [Nat.max_eq_left (by omega)]
      generalize (total + nodeCount - 1) / nodeCount = avg at average ⊢
      have split : (shardSize + avg - 1) / avg ≤ (shardSize + avg) / avg :=
        Nat.div_le_div_right (by omega)
      rw [Nat.add_div_right _ (by omega)] at split
      have larger : shardSize / avg ≤ shardSize / 5 := Nat.div_le_div_left average (by omega)
      omega
    omega
  · intro full large
    subst full
    have small : (total + 4294967296 - 1) / 4294967296 ≤ 12 := by omega
    rw [Nat.max_eq_left (show 1 ≤ (total + 4294967296 - 1) / 4294967296 by omega)]
    generalize (total + 4294967296 - 1) / 4294967296 = avg at average small ⊢
    refine le_max_of_le_left ?_
    rw [Nat.le_div_iff_mul_le (by omega)]
    omega

/-- The shards of a builder, or the failure of having too many. -/
def builtOrFail (base : BaseLayer) (runs : List (List (List RowEntry))) : Outcome CsrGraph :=
  if runs.length ≤ u32Max then .ok (builtGraph base runs)
  else Checked.fail (.unsupportedGraphSize "shard count exceeds u32::MAX")

theorem validateEdgeIds_eq {self : CsrBuilder}
    (valid : ∀ edge ∈ self.edges, edge.1 ≤ u32Max ∧ edge.2 ≤ u32Max) :
    self.validateEdgeIds = .ok () := by
  refine Checked.forM_eq_ok fun edge member => ?_
  obtain ⟨source, target⟩ := valid edge member
  simp only [Nat.not_lt_of_le source, Nat.not_lt_of_le target, or_self, if_false,
    Checked.pure_eq_ok]

/-- **A builder with valid edges cuts the rows of its edges into shards.** -/
theorem build_eq {self : CsrBuilder} (nonempty : self.edges ≠ [])
    (valid : ∀ edge ∈ self.edges, edge.1 ≤ u32Max ∧ edge.2 ≤ u32Max)
    (count : self.storedEdges.length ≤ u32Max) :
    ∃ target runs, (nodeTotal self.storedEdges = u32Max + 1 →
        12 < self.config.shardSize.val → 2 ≤ target) ∧
      Cuts self.config.shardSize (bytesPerEdge self.config.includeWeights) target
        (BaseLayer.ofEdges (fit_of_valid valid count)).rows runs ∧
      self.build = builtOrFail (BaseLayer.ofEdges (fit_of_valid valid count)) runs := by
  have fit := fit_of_valid valid count
  obtain ⟨rowPtrs, colIndices, weights, built, arrays⟩ := arrays_sortEdges fit
  have rowCount : (BaseLayer.ofEdges fit).rows.length = nodeTotal self.storedEdges :=
    length_rowsOfEdges
  have columns : colIndices.length ≤ u32Max := by
    rw [arrays.colIndices, List.length_map, BaseLayer.length_flatten_ofEdges]
    exact count
  have limits : Limits (BaseLayer.ofEdges fit).rows (bytesPerEdge self.config.includeWeights) :=
    ⟨(BaseLayer.ofEdges fit).nodes_le, (BaseLayer.ofEdges fit).edges_le, bytesPerEdge_le _⟩
  have someNodes : 0 < nodeTotal self.storedEdges := Nat.succ_pos _
  obtain ⟨target, targetEq, positive, inRange, several⟩ := targetNodesPerShard_eq
    self.config.shardSize.property someNodes fit.nodes_le columns limits.bytes
  obtain ⟨runs, cuts, loop⟩ := partitionLoop_eq self.config.shardSize arrays limits
    positive (by rw [rowCount]; exact inRange) (BaseLayer.ofEdges fit).rows.length 0 0 []
    (Nat.zero_le _) (Nat.sub_le _ _) (Nat.zero_le _)
  refine ⟨target, runs, several, cuts, ?_⟩
  have shards : self.sortEdges.partitionIntoShards (nodeTotal self.storedEdges) rowPtrs colIndices
      weights = shardsOrFail self.config.includeWeights 0 0 [] runs := by
    rw [← loop, rowCount]
    simp only [partitionIntoShards, someNodes.ne', if_false, includeWeights_sortEdges,
      bytesPerEdge_of_arrays arrays, targetEq, Checked.ok_bind]
  have stored : self.sortEdges.edges.length = (BaseLayer.ofEdges fit).rows.flatten.length := by
    rw [edges_sortEdges, List.length_map, storedEdges_sortEdges,
      (sortByKey_perm Prod.fst self.storedEdges).length_eq, BaseLayer.length_flatten_ofEdges]
  have few : ¬ u32Max < self.sortEdges.edges.length := by
    rw [stored]
    exact Nat.not_lt_of_le (BaseLayer.ofEdges fit).edges_le
  have addressable : nodeTotal self.storedEdges ≤ usizeMax := by
    have nodes := fit.nodes_le
    simp only [u32Max, usizeMax] at nodes ⊢
    omega
  have some : self.edges.isEmpty = false := by simpa using nonempty
  simp only [build, some, Bool.false_eq_true, if_false, validateEdgeIds_eq valid, Checked.ok_bind,
    maxNode_sortEdges, usizeTryFrom_of_le addressable, Checked.okOr_some, few, built, shards]
  by_cases room : runs.length ≤ u32Max
  · simp only [shardsOrFail, builtOrFail, Nat.zero_add, room, if_true, Checked.ok_bind,
      Checked.pure_eq_ok, builtGraph, stored, rowCount, List.nil_append]
    rfl
  · simp only [shardsOrFail, builtOrFail, Nat.zero_add, room, if_false, Checked.fail,
      Checked.error_bind]

/-- **A builder with valid edges builds the base layer of its edges**, unless
every node identifier is a node and the shards are too small for that. -/
theorem build_stores {self : CsrBuilder} (nonempty : self.edges ≠ [])
    (valid : ∀ edge ∈ self.edges, edge.1 ≤ u32Max ∧ edge.2 ≤ u32Max)
    (count : self.storedEdges.length ≤ u32Max)
    (room : nodeTotal self.storedEdges ≤ u32Max ∨ 28 ≤ self.config.shardSize.val) :
    ∃ graph, self.build = .ok graph ∧ graph.delta = DeltaLayer.new ∧
      graph.Stores (BaseLayer.ofEdges (fit_of_valid valid count)) := by
  obtain ⟨target, runs, several, cuts, built⟩ := build_eq nonempty valid count
  have rowCount : (BaseLayer.ofEdges (fit_of_valid valid count)).rows.length =
      nodeTotal self.storedEdges := length_rowsOfEdges
  have nodes := (BaseLayer.ofEdges (fit_of_valid valid count)).nodes_le
  have few : runs.length ≤ u32Max := by
    have short := cuts.length_le
    rw [rowCount] at short nodes
    by_cases full : nodeTotal self.storedEdges = u32Max + 1
    · have roomy : 28 ≤ self.config.shardSize.val := room.resolve_left (by omega)
      have bytes := bytesPerEdge_le self.config.includeWeights
      exact cuts.length_lt_of_roomy (several full (by omega)) (by omega)
        (BaseLayer.nodes_le _) (BaseLayer.edges_le _)
    · omega
  refine ⟨_, built.trans (if_pos few), rfl, builtGraph_stores cuts.flatten_eq cuts.ne_nil⟩

/-- **The first edge with an endpoint beyond the `u32` range stops the builder.** -/
theorem build_invalid {self : CsrBuilder} {passed rest : List (ℕ × ℕ)} {source target : ℕ}
    (edges : self.edges = passed ++ (source, target) :: rest)
    (before : ∀ edge ∈ passed, edge.1 ≤ u32Max ∧ edge.2 ≤ u32Max)
    (beyond : u32Max < source ∨ u32Max < target) :
    self.build = Checked.fail (.invalidEdge source target) := by
  have some : self.edges.isEmpty = false := by simp [edges]
  have stopped : self.validateEdgeIds = Checked.fail (.invalidEdge source target) := by
    rw [validateEdgeIds, edges]
    refine Checked.forM_eq_error (fun edge member => ?_) (by simp only [beyond, if_true]; rfl)
    obtain ⟨first, second⟩ := before edge member
    simp only [Nat.not_lt_of_le first, Nat.not_lt_of_le second, or_self, if_false,
      Checked.pure_eq_ok]
  simp only [build, some, Bool.false_eq_true, if_false, stopped, Checked.fail, Checked.error_bind]

/-- A list with an entry that does not pass has a first one. -/
theorem exists_first_failing {α : Type} {passes : α → Prop} {entries : List α}
    (fails : ¬ ∀ entry ∈ entries, passes entry) :
    ∃ passed entry rest, entries = passed ++ entry :: rest ∧
      (∀ earlier ∈ passed, passes earlier) ∧ ¬ passes entry := by
  induction entries with
  | nil => simp at fails
  | cons first entries ih =>
    by_cases fits : passes first
    · obtain ⟨passed, entry, rest, split, before, failing⟩ :=
        ih fun each => fails (List.forall_mem_cons.mpr ⟨fits, each⟩)
      exact ⟨first :: passed, entry, rest, by rw [split, List.cons_append],
        List.forall_mem_cons.mpr ⟨fits, before⟩, failing⟩
    · exact ⟨[], first, entries, rfl, by simp, fits⟩

/-- Too many edges stop the builder. -/
theorem build_too_many {self : CsrBuilder}
    (valid : ∀ edge ∈ self.edges, edge.1 ≤ u32Max ∧ edge.2 ≤ u32Max)
    (many : u32Max < self.storedEdges.length) :
    self.build = Checked.fail (.unsupportedGraphSize
      s!"edge count {self.storedEdges.length} exceeds CSR row pointer capacity") := by
  have some : self.edges.isEmpty = false := by
    rw [List.isEmpty_eq_false_iff]
    intro none
    have empty : self.storedEdges = [] := by
      refine List.eq_nil_iff_forall_not_mem.mpr fun edge member => ?_
      simpa [none] using mem_edges_of_mem_storedEdges member
    simp [empty] at many
  have length : self.sortEdges.edges.length = self.storedEdges.length := by
    rw [edges_sortEdges, List.length_map, storedEdges_sortEdges,
      (sortByKey_perm Prod.fst self.storedEdges).length_eq]
  have addressable : nodeTotal self.storedEdges ≤ usizeMax := by
    have nodes : nodeTotal self.storedEdges ≤ u32Max + 1 :=
      nodeTotal_le fun _ member => valid _ (mem_edges_of_mem_storedEdges member)
    simp only [u32Max, usizeMax] at nodes ⊢
    omega
  simp only [build, some, Bool.false_eq_true, if_false, validateEdgeIds_eq valid, Checked.ok_bind,
    maxNode_sortEdges, usizeTryFrom_of_le addressable, Checked.okOr_some, length, many, if_true]

/-- A builder returns a graph or an error. -/
theorem build_ok_or_fail (self : CsrBuilder) :
    (∃ graph, self.build = .ok graph) ∨ ∃ reason, self.build = Checked.fail reason := by
  by_cases empty : self.edges = []
  · exact .inl ⟨_, by simp only [build, empty, List.isEmpty_nil, if_true]; rfl⟩
  · by_cases valid : ∀ edge ∈ self.edges, edge.1 ≤ u32Max ∧ edge.2 ≤ u32Max
    · by_cases count : self.storedEdges.length ≤ u32Max
      · obtain ⟨target, runs, -, -, outcome⟩ := build_eq empty valid count
        rw [outcome, builtOrFail]
        split
        · exact .inl ⟨_, rfl⟩
        · exact .inr ⟨_, rfl⟩
      · exact .inr ⟨_, build_too_many valid (Nat.lt_of_not_le count)⟩
    · obtain ⟨passed, edge, rest, split, before, failing⟩ := exists_first_failing valid
      exact .inr ⟨_, build_invalid split before (by omega)⟩

/-- **Whatever a builder returns stores a base layer and has an empty delta.** -/
theorem stores_of_build {self : CsrBuilder} {graph : CsrGraph} (built : self.build = .ok graph) :
    graph.delta = DeltaLayer.new ∧ ∃ base, graph.Stores base := by
  by_cases empty : self.edges = []
  · have same : CsrGraph.empty = graph := by
      simpa [build, empty] using built
    exact same ▸ ⟨rfl, _, CsrGraph.empty_stores⟩
  · by_cases valid : ∀ edge ∈ self.edges, edge.1 ≤ u32Max ∧ edge.2 ≤ u32Max
    · by_cases count : self.storedEdges.length ≤ u32Max
      · obtain ⟨target, runs, -, cuts, outcome⟩ := build_eq empty valid count
        rw [built, builtOrFail] at outcome
        by_cases few : runs.length ≤ u32Max
        · rw [if_pos few, Except.ok.injEq] at outcome
          exact outcome ▸ ⟨rfl, _, builtGraph_stores cuts.flatten_eq cuts.ne_nil⟩
        · rw [if_neg few] at outcome
          cases outcome
      · rw [build_too_many valid (Nat.lt_of_not_le count)] at built
        cases built
    · obtain ⟨passed, edge, rest, split, before, failing⟩ := exists_first_failing valid
      rw [build_invalid split before (by omega)] at built
      cases built

end CsrBuilder

end FusionGraph
