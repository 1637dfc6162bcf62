import FusionGraph.Core.Graph
import FusionGraph.Foundations.StableBuckets

/-!
# The CSR builder

The builder collects edges and weights, sorts the edges by source with a stable
sort, counts the edges of each node, turns the counts into row pointers, writes
every target at the cursor of its row and cuts the arrays into shards of about
the configured size.
-/

set_option autoImplicit false

namespace FusionGraph

open Foundations

/-- Default shard size: 64MB. -/
def defaultShardSize : Usize := ⟨64 * 1024 * 1024, by simp only [usizeMax]; omega⟩

/-- Configuration for CSR building. -/
structure CsrBuildConfig where
  /-- Shard size in bytes. -/
  shardSize : Usize
  /-- Whether to include edge weights. -/
  includeWeights : Bool

/-- `CsrBuildConfig::default()`. -/
def CsrBuildConfig.default : CsrBuildConfig where
  shardSize := defaultShardSize
  includeWeights := false

/-- Builder for constructing CSR graphs. -/
structure CsrBuilder where
  config : CsrBuildConfig
  edges : List (ℕ × ℕ)
  weights : List Float32

namespace CsrBuilder

/-- Creates a new builder with default configuration. -/
def new : CsrBuilder where
  config := .default
  edges := []
  weights := []

/-- Sets the shard size. -/
def withShardSize (self : CsrBuilder) (size : Usize) : CsrBuilder :=
  { self with config := { self.config with shardSize := size } }

/-- Adds edges from an iterator. -/
def withEdges (self : CsrBuilder) (edges : List (ℕ × ℕ)) : CsrBuilder :=
  { self with edges := self.edges ++ edges }

/-- Adds weighted edges from an iterator. -/
def withWeightedEdges (self : CsrBuilder) (edges : List (ℕ × ℕ × Float32)) : CsrBuilder where
  config := { self.config with includeWeights := true }
  edges := self.edges ++ edges.map fun edge => (edge.1, edge.2.1)
  weights := self.weights ++ edges.map fun edge => edge.2.2

/-- Fails on the first edge with an endpoint beyond the `u32` range. -/
def validateEdgeIds (self : CsrBuilder) : Outcome Unit :=
  forM self.edges fun (src, dst) =>
    if u32Max < src ∨ u32Max < dst then Checked.fail (.invalidEdge src dst) else pure ()

/-- Sorts the edges by source; with weights, the pairs of an edge and a weight. -/
def sortEdges (self : CsrBuilder) : CsrBuilder :=
  if self.config.includeWeights then
    let edgeWeights := StableBuckets.sortByKey (fun pair => pair.1.1) (self.edges.zip self.weights)
    { self with edges := edgeWeights.map Prod.fst, weights := edgeWeights.map Prod.snd }
  else { self with edges := StableBuckets.sortByKey Prod.fst self.edges }

/-- The index of a source node, when it is a node of the graph. -/
def edgeSrcIndex (src nodeCount : ℕ) : Outcome ℕ :=
  match usizeTryFrom src with
  | none => Checked.fail (.invalidEdge src src)
  | some srcIdx =>
    if nodeCount ≤ srcIdx then Checked.fail (.invalidEdge src src) else .ok srcIdx

/-- `u32::checked_add`, with the reason that the caller reports on overflow. -/
def checkedAddU32 (a b : ℕ) (reason : String) : Outcome ℕ :=
  Checked.okOr (u32TryFrom (a + b)) (.unsupportedGraphSize reason)

/-- Counts one edge at its source. -/
def countEdge (nodeCount : ℕ) (degrees : List ℕ) (edge : ℕ × ℕ) : Outcome (List ℕ) := do
  let src := edge.1
  let srcIdx ← edgeSrcIndex src nodeCount
  let degree ← Checked.okOr degrees[srcIdx]? (.invalidEdge src src)
  let degree ← checkedAddU32 degree 1 s!"node {src} exceeds per-node CSR degree capacity"
  Checked.store degrees srcIdx degree

/-- Appends the next row pointer. -/
def pushRowPtr (state : List ℕ × ℕ) (degree : ℕ) : Outcome (List ℕ × ℕ) := do
  let cumsum ← checkedAddU32 state.2 degree "total edge count exceeds CSR row pointer capacity"
  pure (state.1 ++ [cumsum], cumsum)

/-- The arrays under construction: targets, weights and the cursor of each row. -/
structure ScatterState where
  colIndices : List ℕ
  weights : Option (List Float32)
  currentPos : List ℕ

/-- Writes one edge at the cursor of its row and moves the cursor. -/
def scatterEdge (self : CsrBuilder) (nodeCount : ℕ) (state : ScatterState)
    (entry : (ℕ × ℕ) × ℕ) : Outcome ScatterState := do
  let ((src, dst), i) := entry
  let srcIdx ← edgeSrcIndex src nodeCount
  let pos ← Checked.index state.currentPos srcIdx
  let target ← Checked.okOr (u32TryFrom dst) (.invalidEdge src dst)
  let colIndices ← Checked.store state.colIndices pos target
  let weights ←
    match state.weights with
    | none => pure none
    | some weights => do
      let weight ← Checked.index self.weights i
      let weights ← Checked.store weights pos weight
      pure (some weights)
  let cursor ← checkedAddU32 pos 1 s!"node {src} exceeds per-node CSR degree capacity"
  let currentPos ← Checked.store state.currentPos srcIdx cursor
  pure { colIndices := colIndices, weights := weights, currentPos := currentPos }

/-- Builds the raw CSR arrays: row pointers, column indices, weights. -/
def buildCsrArrays (self : CsrBuilder) (nodeCount : ℕ) :
    Outcome (List ℕ × List ℕ × Option (List Float32)) := do
  let degrees ← self.edges.foldlM (countEdge nodeCount) (List.replicate nodeCount 0)
  let (rowPtrs, _) ← degrees.foldlM pushRowPtr ([0], 0)
  let currentPos ← Checked.slice rowPtrs 0 nodeCount
  let start : ScatterState :=
    { colIndices := List.replicate self.edges.length 0
      weights := if self.config.includeWeights then
        some (List.replicate self.edges.length 0.0) else none
      currentPos := currentPos }
  let final ← self.edges.zipIdx.foldlM (self.scatterEdge nodeCount) start
  pure (rowPtrs, final.colIndices, final.weights)

/-- The memory of a potential shard: 4 bytes for each row pointer and
`bytesPerEdge` for each edge. -/
def calculateShardMemory (startNode endNode : ℕ) (rowPtrs : List ℕ) (bytesPerEdge : ℕ) :
    Outcome ℕ := do
  let nodeCount ← Checked.sub endNode startNode
  let edgeStart ← Checked.index rowPtrs startNode
  let edgeEnd ← Checked.index rowPtrs endNode
  let edgeCount ← Checked.sub edgeEnd edgeStart
  let rowBytes ← Checked.mul usizeMax (nodeCount + 1) 4
  let edgeBytes ← Checked.mul usizeMax edgeCount bytesPerEdge
  Checked.add usizeMax rowBytes edgeBytes

/-- Drops nodes from the end of a shard while it is too large and has more than
one node: `width` is the number of nodes beyond the first, `shardBytes` the
memory of the shard with all of them. -/
def shrinkShard (shardSize startNode : ℕ) (rowPtrs : List ℕ) (bytesPerEdge : ℕ) :
    (width shardBytes : ℕ) → Outcome ℕ
  | 0, _ => pure (startNode + 1)
  | width + 1, shardBytes =>
    if shardSize < shardBytes then do
      let endNode := startNode + 1 + width
      let shardBytes ← calculateShardMemory startNode endNode rowPtrs bytesPerEdge
      shrinkShard shardSize startNode rowPtrs bytesPerEdge width shardBytes
    else pure (startNode + 1 + (width + 1))

/-- Row pointers of a shard, relative to its first edge. -/
def relativeRowPtrs (rowPtrs : List ℕ) (startNode endNode : ℕ) : Outcome (List ℕ) :=
  (List.range' startNode (endNode + 1 - startNode)).mapM fun i => do
    let ptr ← Checked.index rowPtrs i
    let first ← Checked.index rowPtrs startNode
    Checked.sub ptr first

/-- Cuts the shard of the nodes from `startNode` up to `endNode` out of the arrays. -/
def extractShard (rowPtrs colIndices : List ℕ) (weights : Option (List Float32))
    (shardId startNode endNode : ℕ) : Outcome CsrShard := do
  let shardEdgeStart ← Checked.index rowPtrs startNode
  let shardEdgeEnd ← Checked.index rowPtrs endNode
  let shardRowPtrs ← relativeRowPtrs rowPtrs startNode endNode
  let shardColIndices ← Checked.slice colIndices shardEdgeStart shardEdgeEnd
  let shardWeights ←
    match weights with
    | none => pure none
    | some weights => do
      let shardWeights ← Checked.slice weights shardEdgeStart shardEdgeEnd
      pure (some shardWeights)
  pure
    { id := shardId, nodeRange := ⟨startNode, endNode⟩, rowPtrs := shardRowPtrs,
      colIndices := shardColIndices, weights := shardWeights }

/-- `usize::saturating_mul`. -/
def saturatingMul (a b : ℕ) : ℕ := min (a * b) usizeMax

/-- `usize::saturating_add`. -/
def saturatingAdd (a b : ℕ) : ℕ := min (a + b) usizeMax

/-- The number of nodes that a shard of average rows holds, at least one. -/
def targetNodesPerShard (shardSize nodeCount edgeCount bytesPerEdge : ℕ) : Outcome ℕ := do
  let totalEdgeBytes := saturatingMul edgeCount bytesPerEdge
  let totalRowBytes := saturatingMul (nodeCount + 1) 4
  let totalBytes := saturatingAdd totalRowBytes totalEdgeBytes
  let avgBytesPerNode ← Checked.divCeil totalBytes nodeCount
  let target ← Checked.divCeil shardSize (max avgBytesPerNode 1)
  pure (max target 1)

/-- The sharding loop, for at most `fuel` shards. -/
def partitionLoop (shardSize nodeCount : ℕ) (rowPtrs colIndices : List ℕ)
    (weights : Option (List Float32)) (bytesPerEdge target : ℕ) :
    (fuel startNode shardId : ℕ) → List CsrShard → Outcome (List CsrShard)
  | 0, startNode, _, shards =>
    if startNode < nodeCount then Checked.abort .loopBoundExhausted else pure shards
  | fuel + 1, startNode, shardId, shards =>
    if startNode < nodeCount then do
      let guess ← Checked.add usizeMax startNode target
      let firstEnd := min guess nodeCount
      let shardBytes ← calculateShardMemory startNode firstEnd rowPtrs bytesPerEdge
      let endNode ← shrinkShard shardSize startNode rowPtrs bytesPerEdge
        (firstEnd - (startNode + 1)) shardBytes
      let shard ← extractShard rowPtrs colIndices weights shardId startNode endNode
      let nextId ← checkedAddU32 shardId 1 "shard count exceeds u32::MAX"
      partitionLoop shardSize nodeCount rowPtrs colIndices weights bytesPerEdge target
        fuel endNode nextId (shards ++ [shard])
    else pure shards

/-- Partitions the CSR arrays into shards based on the configured shard size. -/
def partitionIntoShards (self : CsrBuilder) (nodeCount : ℕ) (rowPtrs colIndices : List ℕ)
    (weights : Option (List Float32)) : Outcome (List CsrShard) :=
  if nodeCount = 0 then .ok []
  else do
    let bytesPerEdge := if weights.isSome then 8 else 4
    let target ← targetNodesPerShard self.config.shardSize.val nodeCount colIndices.length
      bytesPerEdge
    partitionLoop self.config.shardSize.val nodeCount rowPtrs colIndices weights bytesPerEdge
      target nodeCount 0 0 []

/-- The largest endpoint of the edges, 0 without edges. -/
def maxNode (self : CsrBuilder) : ℕ :=
  (self.edges.flatMap fun (src, dst) => [src, dst]).foldr max 0

/-- Builds the CSR graph. -/
def build (self : CsrBuilder) : Outcome CsrGraph :=
  if self.edges.isEmpty then .ok .empty
  else do
    self.validateEdgeIds
    let self := self.sortEdges
    let nodeCount ← Checked.okOr (usizeTryFrom (self.maxNode + 1))
      (.unsupportedGraphSize s!"node count {self.maxNode + 1} exceeds platform addressable range")
    if u32Max < self.edges.length then
      Checked.fail (.unsupportedGraphSize
        s!"edge count {self.edges.length} exceeds CSR row pointer capacity")
    else do
      let (rowPtrs, colIndices, weights) ← self.buildCsrArrays nodeCount
      let shards ← self.partitionIntoShards nodeCount rowPtrs colIndices weights
      pure
        { shards := shards, nodeCount := nodeCount, edgeCount := self.edges.length,
          delta := DeltaLayer.new }

end CsrBuilder

/-- Creates a graph from a list of edges. -/
def CsrGraph.fromEdges (edges : List (ℕ × ℕ)) : Outcome CsrGraph :=
  (CsrBuilder.new.withEdges edges).build

end FusionGraph
