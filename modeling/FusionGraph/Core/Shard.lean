import FusionGraph.Core.Types

/-!
# A shard of the CSR graph

A shard covers a contiguous range of node identifiers and stores their outgoing
edges: row pointers into an array of column indices, and optionally an array of
weights parallel to it.
-/

set_option autoImplicit false

namespace FusionGraph

open Foundations

/-- A half-open range of `usize` values. -/
structure NodeRange where
  start : ℕ
  stop : ℕ
  deriving DecidableEq, Repr

namespace NodeRange

/-- The number of values in the range. -/
def len (self : NodeRange) : ℕ := self.stop - self.start

/-- Whether a value lies in the range. -/
def contains (self : NodeRange) (value : ℕ) : Bool :=
  decide (self.start ≤ value ∧ value < self.stop)

end NodeRange

/-- A single shard of the CSR graph. -/
structure CsrShard where
  /-- Shard identifier. -/
  id : ℕ
  /-- Range of global node identifiers covered by this shard. -/
  nodeRange : NodeRange
  /-- Offsets into `colIndices`, one for each node and one for the end. -/
  rowPtrs : List ℕ
  /-- Target node identifiers. -/
  colIndices : List ℕ
  /-- Optional edge weights. -/
  weights : Option (List Float32)

namespace CsrShard

/-- The number of nodes in this shard. -/
def nodeCount (self : CsrShard) : ℕ := self.nodeRange.len

/-- The number of edges in this shard. -/
def edgeCount (self : CsrShard) : ℕ := self.colIndices.length

/-- Whether this shard contains the given global node identifier. -/
def contains (self : CsrShard) (globalNodeId : ℕ) : Bool := self.nodeRange.contains globalNodeId

/-- The range of positions in `colIndices` for a node, by local offset. -/
def neighborRange (self : CsrShard) (localOffset : ℕ) : Outcome (ℕ × ℕ) :=
  if self.nodeCount ≤ localOffset then .ok (0, 0)
  else do
    let start ← Checked.index self.rowPtrs localOffset
    let stop ← Checked.index self.rowPtrs (localOffset + 1)
    pure (start, stop)

/-- The neighbors of a node as a contiguous slice. -/
def neighborSlice (self : CsrShard) (localOffset : ℕ) : Outcome (List ℕ) := do
  let (start, stop) ← self.neighborRange localOffset
  Checked.slice self.colIndices start stop

/-- The target at the given position. -/
def colIndex (self : CsrShard) (idx : ℕ) : Option ℕ := self.colIndices[idx]?

/-- Whether this shard stores edge weights. -/
def hasWeights (self : CsrShard) : Bool := self.weights.isSome

/-- The weight at the given position. -/
def weight (self : CsrShard) (idx : ℕ) : Option Float32 :=
  self.weights.bind fun weights => weights[idx]?

end CsrShard

end FusionGraph
