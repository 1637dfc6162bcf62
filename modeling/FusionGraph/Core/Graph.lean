import FusionGraph.Core.Delta
import FusionGraph.Core.Shard
import Mathlib.Data.List.TakeWhile

/-!
# The CSR graph and its readers

A graph is a list of base shards, the counts of the base layer and a delta
layer. Reads merge the two layers: `neighbors` yields the base neighbors that
carry no tombstone and then the inserted targets it has not yielded yet, and
`hasEdge` asks the delta layer before it walks the neighbors.

The neighbor iterator is modelled step by step (`NeighborIter.next`), and
`NeighborIter.collect_eq` says what a complete walk yields.
-/

set_option autoImplicit false

namespace FusionGraph

open Foundations

/-- A CSR-based graph with micro-sharding. -/
structure CsrGraph where
  /-- Shards containing the base layer topology. -/
  shards : List CsrShard
  /-- Total node count across all shards. -/
  nodeCount : ℕ
  /-- Total edge count across all shards. -/
  edgeCount : ℕ
  /-- Delta layer for real-time updates. -/
  delta : DeltaLayer

/-! ## Base neighbors -/

/-- Iterator over neighbors of a node in the base layer. -/
structure BaseNeighborIter where
  shard : Option CsrShard
  current : ℕ
  stop : ℕ

namespace BaseNeighborIter

/-- The iterator over one row of a shard. -/
def new (shard : CsrShard) (nodeOffset : ℕ) : Outcome BaseNeighborIter := do
  let (start, stop) ← shard.neighborRange nodeOffset
  pure { shard := some shard, current := start, stop := stop }

/-- The iterator that yields nothing. -/
def empty : BaseNeighborIter where
  shard := none
  current := 0
  stop := 0

/-- One step of the iterator. -/
def next (self : BaseNeighborIter) : Option (ℕ × BaseNeighborIter) :=
  if self.current < self.stop then do
    let shard ← self.shard
    let neighbor ← shard.colIndex self.current
    some (neighbor, { self with current := self.current + 1 })
  else none

/-- The remaining length that `size_hint` reports. -/
def remaining (self : BaseNeighborIter) : ℕ := self.stop - self.current

/-- Steps the iterator until it yields an accepted neighbor, for at most `fuel`
steps. -/
def nextWhere (accept : ℕ → Bool) :
    ℕ → BaseNeighborIter → Option ℕ × BaseNeighborIter
  | 0, self => (none, self)
  | fuel + 1, self =>
    match self.next with
    | none => (none, self)
    | some (neighbor, rest) =>
      if accept neighbor then (some neighbor, rest) else nextWhere accept fuel rest

end BaseNeighborIter

/-! ## Merged neighbors -/

/-- Iterator over all neighbors of a node: base and delta, without tombstones. -/
structure NeighborIter where
  graph : CsrGraph
  node : ℕ
  baseIter : BaseNeighborIter
  deltaIter : List ℕ
  baseSeen : List ℕ

namespace NeighborIter

/-- Whether a base neighbor carries no tombstone. -/
def live (self : NeighborIter) (neighbor : ℕ) : Bool :=
  !self.graph.delta.isDeleted self.node neighbor

/-- One step of the iterator: the next live base neighbor, else the next
inserted target that the base part has not yielded. -/
def next (self : NeighborIter) : Option ℕ × NeighborIter :=
  match self.baseIter.nextWhere self.live self.baseIter.remaining with
  | (some neighbor, baseIter) =>
    (some neighbor,
      { self with baseIter := baseIter, baseSeen := neighbor :: self.baseSeen })
  | (none, baseIter) =>
    match self.deltaIter.dropWhile (fun neighbor => decide (neighbor ∈ self.baseSeen)) with
    | [] => (none, { self with baseIter := baseIter, deltaIter := [] })
    | neighbor :: rest => (some neighbor, { self with baseIter := baseIter, deltaIter := rest })

/-- The first `fuel` nodes the iterator yields. -/
def collect : ℕ → NeighborIter → List ℕ
  | 0, _ => []
  | fuel + 1, self =>
    match self.next with
    | (none, _) => []
    | (some neighbor, rest) => neighbor :: collect fuel rest

end NeighborIter

namespace CsrGraph

/-- The index of a node, when it fits `usize`. -/
def nodeIndex (node : ℕ) : Option ℕ := usizeTryFrom node

/-- Creates an empty graph. -/
def empty : CsrGraph where
  shards := []
  nodeCount := 0
  edgeCount := 0
  delta := DeltaLayer.new

/-- Whether the graph contains the given node. -/
def contains (self : CsrGraph) (node : ℕ) : Bool :=
  (nodeIndex node).any fun id => decide (id < self.nodeCount)

/-- The number of leading shards that start at or before a node index. -/
def shardPartitionPoint (self : CsrGraph) (id : ℕ) : ℕ :=
  self.shards.findIdx fun shard => !decide (shard.nodeRange.start ≤ id)

/-- Converts a global node identifier to a shard index and a local offset. -/
def globalToShard (self : CsrGraph) (node : ℕ) : Option (ℕ × ℕ) := do
  let id ← nodeIndex node
  let shardIdx ← checkedSub (self.shardPartitionPoint id) 1
  let shard ← self.shards[shardIdx]?
  if shard.contains id then some (shardIdx, id - shard.nodeRange.start) else none

/-- Converts a shard index and a local offset to a global node identifier. -/
def shardToGlobal (self : CsrGraph) (shardIdx offset : ℕ) : Option ℕ :=
  self.shards[shardIdx]?.bind fun shard =>
    if shard.nodeCount ≤ offset then none else some (shard.nodeRange.start + offset)

/-- The base-layer neighbors of a node as a contiguous slice. -/
def baseNeighborSlice (self : CsrGraph) (node : ℕ) : Outcome (List ℕ) :=
  match self.globalToShard node with
  | none => .ok []
  | some (shardIdx, offset) =>
    match self.shards[shardIdx]? with
    | none => .ok []
    | some shard => shard.neighborSlice offset

/-- An iterator over base-layer neighbors only. -/
def baseNeighbors (self : CsrGraph) (node : ℕ) : Outcome BaseNeighborIter :=
  match self.globalToShard node with
  | none => .ok .empty
  | some (shardIdx, offset) =>
    match self.shards[shardIdx]? with
    | none => .ok .empty
    | some shard => BaseNeighborIter.new shard offset

/-- The iterator over the merged neighbors of a node. -/
def neighborIter (self : CsrGraph) (node : ℕ) : Outcome NeighborIter := do
  let baseIter ← self.baseNeighbors node
  pure
    { graph := self, node := node, baseIter := baseIter,
      deltaIter := self.delta.neighbors node, baseSeen := [] }

/-- The nodes that the merged iterator yields, in order. -/
def neighbors (self : CsrGraph) (node : ℕ) : Outcome (List ℕ) := do
  let iter ← self.neighborIter node
  pure (iter.collect (iter.baseIter.remaining + iter.deltaIter.length + 1))

/-- The out-degree of a node. -/
def outDegree (self : CsrGraph) (node : ℕ) : Outcome ℕ := do
  let neighbors ← self.neighbors node
  pure neighbors.length

/-- Checks if an edge exists between two nodes. -/
def hasEdge (self : CsrGraph) (source target : ℕ) : Outcome Bool :=
  if self.delta.isDeleted source target then .ok false
  else if self.delta.hasInsertion source target then .ok true
  else do
    let neighbors ← self.neighbors source
    pure (neighbors.any fun neighbor => decide (neighbor = target))

/-- Whether the base layer contains an edge; the delta layer is ignored. -/
def baseContains (self : CsrGraph) (source target : ℕ) : Outcome Bool :=
  match u32TryFrom target with
  | none => .ok false
  | some target => do
    let slice ← self.baseNeighborSlice source
    pure (decide (target ∈ slice))

/-- The same base layer with another delta layer. -/
def withDelta (self : CsrGraph) (delta : DeltaLayer) : CsrGraph := { self with delta := delta }

@[simp] theorem delta_withDelta (self : CsrGraph) (delta : DeltaLayer) :
    (self.withDelta delta).delta = delta := rfl

@[simp] theorem withDelta_withDelta (self : CsrGraph) (delta other : DeltaLayer) :
    (self.withDelta delta).withDelta other = self.withDelta other := rfl

end CsrGraph

/-! ## What a walk of the neighbors yields -/

namespace BaseNeighborIter

/-- The neighbors the iterator has still to yield. -/
def pending (self : BaseNeighborIter) : List ℕ :=
  match self.shard with
  | none => []
  | some shard => shard.colIndices.extract self.current self.stop

theorem pending_empty : empty.pending = [] := rfl

theorem length_pending_le (self : BaseNeighborIter) : self.pending.length ≤ self.remaining := by
  unfold pending remaining
  cases self.shard with
  | none => simp
  | some shard => simp only [List.extract_eq_take_drop, List.length_take]; omega

/-- A step yields the first pending neighbor and leaves the others. -/
theorem next_of_pending_cons {self : BaseNeighborIter} {neighbor : ℕ} {rest : List ℕ}
    (pending : self.pending = neighbor :: rest) :
    ∃ iter, self.next = some (neighbor, iter) ∧ iter.pending = rest := by
  obtain ⟨shard, current, stop⟩ := self
  cases shard with
  | none => simp [BaseNeighborIter.pending] at pending
  | some shard =>
    simp only [BaseNeighborIter.pending, List.extract_eq_take_drop] at pending
    have inside : current < stop := by
      by_contra outside
      simp [Nat.sub_eq_zero_of_le (Nat.le_of_not_lt outside)] at pending
    have bound : current < shard.colIndices.length := by
      by_contra outside
      simp [List.drop_eq_nil_of_le (Nat.le_of_not_lt outside)] at pending
    obtain ⟨width, widthEq⟩ : ∃ width, stop - current = width + 1 :=
      ⟨stop - current - 1, by omega⟩
    rw [List.drop_eq_getElem_cons bound, widthEq, List.take_succ_cons] at pending
    obtain ⟨rfl, rfl⟩ := List.cons.inj pending
    refine ⟨{ shard := some shard, current := current + 1, stop := stop }, ?_, ?_⟩
    · simp [next, inside, CsrShard.colIndex, bound]
    · simp only [BaseNeighborIter.pending, List.extract_eq_take_drop]
      congr 1
      omega

/-- With nothing pending a step yields nothing. -/
theorem next_of_pending_nil {self : BaseNeighborIter} (pending : self.pending = []) :
    self.next = none := by
  obtain ⟨shard, current, stop⟩ := self
  cases shard with
  | none => simp [next]
  | some shard =>
    simp only [BaseNeighborIter.pending, List.extract_eq_take_drop, List.take_eq_nil_iff,
      List.drop_eq_nil_iff] at pending
    by_cases inside : current < stop
    · have outside : shard.colIndices.length ≤ current := by omega
      simp [next, inside, CsrShard.colIndex, outside]
    · simp [next, inside]

/-- A search that finds nothing has passed over everything pending. -/
theorem nextWhere_of_filter_nil {accept : ℕ → Bool} :
    ∀ {fuel : ℕ} {self : BaseNeighborIter}, self.pending.length ≤ fuel →
      self.pending.filter accept = [] →
      ∃ iter, nextWhere accept fuel self = (none, iter) ∧ iter.pending = []
  | 0, self, enough, _ => ⟨self, rfl, List.length_eq_zero_iff.mp (Nat.le_zero.mp enough)⟩
  | fuel + 1, self, enough, rejected => by
      cases pending : self.pending with
      | nil => exact ⟨self, by simp [nextWhere, next_of_pending_nil pending], pending⟩
      | cons neighbor rest =>
        obtain ⟨iter, step, left⟩ := next_of_pending_cons pending
        rw [pending] at enough rejected
        have refused : accept neighbor = false := by
          by_contra accepted
          simp [accepted] at rejected
        have smaller : iter.pending.length ≤ fuel := by
          rw [left]
          simpa using enough
        obtain ⟨final, found, emptied⟩ := nextWhere_of_filter_nil smaller
          (show iter.pending.filter accept = [] by rw [left]; simpa [refused] using rejected)
        exact ⟨final, by simpa [nextWhere, step, refused] using found, emptied⟩

/-- A search yields the first pending neighbor that is accepted. -/
theorem nextWhere_of_filter_cons {accept : ℕ → Bool} {neighbor : ℕ}
    {rest : List ℕ} :
    ∀ {fuel : ℕ} {self : BaseNeighborIter}, self.pending.length ≤ fuel →
      self.pending.filter accept = neighbor :: rest →
      ∃ iter, nextWhere accept fuel self = (some neighbor, iter) ∧
        iter.pending.filter accept = rest ∧ iter.pending.length < self.pending.length
  | 0, self, enough, found => by
      rw [List.length_eq_zero_iff.mp (Nat.le_zero.mp enough)] at found
      simp at found
  | fuel + 1, self, enough, found => by
      cases pending : self.pending with
      | nil => simp [pending] at found
      | cons first others =>
        obtain ⟨iter, step, left⟩ := next_of_pending_cons pending
        rw [pending] at enough found
        have smaller : iter.pending.length ≤ fuel := by
          rw [left]
          simpa using enough
        by_cases accepted : accept first = true
        · simp only [List.filter_cons, accepted, if_true, List.cons.injEq] at found
          obtain ⟨rfl, rfl⟩ := found
          exact ⟨iter, by simp [nextWhere, step, accepted], by rw [left], by rw [left]; simp⟩
        · rw [List.filter_cons_of_neg accepted] at found
          obtain ⟨final, yielded, others', shorter⟩ :=
            nextWhere_of_filter_cons smaller
              (show iter.pending.filter accept = neighbor :: rest by rw [left]; exact found)
          refine ⟨final, by simpa [nextWhere, step, accepted] using yielded, others', ?_⟩
          rw [left] at shorter
          exact Nat.lt_trans shorter (by simp)

end BaseNeighborIter

namespace NeighborIter

/-- The base neighbors still to be yielded. -/
def pendingBase (self : NeighborIter) : List ℕ := self.baseIter.pending.filter self.live

/-- **A complete walk yields the live base neighbors in storage order, and then
the inserted targets that it has not yielded.** -/
theorem collect_eq : ∀ (fuel : ℕ) (self : NeighborIter),
    self.pendingBase.length + self.deltaIter.length < fuel →
    self.collect fuel = self.pendingBase ++
      self.deltaIter.filter fun target =>
        decide (target ∉ self.baseSeen ∧ target ∉ self.pendingBase)
  | 0, _, enough => absurd enough (Nat.not_lt_zero _)
  | fuel + 1, self, enough => by
      have enoughBase := self.baseIter.length_pending_le
      cases base : self.pendingBase with
      | cons neighbor rest =>
        obtain ⟨iter, step, left, -⟩ :=
          BaseNeighborIter.nextWhere_of_filter_cons enoughBase base
        have moved : self.next = (some neighbor,
            { self with baseIter := iter, baseSeen := neighbor :: self.baseSeen }) := by
          simp only [next, step]
        have pendingRest : ({ self with
            baseIter := iter, baseSeen := neighbor :: self.baseSeen } : NeighborIter).pendingBase
              = rest := left
        have ih := collect_eq fuel
          { self with baseIter := iter, baseSeen := neighbor :: self.baseSeen }
          (by rw [base] at enough; simp only [pendingRest, List.length_cons] at enough ⊢; omega)
        simp only [collect, moved, ih, pendingRest, List.cons_append, List.cons.injEq, true_and]
        congr 1
        refine List.filter_congr fun target _ => ?_
        simp only [List.mem_cons, not_or, decide_eq_decide]
        tauto
      | nil =>
        obtain ⟨iter, step, left⟩ :=
          BaseNeighborIter.nextWhere_of_filter_nil enoughBase base
        have split := List.takeWhile_append_dropWhile
          (p := fun neighbor => decide (neighbor ∈ self.baseSeen)) (l := self.deltaIter)
        have skipped : (self.deltaIter.takeWhile fun neighbor =>
            decide (neighbor ∈ self.baseSeen)).filter
              (fun target => decide (target ∉ self.baseSeen ∧ target ∉ ([] : List ℕ))) = [] := by
          refine List.filter_eq_nil_iff.mpr fun target member => ?_
          have seen := List.mem_takeWhile_imp member
          simp only [decide_eq_true_eq] at seen
          simp [seen]
        rw [← split, List.filter_append, skipped]
        cases rest : self.deltaIter.dropWhile (fun neighbor => decide (neighbor ∈ self.baseSeen)) with
        | nil => simp [collect, next, step, rest]
        | cons neighbor others =>
          have fresh : neighbor ∉ self.baseSeen := by
            have head := List.head?_dropWhile_not
              (p := fun neighbor => decide (neighbor ∈ self.baseSeen)) (l := self.deltaIter)
            rw [rest] at head
            simpa using head
          have moved : self.next = (some neighbor,
              { self with baseIter := iter, deltaIter := others }) := by
            simp only [next, step, rest]
          have pendingRest : ({ self with
              baseIter := iter, deltaIter := others } : NeighborIter).pendingBase = [] := by
            simp only [pendingBase, left, List.filter_nil]
          have shorter : others.length < self.deltaIter.length := by
            rw [← split, rest]
            simp
            omega
          have ih := collect_eq fuel { self with baseIter := iter, deltaIter := others }
            (by rw [pendingRest]; simp only [List.length_nil, Nat.zero_add]; omega)
          simp only [collect, moved, ih, pendingRest]
          simp [fresh]

end NeighborIter

end FusionGraph
