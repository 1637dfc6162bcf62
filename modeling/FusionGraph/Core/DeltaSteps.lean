import FusionGraph.Core.Delta

/-!
# The delta layer one map operation at a time

The two halves of a delta layer are separate concurrent maps. A call of `insert`
or `delete` is therefore two operations, one on each map, and a drain reads all
keys of one map and then removes them one by one. Between two of these
operations other threads may run. This file names the operations and says which
of them a call is made of (`EdgeWrite.run_second_first`,
`DeltaLayer.drainDeletions_eq_runAll`, `DeltaLayer.drainInsertions_eq_runAll`).
-/

set_option autoImplicit false

namespace FusionGraph

/-- An operation on one of the two maps of a delta layer. -/
inductive MapOp where
  | putInsertion (key : EdgeKey) (data : EdgeData)
  | removeInsertion (key : EdgeKey)
  | putTombstone (key : EdgeKey)
  | removeTombstone (key : EdgeKey)

namespace MapOp

/-- The effect of the operation. -/
def run (delta : DeltaLayer) : MapOp → DeltaLayer
  | putInsertion key data => { delta with insertions := delta.insertions.insert key data }
  | removeInsertion key => { delta with insertions := delta.insertions.erase key }
  | putTombstone key => { delta with deletions := delta.deletions.insert key () }
  | removeTombstone key => { delta with deletions := delta.deletions.erase key }

/-- The effect of several operations, one after the other. -/
def runAll (ops : List MapOp) (delta : DeltaLayer) : DeltaLayer := ops.foldl run delta

/-- The edge that the operation is about. -/
def key : MapOp → EdgeKey
  | putInsertion key _ => key
  | removeInsertion key => key
  | putTombstone key => key
  | removeTombstone key => key

section Membership

variable (delta : DeltaLayer) (op : MapOp) (key other : EdgeKey) (data : EdgeData)

@[simp] theorem mem_insertions_putInsertion :
    key ∈ ((putInsertion other data).run delta).insertions ↔
      key = other ∨ key ∈ delta.insertions :=
  AList.mem_insert _

@[simp] theorem mem_insertions_removeInsertion :
    key ∈ ((removeInsertion other).run delta).insertions ↔
      key ≠ other ∧ key ∈ delta.insertions :=
  AList.mem_erase

@[simp] theorem insertions_putTombstone :
    ((putTombstone other).run delta).insertions = delta.insertions := rfl

@[simp] theorem insertions_removeTombstone :
    ((removeTombstone other).run delta).insertions = delta.insertions := rfl

@[simp] theorem deletions_putInsertion :
    ((putInsertion other data).run delta).deletions = delta.deletions := rfl

@[simp] theorem deletions_removeInsertion :
    ((removeInsertion other).run delta).deletions = delta.deletions := rfl

@[simp] theorem mem_deletions_putTombstone :
    key ∈ ((putTombstone other).run delta).deletions ↔ key = other ∨ key ∈ delta.deletions :=
  AList.mem_insert _

@[simp] theorem mem_deletions_removeTombstone :
    key ∈ ((removeTombstone other).run delta).deletions ↔ key ≠ other ∧ key ∈ delta.deletions :=
  AList.mem_erase

/-- The other edges stay as they are. -/
theorem mem_insertions_of_ne (different : key ≠ op.key) :
    key ∈ (op.run delta).insertions ↔ key ∈ delta.insertions := by
  cases op <;> simp_all [MapOp.key]

theorem mem_deletions_of_ne (different : key ≠ op.key) :
    key ∈ (op.run delta).deletions ↔ key ∈ delta.deletions := by
  cases op <;> simp_all [MapOp.key]

end Membership

end MapOp

/-- A call of `insert` or of `delete`. -/
inductive EdgeWrite where
  | insert (source target : ℕ) (data : EdgeData)
  | delete (source target : ℕ)

namespace EdgeWrite

/-- The edge that the call is about. -/
def key : EdgeWrite → EdgeKey
  | insert source target _ => (source, target)
  | delete source target => (source, target)

/-- The call among those that change a delta layer. -/
def toDeltaOp : EdgeWrite → DeltaOp
  | insert source target data => .insert source target data
  | delete source target => .delete source target

/-- Its first operation takes the edge out of the other map. -/
def first : EdgeWrite → MapOp
  | insert source target _ => .removeTombstone (source, target)
  | delete source target => .removeInsertion (source, target)

/-- Its second operation puts the edge into its own map. -/
def second : EdgeWrite → MapOp
  | insert source target data => .putInsertion (source, target) data
  | delete source target => .putTombstone (source, target)

/-- Whether the edge is there after the call. -/
def Adds : EdgeWrite → Prop
  | insert _ _ _ => True
  | delete _ _ => False

/-- The first operation is done: the other map does not have the edge. -/
def Ready (delta : DeltaLayer) : EdgeWrite → Prop
  | insert source target _ => (source, target) ∉ delta.deletions
  | delete source target => (source, target) ∉ delta.insertions

@[simp] theorem key_first (write : EdgeWrite) : write.first.key = write.key := by
  cases write <;> rfl

@[simp] theorem key_second (write : EdgeWrite) : write.second.key = write.key := by
  cases write <;> rfl

/-- The first operation keeps the halves of the delta layer disjoint. -/
theorem disjoint_first {delta : DeltaLayer} (disjoint : delta.Disjoint) (write : EdgeWrite) :
    (write.first.run delta).Disjoint ∧ write.Ready (write.first.run delta) := by
  cases write with
  | insert source target data =>
    refine ⟨fun key inserted deleted => ?_, fun deleted => ?_⟩
    · exact disjoint key inserted ((MapOp.mem_deletions_removeTombstone ..).mp deleted).2
    · exact ((MapOp.mem_deletions_removeTombstone ..).mp deleted).1 rfl
  | delete source target =>
    refine ⟨fun key inserted deleted => ?_, fun inserted => ?_⟩
    · exact disjoint key ((MapOp.mem_insertions_removeInsertion ..).mp inserted).2 deleted
    · exact ((MapOp.mem_insertions_removeInsertion ..).mp inserted).1 rfl

/-- So does the second operation when the first one is done. -/
theorem disjoint_second {delta : DeltaLayer} {write : EdgeWrite} (disjoint : delta.Disjoint)
    (ready : write.Ready delta) : (write.second.run delta).Disjoint := by
  cases write with
  | insert source target data =>
    intro key inserted
    rcases (MapOp.mem_insertions_putInsertion ..).mp inserted with rfl | old
    · exact ready
    · exact disjoint key old
  | delete source target =>
    intro key inserted deleted
    rcases (MapOp.mem_deletions_putTombstone ..).mp deleted with rfl | old
    · exact ready inserted
    · exact disjoint key inserted old

/-- **The two operations, one after the other, are the call.** -/
theorem run_second_first (write : EdgeWrite) (delta : DeltaLayer) :
    write.second.run (write.first.run delta) = delta.apply write.toDeltaOp := by
  cases write with
  | insert source target data => rfl
  | delete source target => rfl

end EdgeWrite

namespace DeltaLayer

/-- The operations with which a drain of the tombstones ends. -/
def tombstoneRemovals (self : DeltaLayer) : List MapOp :=
  self.snapshotDeletions.map .removeTombstone

/-- The operations with which a drain of the insertions ends. -/
def insertionRemovals (self : DeltaLayer) : List MapOp :=
  self.snapshotInsertions.map fun entry => .removeInsertion entry.1

/-- **A drain of the tombstones removes the keys of its snapshot.** -/
theorem drainDeletions_eq_runAll (self : DeltaLayer) :
    self.drainDeletions = (self.snapshotDeletions, MapOp.runAll self.tombstoneRemovals self) := by
  suffices general : ∀ (keys : List EdgeKey) (delta : DeltaLayer),
      MapOp.runAll (keys.map .removeTombstone) delta =
        { delta with deletions := keys.foldl (fun map key => map.erase key) delta.deletions } by
    rw [tombstoneRemovals, general]
    rfl
  intro keys
  induction keys with
  | nil => exact fun delta => rfl
  | cons key rest ih =>
      intro delta
      exact ih (MapOp.run delta (.removeTombstone key))

/-- **A drain of the insertions removes the keys of its snapshot.** -/
theorem drainInsertions_eq_runAll (self : DeltaLayer) :
    self.drainInsertions =
      (self.snapshotInsertions, MapOp.runAll self.insertionRemovals self) := by
  suffices general : ∀ (entries : List (EdgeKey × EdgeData)) (delta : DeltaLayer),
      MapOp.runAll (entries.map fun entry => .removeInsertion entry.1) delta =
        { delta with
          insertions := entries.foldl (fun map entry => map.erase entry.1) delta.insertions } by
    rw [insertionRemovals, general]
    rfl
  intro entries
  induction entries with
  | nil => exact fun delta => rfl
  | cons entry rest ih =>
      intro delta
      exact ih (MapOp.run delta (.removeInsertion entry.1))

/-- All removals of a drain of the tombstones leave none. -/
theorem runAll_tombstoneRemovals (self : DeltaLayer) :
    MapOp.runAll self.tombstoneRemovals self = { self with deletions := ∅ } :=
  congrArg Prod.snd (self.drainDeletions_eq_runAll.symm.trans self.drainDeletions_eq)

/-- All removals of a drain of the insertions leave none. -/
theorem runAll_insertionRemovals (self : DeltaLayer) :
    MapOp.runAll self.insertionRemovals self = { self with insertions := ∅ } :=
  congrArg Prod.snd (self.drainInsertions_eq_runAll.symm.trans self.drainInsertions_eq)

end DeltaLayer

end FusionGraph
