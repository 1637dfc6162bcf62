import FusionGraph.Core.Types
import Mathlib.Data.List.AList

/-!
# The delta layer

The delta layer holds the edge mutations that are not yet part of the base
storage: a map of inserted edges and a set of tombstones. Both are concurrent
hash maps in the code; here each is a finite map whose entries are listed in
some order, and that order stands for the iteration order of the hash map,
which nothing fixes. `DeltaLayer.SameEntries` relates two layers that differ in
it only.

The calls `insert` and `delete` keep the two halves disjoint when they run one
after the other (`DeltaLayer.Disjoint.apply`). A drain returns all of its half
and leaves it empty (`DeltaLayer.drainInsertions_eq`, `DeltaLayer.drainDeletions_eq`).
-/

set_option autoImplicit false

namespace FusionGraph

/-- A hash map from edges: its keys are distinct, its order is arbitrary. -/
abbrev EdgeMap (V : Type) := AList (fun _ : EdgeKey => V)

/-- Edge mutations that are not yet compacted into the base layer. -/
structure DeltaLayer where
  /-- New edges not yet compacted into the base layer. -/
  insertions : EdgeMap EdgeData
  /-- Tombstones for deleted edges. -/
  deletions : EdgeMap Unit

namespace DeltaLayer

/-- Creates a new empty delta layer. -/
def new : DeltaLayer where
  insertions := ∅
  deletions := ∅

/-- Inserts an edge: removes any tombstone, then stores the edge. -/
def insert (self : DeltaLayer) (source target : ℕ) (data : EdgeData) : DeltaLayer where
  deletions := self.deletions.erase (source, target)
  insertions := self.insertions.insert (source, target) data

/-- Deletes an edge: removes any insertion, then stores a tombstone. -/
def delete (self : DeltaLayer) (source target : ℕ) : DeltaLayer where
  insertions := self.insertions.erase (source, target)
  deletions := self.deletions.insert (source, target) ()

/-- Whether the edge has a tombstone. -/
def isDeleted (self : DeltaLayer) (source target : ℕ) : Bool :=
  decide ((source, target) ∈ self.deletions)

/-- Whether the edge exists in the insertion map. -/
def hasInsertion (self : DeltaLayer) (source target : ℕ) : Bool :=
  decide ((source, target) ∈ self.insertions)

/-- The targets inserted for a source, in iteration order. -/
def neighbors (self : DeltaLayer) (source : ℕ) : List ℕ :=
  self.insertions.keys.filterMap fun key => if key.1 = source then some key.2 else none

/-- The total number of entries. -/
def len (self : DeltaLayer) : ℕ := self.insertions.entries.length + self.deletions.entries.length

/-- Whether both halves are empty. -/
def isEmpty (self : DeltaLayer) : Bool :=
  self.insertions.entries.isEmpty && self.deletions.entries.isEmpty

/-- Removes every entry. -/
def clear (_self : DeltaLayer) : DeltaLayer where
  insertions := ∅
  deletions := ∅

/-- All insertions, in iteration order. -/
def snapshotInsertions (self : DeltaLayer) : List (EdgeKey × EdgeData) :=
  self.insertions.entries.map fun entry => (entry.1, entry.2)

/-- All tombstones, in iteration order. -/
def snapshotDeletions (self : DeltaLayer) : List EdgeKey := self.deletions.keys

/-- Reads all insertions and removes them one key at a time. -/
def drainInsertions (self : DeltaLayer) : List (EdgeKey × EdgeData) × DeltaLayer :=
  let entries := self.snapshotInsertions
  (entries,
    { self with
      insertions := entries.foldl (fun map entry => map.erase entry.1) self.insertions })

/-- Reads all tombstones and removes them one key at a time. -/
def drainDeletions (self : DeltaLayer) : List EdgeKey × DeltaLayer :=
  let entries := self.snapshotDeletions
  (entries,
    { self with deletions := entries.foldl (fun map key => map.erase key) self.deletions })

end DeltaLayer

/-- A call that changes a delta layer. -/
inductive DeltaOp where
  | insert (source target : ℕ) (data : EdgeData)
  | delete (source target : ℕ)
  | clear

/-- The effect of one call. -/
def DeltaLayer.apply (self : DeltaLayer) : DeltaOp → DeltaLayer
  | .insert source target data => self.insert source target data
  | .delete source target => self.delete source target
  | .clear => self.clear

namespace DeltaLayer

/-! ## Membership after each call -/

section Membership

variable (self : DeltaLayer) (source target : ℕ) (data : EdgeData) (key : EdgeKey)

@[simp] theorem notMem_insertions_new : key ∉ new.insertions := AList.notMem_empty key

@[simp] theorem notMem_deletions_new : key ∉ new.deletions := AList.notMem_empty key

@[simp] theorem notMem_deletions_clear : key ∉ self.clear.deletions := AList.notMem_empty key

@[simp] theorem mem_insertions_insert :
    key ∈ (self.insert source target data).insertions ↔
      key = (source, target) ∨ key ∈ self.insertions :=
  AList.mem_insert _

@[simp] theorem mem_deletions_insert :
    key ∈ (self.insert source target data).deletions ↔
      key ≠ (source, target) ∧ key ∈ self.deletions :=
  AList.mem_erase

@[simp] theorem mem_insertions_delete :
    key ∈ (self.delete source target).insertions ↔
      key ≠ (source, target) ∧ key ∈ self.insertions :=
  AList.mem_erase

@[simp] theorem mem_deletions_delete :
    key ∈ (self.delete source target).deletions ↔
      key = (source, target) ∨ key ∈ self.deletions :=
  AList.mem_insert _

@[simp] theorem isDeleted_eq_true :
    self.isDeleted source target = true ↔ (source, target) ∈ self.deletions :=
  decide_eq_true_iff

@[simp] theorem hasInsertion_eq_true :
    self.hasInsertion source target = true ↔ (source, target) ∈ self.insertions :=
  decide_eq_true_iff

@[simp] theorem mem_neighbors : target ∈ self.neighbors source ↔
    (source, target) ∈ self.insertions := by
  simp only [neighbors, List.mem_filterMap, AList.mem_keys]
  constructor
  · rintro ⟨key, member, found⟩
    by_cases same : key.1 = source
    · simp only [same, if_true, Option.some.injEq] at found
      rwa [← same, ← found]
    · simp [same] at found
  · intro member
    exact ⟨(source, target), member, by simp⟩

@[simp] theorem mem_snapshotDeletions : key ∈ self.snapshotDeletions ↔ key ∈ self.deletions :=
  AList.mem_keys.symm

theorem map_fst_snapshotInsertions :
    self.snapshotInsertions.map Prod.fst = self.insertions.keys := by
  simp only [snapshotInsertions, List.map_map, AList.keys, List.keys]
  rfl

end Membership

/-- The targets inserted for one source are distinct. -/
theorem neighbors_nodup (self : DeltaLayer) (source : ℕ) : (self.neighbors source).Nodup := by
  refine List.Nodup.filterMap ?_ self.insertions.keys_nodup
  intro first second target inFirst inSecond
  by_cases left : first.1 = source
  · by_cases right : second.1 = source
    · simp only [left, if_true, Option.mem_some_iff] at inFirst
      simp only [right, if_true, Option.mem_some_iff] at inSecond
      exact Prod.ext (left.trans right.symm) (inFirst.trans inSecond.symm)
    · simp [right] at inSecond
  · simp [left] at inFirst

/-- A layer is empty when neither half has an edge. -/
theorem isEmpty_eq_true (self : DeltaLayer) :
    self.isEmpty = true ↔ self.insertions = ∅ ∧ self.deletions = ∅ := by
  simp [isEmpty, List.isEmpty_iff, AList.ext_iff]

@[simp] theorem isEmpty_new : new.isEmpty = true := rfl

theorem eq_new_of_isEmpty {self : DeltaLayer} (empty : self.isEmpty = true) : self = new := by
  obtain ⟨insertions, deletions⟩ := self.isEmpty_eq_true.mp empty
  cases self
  simp_all [new]

/-! ## Draining -/

/-- Erasing keys one after the other leaves the keys that were not erased. -/
theorem mem_foldl_erase {V : Type} (keys : List EdgeKey) (map : EdgeMap V) (key : EdgeKey) :
    key ∈ keys.foldl (fun map key => map.erase key) map ↔ key ∉ keys ∧ key ∈ map := by
  induction keys generalizing map with
  | nil => simp
  | cons first rest ih =>
      simp only [List.foldl_cons, ih, AList.mem_erase, List.mem_cons, not_or]
      tauto

/-- A map without keys is the empty map. -/
theorem eq_empty_of_forall_notMem {V : Type} {map : EdgeMap V} (none : ∀ key, key ∉ map) :
    map = ∅ := by
  refine AList.ext (List.eq_nil_iff_forall_not_mem.mpr fun entry member => none entry.1 ?_)
  exact AList.mem_keys.mpr (List.mem_map.mpr ⟨entry, member, rfl⟩)

/-- A drain of the tombstones returns all of them and leaves none. -/
theorem drainDeletions_eq (self : DeltaLayer) :
    self.drainDeletions = (self.snapshotDeletions, { self with deletions := ∅ }) := by
  have emptied : self.snapshotDeletions.foldl (fun map key => map.erase key) self.deletions = ∅ :=
    eq_empty_of_forall_notMem fun key member => by
      rw [mem_foldl_erase, mem_snapshotDeletions] at member
      exact member.1 member.2
  simp only [drainDeletions, emptied]

/-- A drain of the insertions returns all of them and leaves none. -/
theorem drainInsertions_eq (self : DeltaLayer) :
    self.drainInsertions = (self.snapshotInsertions, { self with insertions := ∅ }) := by
  have emptied : self.snapshotInsertions.foldl (fun map entry => map.erase entry.1)
      self.insertions = ∅ := by
    have keyed : (self.snapshotInsertions.map Prod.fst).foldl
        (fun (map : EdgeMap EdgeData) (key : EdgeKey) => map.erase key) self.insertions =
          self.snapshotInsertions.foldl (fun map entry => map.erase entry.1) self.insertions :=
      List.foldl_map
    rw [← keyed, map_fst_snapshotInsertions]
    refine eq_empty_of_forall_notMem fun key member => ?_
    rw [mem_foldl_erase, ← AList.mem_keys] at member
    exact member.1 member.2
  simp only [drainInsertions, emptied]

/-- A call adds at most one insertion. -/
theorem length_insertions_apply (self : DeltaLayer) (op : DeltaOp) :
    (self.apply op).insertions.entries.length ≤ self.insertions.entries.length + 1 := by
  cases op with
  | insert source target data =>
      simp only [DeltaLayer.apply, insert, AList.entries_insert, List.length_cons]
      exact Nat.succ_le_succ (List.kerase_sublist _ _).length_le
  | delete source target =>
      exact Nat.le_succ_of_le (List.kerase_sublist _ _).length_le
  | clear => exact Nat.zero_le _

/-! ## The two halves stay disjoint -/

/-- No edge is both inserted and deleted. -/
def Disjoint (self : DeltaLayer) : Prop := ∀ key, key ∈ self.insertions → key ∉ self.deletions

theorem Disjoint.new : Disjoint new := fun key _ => notMem_deletions_new key

/-- **Every call keeps insertions and tombstones disjoint.** -/
theorem Disjoint.apply {self : DeltaLayer} (disjoint : self.Disjoint) (op : DeltaOp) :
    (self.apply op).Disjoint := by
  intro key
  cases op with
  | insert source target data =>
      have apart := disjoint key
      simp only [DeltaLayer.apply, mem_insertions_insert, mem_deletions_insert]
      tauto
  | delete source target =>
      have apart := disjoint key
      simp only [DeltaLayer.apply, mem_insertions_delete, mem_deletions_delete]
      tauto
  | clear => exact fun _ => notMem_deletions_clear self key

/-! ## Layers that differ in their iteration order only -/

/-- Two layers with the same entries, iterated in any order. -/
structure SameEntries (first second : DeltaLayer) : Prop where
  insertions : first.insertions.entries.Perm second.insertions.entries
  deletions : first.deletions.entries.Perm second.deletions.entries

theorem SameEntries.disjoint {first second : DeltaLayer} (same : first.SameEntries second)
    (disjoint : first.Disjoint) : second.Disjoint := by
  intro key inserted deleted
  exact disjoint key ((AList.mem_of_perm same.insertions).mpr inserted)
    ((AList.mem_of_perm same.deletions).mpr deleted)

end DeltaLayer

end FusionGraph
