import FusionGraph.Core.BaseLayer
import FusionGraph.Core.DeltaSteps
import Mathlib.Data.List.Infix

/-!
# Reading a delta layer beside writers

A hash map is kept in parts, and a call that lists or measures it reads one part after the
other. Writers change it between these reads, so the call sees the map at no single moment.

`HasAlways` and `ListsSometime` are the edges that a graph has at every moment of some
writes and those that it lists at some moment. What one moment says about them is `Sees`;
the proofs about a reader use nothing else, since later moments only narrow the first
relation and widen the second.
-/

set_option autoImplicit false

namespace FusionGraph

/-! ## The parts of the hash maps -/

/-- A hash map keeps its keys in parts, and is read one part at a time. -/
structure MapParts where
  count : ℕ
  part : EdgeKey → ℕ
  inside : ∀ key, part key < count

/-- The two hash maps of a delta layer. -/
inductive DeltaHalf where
  | insertions
  | deletions

namespace DeltaLayer

/-- The keys of a half that are in the given part, in iteration order. -/
def keysIn (self : DeltaLayer) (parts : DeltaHalf → MapParts) (half : DeltaHalf) (part : ℕ) :
    List EdgeKey :=
  (match half with
    | .insertions => self.insertions.keys
    | .deletions => self.deletions.keys).filter fun key => decide ((parts half).part key = part)

/-- The targets inserted for a source in the given part, in iteration order. -/
def neighborsIn (self : DeltaLayer) (parts : DeltaHalf → MapParts) (source part : ℕ) : List ℕ :=
  (self.keysIn parts .insertions part).filterMap fun key =>
    if key.1 = source then some key.2 else none

/-- The insertions in the given part, in iteration order. -/
def insertionsIn (self : DeltaLayer) (parts : DeltaHalf → MapParts) (part : ℕ) :
    List (EdgeKey × EdgeData) :=
  self.snapshotInsertions.filter fun entry => decide ((parts .insertions).part entry.1 = part)

variable {delta : DeltaLayer} {parts : DeltaHalf → MapParts} {part : ℕ} {key : EdgeKey}

theorem mem_keysIn_insertions : key ∈ delta.keysIn parts .insertions part ↔
    key ∈ delta.insertions ∧ (parts .insertions).part key = part := by
  rw [keysIn, List.mem_filter, decide_eq_true_iff, AList.mem_keys]

theorem mem_keysIn_deletions : key ∈ delta.keysIn parts .deletions part ↔
    key ∈ delta.deletions ∧ (parts .deletions).part key = part := by
  rw [keysIn, List.mem_filter, decide_eq_true_iff]
  rfl

theorem mem_neighborsIn {source target : ℕ} : target ∈ delta.neighborsIn parts source part ↔
    (source, target) ∈ delta.insertions ∧ (parts .insertions).part (source, target) = part := by
  rw [neighborsIn, List.mem_filterMap, ← mem_keysIn_insertions]
  constructor
  · rintro ⟨key, member, same⟩
    obtain ⟨here, found⟩ := Option.ite_none_right_eq_some.mp same
    obtain rfl : key = (source, target) := Prod.ext here (Option.some.inj found)
    exact member
  · exact fun member => ⟨(source, target), member, if_pos rfl⟩

theorem mem_map_insertionsIn : key ∈ (delta.insertionsIn parts part).map Prod.fst ↔
    key ∈ delta.insertions ∧ (parts .insertions).part key = part := by
  have listed : key ∈ delta.insertions ↔ ∃ entry ∈ delta.snapshotInsertions, entry.1 = key := by
    rw [AList.mem_keys, ← map_fst_snapshotInsertions, List.mem_map]
  rw [insertionsIn, List.mem_map, listed]
  constructor
  · rintro ⟨entry, member, rfl⟩
    obtain ⟨snapshot, here⟩ := List.mem_filter.mp member
    exact ⟨⟨entry, snapshot, rfl⟩, of_decide_eq_true here⟩
  · rintro ⟨⟨entry, snapshot, rfl⟩, here⟩
    exact ⟨entry, List.mem_filter.mpr ⟨snapshot, decide_eq_true here⟩, rfl⟩

end DeltaLayer

/-! ## The moments of a run -/

/-- The delta layer is that of some moment: the layer at the start, or the layer after some
of the writes. -/
def AtSomeMoment (start : DeltaLayer) (writes : List MapOp) (delta : DeltaLayer) : Prop :=
  ∃ front, front <+: writes ∧ delta = MapOp.runAll front start

/-- The graph has the edge at every moment. -/
def CsrGraph.HasAlways (graph : CsrGraph) (start : DeltaLayer) (writes : List MapOp)
    (source target : ℕ) : Prop :=
  ∀ delta, AtSomeMoment start writes delta →
    (graph.withDelta delta).hasEdge source target = .ok true

/-- The graph lists the target among the neighbors of the source at some moment. -/
def CsrGraph.ListsSometime (graph : CsrGraph) (start : DeltaLayer) (writes : List MapOp)
    (source target : ℕ) : Prop :=
  ∃ delta, AtSomeMoment start writes delta ∧
    ∃ neighbors, (graph.withDelta delta).neighbors source = .ok neighbors ∧ target ∈ neighbors

section Moments

variable {graph : CsrGraph} {base : BaseLayer} {start delta : DeltaLayer}
  {writes more : List MapOp} {u w : ℕ}

theorem AtSomeMoment.now : AtSomeMoment start writes (MapOp.runAll writes start) :=
  ⟨writes, List.prefix_refl _, rfl⟩

/-- Without writes there is one moment. -/
theorem atSomeMoment_nil : AtSomeMoment start [] delta ↔ delta = start := by
  constructor
  · rintro ⟨front, early, rfl⟩
    rw [List.prefix_nil.mp early]
    rfl
  · rintro rfl
    exact .now

theorem AtSomeMoment.later (goesOn : writes <+: more) (moment : AtSomeMoment start writes delta) :
    AtSomeMoment start more delta := by
  obtain ⟨front, early, same⟩ := moment
  exact ⟨front, early.trans goesOn, same⟩

theorem CsrGraph.HasAlways.earlier (goesOn : writes <+: more)
    (stays : graph.HasAlways start more u w) : graph.HasAlways start writes u w :=
  fun delta moment => stays delta (moment.later goesOn)

theorem CsrGraph.ListsSometime.later (goesOn : writes <+: more)
    (listed : graph.ListsSometime start writes u w) : graph.ListsSometime start more u w := by
  obtain ⟨delta, moment, edge⟩ := listed
  exact ⟨delta, moment.later goesOn, edge⟩

/-- `has_edge` asks for the tombstone first. -/
theorem CsrGraph.Stores.hasEdge_iff (stores : graph.Stores base) :
    (graph.withDelta delta).hasEdge u w = .ok true ↔
      (u, w) ∉ delta.deletions ∧ w ∈ base.merged delta u := by
  have row := (stores.withDelta delta).neighbors_eq u
  change (graph.withDelta delta).neighbors u = .ok (base.merged delta u) at row
  have layer : (graph.withDelta delta).delta = delta := rfl
  rw [CsrGraph.hasEdge, layer]
  by_cases deleted : (u, w) ∈ delta.deletions
  · simp [deleted]
  · by_cases inserted : (u, w) ∈ delta.insertions
    · have member : w ∈ base.merged delta u := BaseLayer.mem_merged.mpr (.inr inserted)
      simp [deleted, inserted, member]
    · simp [deleted, inserted, row]

/-- At the moment of this delta layer, the edges that always are there are there, and those
that are listed are there sometimes. -/
structure Sees (base : BaseLayer) (always sometimes : ℕ → ℕ → Prop) (delta : DeltaLayer) :
    Prop where
  present : ∀ u w, always u w → (u, w) ∉ delta.deletions ∧ w ∈ base.merged delta u
  listed : ∀ u w, w ∈ base.merged delta u → sometimes u w

/-- The two relations lie around each moment of the run. -/
theorem AtSomeMoment.sees (stores : graph.Stores base) (moment : AtSomeMoment start writes delta) :
    Sees base (graph.HasAlways start writes) (graph.ListsSometime start writes) delta where
  present _ _ stays := stores.hasEdge_iff.mp (stays delta moment)
  listed u _ member := ⟨delta, moment, _, (stores.withDelta delta).neighbors_eq u, member⟩

namespace Sees

variable {always sometimes : ℕ → ℕ → Prop}

/-- An edge that always is there is a base edge, where it is not inserted. -/
theorem target_of_notMem (sees : Sees base always sometimes delta) (stays : always u w)
    (missing : (u, w) ∉ delta.insertions) : w ∈ base.targets u := by
  obtain ⟨-, member⟩ := sees.present u w stays
  exact ((BaseLayer.mem_merged.mp member).resolve_right missing).1

theorem listed_of_target (sees : Sees base always sometimes delta) (target : w ∈ base.targets u)
    (live : (u, w) ∉ delta.deletions) : sometimes u w :=
  sees.listed u w (BaseLayer.mem_merged.mpr (.inl ⟨target, live⟩))

theorem listed_of_inserted (sees : Sees base always sometimes delta)
    (inserted : (u, w) ∈ delta.insertions) : sometimes u w :=
  sees.listed u w (BaseLayer.mem_merged.mpr (.inr inserted))

end Sees

/-- The targets of the edges that a graph lists at some moment are finitely many. -/
theorem CsrGraph.Stores.mem_of_listsSometime (stores : graph.Stores base)
    (listed : graph.ListsSometime start writes u w) :
    w ∈ List.range base.rows.length ++ writes.inits.flatMap fun front =>
      (MapOp.runAll front start).insertions.keys.map Prod.snd := by
  obtain ⟨delta, ⟨front, early, rfl⟩, neighbors, row, member⟩ := listed
  rw [(stores.withDelta _).neighbors_eq] at row
  obtain rfl := Except.ok.inj row
  rcases BaseLayer.mem_merged.mp member with ⟨target, -⟩ | inserted
  · exact List.mem_append_left _ (List.mem_range.mpr (BaseLayer.target_lt target))
  · refine List.mem_append_right _ (List.mem_flatMap.mpr ⟨front, ?_, ?_⟩)
    · exact (List.mem_inits front writes).mpr early
    · exact List.mem_map.mpr ⟨(u, w), AList.mem_keys.mpr inserted, rfl⟩

end Moments

end FusionGraph
