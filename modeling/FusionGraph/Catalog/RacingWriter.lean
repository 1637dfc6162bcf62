import FusionGraph.Catalog.Concurrent
import FusionGraph.Catalog.Replay

/-!
# A writer beside a compaction

A writer that has taken the graph of a name from the catalog goes on writing to
its delta layer while the graph is compacted. `CompactionCall.Live` says of one
edge whether it will be live in the graph that the name is bound to in the end,
if the writer does nothing more: no step of the compaction changes it, and a
write gives its edge the value that it should have unless the write comes at a
moment at which the compaction no longer looks (`CompactionCall.Sees`).

So no data is lost when the last write to every edge is seen and the rebuild does
not fail (`racing_writer_loses_nothing`). A write that comes after the last look
at its map is lost (`late_write_is_lost`).
-/

set_option autoImplicit false

namespace FusionGraph

open Foundations

/-! ## The writer -/

/-- A thread that gets the graph of the name and then writes to its delta layer. A
write whose first operation is done is pending. -/
structure WriterThread where
  graph : Option GraphRef
  pending : Option EdgeWrite
  todo : List EdgeWrite

namespace WriterThread

variable {Dictionary : Type}

/-- One step of the writer. -/
def step (name : String) (catalog : GraphCatalog Dictionary) (writer : WriterThread) :
    GraphCatalog Dictionary × WriterThread :=
  match writer.graph, writer.pending, writer.todo with
  | none, _, _ => (catalog, { writer with graph := catalog.get name })
  | some ref, some write, _ =>
    (catalog.updateDelta ref write.second.run, { writer with pending := none })
  | some ref, none, write :: rest =>
    (catalog.updateDelta ref write.first.run, { writer with pending := some write, todo := rest })
  | some _, none, [] => (catalog, writer)

/-- The writes that are not complete. -/
def remaining (writer : WriterThread) : List EdgeWrite := writer.pending.toList ++ writer.todo

end WriterThread

/-- The value that the last write gives to an edge: whether it is there. -/
def EdgeWrite.last (key : EdgeKey) (writes : List EdgeWrite) : Option Bool :=
  writes.foldl (fun found write => match write with
    | insert source target _ => if (source, target) = key then some true else found
    | delete source target => if (source, target) = key then some false else found) none

/-! ## The race -/

/-- A compaction and a writer on one catalog. -/
structure RacingState (Dictionary : Type) where
  catalog : GraphCatalog Dictionary
  compaction : CompactionCall
  writer : WriterThread

/-- Who takes the next step. The iteration order of the maps of a graph may change
between two steps. -/
inductive RacingAction where
  | compactor
  | writer
  | reorder (ref : GraphRef) (order : DeltaLayer)

namespace RacingState

variable {Dictionary : Type}

/-- Neither thread has taken a step. -/
def start (catalog : GraphCatalog Dictionary) (writes : List EdgeWrite) :
    RacingState Dictionary where
  catalog := catalog
  compaction := .lookup
  writer := { graph := none, pending := none, todo := writes }

/-- One step. -/
def step (name : String) (policy : CompactionPolicy) (state : RacingState Dictionary) :
    RacingAction → RacingState Dictionary
  | .compactor =>
    let (catalog, compaction) := state.compaction.step .keyByKey name policy state.catalog
    { state with catalog := catalog, compaction := compaction }
  | .writer =>
    let (catalog, writer) := state.writer.step name state.catalog
    { state with catalog := catalog, writer := writer }
  | .reorder ref order => { state with catalog := state.catalog.updateDelta ref fun _ => order }

/-- Both threads have finished. -/
structure Finished (state : RacingState Dictionary) : Prop where
  compaction : ∃ result, state.compaction = .done result
  writer : state.writer.remaining = []

end RacingState

namespace RacingAction

variable {Dictionary : Type}

/-- The writer takes no step after the compaction has bound the name, and an
iteration order is one of the same entries. -/
def Possible (state : RacingState Dictionary) : RacingAction → Prop
  | compactor => True
  | writer => state.compaction ≠ .done (.ok true)
  | reorder ref order => (state.catalog.graphs ref).delta.SameEntries order

end RacingAction

/-- The compaction still sees a write that puts its edge now. -/
def CompactionCall.Sees (graph : CsrGraph) (write : EdgeWrite) : CompactionCall → Prop
  | running _ _ (.drainInsertions deletions) =>
    write.Adds → ¬ (graph.BaseHas write.key ∧ write.key ∈ deletions)
  | running _ removals (.rebuild deletions _) =>
    write.Adds → .removeInsertion write.key ∈ removals →
      ¬ (graph.BaseHas write.key ∧ write.key ∈ deletions)
  | running _ _ (.replayDeletions compacted) => write.Adds → compacted.Has write.key
  | running _ _ (.swap compacted) => compacted.Has write.key ↔ write.Adds
  | _ => True

/-- The last write to an edge is seen, and the rebuild succeeds. -/
def RacingAction.Keeps {Dictionary : Type} (state : RacingState Dictionary) : RacingAction → Prop
  | compactor => ∀ entry deletions insertions,
      state.compaction = .running entry [] (.rebuild deletions insertions) →
      (state.catalog.graphs (state.catalog.entries entry).forward).FitsRebuild deletions insertions
  | writer => ∀ ref write, state.writer.graph = some ref → state.writer.pending = some write →
      (∀ later ∈ state.writer.todo, later.key ≠ write.key) →
      state.compaction.Sees (state.catalog.graphs ref) write
  | reorder _ _ => True

/-- A possible step that meets a condition on the state before it. -/
def RacingStep {Dictionary : Type} (condition : RacingState Dictionary → RacingAction → Prop)
    (name : String) (policy : CompactionPolicy) (state : RacingState Dictionary)
    (action : RacingAction) (next : RacingState Dictionary) : Prop :=
  action.Possible state ∧ condition state action ∧ next = state.step name policy action

/-! ## What becomes of an edge -/

namespace CompactionCall

/-- The edge is live in the end, if the compaction goes on alone. The graph is the
one that is compacted. -/
def Live (graph : CsrGraph) (key : EdgeKey) : CompactionCall → Prop
  | running _ removals (.drainInsertions deletions) =>
    (key ∈ graph.delta.deletions → .removeTombstone key ∈ removals) ∧
      ((graph.BaseHas key ∧ key ∉ deletions) ∨
        (¬ graph.BaseHas key ∧ key ∈ graph.delta.insertions))
  | running _ removals (.rebuild deletions insertions) =>
    key ∉ graph.delta.deletions ∧
      ((key ∈ graph.delta.insertions ∧ .removeInsertion key ∉ removals) ∨
        (graph.BaseHas key ∧ key ∉ deletions) ∨
        (¬ graph.BaseHas key ∧ key ∈ insertions.map Prod.fst))
  | running _ _ (.replayInsertions compacted) =>
    key ∉ graph.delta.deletions ∧ (key ∈ graph.delta.insertions ∨ compacted.Has key)
  | running _ _ (.replayDeletions compacted) => key ∉ graph.delta.deletions ∧ compacted.Has key
  | running _ _ (.swap compacted) => compacted.Has key
  | _ => graph.Has key

/-- The removals of a drain are those of its phase, and a rebuilt graph is sound. -/
def Shaped : CompactionCall → Prop
  | running _ removals (.drainInsertions deletions) =>
    ∀ op ∈ removals, ∃ key ∈ deletions, op = .removeTombstone key
  | running _ removals (.rebuild _ insertions) =>
    ∀ op ∈ removals, ∃ key ∈ insertions.map Prod.fst, op = .removeInsertion key
  | running _ removals (.replayInsertions compacted) => removals = [] ∧ compacted.Sound
  | running _ removals (.replayDeletions compacted) =>
    (∀ op ∈ removals, ∃ key, op = .removeInsertion key) ∧ compacted.Sound
  | running _ removals (.swap compacted) =>
    (∀ op ∈ removals, ∃ key, op = .removeTombstone key) ∧ compacted.Sound
  | running _ removals _ => removals = []
  | _ => True

/-- The call works on the entry, or has returned without binding the name. -/
def Within (entry : EntryRef) : CompactionCall → Prop
  | lookup => True
  | running found _ _ => found = entry
  | done result => result = .ok false

variable {graph other : CsrGraph} {key : EdgeKey} {call : CompactionCall}

/-- What becomes of an edge depends on what the three maps say about it. -/
theorem live_congr (sound : graph.Sound) (soundOther : other.Sound)
    (base : other.BaseHas key ↔ graph.BaseHas key)
    (insertions : key ∈ other.delta.insertions ↔ key ∈ graph.delta.insertions)
    (deletions : key ∈ other.delta.deletions ↔ key ∈ graph.delta.deletions) :
    call.Live other key ↔ call.Live graph key := by
  have has : other.Has key ↔ graph.Has key := by
    rw [soundOther.has_iff, sound.has_iff, base, insertions, deletions]
  cases call with
  | lookup => exact has
  | done result => exact has
  | running entry removals phase =>
    cases phase <;> simp only [Live, base, insertions, deletions, has]

/-- Removing an insertion or a tombstone keeps a graph sound. -/
theorem sound_removeInsertion (sound : graph.Sound) (key : EdgeKey) :
    (graph.withDelta (MapOp.run graph.delta (.removeInsertion key))).Sound :=
  sound.withDelta fun other inserted => by
    rw [MapOp.deletions_removeInsertion]
    exact sound.disjoint other ((MapOp.mem_insertions_removeInsertion ..).mp inserted).2

theorem sound_removeTombstone (sound : graph.Sound) (key : EdgeKey) :
    (graph.withDelta (MapOp.run graph.delta (.removeTombstone key))).Sound :=
  sound.withDelta fun other inserted deleted =>
    sound.disjoint other inserted ((MapOp.mem_deletions_removeTombstone ..).mp deleted).2

/-- A step of a compaction that removes at most what it has read and changes no edge. -/
structure Continues (graph next : CsrGraph) (call moved : CompactionCall) : Prop where
  sound : next.Sound
  insertions : ∀ key ∈ next.delta.insertions, key ∈ graph.delta.insertions
  deletions : ∀ key ∈ next.delta.deletions, key ∈ graph.delta.deletions
  shaped : moved.Shaped
  live : ∀ key, moved.Live next key ↔ call.Live graph key

theorem Continues.of_same {moved : CompactionCall} (sound : graph.Sound) (shaped : moved.Shaped)
    (live : ∀ key, moved.Live graph key ↔ call.Live graph key) :
    Continues graph graph call moved :=
  ⟨sound, fun _ member => member, fun _ member => member, shaped, live⟩

theorem Continues.of_removeInsertion {moved : CompactionCall} (sound : graph.Sound) (key : EdgeKey)
    (shaped : moved.Shaped)
    (live : ∀ other, moved.Live
      (graph.withDelta (MapOp.run graph.delta (.removeInsertion key))) other ↔
        call.Live graph other) :
    Continues graph (graph.withDelta (MapOp.run graph.delta (.removeInsertion key))) call moved where
  sound := sound_removeInsertion sound key
  insertions _ member := ((MapOp.mem_insertions_removeInsertion ..).mp member).2
  deletions _ member := member
  shaped := shaped
  live := live

theorem Continues.of_removeTombstone {moved : CompactionCall} (sound : graph.Sound) (key : EdgeKey)
    (shaped : moved.Shaped)
    (live : ∀ other, moved.Live
      (graph.withDelta (MapOp.run graph.delta (.removeTombstone key))) other ↔
        call.Live graph other) :
    Continues graph (graph.withDelta (MapOp.run graph.delta (.removeTombstone key))) call moved where
  sound := sound_removeTombstone sound key
  insertions _ member := member
  deletions _ member := ((MapOp.mem_deletions_removeTombstone ..).mp member).2
  shaped := shaped
  live := live

/-- **A removal of a drain changes no edge**: what it removes has been read. -/
theorem continues_removal {entry : EntryRef} {removal : MapOp} {removals : List MapOp}
    {phase : CompactionPhase} (sound : graph.Sound)
    (shaped : (running entry (removal :: removals) phase).Shaped) :
    Continues graph (graph.withDelta (removal.run graph.delta))
      (running entry (removal :: removals) phase) (running entry removals phase) := by
  cases phase with
  | countInsertions => cases shaped
  | countDeletions insertions => cases shaped
  | drainDeletions => cases shaped
  | replayInsertions compacted => cases shaped.1
  | drainInsertions deletions =>
    obtain ⟨removed, drained, rfl⟩ := shaped removal List.mem_cons_self
    refine .of_removeTombstone sound removed
      (fun op member => shaped op (List.mem_cons_of_mem _ member)) fun key => ?_
    simp only [Live, CsrGraph.baseHas_withDelta, CsrGraph.delta_withDelta,
      MapOp.mem_deletions_removeTombstone, MapOp.insertions_removeTombstone, List.mem_cons,
      MapOp.removeTombstone.injEq]
    tauto
  | rebuild deletions insertions =>
    obtain ⟨removed, drained, rfl⟩ := shaped removal List.mem_cons_self
    refine .of_removeInsertion sound removed
      (fun op member => shaped op (List.mem_cons_of_mem _ member)) fun key => ?_
    simp only [Live, CsrGraph.baseHas_withDelta, CsrGraph.delta_withDelta,
      MapOp.deletions_removeInsertion, MapOp.mem_insertions_removeInsertion, List.mem_cons,
      MapOp.removeInsertion.injEq]
    tauto
  | replayDeletions compacted =>
    obtain ⟨removed, rfl⟩ := shaped.1 removal List.mem_cons_self
    exact .of_removeInsertion sound removed
      ⟨fun op member => shaped.1 op (List.mem_cons_of_mem _ member), shaped.2⟩ fun key => Iff.rfl
  | swap compacted =>
    obtain ⟨removed, rfl⟩ := shaped.1 removal List.mem_cons_self
    exact .of_removeTombstone sound removed
      ⟨fun op member => shaped.1 op (List.mem_cons_of_mem _ member), shaped.2⟩ fun key => Iff.rfl

/-- The keys that a snapshot of the insertions lists. -/
theorem mem_map_snapshotInsertions (delta : DeltaLayer) (key : EdgeKey) :
    key ∈ delta.snapshotInsertions.map Prod.fst ↔ key ∈ delta.insertions := by
  rw [delta.map_fst_snapshotInsertions, AList.mem_keys]

theorem mem_insertionRemovals (delta : DeltaLayer) (key : EdgeKey) :
    .removeInsertion key ∈ delta.insertionRemovals ↔ key ∈ delta.insertions := by
  rw [← mem_map_snapshotInsertions, DeltaLayer.insertionRemovals, List.mem_map, List.mem_map]
  simp only [MapOp.removeInsertion.injEq]

theorem mem_tombstoneRemovals (delta : DeltaLayer) (key : EdgeKey) :
    .removeTombstone key ∈ delta.tombstoneRemovals ↔ key ∈ delta.deletions := by
  rw [DeltaLayer.tombstoneRemovals, List.mem_map]
  simp only [MapOp.removeTombstone.injEq, exists_eq_right, DeltaLayer.mem_snapshotDeletions]

section Phases

variable {Dictionary : Type} {catalog : GraphCatalog Dictionary} {entry : EntryRef}

/-- **A phase changes no edge**: what it reads it hands on. -/
theorem continues_phase (name : String) (policy : CompactionPolicy) {phase : CompactionPhase}
    (known : catalog.graphs (catalog.entries entry).forward = graph) (sound : graph.Sound)
    (shaped : (running entry [] phase).Shaped)
    (fits : ∀ deletions insertions, phase = .rebuild deletions insertions →
      graph.FitsRebuild deletions insertions)
    (pending : ∀ compacted, phase ≠ .swap compacted) :
    (stepPhase .keyByKey name policy catalog entry phase).1 = catalog ∧
      (stepPhase .keyByKey name policy catalog entry phase).2.Within entry ∧
      Continues graph graph (running entry [] phase)
        (stepPhase .keyByKey name policy catalog entry phase).2 := by
  cases phase with
  | countInsertions => exact ⟨rfl, rfl, .of_same sound rfl fun key => Iff.rfl⟩
  | countDeletions insertions =>
    simp only [stepPhase, known]
    split
    · exact ⟨rfl, rfl, .of_same sound rfl fun key => Iff.rfl⟩
    · exact ⟨rfl, rfl, .of_same sound trivial fun key => Iff.rfl⟩
  | drainDeletions =>
    simp only [stepPhase, known, drain]
    refine ⟨trivial, rfl, .of_same sound (fun op member => ?_) fun key => ?_⟩
    · obtain ⟨removed, listed, rfl⟩ := List.mem_map.mp member
      exact ⟨removed, listed, rfl⟩
    · have apart := sound.disjoint key
      simp only [Live, mem_tombstoneRemovals, DeltaLayer.mem_snapshotDeletions, sound.has_iff]
      tauto
  | drainInsertions deletions =>
    simp only [stepPhase, known, drain]
    refine ⟨trivial, rfl, .of_same sound (fun op member => ?_) fun key => ?_⟩
    · obtain ⟨drained, listed, rfl⟩ := List.mem_map.mp member
      exact ⟨drained.1, List.mem_map_of_mem listed, rfl⟩
    · simp only [Live, mem_insertionRemovals, mem_map_snapshotInsertions, List.not_mem_nil,
        imp_false]
      tauto
  | rebuild deletions insertions =>
    obtain ⟨compacted, rebuilt⟩ := (fits deletions insertions rfl).rebuild_ok sound
    obtain ⟨soundNew, -, live⟩ := sound.has_rebuild rebuilt
    simp only [stepPhase, known, rebuilt]
    refine ⟨trivial, rfl, .of_same sound ⟨rfl, soundNew⟩ fun key => ?_⟩
    simp only [Live, live, List.not_mem_nil, not_false_eq_true, and_true]
  | replayInsertions compacted =>
    obtain ⟨soundNew, live⟩ := shaped.2.has_replayInsertions graph.delta.snapshotInsertions
    simp only [stepPhase, known, drain]
    refine ⟨trivial, rfl, .of_same sound ⟨fun op member => ?_, soundNew⟩ fun key => ?_⟩
    · obtain ⟨drained, listed, rfl⟩ := List.mem_map.mp member
      exact ⟨drained.1, rfl⟩
    · simp only [Live, live, mem_map_snapshotInsertions]
  | replayDeletions compacted =>
    obtain ⟨soundNew, live⟩ := shaped.2.has_replayDeletions graph.delta.snapshotDeletions
    simp only [stepPhase, known, drain]
    refine ⟨trivial, rfl, .of_same sound ⟨fun op member => ?_, soundNew⟩ fun key => ?_⟩
    · obtain ⟨removed, listed, rfl⟩ := List.mem_map.mp member
      exact ⟨removed, rfl⟩
    · simp only [Live, live, DeltaLayer.mem_snapshotDeletions]
  | swap compacted => exact absurd rfl (pending compacted)

end Phases

/-- **A write that is seen gives its edge its value.** -/
theorem live_second {write : EdgeWrite} (sound : graph.Sound) (shaped : call.Shaped)
    (ready : write.Ready graph.delta) (sees : call.Sees graph write) :
    call.Live (graph.withDelta (write.second.run graph.delta)) write.key ↔ write.Adds := by
  have soundNext := sound.withDelta (EdgeWrite.disjoint_second sound.disjoint ready)
  cases write with
  | insert source target data =>
    have absent : (source, target) ∉ graph.delta.deletions := ready
    have has : (graph.withDelta (EdgeWrite.second (.insert source target data) |>.run
        graph.delta)).Has (source, target) := by
      rw [soundNext.has_iff]
      simp [EdgeWrite.second]
    cases call with
    | lookup => exact iff_of_true has trivial
    | done result => exact iff_of_true has trivial
    | running entry removals phase =>
      refine iff_of_true ?_ trivial
      cases phase with
      | countInsertions => exact has
      | countDeletions insertions => exact has
      | drainDeletions => exact has
      | drainInsertions deletions =>
        have kept := sees trivial
        simp [Live, EdgeWrite.second, EdgeWrite.key, absent] at kept ⊢
        tauto
      | rebuild deletions insertions =>
        have kept := sees trivial
        have listed := shaped (.removeInsertion (source, target))
        simp [Live, EdgeWrite.second, EdgeWrite.key, absent] at kept listed ⊢
        tauto
      | replayInsertions compacted => simp [Live, EdgeWrite.second, EdgeWrite.key, absent]
      | replayDeletions compacted => exact ⟨absent, sees trivial⟩
      | swap compacted => exact sees.mpr trivial
  | delete source target =>
    have absent : (source, target) ∉ graph.delta.insertions := ready
    have dead : ¬ (graph.withDelta (EdgeWrite.second (.delete source target) |>.run
        graph.delta)).Has (source, target) := by
      rw [soundNext.has_iff]
      simp [EdgeWrite.second, absent]
    cases call with
    | lookup => exact iff_of_false dead id
    | done result => exact iff_of_false dead id
    | running entry removals phase =>
      refine iff_of_false ?_ id
      cases phase with
      | countInsertions => exact dead
      | countDeletions insertions => exact dead
      | drainDeletions => exact dead
      | drainInsertions deletions =>
        have listed := shaped (.removeTombstone (source, target))
        simp [Live, EdgeWrite.second, EdgeWrite.key, absent] at listed ⊢
        tauto
      | rebuild deletions insertions => simp [Live, EdgeWrite.second, EdgeWrite.key]
      | replayInsertions compacted => simp [Live, EdgeWrite.second, EdgeWrite.key]
      | replayDeletions compacted => simp [Live, EdgeWrite.second, EdgeWrite.key]
      | swap compacted => exact fun live => sees.mp live

end CompactionCall

/-! ## The last write to an edge -/

namespace EdgeWrite

variable {initial : EdgeKey → Prop} {key : EdgeKey} {writes more : List EdgeWrite}

/-- The edge is there after the writes: as the last of them says, and as before when
none is about it. -/
def Expected (initial : EdgeKey → Prop) (key : EdgeKey) (writes : List EdgeWrite) : Prop :=
  match last key writes with
  | some added => added = true
  | none => initial key

theorem last_concat_self (write : EdgeWrite) :
    (last write.key (writes ++ [write]) = some true ∧ write.Adds) ∨
      (last write.key (writes ++ [write]) = some false ∧ ¬ write.Adds) := by
  cases write with
  | insert source target data => exact .inl ⟨by simp [last, EdgeWrite.key], trivial⟩
  | delete source target => exact .inr ⟨by simp [last, EdgeWrite.key], id⟩

theorem last_concat_of_ne {write : EdgeWrite} (different : write.key ≠ key) :
    last key (writes ++ [write]) = last key writes := by
  cases write with
  | insert source target data => simp_all [last, EdgeWrite.key]
  | delete source target => simp_all [last, EdgeWrite.key]

theorem expected_concat_self (write : EdgeWrite) :
    Expected initial write.key (writes ++ [write]) ↔ write.Adds := by
  rw [Expected]
  rcases @last_concat_self writes write with ⟨found, adds⟩ | ⟨found, removes⟩
  · rw [found]
    exact iff_of_true rfl adds
  · rw [found]
    exact iff_of_false Bool.false_ne_true removes

theorem expected_concat_of_ne {write : EdgeWrite} (different : write.key ≠ key) :
    Expected initial key (writes ++ [write]) ↔ Expected initial key writes := by
  rw [Expected, last_concat_of_ne different, Expected]

end EdgeWrite

/-! ## The invariant of a race -/

section Race

variable {Dictionary : Type} {name : String} {policy : CompactionPolicy} {entry : EntryRef}
  {ref : GraphRef} {initial : EdgeKey → Prop} {writes : List EdgeWrite}
  {state : RacingState Dictionary}

/-- Every edge that no remaining write is about has the value that the complete writes
have given it. -/
def Agrees (initial : EdgeKey → Prop) (writes : List EdgeWrite) (writer : WriterThread)
    (live : EdgeKey → Prop) : Prop :=
  ∃ complete, writes = complete ++ writer.remaining ∧
    ∀ key, (∀ write ∈ writer.remaining, write.key ≠ key) →
      (live key ↔ EdgeWrite.Expected initial key complete)

theorem Agrees.congr {writer : WriterThread} {live other : EdgeKey → Prop}
    (agrees : Agrees initial writes writer live) (same : ∀ key, other key ↔ live key) :
    Agrees initial writes writer other := by
  obtain ⟨complete, split, settled⟩ := agrees
  exact ⟨complete, split, fun key free => (same key).trans (settled key free)⟩

/-- The invariant before the compaction binds the name. -/
structure RacingInvariant (name : String) (entry : EntryRef) (ref : GraphRef)
    (initial : EdgeKey → Prop) (writes : List EdgeWrite) (state : RacingState Dictionary) :
    Prop where
  bound : state.catalog.entry name = some entry
  forward : (state.catalog.entries entry).forward = ref
  sound : (state.catalog.graphs ref).Sound
  within : state.compaction.Within entry
  shaped : state.compaction.Shaped
  writer : ∀ found, state.writer.graph = some found → found = ref
  ready : ∀ write, state.writer.pending = some write →
    write.Ready (state.catalog.graphs ref).delta
  agrees : Agrees initial writes state.writer
    fun key => state.compaction.Live (state.catalog.graphs ref) key

/-- The invariant after the compaction has bound the name. -/
structure RacedInvariant (name : String) (initial : EdgeKey → Prop) (writes : List EdgeWrite)
    (state : RacingState Dictionary) : Prop where
  returned : state.compaction = .done (.ok true)
  compacted : ∃ found, state.catalog.get name = some found ∧
    (state.catalog.graphs found).Sound ∧
    Agrees initial writes state.writer fun key => (state.catalog.graphs found).Has key

namespace RacingInvariant

/-- A step of the compaction that changes no edge keeps the invariant. -/
theorem continues {catalog : GraphCatalog Dictionary} {moved : CompactionCall}
    (invariant : RacingInvariant name entry ref initial writes state)
    (same : state.catalog.SameRegistry catalog) (within : moved.Within entry)
    (step : CompactionCall.Continues (state.catalog.graphs ref) (catalog.graphs ref)
      state.compaction moved) :
    RacingInvariant name entry ref initial writes
      { state with catalog := catalog, compaction := moved } where
  bound := (congrArg (AList.lookup name) same.registry).trans invariant.bound
  forward := same.entries ▸ invariant.forward
  sound := step.sound
  within := within
  shaped := step.shaped
  writer := invariant.writer
  ready write pending := by
    have ready := invariant.ready write pending
    cases write with
    | insert source target data => exact fun deleted => ready (step.deletions _ deleted)
    | delete source target => exact fun inserted => ready (step.insertions _ inserted)
  agrees := invariant.agrees.congr step.live

/-- **A step of the compaction keeps the invariant**, when a rebuild that is next
fits, or binds the name. -/
theorem compactor (invariant : RacingInvariant name entry ref initial writes state)
    (keeps : RacingAction.compactor.Keeps state) :
    RacingInvariant name entry ref initial writes (state.step name policy .compactor) ∨
      RacedInvariant name initial writes (state.step name policy .compactor) := by
  obtain ⟨catalog, compaction, writer⟩ := state
  obtain ⟨bound, rfl, sound, within, shaped, -, -, agrees⟩ := id invariant
  simp only [RacingState.step]
  cases compaction with
  | lookup =>
    simp only [CompactionCall.step, bound]
    exact .inl (invariant.continues .refl rfl (.of_same sound rfl fun key => Iff.rfl))
  | done result => exact .inl invariant
  | running found removals phase =>
    obtain rfl : found = entry := within
    cases removals with
    | cons removal removals =>
      refine .inl (invariant.continues
        (.updateDelta (catalog.entries found).forward removal.run) rfl ?_)
      simp only [CompactionCall.step, GraphCatalog.graphs_updateDelta_self]
      exact CompactionCall.continues_removal sound shaped
    | nil =>
      simp only [CompactionCall.step]
      by_cases swaps : ∃ compacted, phase = .swap compacted
      · obtain ⟨compacted, rfl⟩ := swaps
        have graph : ((catalog.allocGraph compacted).2.bindEntry name
            { forward := catalog.graphCount, reverse := none,
              dictionary := (catalog.entries found).dictionary }).graphs catalog.graphCount =
            compacted := Function.update_self ..
        refine .inr ⟨rfl, catalog.graphCount, ?_, ?_, ?_⟩
        · simp only [CompactionCall.stepPhase, GraphCatalog.get, GraphCatalog.entry_bindEntry,
            Option.map_some, GraphCatalog.entries_bindEntry_self]
          rfl
        · exact graph.symm ▸ shaped.2
        · exact graph.symm ▸ agrees
      · push Not at swaps
        obtain ⟨same, stays, step⟩ := CompactionCall.continues_phase name policy rfl sound shaped
          (fun deletions insertions rebuild => keeps found deletions insertions (rebuild ▸ rfl))
          swaps
        rw [same]
        exact .inl (invariant.continues .refl stays step)

/-- A change of the delta layer that leaves the settled edges alone. -/
theorem updated {writer : WriterThread} {delta : DeltaLayer}
    (invariant : RacingInvariant name entry ref initial writes state)
    (disjoint : delta.Disjoint) (graph : ∀ found, writer.graph = some found → found = ref)
    (ready : ∀ write, writer.pending = some write → write.Ready delta)
    (agrees : Agrees initial writes writer fun key =>
      state.compaction.Live ((state.catalog.graphs ref).withDelta delta) key) :
    RacingInvariant name entry ref initial writes
      { state with catalog := state.catalog.updateDelta ref fun _ => delta, writer := writer } where
  bound := invariant.bound
  forward := invariant.forward
  sound := by
    rw [GraphCatalog.graphs_updateDelta_self]
    exact invariant.sound.withDelta disjoint
  within := invariant.within
  shaped := invariant.shaped
  writer := graph
  ready := by
    rw [GraphCatalog.graphs_updateDelta_self]
    exact ready
  agrees := by simpa only [GraphCatalog.graphs_updateDelta_self] using agrees

/-- **A step of the writer keeps the invariant**, when the last write to an edge is
seen. -/
theorem writer_step (invariant : RacingInvariant name entry ref initial writes state)
    (keeps : RacingAction.writer.Keeps state) :
    RacingInvariant name entry ref initial writes (state.step name policy .writer) := by
  obtain ⟨catalog, compaction, ⟨graph, pending, todo⟩⟩ := state
  obtain ⟨bound, forward, sound, -, shaped, own, ready, complete, split, settled⟩ := id invariant
  simp only [RacingState.step]
  cases graph with
  | none =>
    refine { invariant with writer := fun found got => ?_ }
    simp only [WriterThread.step, GraphCatalog.get, bound, Option.map_some,
      Option.some.injEq] at got
    exact got.symm.trans forward
  | some found =>
    obtain rfl := own found rfl
    cases pending with
    | some write =>
      have next := EdgeWrite.disjoint_second sound.disjoint (ready write rfl)
      refine invariant.updated next own (fun write none => by cases none)
        ⟨complete ++ [write], ?_, fun key free => ?_⟩
      · rw [List.append_assoc]
        exact split
      by_cases same : write.key = key
      · subst same
        rw [EdgeWrite.expected_concat_self]
        exact CompactionCall.live_second sound shaped (ready write rfl)
          (keeps found write rfl rfl fun later member => free later member)
      · rw [EdgeWrite.expected_concat_of_ne same, ← settled key fun other member => ?_]
        · refine CompactionCall.live_congr sound (sound.withDelta next) Iff.rfl ?_ ?_
          · exact MapOp.mem_insertions_of_ne _ _ _ (by simpa using Ne.symm same)
          · exact MapOp.mem_deletions_of_ne _ _ _ (by simpa using Ne.symm same)
        · rcases List.mem_cons.mp member with rfl | later
          · exact same
          · exact free other later
    | none =>
      cases todo with
      | nil => exact invariant
      | cons write rest =>
        obtain ⟨next, begun⟩ := EdgeWrite.disjoint_first sound.disjoint write
        refine invariant.updated next own (fun other same => ?_) ⟨complete, split, fun key free => ?_⟩
        · obtain rfl := Option.some.inj same
          exact begun
        · have different : key ≠ write.key := (free write List.mem_cons_self).symm
          rw [← settled key free]
          refine CompactionCall.live_congr sound (sound.withDelta next) Iff.rfl ?_ ?_
          · exact MapOp.mem_insertions_of_ne _ _ _ (by simpa using different)
          · exact MapOp.mem_deletions_of_ne _ _ _ (by simpa using different)

/-- Another iteration order keeps the invariant. -/
theorem reorder (invariant : RacingInvariant name entry ref initial writes state)
    {found : GraphRef} {order : DeltaLayer}
    (same : (state.catalog.graphs found).delta.SameEntries order) :
    RacingInvariant name entry ref initial writes
      (state.step name policy (.reorder found order)) := by
  by_cases here : found = ref
  · subst here
    have insertions := fun key => AList.mem_of_perm (a := key) same.insertions
    have deletions := fun key => AList.mem_of_perm (a := key) same.deletions
    have disjoint := same.disjoint invariant.sound.disjoint
    refine invariant.updated disjoint invariant.writer (fun write pending => ?_)
      (invariant.agrees.congr fun key => ?_)
    · have ready := invariant.ready write pending
      cases write with
      | insert source target data => exact fun deleted => ready ((deletions _).mpr deleted)
      | delete source target => exact fun inserted => ready ((insertions _).mpr inserted)
    · exact CompactionCall.live_congr invariant.sound (invariant.sound.withDelta disjoint) Iff.rfl
        (insertions key).symm (deletions key).symm
  · have kept : (state.catalog.updateDelta found fun _ => order).graphs ref =
        state.catalog.graphs ref := GraphCatalog.graphs_updateDelta_of_ne _ _ _ (Ne.symm here)
    obtain ⟨bound, forward, sound, within, shaped, writer, ready, agrees⟩ := invariant
    exact ⟨bound, forward, kept ▸ sound, within, shaped, writer, kept ▸ ready, kept ▸ agrees⟩

end RacingInvariant

/-- Another iteration order keeps the invariant after the compaction, too. -/
theorem RacedInvariant.reorder (invariant : RacedInvariant name initial writes state)
    {found : GraphRef} {order : DeltaLayer}
    (same : (state.catalog.graphs found).delta.SameEntries order) :
    RacedInvariant name initial writes (state.step name policy (.reorder found order)) := by
  obtain ⟨returned, compacted, bound, sound, agrees⟩ := invariant
  refine ⟨returned, compacted, bound, ?_⟩
  by_cases here : found = compacted
  · subst here
    have disjoint := same.disjoint sound.disjoint
    simp only [RacingState.step, GraphCatalog.graphs_updateDelta_self]
    refine ⟨sound.withDelta disjoint, agrees.congr fun key => ?_⟩
    rw [(sound.withDelta disjoint).has_iff, sound.has_iff, CsrGraph.delta_withDelta,
      CsrGraph.baseHas_withDelta, AList.mem_of_perm (a := key) same.insertions,
      AList.mem_of_perm (a := key) same.deletions]
  · have kept : (state.catalog.updateDelta found fun _ => order).graphs compacted =
        state.catalog.graphs compacted :=
      GraphCatalog.graphs_updateDelta_of_ne _ _ _ (Ne.symm here)
    exact ⟨kept ▸ sound, kept ▸ agrees⟩

/-- **Every step of a race keeps the invariant.** -/
theorem RacingStep.invariant {action : RacingAction} {next : RacingState Dictionary}
    (step : RacingStep RacingAction.Keeps name policy state action next)
    (before : RacingInvariant name entry ref initial writes state ∨
      RacedInvariant name initial writes state) :
    RacingInvariant name entry ref initial writes next ∨
      RacedInvariant name initial writes next := by
  obtain ⟨possible, keeps, rfl⟩ := step
  rcases before with racing | raced
  · cases action with
    | compactor => exact racing.compactor keeps
    | writer => exact .inl (racing.writer_step keeps)
    | reorder found order => exact .inl (racing.reorder possible)
  · cases action with
    | compactor =>
      refine .inr ?_
      simp only [RacingState.step, raced.returned, CompactionCall.step]
      exact ⟨rfl, raced.compacted⟩
    | writer => exact absurd raced.returned possible
    | reorder found order => exact .inr (raced.reorder possible)

/-- A query on a graph whose edges agree with the writes. -/
theorem Agrees.hasEdge_eq {graph compacted : CsrGraph} {writer : WriterThread}
    (agrees : Agrees graph.Has writes writer fun key => compacted.Has key)
    (finished : writer.remaining = []) (sound : graph.Sound) (soundAfter : compacted.Sound)
    (source target : ℕ) :
    compacted.hasEdge source target =
      match EdgeWrite.last (source, target) writes with
      | some added => .ok added
      | none => graph.hasEdge source target := by
  obtain ⟨complete, split, settled⟩ := agrees
  rw [finished, List.append_nil] at split
  have expected := settled (source, target) (by simp [finished])
  rw [← split, EdgeWrite.Expected] at expected
  cases found : EdgeWrite.last (source, target) writes with
  | none =>
    rw [found] at expected
    exact soundAfter.hasEdge_eq_of_iff sound expected
  | some added =>
    rw [found] at expected
    cases added with
    | true => exact expected.mpr rfl
    | false => exact soundAfter.hasEdge_of_not_has fun live => Bool.false_ne_true (expected.mp live)

/-- **A writer that races a compaction loses no data** when the last write to every
edge is seen and the rebuild does not fail: once both have finished, every edge that
was written is there exactly if its last write was an insertion, and every other edge
is there exactly if it was there before. -/
theorem racing_writer_loses_nothing {catalog : GraphCatalog Dictionary} {before : GraphRef}
    {actions : List RacingAction} {final : RacingState Dictionary}
    (bound : catalog.get name = some before) (reachable : (catalog.graphs before).Reachable)
    (run : Run (RacingStep RacingAction.Keeps name policy) (.start catalog writes) actions final)
    (finished : final.Finished) :
    ∃ after, final.catalog.get name = some after ∧ ∀ source target,
      (final.catalog.graphs after).hasEdge source target =
        match EdgeWrite.last (source, target) writes with
        | some added => .ok added
        | none => (catalog.graphs before).hasEdge source target := by
  obtain ⟨entry, here, rfl⟩ := Option.map_eq_some_iff.mp bound
  have sound := reachable.sound
  have start : RacingInvariant name entry (catalog.entries entry).forward
      (catalog.graphs (catalog.entries entry).forward).Has writes (.start catalog writes) :=
    { bound := here
      forward := rfl
      sound := sound
      within := trivial
      shaped := trivial
      writer := fun found none => by cases none
      ready := fun write none => by cases none
      agrees := ⟨[], rfl, fun key free => Iff.rfl⟩ }
  have invariant := run.invariant (fun _ state =>
      RacingInvariant name entry (catalog.entries entry).forward
        (catalog.graphs (catalog.entries entry).forward).Has writes state ∨
      RacedInvariant name (catalog.graphs (catalog.entries entry).forward).Has writes state)
    (.inl start) fun _ before step => step.invariant before
  rcases invariant with racing | raced
  · -- the policy did not ask for a compaction
    obtain ⟨result, returned⟩ := finished.compaction
    refine ⟨_, Option.map_eq_some_iff.mpr ⟨entry, racing.bound, racing.forward⟩, ?_⟩
    have agrees := racing.agrees
    rw [returned] at agrees
    exact agrees.hasEdge_eq finished.writer sound racing.sound
  · obtain ⟨after, found, soundAfter, agrees⟩ := raced.compacted
    exact ⟨after, found, agrees.hasEdge_eq finished.writer sound soundAfter⟩

end Race

/-! ## Two races -/

namespace RacingState

variable {Dictionary : Type} (state : RacingState Dictionary)

/-- A test for the end of a race. -/
def finished : Bool := state.compaction.returned && state.writer.remaining.isEmpty

/-- A test for possible actions. -/
def allows : RacingAction → Bool
  | .compactor => true
  | .writer => !state.compaction.returned
  | .reorder _ _ => false

/-- A test for possible actions that lose nothing: the writer writes before anything
is drained. -/
def keeps : RacingAction → Bool
  | .compactor =>
    match state.compaction with
    | .running entry [] (.rebuild deletions insertions) =>
      (state.catalog.graphs (state.catalog.entries entry).forward).fitsRebuild deletions insertions
    | _ => true
  | .writer =>
    match state.compaction with
    | .lookup => true
    | .running _ _ .countInsertions => true
    | _ => false
  | .reorder _ _ => false

/-- A test for the answer of `has_edge` on the graph that the name is bound to. -/
def answers (name : String) (source target : ℕ) (answer : Bool) : Bool :=
  (state.catalog.get name).any fun ref =>
    ((state.catalog.graphs ref).hasEdge source target).passes fun live => live == answer

variable {state}

theorem hasEdge_of_answers {name : String} {source target : ℕ} {answer : Bool}
    (passes : state.answers name source target answer = true) :
    ∃ ref, state.catalog.get name = some ref ∧
      (state.catalog.graphs ref).hasEdge source target = .ok answer := by
  obtain ⟨ref, bound, passes⟩ := (Option.any_eq_true _ _).mp passes
  obtain ⟨live, answered, same⟩ := Checked.exists_of_passes passes
  exact ⟨ref, bound, eq_of_beq same ▸ answered⟩

theorem finished_of_test (passes : state.finished = true) : state.Finished := by
  rw [finished, Bool.and_eq_true, List.isEmpty_iff] at passes
  refine ⟨?_, passes.2⟩
  match found : state.compaction with
  | .done result => exact ⟨result, rfl⟩
  | .lookup => simp [found, CompactionCall.returned] at passes
  | .running entry removals phase => simp [found, CompactionCall.returned] at passes

theorem possible_of_allows {action : RacingAction} (passes : state.allows action = true) :
    action.Possible state := by
  cases action with
  | compactor => trivial
  | reorder ref order => cases passes
  | writer =>
    intro done
    simp [allows, done, CompactionCall.returned] at passes

theorem step_of_keeps {name : String} {policy : CompactionPolicy} {action : RacingAction}
    (passes : state.keeps action = true) :
    RacingStep RacingAction.Keeps name policy state action (state.step name policy action) := by
  refine ⟨?_, ?_, rfl⟩
  · cases action with
    | compactor => trivial
    | reorder ref order => cases passes
    | writer =>
      intro done
      simp [keeps, done] at passes
  · cases action with
    | reorder ref order => trivial
    | compactor =>
      intro entry deletions insertions here
      simp only [keeps, here] at passes
      exact CsrGraph.FitsRebuild.of_test passes
    | writer =>
      intro ref write got pending last
      cases here : state.compaction with
      | lookup => trivial
      | done result => simp [keeps, here] at passes
      | running entry removals phase =>
        cases phase with
        | countInsertions => trivial
        | _ => simp [keeps, here] at passes

end RacingState

theorem racing_writer_loses_nothing_witness : ∃ (graph : CsrGraph) (final : RacingState Unit),
    CsrGraph.fromEdges [(0, 1)] = .ok graph ∧
    Run (RacingStep RacingAction.Keeps "g" .eager)
      (.start (.registering graph "g") [.insert 1 2 .default, .delete 0 1])
      ([.writer, .writer, .compactor, .writer, .writer, .writer] ++
        List.replicate 11 .compactor) final ∧
    final.Finished ∧ ∃ after, final.catalog.get "g" = some after ∧ ∀ source target,
      (final.catalog.graphs after).hasEdge source target =
        match EdgeWrite.last (source, target) [.insert 1 2 .default, .delete 0 1] with
        | some added => .ok added
        | none => ((GraphCatalog.registering graph "g").graphs 0).hasEdge source target := by
  obtain ⟨graph, built, passes⟩ := Checked.exists_of_passes
    (show (CsrGraph.fromEdges [(0, 1)]).passes (fun graph =>
        let start := RacingState.start (.registering graph "g")
          [.insert 1 2 .default, .delete 0 1]
        let actions := [.writer, .writer, .compactor, .writer, .writer, .writer] ++
          List.replicate 11 .compactor
        plays RacingState.keeps (RacingState.step "g" .eager) start actions &&
          (actions.foldl (RacingState.step "g" .eager) start).finished) = true by decide +kernel)
  obtain ⟨played, finished⟩ := (Bool.and_eq_true _ _).mp passes
  have run := Run.of_plays (fun _ _ => RacingState.step_of_keeps) played
  have done := RacingState.finished_of_test finished
  have bound : (GraphCatalog.registering graph "g").get "g" = some 0 := rfl
  exact ⟨graph, _, built, run, done,
    racing_writer_loses_nothing bound (.built built) run done⟩

/-- A writer inserts the edge from 2 to 0 after the compaction has drained the
insertions for the last time and before it binds the name. The edge is in neither
graph afterwards. -/
theorem late_write_is_lost : ∃ (graph : CsrGraph) (final : RacingState Unit) (after : GraphRef),
    CsrGraph.fromEdges [(0, 1)] = .ok graph ∧ graph.Reachable ∧
    (GraphCatalog.registering graph "g").get "g" = some 0 ∧
    Run (RacingStep (fun _ _ => True) "g" .eager)
      (.start (.registering graph "g") [.insert 1 2 .default, .insert 2 0 .default])
      ([.writer, .writer, .writer] ++ List.replicate 8 .compactor ++ [.writer, .writer] ++
        List.replicate 2 .compactor) final ∧
    final.Finished ∧ final.catalog.get "g" = some after ∧
    EdgeWrite.last (2, 0) [.insert 1 2 .default, .insert 2 0 .default] = some true ∧
    (final.catalog.graphs after).hasEdge 2 0 = .ok false := by
  obtain ⟨graph, built, passes⟩ := Checked.exists_of_passes
    (show (CsrGraph.fromEdges [(0, 1)]).passes (fun graph =>
        let start := RacingState.start (.registering graph "g")
          [.insert 1 2 .default, .insert 2 0 .default]
        let actions := [.writer, .writer, .writer] ++ List.replicate 8 .compactor ++
          [.writer, .writer] ++ List.replicate 2 .compactor
        plays RacingState.allows (RacingState.step "g" .eager) start actions &&
          ((actions.foldl (RacingState.step "g" .eager) start).finished &&
            (actions.foldl (RacingState.step "g" .eager) start).answers "g" 2 0 false)) = true by
      decide +kernel)
  obtain ⟨played, passes⟩ := (Bool.and_eq_true _ _).mp passes
  obtain ⟨finished, lost⟩ := (Bool.and_eq_true _ _).mp passes
  obtain ⟨after, bound, dead⟩ := RacingState.hasEdge_of_answers lost
  exact ⟨graph, _, after, built, .built built, rfl,
    Run.of_plays (fun _ _ allowed => ⟨RacingState.possible_of_allows allowed, trivial, rfl⟩) played,
    RacingState.finished_of_test finished, bound, by decide, dead⟩

end FusionGraph
