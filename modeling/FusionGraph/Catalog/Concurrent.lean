import FusionGraph.Catalog.Catalog
import FusionGraph.Core.DeltaSteps
import FusionGraph.Foundations.Runs
import Mathlib.Logic.Relation

/-!
# Concurrent calls on a catalog

No lock is held across a call of `compact_if_needed`. It reads the entry of the
name, reads the lengths of the two maps of the delta layer, drains both maps,
rebuilds, drains both maps once more into the new graph and then binds the name.
Between two of these steps other calls may run. `CompactionCall` says where such
a call stands and `CompactionCall.step` what it does next; the calls that only
write the registry are one step (`RegistryWrite`).

A drain reads the keys of a map and removes them one by one. `DrainMode` says
whether other calls can run in between.

A call whose steps are not interrupted is the sequential call, in either mode
(`CompactionCall.alone`).
-/

set_option autoImplicit false

namespace FusionGraph

open Foundations

/-- Whether the delta layer has grown past the thresholds when it has the given
number of entries. -/
def CsrGraph.shouldCompactAt (self : CsrGraph) (policy : CompactionPolicy) (deltaLen : ℕ) : Bool :=
  if deltaLen = 0 then false
  else if policy.maxDeltaEntries ≤ deltaLen then true
  else decide (0 < self.edgeCount) &&
    decide (Float.ofNat self.edgeCount * policy.maxDeltaRatio ≤ Float.ofNat deltaLen)

theorem CsrGraph.shouldCompact_eq (graph : CsrGraph) (policy : CompactionPolicy) :
    graph.shouldCompact policy = graph.shouldCompactAt policy (graph.delta.insertions.entries.length +
      graph.delta.deletions.entries.length) := rfl

/-- A policy that asks for a compaction whenever a mutation is pending. -/
def CompactionPolicy.eager : CompactionPolicy where
  maxDeltaEntries := 1
  maxDeltaRatio := 1.0

/-- Changes the delta layer of a shared graph in place. -/
def GraphCatalog.updateDelta {Dictionary : Type} (self : GraphCatalog Dictionary) (ref : GraphRef)
    (change : DeltaLayer → DeltaLayer) : GraphCatalog Dictionary :=
  self.setGraph ref ((self.graphs ref).withDelta (change (self.graphs ref).delta))

/-! ## Compaction step by step -/

/-- Whether a drain is one step, or one step that reads the keys and one more for
each key that it removes. -/
inductive DrainMode where
  | atomic
  | keyByKey

/-- What a call of `compact_if_needed` that has found an entry does next. -/
inductive CompactionPhase where
  | countInsertions
  | countDeletions (insertions : ℕ)
  | drainDeletions
  | drainInsertions (deletions : List EdgeKey)
  | rebuild (deletions : List EdgeKey) (insertions : List (EdgeKey × EdgeData))
  | replayInsertions (compacted : CsrGraph)
  | replayDeletions (compacted : CsrGraph)
  | swap (compacted : CsrGraph)

/-- Where a call of `compact_if_needed` stands. A call that has found an entry
first finishes the drain it is in. -/
inductive CompactionCall where
  | lookup
  | running (entry : EntryRef) (removals : List MapOp) (phase : CompactionPhase)
  | done (result : Outcome Bool)

namespace CompactionCall

variable {Dictionary : Type}

/-- A drain that has read the keys of a map, and the phase after it. -/
def drain (mode : DrainMode) (catalog : GraphCatalog Dictionary) (entry : EntryRef)
    (removals : List MapOp) (phase : CompactionPhase) : GraphCatalog Dictionary × CompactionCall :=
  match mode with
  | .atomic =>
    (catalog.updateDelta (catalog.entries entry).forward (MapOp.runAll removals),
      running entry [] phase)
  | .keyByKey => (catalog, running entry removals phase)

/-- One step of a call that has found an entry and is not in a drain. -/
def stepPhase (mode : DrainMode) (name : String) (policy : CompactionPolicy)
    (catalog : GraphCatalog Dictionary) (entry : EntryRef) :
    CompactionPhase → GraphCatalog Dictionary × CompactionCall :=
  let graph := catalog.graphs (catalog.entries entry).forward
  fun
  | .countInsertions =>
    (catalog, running entry [] (.countDeletions graph.delta.insertions.entries.length))
  | .countDeletions insertions =>
    if graph.shouldCompactAt policy (insertions + graph.delta.deletions.entries.length) then
      (catalog, running entry [] .drainDeletions)
    else (catalog, done (.ok false))
  | .drainDeletions =>
    drain mode catalog entry graph.delta.tombstoneRemovals
      (.drainInsertions graph.delta.snapshotDeletions)
  | .drainInsertions deletions =>
    drain mode catalog entry graph.delta.insertionRemovals
      (.rebuild deletions graph.delta.snapshotInsertions)
  | .rebuild deletions insertions =>
    match graph.rebuild deletions insertions with
    | .error fault => (catalog, done (.error fault))
    | .ok compacted => (catalog, running entry [] (.replayInsertions compacted))
  | .replayInsertions compacted =>
    drain mode catalog entry graph.delta.insertionRemovals
      (.replayDeletions (GraphCatalog.replay compacted graph.delta.snapshotInsertions []))
  | .replayDeletions compacted =>
    drain mode catalog entry graph.delta.tombstoneRemovals
      (.swap (GraphCatalog.replay compacted [] graph.delta.snapshotDeletions))
  | .swap compacted =>
    let (shared, next) := catalog.allocGraph compacted
    (next.bindEntry name
      { forward := shared, reverse := none, dictionary := (catalog.entries entry).dictionary },
      done (.ok true))

/-- One step of a call. A call that has returned stays as it is. -/
def step (mode : DrainMode) (name : String) (policy : CompactionPolicy)
    (catalog : GraphCatalog Dictionary) : CompactionCall → GraphCatalog Dictionary × CompactionCall
  | lookup =>
    match catalog.entry name with
    | none => (catalog, done (.ok false))
    | some entry => (catalog, running entry [] .countInsertions)
  | running entry (removal :: removals) phase =>
    (catalog.updateDelta (catalog.entries entry).forward removal.run,
      running entry removals phase)
  | running entry [] phase => stepPhase mode name policy catalog entry phase
  | done result => (catalog, done result)

/-- Whether the call has returned. -/
def returned : CompactionCall → Bool
  | done _ => true
  | _ => false

end CompactionCall

/-! ## Calls and threads -/

/-- A call that only writes the registry. -/
inductive RegistryWrite (Dictionary : Type) where
  | register (graph : GraphRef)
  | registerWithReverse (forward reverse : GraphRef)
  | registerWithDictionary (forward : GraphRef) (dictionary : Dictionary)
  | deregister

/-- The effect of the call on the binding of the name. -/
def RegistryWrite.run {Dictionary : Type} (name : String) (catalog : GraphCatalog Dictionary) :
    RegistryWrite Dictionary → GraphCatalog Dictionary
  | register graph => (catalog.register name graph).1
  | registerWithReverse forward reverse => catalog.registerWithReverse name forward reverse
  | registerWithDictionary forward dictionary =>
    catalog.registerWithDictionary name forward dictionary
  | deregister => (catalog.deregister name).1

/-- A call that changes the binding of the name. -/
inductive CatalogCall (Dictionary : Type) where
  | write (call : RegistryWrite Dictionary)
  | compactIfNeeded (policy : CompactionPolicy)

/-- The effect of the call when nothing else runs. -/
def CatalogCall.run {Dictionary : Type} (name : String) (catalog : GraphCatalog Dictionary) :
    CatalogCall Dictionary → GraphCatalog Dictionary
  | write call => call.run name catalog
  | compactIfNeeded policy => (catalog.compactIfNeeded name policy).1

/-- A thread that makes one call. -/
inductive CatalogThread (Dictionary : Type) where
  | write (call : RegistryWrite Dictionary)
  | written
  | compaction (policy : CompactionPolicy) (call : CompactionCall)

namespace CatalogThread

variable {Dictionary : Type}

/-- The thread before its call. -/
def ofCall : CatalogCall Dictionary → CatalogThread Dictionary
  | .write call => write call
  | .compactIfNeeded policy => compaction policy .lookup

/-- Whether the call of the thread has returned. -/
def Finished : CatalogThread Dictionary → Prop
  | write _ => False
  | written => True
  | compaction _ call => ∃ result, call = .done result

/-- One step of a thread. -/
def step (mode : DrainMode) (name : String) (catalog : GraphCatalog Dictionary) :
    CatalogThread Dictionary → GraphCatalog Dictionary × CatalogThread Dictionary
  | write call => (call.run name catalog, written)
  | written => (catalog, written)
  | compaction policy call =>
    let (next, moved) := call.step mode name policy catalog
    (next, compaction policy moved)

end CatalogThread

/-- A catalog and the threads that call it. -/
structure ConcurrentCatalog (Dictionary : Type) where
  catalog : GraphCatalog Dictionary
  threads : List (CatalogThread Dictionary)

namespace ConcurrentCatalog

variable {Dictionary : Type}

/-- The threads before their calls. -/
def start (catalog : GraphCatalog Dictionary) (calls : List (CatalogCall Dictionary)) :
    ConcurrentCatalog Dictionary where
  catalog := catalog
  threads := calls.map .ofCall

/-- One step of the thread at a position. -/
def step (mode : DrainMode) (name : String) (state : ConcurrentCatalog Dictionary) (index : ℕ) :
    ConcurrentCatalog Dictionary :=
  match state.threads[index]? with
  | none => state
  | some thread =>
    let (catalog, moved) := thread.step mode name state.catalog
    { catalog := catalog, threads := state.threads.set index moved }

/-- Every call has returned. -/
def Finished (state : ConcurrentCatalog Dictionary) : Prop :=
  ∀ thread ∈ state.threads, thread.Finished

end ConcurrentCatalog

/-! ## Reading a catalog after a change -/

namespace GraphCatalog

variable {Dictionary : Type} (self : GraphCatalog Dictionary) (name : String) (ref : GraphRef)
  (change : DeltaLayer → DeltaLayer)

@[simp] theorem entries_updateDelta : (self.updateDelta ref change).entries = self.entries := rfl

@[simp] theorem graphs_updateDelta_self :
    (self.updateDelta ref change).graphs ref =
      (self.graphs ref).withDelta (change (self.graphs ref).delta) :=
  graphs_setGraph_self ..

theorem graphs_updateDelta_of_ne {other : GraphRef} (different : other ≠ ref) :
    (self.updateDelta ref change).graphs other = self.graphs other :=
  graphs_setGraph_of_ne _ _ _ different

/-- Two changes of one delta layer are one. -/
theorem updateDelta_updateDelta (other : DeltaLayer → DeltaLayer) :
    (self.updateDelta ref change).updateDelta ref other =
      self.updateDelta ref fun delta => other (change delta) := by
  simp only [updateDelta, setGraph, Function.update_self, Function.update_idem]
  rfl

theorem updateDelta_setGraph (graph : CsrGraph) :
    (self.setGraph ref graph).updateDelta ref change =
      self.setGraph ref (graph.withDelta (change graph.delta)) := by
  simp only [updateDelta, setGraph, Function.update_self, Function.update_idem]

theorem updateDelta_id : (self.updateDelta ref fun delta => delta) = self :=
  self.setGraph_self ref

/-- A drain that finds nothing changes nothing. -/
theorem updateDelta_runAll_nil : self.updateDelta ref (MapOp.runAll []) = self :=
  self.updateDelta_id ref

end GraphCatalog

/-- Names lead to entries in use, and entries to graphs in use. -/
structure GraphCatalog.WellFormed {Dictionary : Type} (catalog : GraphCatalog Dictionary) :
    Prop where
  bound : ∀ name entry, catalog.entry name = some entry → entry < catalog.entryCount
  forward : ∀ entry < catalog.entryCount, (catalog.entries entry).forward < catalog.graphCount

/-! ## What one step does to the registry -/

section Registry

variable {Dictionary : Type} {mode : DrainMode} {name : String} {catalog : GraphCatalog Dictionary}

/-- The catalog after a step in which no name is bound. -/
structure GraphCatalog.SameRegistry (before after : GraphCatalog Dictionary) : Prop where
  registry : after.registry = before.registry
  entries : after.entries = before.entries
  entryCount : after.entryCount = before.entryCount
  graphCount : after.graphCount = before.graphCount

theorem GraphCatalog.SameRegistry.refl : catalog.SameRegistry catalog := ⟨rfl, rfl, rfl, rfl⟩

theorem GraphCatalog.SameRegistry.updateDelta (ref : GraphRef) (change : DeltaLayer → DeltaLayer) :
    catalog.SameRegistry (catalog.updateDelta ref change) := ⟨rfl, rfl, rfl, rfl⟩

theorem CompactionCall.sameRegistry_drain (entry : EntryRef) (removals : List MapOp)
    (phase : CompactionPhase) :
    catalog.SameRegistry (drain mode catalog entry removals phase).1 := by
  cases mode with
  | atomic => exact .updateDelta _ _
  | keyByKey => exact .refl

/-- **Only the last step of a compaction binds the name.** -/
theorem CompactionCall.sameRegistry_step (policy : CompactionPolicy) (call : CompactionCall)
    (pending : ∀ entry compacted, call ≠ running entry [] (.swap compacted)) :
    catalog.SameRegistry (call.step mode name policy catalog).1 := by
  cases call with
  | lookup => cases bound : catalog.entry name <;> simp only [step, bound] <;> exact .refl
  | done result => exact .refl
  | running entry removals phase =>
    cases removals with
    | cons removal removals => exact .updateDelta (catalog.entries entry).forward removal.run
    | nil =>
      cases phase with
      | countInsertions => exact .refl
      | countDeletions insertions =>
        simp only [step, stepPhase]
        split <;> exact .refl
      | drainDeletions => exact sameRegistry_drain _ _ _
      | drainInsertions deletions => exact sameRegistry_drain _ _ _
      | rebuild deletions insertions =>
        simp only [step, stepPhase]
        split <;> exact .refl
      | replayInsertions compacted => exact sameRegistry_drain _ _ _
      | replayDeletions compacted => exact sameRegistry_drain _ _ _
      | swap compacted => exact absurd rfl (pending entry compacted)

/-- The entry that the next step of a thread binds the name to, if it binds it. -/
def CatalogThread.binds (catalog : GraphCatalog Dictionary) :
    CatalogThread Dictionary → Option (GraphEntry Dictionary)
  | write (.register graph) => some (.new graph)
  | write (.registerWithReverse forward reverse) =>
    some { forward := forward, reverse := some reverse, dictionary := none }
  | write (.registerWithDictionary forward dictionary) =>
    some { forward := forward, reverse := none, dictionary := some dictionary }
  | compaction _ (.running entry [] (.swap _)) =>
    some { forward := catalog.graphCount, reverse := none,
           dictionary := (catalog.entries entry).dictionary }
  | _ => none

/-- The catalog after a step that binds the name to a new entry. -/
structure GraphCatalog.Binds (before : GraphCatalog Dictionary) (name : String)
    (bound : GraphEntry Dictionary) (after : GraphCatalog Dictionary) : Prop where
  entry : after.entry name = some before.entryCount
  entries : after.entries = Function.update before.entries before.entryCount bound
  entryCount : after.entryCount = before.entryCount + 1

theorem GraphCatalog.Binds.of_bindEntry (entry : GraphEntry Dictionary) :
    catalog.Binds name entry (catalog.bindEntry name entry) :=
  ⟨catalog.entry_bindEntry name entry, rfl, rfl⟩

theorem CatalogThread.binds_step (mode : DrainMode) (name : String)
    {thread : CatalogThread Dictionary} {entry : GraphEntry Dictionary}
    (binding : thread.binds catalog = some entry) :
    catalog.Binds name entry (thread.step mode name catalog).1 := by
  cases thread with
  | write call =>
    cases call with
    | deregister => cases binding
    | register graph =>
      cases binding
      exact .of_bindEntry _
    | registerWithReverse forward reverse =>
      cases binding
      exact .of_bindEntry _
    | registerWithDictionary forward dictionary =>
      cases binding
      exact .of_bindEntry _
  | written => cases binding
  | compaction policy call =>
    match call, binding with
    | .running source [] (.swap compacted), rfl =>
      exact ⟨(catalog.allocGraph compacted).2.entry_bindEntry name _, rfl, rfl⟩

/-- A step that does not bind the name leaves its binding or removes it. -/
theorem CatalogThread.step_of_binds_eq_none (mode : DrainMode) (name : String)
    {thread : CatalogThread Dictionary} (binding : thread.binds catalog = none) :
    (thread.step mode name catalog).1.entries = catalog.entries ∧
      (thread.step mode name catalog).1.entryCount = catalog.entryCount ∧
      ((thread.step mode name catalog).1.entry name = catalog.entry name ∨
        (thread.step mode name catalog).1.entry name = none) := by
  cases thread with
  | write call =>
    cases call with
    | register graph => cases binding
    | registerWithReverse forward reverse => cases binding
    | registerWithDictionary forward dictionary => cases binding
    | deregister => exact ⟨rfl, rfl, .inr (AList.lookup_erase name catalog.registry)⟩
  | written => exact ⟨rfl, rfl, .inl rfl⟩
  | compaction policy call =>
    have same : catalog.SameRegistry (call.step mode name policy catalog).1 := by
      refine call.sameRegistry_step policy fun entry compacted swaps => ?_
      subst swaps
      cases binding
    refine ⟨same.entries, same.entryCount, .inl ?_⟩
    exact congrArg (AList.lookup name) same.registry

end Registry

/-! ## A call that is not interrupted -/

namespace CompactionCall

variable {Dictionary : Type} {mode : DrainMode} {name : String} {policy : CompactionPolicy}

/-- The steps of a call with nothing in between. -/
def Alone (mode : DrainMode) (name : String) (policy : CompactionPolicy) :
    GraphCatalog Dictionary × CompactionCall → GraphCatalog Dictionary × CompactionCall → Prop :=
  Relation.ReflTransGen fun before after => after = step mode name policy before.1 before.2

theorem Alone.of_step {catalog : GraphCatalog Dictionary} {call : CompactionCall}
    {after : GraphCatalog Dictionary × CompactionCall}
    (rest : Alone mode name policy (step mode name policy catalog call) after) :
    Alone mode name policy (catalog, call) after :=
  .head rfl rest

/-- The removals of a drain, one after the other. -/
theorem Alone.removals (entry : EntryRef) (phase : CompactionPhase) (removals : List MapOp)
    (catalog : GraphCatalog Dictionary) :
    Alone mode name policy (catalog, running entry removals phase)
      (catalog.updateDelta (catalog.entries entry).forward (MapOp.runAll removals),
        running entry [] phase) := by
  induction removals generalizing catalog with
  | nil =>
      rw [show MapOp.runAll [] = fun delta => delta from rfl, catalog.updateDelta_id]
      exact .refl
  | cons removal rest ih =>
      apply Alone.of_step
      have later := ih (catalog.updateDelta (catalog.entries entry).forward removal.run)
      rwa [catalog.entries_updateDelta, catalog.updateDelta_updateDelta] at later

/-- A drain is its removals in either mode. -/
theorem Alone.drain (entry : EntryRef) (phase : CompactionPhase) (removals : List MapOp)
    (catalog : GraphCatalog Dictionary) :
    Alone mode name policy (drain mode catalog entry removals phase)
      (catalog.updateDelta (catalog.entries entry).forward (MapOp.runAll removals),
        running entry [] phase) := by
  cases mode with
  | atomic => exact .refl
  | keyByKey => exact .removals entry phase removals catalog

/-- A phase that drains, up to the phase after it. -/
theorem Alone.of_drain {catalog : GraphCatalog Dictionary} {entry : EntryRef}
    {phase next : CompactionPhase} {graph : CsrGraph} {removals : List MapOp}
    (moved : step mode name policy (catalog.setGraph (catalog.entries entry).forward graph)
        (running entry [] phase) =
      CompactionCall.drain mode (catalog.setGraph (catalog.entries entry).forward graph) entry
        removals next)
    {after : GraphCatalog Dictionary × CompactionCall}
    (rest : Alone mode name policy
      (catalog.setGraph (catalog.entries entry).forward
        (graph.withDelta (MapOp.runAll removals graph.delta)), running entry [] next) after) :
    Alone mode name policy
      (catalog.setGraph (catalog.entries entry).forward graph, running entry [] phase) after := by
  apply Alone.of_step
  rw [moved]
  have drained : Alone mode name policy _ _ := Alone.drain entry next removals
    (catalog.setGraph (catalog.entries entry).forward graph)
  rw [catalog.entries_setGraph, catalog.updateDelta_setGraph] at drained
  exact drained.trans rest

/-- A phase reads the graph that is there. -/
theorem stepPhase_setGraph (catalog : GraphCatalog Dictionary) (entry : EntryRef)
    (graph : CsrGraph) (phase : CompactionPhase) :
    step mode name policy (catalog.setGraph (catalog.entries entry).forward graph)
        (running entry [] phase) =
      stepPhase mode name policy (catalog.setGraph (catalog.entries entry).forward graph) entry
        phase := rfl

/-- The steps after the rebuild. -/
theorem Alone.replay (catalog : GraphCatalog Dictionary) (entry : EntryRef)
    (drained compacted : CsrGraph) :
    let (insertions, delta) := drained.delta.drainInsertions
    let (deletions, delta) := delta.drainDeletions
    let emptied := catalog.setGraph (catalog.entries entry).forward (drained.withDelta delta)
    let (shared, next) := emptied.allocGraph (GraphCatalog.replay compacted insertions deletions)
    Alone mode name policy
      (catalog.setGraph (catalog.entries entry).forward drained,
        running entry [] (.replayInsertions compacted))
      (next.bindEntry name
        { forward := shared, reverse := none, dictionary := (catalog.entries entry).dictionary },
        done (.ok true)) := by
  simp only [DeltaLayer.drainInsertions_eq_runAll, DeltaLayer.drainDeletions_eq_runAll]
  refine Alone.of_drain (by
    simp only [stepPhase_setGraph, stepPhase, GraphCatalog.entries_setGraph,
      GraphCatalog.graphs_setGraph_self]; rfl) ?_
  refine Alone.of_drain (by
    simp only [stepPhase_setGraph, stepPhase, GraphCatalog.entries_setGraph,
      GraphCatalog.graphs_setGraph_self]; rfl) ?_
  exact Alone.of_step .refl

/-- **The steps of a call with nothing in between are the sequential call**, in
either mode. -/
theorem alone (mode : DrainMode) (name : String) (policy : CompactionPolicy)
    (catalog : GraphCatalog Dictionary) :
    Alone mode name policy (catalog, lookup)
      ((catalog.compactIfNeeded name policy).1, done (catalog.compactIfNeeded name policy).2) := by
  apply Alone.of_step
  cases bound : catalog.entry name with
  | none =>
    simp only [step, bound, GraphCatalog.compactIfNeeded]
    exact .refl
  | some entry =>
    simp only [step, bound]
    apply Alone.of_step
    apply Alone.of_step
    simp only [step, stepPhase]
    generalize known : catalog.graphs (catalog.entries entry).forward = graph
    by_cases due : graph.shouldCompact policy = true
    · rw [if_pos (graph.shouldCompact_eq policy ▸ due)]
      simp only [GraphCatalog.compactIfNeeded, bound, known, due, if_true, CsrGraph.compact,
        DeltaLayer.drainDeletions_eq_runAll, DeltaLayer.drainInsertions_eq_runAll]
      have start : catalog = catalog.setGraph (catalog.entries entry).forward graph := by
        rw [← known, catalog.setGraph_self]
      nth_rewrite 1 [start]
      refine Alone.of_drain (by
        simp only [stepPhase_setGraph, stepPhase, GraphCatalog.entries_setGraph,
          GraphCatalog.graphs_setGraph_self]; rfl) ?_
      refine Alone.of_drain (by
        simp only [stepPhase_setGraph, stepPhase, GraphCatalog.entries_setGraph,
          GraphCatalog.graphs_setGraph_self]; rfl) ?_
      apply Alone.of_step
      simp only [stepPhase_setGraph, stepPhase, GraphCatalog.entries_setGraph,
        GraphCatalog.graphs_setGraph_self, CsrGraph.delta_withDelta, CsrGraph.withDelta_withDelta]
      generalize graph.withDelta (MapOp.runAll
        (MapOp.runAll graph.delta.tombstoneRemovals graph.delta).insertionRemovals
        (MapOp.runAll graph.delta.tombstoneRemovals graph.delta)) = drained
      cases drained.rebuild graph.delta.snapshotDeletions
          (MapOp.runAll graph.delta.tombstoneRemovals graph.delta).snapshotInsertions with
      | error fault => exact .refl
      | ok compacted =>
        have replayed := @Alone.replay Dictionary mode name policy catalog entry drained compacted
        simpa only [DeltaLayer.drainInsertions_eq_runAll, DeltaLayer.drainDeletions_eq_runAll]
          using replayed
    · rw [if_neg (graph.shouldCompact_eq policy ▸ due)]
      simp only [GraphCatalog.compactIfNeeded, bound, known, if_neg due]
      exact .refl

end CompactionCall

end FusionGraph
