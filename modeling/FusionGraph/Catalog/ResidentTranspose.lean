import FusionGraph.Catalog.Catalog
import FusionGraph.Exec.GraphTraversal
import FusionGraph.Foundations.Runs
import FusionGraph.Traversal.DirectionOptimized

/-!
# Traversals with a resident transpose

The transpose of an entry is a snapshot that is taken once, and the
direction-optimizing search compares only its counts with those of the graph.
While mutations are pending the snapshot is not read. So a stale snapshot is
read exactly after a `clear` that finds a memoized transpose with the counts of
the base layer and other edges. A history without such a `clear` never notices
the transpose (`resident_transpose_unobservable`); a history with one may see
other depths (`stale_transpose_changes_depths`).
-/

set_option autoImplicit false

namespace FusionGraph

open Foundations Foundations.BreadthFirst

/-! ## Histories of a registered graph -/

/-- A call on a registered graph. The iteration order of the hash maps of its
delta layer may change between two calls. -/
inductive HistoryCall where
  | mutate (op : DeltaOp)
  | reorder (order : DeltaLayer)
  | reverse

namespace HistoryCall

variable {Dictionary : Type}

/-- The effect of the call on the catalog. -/
def run (name : String) (ref : GraphRef) (catalog : GraphCatalog Dictionary) :
    HistoryCall → GraphCatalog Dictionary
  | mutate op => catalog.setGraph ref ((catalog.graphs ref).mutate op)
  | reorder order => catalog.setGraph ref ((catalog.graphs ref).withDelta order)
  | reverse => (catalog.reverse name).1

/-- A hash map holds at most `isize::MAX` entries and keeps them when it is
reordered. -/
def Possible (ref : GraphRef) (catalog : GraphCatalog Dictionary) : HistoryCall → Prop
  | mutate op => ((catalog.graphs ref).mutate op).delta.insertions.entries.length ≤ isizeMax
  | reorder order => (catalog.graphs ref).delta.SameEntries order
  | reverse => True

/-- A `clear` that finds a memoized transpose finds one that differs from the
graph in its number of nodes or edges, or that has the reversed base edges. -/
def ClearsFresh (name : String) (ref : GraphRef) (catalog : GraphCatalog Dictionary) :
    HistoryCall → Prop
  | mutate .clear => ∀ reverse, catalog.residentReverse name = some reverse →
      (catalog.graphs reverse).nodeCount ≠ (catalog.graphs ref).nodeCount ∨
      (catalog.graphs reverse).edgeCount ≠ (catalog.graphs ref).edgeCount ∨
      ∀ source target, (catalog.graphs reverse).baseContains target source =
        (catalog.graphs ref).baseContains source target
  | _ => True

end HistoryCall

/-- A call in a history whose calls meet a condition on the catalog before them. -/
def HistoryStep {Dictionary : Type}
    (condition : String → GraphRef → GraphCatalog Dictionary → HistoryCall → Prop) (name : String)
    (ref : GraphRef) (catalog : GraphCatalog Dictionary) (call : HistoryCall)
    (next : GraphCatalog Dictionary) : Prop :=
  call.Possible ref catalog ∧ condition name ref catalog call ∧ next = call.run name ref catalog

/-- The operator of an outgoing query on the name: it picks the transpose up when
it is memoized. -/
def GraphCatalog.outgoingExec {Dictionary : Type} (self : GraphCatalog Dictionary) (name : String)
    (spec : TraversalSpec) : Option GraphTraversalExec :=
  (self.get name).map fun ref =>
    let exec := GraphTraversalExec.new (self.graphs ref) spec
    ((self.residentReverse name).map self.graphs).elim exec exec.withReverse

/-- The specification of an outgoing breadth-first search from one node, without
a cap on the nodes. -/
structure TraversalSpec.SingleOutgoing (spec : TraversalSpec) (start maxDepth : ℕ) : Prop where
  start : spec.start = [start]
  maxDepth : spec.maxDepth = maxDepth
  maxNodes : spec.maxNodes.getD usizeMax = usizeMax
  algorithm : spec.algorithm = .bfs
  direction : spec.direction = .outgoing

/-! ## One traversal -/

section Traversal

variable {graph reverse : CsrGraph} {base reversed : BaseLayer}

/-- A transpose that the search accepts has the reversed base edges, unless
mutations are pending. -/
def TransposeFits (graph reverse : CsrGraph) (base reversed : BaseLayer) : Prop :=
  graph.delta.isEmpty = true → reverse.nodeCount = graph.nodeCount →
    reverse.edgeCount = graph.edgeCount →
      ∀ source target, source ∈ reversed.targets target ↔ target ∈ base.targets source

/-- The search with a transpose that fits, or the plain search in its place, finds
the nodes of the plain search with their depths. -/
theorem CsrGraph.Stores.directionOptimized_orElse (stores : graph.Stores base)
    (reachable : graph.Reachable) (storesReverse : reverse.Stores reversed)
    (cleanReverse : reverse.delta = DeltaLayer.new) (fits : TransposeFits graph reverse base reversed)
    (target : Target) (start maxDepth : ℕ) :
    ∃ result reference, bfs target graph start maxDepth = .ok reference ∧
      Checked.orElse (bfsDirectionOptimized target graph reverse start maxDepth)
        (bfsBounded target graph [start] maxDepth none) = .ok result ∧
      result.nodeDepths = reference.nodeDepths := by
  obtain ⟨reference, ran, correct⟩ := bfs_correct_on_merged_topology target reachable [start] maxDepth
  by_cases counts : graph.nodeCount ≠ reverse.nodeCount ∨ graph.edgeCount ≠ reverse.edgeCount
  · refine ⟨reference, reference, ran, ?_, rfl⟩
    rw [bfsDirectionOptimized, bfsDirectionOptimizedBy, if_pos counts, Checked.orElse_fail, ran]
  push Not at counts
  by_cases pending : graph.delta.isEmpty = true
  · have transposed : Transposed base reversed := by
      constructor
      · rw [← storesReverse.nodeCount, ← stores.nodeCount, counts.1]
      · exact fits pending counts.1.symm counts.2.symm
    obtain ⟨result, log, last, returned, lists, invariant⟩ :=
      stores.bfsDirectionOptimizedBy_eq bottomUp target (DeltaLayer.eq_new_of_isEmpty pending)
        storesReverse cleanReverse transposed counts.2 start maxDepth
    refine ⟨result, reference, ran, ?_, ((lists.isBreadthFirst invariant).agrees correct).depths⟩
    rw [bfsDirectionOptimized, returned, Checked.orElse_ok]
  · refine ⟨reference, reference, ran, ?_, rfl⟩
    have guard : ¬ (graph.nodeCount ≠ reverse.nodeCount ∨ graph.edgeCount ≠ reverse.edgeCount) := by
      simp [counts]
    rw [bfsDirectionOptimized, bfsDirectionOptimizedBy, if_neg guard,
      if_neg (by simp [cleanReverse]), if_pos pending, bfs, ran, Checked.orElse_ok]

/-- The operator of an outgoing search runs the search with the transpose, or the
plain search in its place. -/
theorem GraphTraversalExec.execute_outgoing {spec : TraversalSpec} {start maxDepth : ℕ}
    (outgoing : spec.SingleOutgoing start maxDepth) (target : Target) (graph : CsrGraph)
    (reverse : Option CsrGraph) {result : BfsResult}
    (ran : (reverse.elim (bfsBounded target graph [start] maxDepth none) fun reverse =>
      Checked.orElse (bfsDirectionOptimized target graph reverse start maxDepth)
        (bfsBounded target graph [start] maxDepth none)) = .ok result) :
    GraphTraversalExec.execute target { graph := graph, reverse := reverse, spec := spec } 0 =
      .ok { nodeId := result.visited, depth := result.depths,
            path := result.visited.map fun _ => none } := by
  have valid : GraphTraversalExec.validateSpec
      { graph := graph, reverse := reverse, spec := spec } = .ok () := by
    simp [GraphTraversalExec.validateSpec, outgoing.algorithm, outgoing.direction]
  have collected : GraphTraversalExec.collectBfsRows target
      { graph := graph, reverse := reverse, spec := spec } usizeMax =
        .ok (result.visited, result.depths) := by
    rw [GraphTraversalExec.collectBfsRows, if_neg (by decide)]
    simp only [outgoing.direction, outgoing.start, outgoing.maxDepth, if_true, Checked.pure_eq_ok,
      Checked.ok_bind]
    cases reverse with
    | none =>
      simp only [Option.elim_none] at ran
      simp only [ran, Checked.ok_bind]
    | some reverse =>
      simp only [Option.elim_some] at ran
      simp only [ran, Checked.ok_bind]
  rw [GraphTraversalExec.execute, if_neg (by simp), valid, Checked.ok_bind]
  simp only [outgoing.maxNodes, collected, Checked.mapError, Checked.ok_bind, Checked.pure_eq_ok]

end Traversal

/-! ## The invariant of a history -/

section Invariant

variable {Dictionary : Type} {name : String} {ref : GraphRef} {catalog next : GraphCatalog Dictionary}
  {base : BaseLayer}

/-- The name stays bound to the graph, and a memoized transpose is a graph of its
own that fits. -/
structure HistoryInvariant (name : String) (ref : GraphRef) (base : BaseLayer)
    (catalog : GraphCatalog Dictionary) (entry : EntryRef) : Prop where
  bound : catalog.entry name = some entry
  forward : (catalog.entries entry).forward = ref
  inUse : ref < catalog.graphCount
  reachable : (catalog.graphs ref).Reachable
  stores : (catalog.graphs ref).Stores base
  resident : ∀ reverse, (catalog.entries entry).reverse = some reverse → reverse ≠ ref ∧
    (catalog.graphs reverse).delta = DeltaLayer.new ∧
    ∃ reversed, (catalog.graphs reverse).Stores reversed ∧
      TransposeFits (catalog.graphs ref) (catalog.graphs reverse) base reversed

namespace HistoryInvariant

variable {entry : EntryRef}

theorem residentReverse_eq (invariant : HistoryInvariant name ref base catalog entry) :
    catalog.residentReverse name = (catalog.entries entry).reverse := by
  rw [GraphCatalog.residentReverse, invariant.bound, Option.bind_some]

/-- Registering a graph starts a history. -/
theorem register (inUse : ref < catalog.graphCount) (reachable : (catalog.graphs ref).Reachable)
    (stores : (catalog.graphs ref).Stores base) :
    HistoryInvariant name ref base (catalog.register name ref).1 catalog.entryCount where
  bound := catalog.entry_bindEntry name (.new ref)
  forward := by
    rw [GraphCatalog.register, catalog.entries_bindEntry_self]
    rfl
  inUse := inUse
  reachable := reachable
  stores := stores
  resident reverse memoized := by
    rw [GraphCatalog.register, catalog.entries_bindEntry_self] at memoized
    cases memoized

/-- A call that changes the delta layer of the graph keeps the invariant when the
memoized transpose still fits. -/
theorem setDelta (invariant : HistoryInvariant name ref base catalog entry) {delta : DeltaLayer}
    (reachable : ((catalog.graphs ref).withDelta delta).Reachable)
    (fits : ∀ reverse reversed, (catalog.entries entry).reverse = some reverse →
      (catalog.graphs reverse).Stores reversed →
      TransposeFits (catalog.graphs ref) (catalog.graphs reverse) base reversed →
      TransposeFits ((catalog.graphs ref).withDelta delta) (catalog.graphs reverse) base reversed) :
    HistoryInvariant name ref base (catalog.setGraph ref ((catalog.graphs ref).withDelta delta))
      entry where
  bound := invariant.bound
  forward := invariant.forward
  inUse := invariant.inUse
  reachable := by rwa [GraphCatalog.graphs_setGraph_self]
  stores := by
    rw [GraphCatalog.graphs_setGraph_self]
    exact invariant.stores.withDelta delta
  resident reverse memoized := by
    obtain ⟨different, clean, reversed, stores, fit⟩ := invariant.resident reverse memoized
    rw [GraphCatalog.graphs_setGraph_of_ne _ _ _ different, GraphCatalog.graphs_setGraph_self]
    exact ⟨different, clean, reversed, stores, fits reverse reversed memoized stores fit⟩

/-- A snapshot of the live edges has the reversed base edges when no mutation is
pending. -/
theorem transpose_fits (invariant : HistoryInvariant name ref base catalog entry)
    {built : CsrGraph} (outcome : (catalog.graphs ref).transpose.2 = .ok built) :
    built.delta = DeltaLayer.new ∧ ∃ reversed, built.Stores reversed ∧
      TransposeFits (catalog.graphs ref) built base reversed := by
  obtain ⟨-, clean, reversed, stores, records⟩ := invariant.stores.transpose_records outcome
  refine ⟨clean, reversed, stores, fun empty _ _ source target => ?_⟩
  rw [invariant.reachable.mem_targets_transpose records, DeltaLayer.eq_new_of_isEmpty empty,
    BaseLayer.merged_new]

theorem reverse (invariant : HistoryInvariant name ref base catalog entry) :
    HistoryInvariant name ref base (catalog.reverse name).1 entry := by
  cases memoized : (catalog.entries entry).reverse with
  | some reverse =>
    simpa only [GraphCatalog.reverse_eq, invariant.bound, memoized] using invariant
  | none =>
    cases outcome : (catalog.graphs ref).transpose.2 with
    | error fault =>
      simpa only [GraphCatalog.reverse_eq, invariant.bound, memoized, invariant.forward, outcome]
        using invariant
    | ok built =>
      obtain ⟨clean, reversed, storesReverse, fits⟩ := invariant.transpose_fits outcome
      have own : ref ≠ catalog.graphCount := invariant.inUse.ne
      have graph : Function.update catalog.graphs catalog.graphCount built ref =
          catalog.graphs ref := Function.update_of_ne own ..
      simp only [GraphCatalog.reverse_eq, invariant.bound, memoized, invariant.forward, outcome,
        GraphCatalog.allocGraph]
      constructor
      · exact invariant.bound
      · simp only [Function.update_self]
      · exact Nat.lt_succ_of_lt invariant.inUse
      · simpa only [graph] using invariant.reachable
      · simpa only [graph] using invariant.stores
      · intro reverse found
        simp only [Function.update_self, Option.some.injEq] at found
        subst found
        simp only [graph, Function.update_self]
        exact ⟨own.symm, clean, reversed, storesReverse, fits⟩

/-- **Every call that meets the condition keeps the invariant.** -/
theorem step (invariant : HistoryInvariant name ref base catalog entry) {call : HistoryCall}
    (moved : HistoryStep HistoryCall.ClearsFresh name ref catalog call next) :
    HistoryInvariant name ref base next entry := by
  obtain ⟨possible, condition, rfl⟩ := moved
  cases call with
  | reverse => exact invariant.reverse
  | reorder order =>
    refine invariant.setDelta (invariant.reachable.reordered possible) ?_
    intro reverse reversed _ _ fits empty
    refine fits ?_
    have same : (catalog.graphs ref).delta.SameEntries order := possible
    rw [DeltaLayer.isEmpty_eq_true, AList.ext_iff, AList.ext_iff] at empty ⊢
    have insertions : order.insertions.entries = [] := empty.1
    have deletions : order.deletions.entries = [] := empty.2
    exact ⟨(insertions ▸ same.insertions).eq_nil, (deletions ▸ same.deletions).eq_nil⟩
  | mutate op =>
    refine invariant.setDelta (invariant.reachable.mutated op possible) ?_
    intro reverse reversed memoized stores fits empty nodes edges
    cases op with
    | insert source target data =>
      have none := ((DeltaLayer.isEmpty_eq_true _).mp empty).1
      have pending := ((catalog.graphs ref).delta.mem_insertions_insert source target data
        (source, target)).mpr (.inl rfl)
      exact absurd (none ▸ pending) (AList.notMem_empty _)
    | delete source target =>
      have none := ((DeltaLayer.isEmpty_eq_true _).mp empty).2
      have pending := ((catalog.graphs ref).delta.mem_deletions_delete source target
        (source, target)).mpr (.inl rfl)
      exact absurd (none ▸ pending) (AList.notMem_empty _)
    | clear =>
      rcases condition reverse (invariant.residentReverse_eq.trans memoized) with other | other | same
      · exact absurd nodes other
      · exact absurd edges other
      · intro source target
        have equal := same source target
        rw [stores.baseContains_eq, invariant.stores.baseContains_eq, Except.ok.injEq,
          decide_eq_decide] at equal
        exact equal

end HistoryInvariant

end Invariant

/-- **A resident transpose never changes the rows of an outgoing traversal**, in
any history in which no `clear` finds a stale transpose with the counts of the
graph. -/
theorem resident_transpose_unobservable {Dictionary : Type} {catalog current : GraphCatalog Dictionary}
    {name : String} {ref : GraphRef} {calls : List HistoryCall} {spec : TraversalSpec}
    {start maxDepth : ℕ} (inUse : ref < catalog.graphCount)
    (reachable : (catalog.graphs ref).Reachable)
    (history : Run (HistoryStep HistoryCall.ClearsFresh name ref) (catalog.register name ref).1
      calls current)
    (outgoing : spec.SingleOutgoing start maxDepth) (target : Target) :
    ∃ exec batch reference, current.outgoingExec name spec = some exec ∧
      exec.execute target 0 = .ok batch ∧
      bfs target (current.graphs ref) start maxDepth = .ok reference ∧
      batch.rows = reference.nodeDepths := by
  obtain ⟨base, stores⟩ := reachable.stores
  have invariant : HistoryInvariant name ref base current catalog.entryCount :=
    history.invariant (fun _ catalog' => HistoryInvariant name ref base catalog' catalog.entryCount)
      (.register inUse reachable stores) fun _ kept moved => kept.step moved
  have found : current.get name = some ref := by
    rw [GraphCatalog.get, invariant.bound, Option.map_some, invariant.forward]
  have exec : current.outgoingExec name spec = some
      { graph := current.graphs ref
        reverse := ((current.entries catalog.entryCount).reverse).map current.graphs
        spec := spec } := by
    rw [GraphCatalog.outgoingExec, found, Option.map_some, invariant.residentReverse_eq]
    cases (current.entries catalog.entryCount).reverse <;> rfl
  obtain ⟨result, reference, ran, returned, same⟩ : ∃ result reference,
      bfs target (current.graphs ref) start maxDepth = .ok reference ∧
      (((current.entries catalog.entryCount).reverse).map current.graphs).elim
        (bfsBounded target (current.graphs ref) [start] maxDepth none) (fun reverse =>
          Checked.orElse (bfsDirectionOptimized target (current.graphs ref) reverse start maxDepth)
            (bfsBounded target (current.graphs ref) [start] maxDepth none)) = .ok result ∧
      result.nodeDepths = reference.nodeDepths := by
    cases memoized : (current.entries catalog.entryCount).reverse with
    | none =>
      obtain ⟨reference, ran, -⟩ :=
        bfs_correct_on_merged_topology target invariant.reachable [start] maxDepth
      exact ⟨reference, reference, ran, ran, rfl⟩
    | some reverse =>
      obtain ⟨-, clean, reversed, storesReverse, fits⟩ := invariant.resident reverse memoized
      exact invariant.stores.directionOptimized_orElse invariant.reachable storesReverse clean fits
        target start maxDepth
  exact ⟨_, _, reference, exec, GraphTraversalExec.execute_outgoing outgoing target _ _ returned,
    ran, same⟩

/-- A call on a graph with few insertions is possible. -/
theorem HistoryCall.possible_mutate {Dictionary : Type} {ref : GraphRef}
    {catalog : GraphCatalog Dictionary} (op : DeltaOp)
    (few : (catalog.graphs ref).delta.insertions.entries.length < isizeMax) :
    (HistoryCall.mutate op).Possible ref catalog :=
  ((catalog.graphs ref).delta.length_insertions_apply op).trans few

theorem resident_transpose_unobservable_witness : ∃ (graph : CsrGraph) (current : GraphCatalog Unit),
    CsrGraph.fromEdges [(0, 1), (1, 2)] = .ok graph ∧
    Run (HistoryStep HistoryCall.ClearsFresh "g" 0) (.registering graph "g")
      [.mutate (.insert 0 2 .default), .mutate .clear, .reverse] current ∧
    ∃ exec batch reference,
      current.outgoingExec "g" { TraversalSpec.default with start := [0] } = some exec ∧
      exec.execute .other 0 = .ok batch ∧ bfs .other (current.graphs 0) 0 10 = .ok reference ∧
      batch.rows = reference.nodeDepths := by
  obtain ⟨graph, built, -⟩ := Checked.exists_of_passes
    (show (CsrGraph.fromEdges [(0, 1), (1, 2)]).passes (fun _ => true) = true by decide +kernel)
  have clean : graph.delta = DeltaLayer.new := (CsrBuilder.stores_of_build built).1
  obtain ⟨current, history⟩ : ∃ current, Run (HistoryStep HistoryCall.ClearsFresh "g" 0)
      (.registering graph "g") [.mutate (.insert 0 2 .default), .mutate .clear, .reverse] current := by
    refine ⟨_, .cons ⟨HistoryCall.possible_mutate _ ?_, trivial, rfl⟩
      (.cons ⟨Nat.zero_le _, ?_, rfl⟩ (.cons ⟨trivial, trivial, rfl⟩ .start))⟩
    · show graph.delta.insertions.entries.length < isizeMax
      rw [clean]
      decide
    · intro reverse memoized
      cases memoized
  exact ⟨graph, current, built, history, @resident_transpose_unobservable Unit
    (GraphCatalog.new.allocGraph graph).2 current "g" 0 _ { TraversalSpec.default with start := [0] }
    0 10 Nat.zero_lt_one (.built built) history ⟨rfl, rfl, rfl, rfl, rfl⟩ .other⟩

/-- With the base edges `(0, 1)` and `(1, 2)`, a transpose that is taken after the
edge from 1 to 2 has been replaced by one from 0 to 2 has the counts of the base
layer. After a `clear` the traversal from 0 reads it and reports node 2 at depth 1
and not at its depth 2. -/
theorem stale_transpose_changes_depths : ∃ (graph : CsrGraph) (current : GraphCatalog Unit),
    CsrGraph.fromEdges [(0, 1), (1, 2)] = .ok graph ∧ graph.Reachable ∧
    graph.delta.isEmpty = true ∧
    Run (HistoryStep (fun _ _ _ _ => True) "g" 0) (.registering graph "g")
      [.mutate (.delete 1 2), .mutate (.insert 0 2 .default), .reverse, .mutate .clear] current ∧
    ∃ exec batch reference,
      current.outgoingExec "g" { TraversalSpec.default with start := [0] } = some exec ∧
      exec.execute .other 0 = .ok batch ∧ bfs .other (current.graphs 0) 0 10 = .ok reference ∧
      (2, 1) ∈ batch.rows ∧ (2, 2) ∈ reference.nodeDepths ∧ batch.rows ≠ reference.nodeDepths := by
  obtain ⟨graph, built, ran⟩ := Checked.exists_of_passes
    (show (CsrGraph.fromEdges [(0, 1), (1, 2)]).passes (fun graph =>
        let current := [.mutate (.delete 1 2), .mutate (.insert 0 2 .default), .reverse,
          .mutate .clear].foldl (HistoryCall.run "g" 0) (.registering graph "g")
        (bfs .other (current.graphs 0) 0 10).passes fun reference =>
          (current.outgoingExec "g" { TraversalSpec.default with start := [0] }).any fun exec =>
            (exec.execute .other 0).passes fun batch =>
              decide ((2, 1) ∈ batch.nodeId.zip batch.depth ∧
                (2, 1) ∉ reference.visited.zip reference.depths ∧
                (2, 2) ∈ reference.visited.zip reference.depths)) = true by decide +kernel)
  have clean : graph.delta = DeltaLayer.new := (CsrBuilder.stores_of_build built).1
  obtain ⟨reference, plain, ran⟩ := Checked.exists_of_passes ran
  obtain ⟨exec, planned, ran⟩ := (Option.any_eq_true _ _).mp ran
  obtain ⟨batch, executed, rows⟩ := Checked.exists_of_passes ran
  obtain ⟨wrong, absent, right⟩ := of_decide_eq_true rows
  have history : Run (HistoryStep (fun _ _ _ _ => True) "g" 0) (.registering graph "g")
      [.mutate (.delete 1 2), .mutate (.insert 0 2 .default), .reverse, .mutate .clear]
      ([.mutate (.delete 1 2), .mutate (.insert 0 2 .default), .reverse, .mutate .clear].foldl
        (HistoryCall.run "g" 0) (.registering graph "g")) := by
    refine .cons ⟨HistoryCall.possible_mutate _ ?_, trivial, rfl⟩
      (.cons ⟨HistoryCall.possible_mutate _ ?_, trivial, rfl⟩
        (.cons ⟨trivial, trivial, rfl⟩ (.cons ⟨Nat.zero_le _, trivial, rfl⟩ .start)))
    · show graph.delta.insertions.entries.length < isizeMax
      rw [clean]
      decide
    · show (graph.delta.delete 1 2).insertions.entries.length < isizeMax
      rw [clean]
      decide
  refine ⟨graph, _, built, .built built, by rw [clean, DeltaLayer.isEmpty_new], history, exec, batch,
    reference, planned, executed, plain, wrong, right, fun same => ?_⟩
  have both : (2, 1) ∈ reference.nodeDepths := same ▸ wrong
  exact absent both

end FusionGraph
