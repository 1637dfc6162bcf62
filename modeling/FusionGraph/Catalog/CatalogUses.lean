import FusionGraph.Catalog.OntologyRegistration
import FusionGraph.Catalog.ResidentTranspose
import FusionGraph.Catalog.SerialCalls
import FusionGraph.Exec.TableFunctions
import FusionGraph.Foundations.NamedGraph

/-!
# A served graph among other uses of its catalog

A name serves a graph and its dictionary while other calls share graphs, bind and remove
other names, compact, ask for transposes, plan traversals, and change graphs. `Serves`
says what a query on the name relies on, and it is kept by every call that does not take
the name away or drain its graph (`Serves.step`).

The edges of the graph, under the keys of their nodes, change with the mutations of the
graph and with nothing else (`linksAfter`).
-/

set_option autoImplicit false

namespace FusionGraph

open Foundations Foundations.BreadthFirst

/-! ## Uses -/

/-- A call on a catalog, or on a graph that it leads to. -/
inductive CatalogUse where
  | share (graph : CsrGraph)
  | write (name : String) (call : RegistryWrite NodeDictionary)
  | compactIfNeeded (name : String) (policy : CompactionPolicy)
  | reverse (name : String)
  | traverse (debug : DebugText) (args : List Expr)
  | mutate (ref : GraphRef) (op : DeltaOp)
  /-- The iteration order of the hash maps of a delta layer changes. -/
  | reorder (ref : GraphRef) (order : DeltaLayer)

/-- A mutation adds edges between nodes that have keys only. -/
def DeltaOp.Keyed (dictionary : NodeDictionary) : DeltaOp → Prop
  | .insert source target _ => source < dictionary.len ∧ target < dictionary.len
  | _ => True

namespace CatalogUse

/-- The effect of the call on the catalog. -/
def run (catalog : GraphCatalog NodeDictionary) : CatalogUse → GraphCatalog NodeDictionary
  | share graph => (catalog.allocGraph graph).2
  | write name call => call.run name catalog
  | compactIfNeeded name policy => (catalog.compactIfNeeded name policy).1
  | reverse name => (catalog.reverse name).1
  | traverse debug args => (GraphTraverseUdtf.call debug args catalog).1
  | mutate ref op => catalog.setGraph ref ((catalog.graphs ref).mutate op)
  | reorder ref order => catalog.setGraph ref ((catalog.graphs ref).withDelta order)

/-- The call leaves the name to the graph: it does not bind or remove the name, compacts
the graph only when nothing is pending, does not change the memoized transpose, and
changes the graph as a history may that clears no stale transpose. -/
def Spares (name : String) (ref : GraphRef) (dictionary : NodeDictionary)
    (catalog : GraphCatalog NodeDictionary) : CatalogUse → Prop
  | share _ => True
  | write other _ => other ≠ name
  | compactIfNeeded other _ =>
    catalog.get other = some ref → (catalog.graphs ref).delta = DeltaLayer.new
  | reverse _ => True
  | traverse _ _ => True
  | mutate other op => catalog.residentReverse name ≠ some other ∧ (other = ref →
    (HistoryCall.mutate op).Possible ref catalog ∧
      (HistoryCall.mutate op).ClearsFresh name ref catalog ∧ op.Keyed dictionary)
  | reorder other order => catalog.residentReverse name ≠ some other ∧
    (other = ref → (HistoryCall.reorder order).Possible ref catalog)

/-- The call leaves the graph as it is. -/
def Rests (ref : GraphRef) : CatalogUse → Prop
  | mutate other _ => other ≠ ref
  | reorder other _ => other ≠ ref
  | _ => True

end CatalogUse

/-- A call that leaves a name to a graph. -/
def UseStep (name : String) (ref : GraphRef) (dictionary : NodeDictionary)
    (catalog : GraphCatalog NodeDictionary) (use : CatalogUse)
    (next : GraphCatalog NodeDictionary) : Prop :=
  use.Spares name ref dictionary catalog ∧ next = use.run catalog

/-! ## The edges between keys -/

/-- The edges between keys after a mutation of the graph, which was built with the
stored ones. -/
def DeltaOp.onLinks (dictionary : NodeDictionary) (stored live : String → String → Prop) :
    DeltaOp → String → String → Prop
  | .insert source target _ => fun a b =>
    live a b ∨ (dictionary.keyOf source = some a ∧ dictionary.keyOf target = some b)
  | .delete source target => fun a b =>
    live a b ∧ ¬ (dictionary.keyOf source = some a ∧ dictionary.keyOf target = some b)
  | .clear => stored

/-- The edges between keys after a call. -/
def CatalogUse.onLinks (ref : GraphRef) (dictionary : NodeDictionary)
    (stored live : String → String → Prop) : CatalogUse → String → String → Prop
  | .mutate other op => if other = ref then op.onLinks dictionary stored live else live
  | _ => live

/-- The edges between keys after calls. -/
def linksAfter (ref : GraphRef) (dictionary : NodeDictionary) (stored : String → String → Prop)
    (uses : List CatalogUse) : String → String → Prop :=
  uses.foldl (CatalogUse.onLinks ref dictionary stored) stored

/-! ## The edges of a mutated graph -/

section Edges

variable {graph : CsrGraph} {base : BaseLayer}

/-- The edges after a mutation. -/
def DeltaOp.onEdges (stored live : ℕ → ℕ → Prop) : DeltaOp → ℕ → ℕ → Prop
  | .insert source target _ => fun u v => live u v ∨ (u = source ∧ v = target)
  | .delete source target => fun u v => live u v ∧ ¬ (u = source ∧ v = target)
  | .clear => stored

/-- **A mutation changes the edges of the merged topology as it says.** -/
theorem CsrGraph.Stores.edge_mutate (stores : graph.Stores base) (op : DeltaOp) :
    (graph.mutate op).Edge = op.onEdges (fun u v => v ∈ base.targets u) graph.Edge := by
  funext u v
  refine propext ?_
  rw [CsrGraph.mutate, (stores.withDelta _).edge_iff]
  cases op with
  | insert source target data =>
    dsimp only [DeltaOp.onEdges]
    rw [stores.edge_iff, BaseLayer.mem_merged, BaseLayer.mem_merged]
    simp only [CsrGraph.withDelta, DeltaLayer.apply, DeltaLayer.mem_deletions_insert,
      DeltaLayer.mem_insertions_insert, ne_eq, Prod.mk.injEq]
    tauto
  | delete source target =>
    dsimp only [DeltaOp.onEdges]
    rw [stores.edge_iff, BaseLayer.mem_merged, BaseLayer.mem_merged]
    simp only [CsrGraph.withDelta, DeltaLayer.apply, DeltaLayer.mem_deletions_delete,
      DeltaLayer.mem_insertions_delete, ne_eq, Prod.mk.injEq]
    tauto
  | clear =>
    have cleared : (graph.withDelta (graph.delta.apply .clear)).delta = DeltaLayer.new := rfl
    rw [DeltaOp.onEdges, cleared, BaseLayer.merged_new]

/-- The order of the maps does not matter. -/
theorem CsrGraph.Stores.edge_reorder (stores : graph.Stores base) {order : DeltaLayer}
    (same : graph.delta.SameEntries order) : (graph.withDelta order).Edge = graph.Edge := by
  funext u v
  refine propext ?_
  rw [(stores.withDelta _).edge_iff, stores.edge_iff, BaseLayer.mem_merged, BaseLayer.mem_merged]
  have inserted := AList.mem_of_perm (a := (u, v)) same.insertions
  have deleted := AList.mem_of_perm (a := (u, v)) same.deletions
  simp only [CsrGraph.withDelta, inserted, deleted]

/-- The names of the edges after a mutation are the named edges after it. -/
theorem DeltaOp.named_onEdges {dictionary : NodeDictionary} (apart : NamesApart dictionary.keyOf)
    (stored live : ℕ → ℕ → Prop) (op : DeltaOp) :
    named dictionary.keyOf (op.onEdges stored live) =
      op.onLinks dictionary (named dictionary.keyOf stored) (named dictionary.keyOf live) := by
  funext a b
  refine propext ?_
  cases op with
  | insert source target data => exact named_insert source target
  | delete source target => exact named_delete apart source target
  | clear => exact Iff.rfl

end Edges

/-! ## What other calls keep -/

/-- The entry of the name, its graph and its transpose are as before. -/
structure GraphCatalog.KeepsEntry (before after : GraphCatalog NodeDictionary) (name : String)
    (entry : EntryRef) : Prop where
  bound : after.entry name = before.entry name
  record : after.entries entry = before.entries entry
  forward : after.graphs (before.entries entry).forward =
    before.graphs (before.entries entry).forward
  reverse : ∀ reverse, (before.entries entry).reverse = some reverse →
    after.graphs reverse = before.graphs reverse
  entryCount : before.entryCount ≤ after.entryCount
  graphCount : before.graphCount ≤ after.graphCount

/-- The name serves the graph and the dictionary: it is bound to an entry with the two,
and a memoized transpose is a graph of its own that fits. -/
structure Serves (name : String) (ref : GraphRef) (base : BaseLayer)
    (dictionary : NodeDictionary) (entry : EntryRef) (catalog : GraphCatalog NodeDictionary) :
    Prop where
  history : HistoryInvariant name ref base catalog entry
  entryInUse : entry < catalog.entryCount
  reverseInUse : ∀ reverse, (catalog.entries entry).reverse = some reverse →
    reverse < catalog.graphCount
  dictionary : (catalog.entries entry).dictionary = some dictionary

/-- The graph has no mutations, and a memoized transpose has its edges turned around. -/
structure AtRest (ref : GraphRef) (base : BaseLayer) (entry : EntryRef)
    (catalog : GraphCatalog NodeDictionary) : Prop where
  clean : (catalog.graphs ref).delta = DeltaLayer.new
  turned : ∀ reverse, (catalog.entries entry).reverse = some reverse →
    (catalog.graphs reverse).Reachable ∧ (catalog.graphs reverse).delta = DeltaLayer.new ∧
    ∃ reversed, (catalog.graphs reverse).Stores reversed ∧ Transposed base reversed ∧
      (catalog.graphs ref).edgeCount = (catalog.graphs reverse).edgeCount

section Served

variable {name : String} {ref : GraphRef} {base : BaseLayer} {dictionary : NodeDictionary}
  {entry : EntryRef} {catalog next : GraphCatalog NodeDictionary}

theorem GraphCatalog.KeepsEntry.refl : catalog.KeepsEntry catalog name entry :=
  ⟨rfl, rfl, rfl, fun _ _ => rfl, Nat.le_refl _, Nat.le_refl _⟩

theorem Serves.get_eq (serves : Serves name ref base dictionary entry catalog) :
    catalog.get name = some ref := by
  rw [GraphCatalog.get, serves.history.bound, Option.map_some, serves.history.forward]

theorem Serves.dictionary_eq (serves : Serves name ref base dictionary entry catalog) :
    catalog.dictionary name = some dictionary := by
  rw [GraphCatalog.dictionary, serves.history.bound, Option.bind_some, serves.dictionary]

/-- A name that is left alone serves as before. -/
theorem Serves.keep (serves : Serves name ref base dictionary entry catalog)
    (keeps : catalog.KeepsEntry next name entry) : Serves name ref base dictionary entry next := by
  obtain ⟨⟨bound, forward, inUse, reachable, stores, resident⟩, entryInUse, reverseInUse, keys⟩ :=
    serves
  have graph : next.graphs ref = catalog.graphs ref := by
    rw [← forward]
    exact keeps.forward
  refine ⟨⟨keeps.bound.trans bound, by rw [keeps.record, forward],
    inUse.trans_le keeps.graphCount, graph ▸ reachable, graph ▸ stores, fun reverse memoized => ?_⟩,
    entryInUse.trans_le keeps.entryCount, fun reverse memoized => ?_, by rw [keeps.record, keys]⟩
  · rw [keeps.record] at memoized
    rw [keeps.reverse reverse memoized, graph]
    exact resident reverse memoized
  · rw [keeps.record] at memoized
    exact (reverseInUse reverse memoized).trans_le keeps.graphCount

theorem AtRest.keep (rests : AtRest ref base entry catalog)
    (forward : (catalog.entries entry).forward = ref) (keeps : catalog.KeepsEntry next name entry) :
    AtRest ref base entry next := by
  have graph : next.graphs ref = catalog.graphs ref := by
    rw [← forward]
    exact keeps.forward
  refine ⟨graph ▸ rests.clean, fun reverse memoized => ?_⟩
  rw [keeps.record] at memoized
  rw [keeps.reverse reverse memoized, graph]
  exact rests.turned reverse memoized

/-- A graph of its own changes: the name is left alone. -/
theorem Serves.keeps_setGraph (serves : Serves name ref base dictionary entry catalog)
    {other : GraphRef} (graph : CsrGraph) (notForward : other ≠ ref)
    (notReverse : (catalog.entries entry).reverse ≠ some other) :
    catalog.KeepsEntry (catalog.setGraph other graph) name entry where
  bound := rfl
  record := rfl
  forward := by
    rw [serves.history.forward]
    exact catalog.graphs_setGraph_of_ne other graph notForward.symm
  reverse reverse memoized := catalog.graphs_setGraph_of_ne other graph fun same =>
    notReverse (same ▸ memoized)
  entryCount := Nat.le_refl _
  graphCount := Nat.le_refl _

theorem Serves.keeps_allocGraph (serves : Serves name ref base dictionary entry catalog)
    (graph : CsrGraph) : catalog.KeepsEntry (catalog.allocGraph graph).2 name entry where
  bound := rfl
  record := rfl
  forward := by
    rw [serves.history.forward]
    exact Function.update_of_ne serves.history.inUse.ne ..
  reverse reverse memoized := Function.update_of_ne (serves.reverseInUse reverse memoized).ne ..
  entryCount := Nat.le_refl _
  graphCount := Nat.le_succ _

theorem Serves.keeps_bindEntry (serves : Serves name ref base dictionary entry catalog)
    {other : String} (different : other ≠ name) (bound : GraphEntry NodeDictionary) :
    catalog.KeepsEntry (catalog.bindEntry other bound) name entry where
  bound := GraphCatalog.entry_bindEntry_of_ne _ different.symm
  record := GraphCatalog.entries_bindEntry_of_lt _ serves.entryInUse
  forward := rfl
  reverse _ _ := rfl
  entryCount := Nat.le_succ _
  graphCount := Nat.le_refl _

theorem GraphCatalog.KeepsEntry.trans {last : GraphCatalog NodeDictionary}
    (first : catalog.KeepsEntry next name entry) (second : next.KeepsEntry last name entry) :
    catalog.KeepsEntry last name entry where
  bound := second.bound.trans first.bound
  record := second.record.trans first.record
  forward := by
    have kept := second.forward
    rw [first.record] at kept
    exact kept.trans first.forward
  reverse reverse memoized :=
    (second.reverse reverse (first.record ▸ memoized)).trans (first.reverse reverse memoized)
  entryCount := first.entryCount.trans second.entryCount
  graphCount := first.graphCount.trans second.graphCount

/-- Binding or removing another name leaves the name alone. -/
theorem Serves.keeps_write (serves : Serves name ref base dictionary entry catalog)
    {other : String} (different : other ≠ name) (call : RegistryWrite NodeDictionary) :
    catalog.KeepsEntry (call.run other catalog) name entry := by
  cases call with
  | register graph => exact serves.keeps_bindEntry different _
  | registerWithReverse forward reverse => exact serves.keeps_bindEntry different _
  | registerWithDictionary forward dictionary => exact serves.keeps_bindEntry different _
  | deregister =>
    exact ⟨AList.lookup_erase_ne different.symm, rfl, rfl, fun _ _ => rfl, Nat.le_refl _,
      Nat.le_refl _⟩

/-- A compaction of another graph leaves the name alone. -/
theorem Serves.keeps_compactIfNeeded (serves : Serves name ref base dictionary entry catalog)
    {other : String} (policy : CompactionPolicy)
    (rests : catalog.get other = some ref → (catalog.graphs ref).delta = DeltaLayer.new) :
    catalog.KeepsEntry (catalog.compactIfNeeded other policy).1 name entry := by
  rw [GraphCatalog.compactIfNeeded]
  cases bound : catalog.entry other with
  | none => exact .refl
  | some found =>
    have get : catalog.get other = some (catalog.entries found).forward := by
      rw [GraphCatalog.get, bound, Option.map_some]
    by_cases needed :
        (catalog.graphs (catalog.entries found).forward).shouldCompact policy = true
    · have notClean : (catalog.graphs (catalog.entries found).forward).delta ≠ DeltaLayer.new := by
        intro clean
        rw [CsrGraph.shouldCompact_of_clean clean] at needed
        cases needed
      have notForward : (catalog.entries found).forward ≠ ref := by
        intro same
        rw [same] at notClean
        exact notClean (rests (get.trans (congrArg some same)))
      have notReverse : (catalog.entries entry).reverse ≠ some (catalog.entries found).forward :=
        fun memoized => notClean (serves.history.resident _ memoized).2.1
      have different : other ≠ name := by
        rintro rfl
        obtain rfl := Option.some.inj (serves.history.bound.symm.trans bound)
        exact notForward serves.history.forward
      simp only [if_pos needed]
      have drains : ∀ graph : CsrGraph,
          catalog.KeepsEntry (catalog.setGraph (catalog.entries found).forward graph) name entry :=
        fun graph => serves.keeps_setGraph graph notForward notReverse
      rcases (catalog.graphs (catalog.entries found).forward).compact with
        ⟨drained, fault | compacted⟩
      · exact drains drained
      · have emptied := drains (drained.withDelta
          (drained.delta.drainInsertions.2.drainDeletions).2)
        have after := serves.keep emptied
        have shared := after.keeps_allocGraph (GraphCatalog.replay compacted
          drained.delta.drainInsertions.1 (drained.delta.drainInsertions.2.drainDeletions).1)
        exact (emptied.trans shared).trans ((after.keep shared).keeps_bindEntry different _)
    · simp only [if_neg needed]
      exact .refl

/-- A transpose that is asked for under any name is memoized in its entry, or nothing
changes. -/
theorem GraphCatalog.reverse_cases {Dictionary : Type} (catalog : GraphCatalog Dictionary)
    (other : String) :
    (catalog.reverse other).1 = catalog ∨ ∃ found built, catalog.entry other = some found ∧
      (catalog.graphs (catalog.entries found).forward).transpose.2 = .ok built ∧
      (catalog.reverse other).1 =
        { (catalog.allocGraph built).2 with
          entries := Function.update catalog.entries found
            { catalog.entries found with reverse := some catalog.graphCount } } := by
  rw [GraphCatalog.reverse_eq]
  cases bound : catalog.entry other with
  | none => exact .inl rfl
  | some found =>
    dsimp only
    cases memoized : (catalog.entries found).reverse with
    | some reverse => exact .inl rfl
    | none =>
      dsimp only
      cases outcome : (catalog.graphs (catalog.entries found).forward).transpose.2 with
      | error fault => exact .inl rfl
      | ok built => exact .inr ⟨found, built, rfl, outcome, rfl⟩

/-- A transpose that is memoized in another entry leaves the name alone. -/
theorem Serves.keeps_memoize (serves : Serves name ref base dictionary entry catalog)
    {found : EntryRef} (different : found ≠ entry) (built : CsrGraph)
    (record : GraphEntry NodeDictionary) :
    catalog.KeepsEntry { (catalog.allocGraph built).2 with
      entries := Function.update catalog.entries found record } name entry where
  bound := rfl
  record := Function.update_of_ne different.symm ..
  forward := (serves.keeps_allocGraph built).forward
  reverse := (serves.keeps_allocGraph built).reverse
  entryCount := Nat.le_refl _
  graphCount := Nat.le_succ _

/-- Asking for a transpose under any name keeps what the name serves. -/
theorem Serves.reverse (serves : Serves name ref base dictionary entry catalog) (other : String) :
    Serves name ref base dictionary entry (catalog.reverse other).1 := by
  rcases catalog.reverse_cases other with same | ⟨found, built, bound, outcome, stored⟩
  · rw [same]
    exact serves
  · by_cases different : found = entry
    · subst different
      have asked : catalog.reverse other = catalog.reverse name := by
        rw [GraphCatalog.reverse_eq, GraphCatalog.reverse_eq, bound, serves.history.bound]
      rw [asked] at stored ⊢
      refine ⟨serves.history.reverse, ?_, fun reverse memoized => ?_, ?_⟩
      · rw [stored]
        exact serves.entryInUse
      · rw [stored] at memoized ⊢
        simp only [Function.update_self, Option.some.injEq] at memoized
        exact memoized ▸ Nat.lt_succ_self _
      · rw [stored]
        simpa only [Function.update_self] using serves.dictionary
    · rw [stored]
      exact serves.keep (serves.keeps_memoize different built _)

/-- Asking for a transpose keeps a graph at rest, and a transpose that is memoized turns
its edges around. -/
theorem AtRest.reverse (rests : AtRest ref base entry catalog)
    (serves : Serves name ref base dictionary entry catalog)
    (nodes : base.rows.length = nodeUniverse base.storedEdges) (other : String) :
    AtRest ref base entry (catalog.reverse other).1 := by
  rcases catalog.reverse_cases other with same | ⟨found, built, bound, outcome, stored⟩
  · rw [same]
    exact rests
  · by_cases different : found = entry
    · subst different
      rw [serves.history.forward] at outcome
      have graph : Function.update catalog.graphs catalog.graphCount built ref =
          catalog.graphs ref := Function.update_of_ne serves.history.inUse.ne ..
      obtain ⟨reverse, reversed, same, clean, stores, transposed, edges⟩ :=
        serves.history.stores.exists_transposed rests.clean nodes
      obtain rfl := Except.ok.inj (same.symm.trans outcome)
      have reachable := (serves.history.stores.transpose_records outcome).1
      rw [stored]
      refine ⟨by simpa only [GraphCatalog.allocGraph, graph] using rests.clean, ?_⟩
      intro memo memoized
      simp only [Function.update_self, Option.some.injEq] at memoized
      subst memoized
      simp only [GraphCatalog.allocGraph, graph, Function.update_self]
      exact ⟨reachable, clean, reversed, stores, transposed, edges⟩
    · rw [stored]
      exact rests.keep serves.history.forward (serves.keeps_memoize different built _)

/-- A mutation of the graph, or another order of its maps, as a history allows them. -/
theorem Serves.own (serves : Serves name ref base dictionary entry catalog)
    (call : HistoryCall) {graph : CsrGraph}
    (runs : call.run name ref catalog = catalog.setGraph ref graph)
    (possible : call.Possible ref catalog) (fresh : call.ClearsFresh name ref catalog) :
    Serves name ref base dictionary entry (catalog.setGraph ref graph) where
  history := runs ▸ serves.history.step ⟨possible, fresh, rfl⟩
  entryInUse := serves.entryInUse
  reverseInUse := serves.reverseInUse
  dictionary := serves.dictionary

theorem Serves.residentReverse_eq (serves : Serves name ref base dictionary entry catalog) :
    catalog.residentReverse name = (catalog.entries entry).reverse :=
  serves.history.residentReverse_eq

/-- The transpose of the name is a graph of its own. -/
theorem Serves.residentReverse_ne (serves : Serves name ref base dictionary entry catalog) :
    catalog.residentReverse name ≠ some ref := by
  intro memoized
  rw [serves.residentReverse_eq] at memoized
  exact (serves.history.resident ref memoized).1 rfl

/-- **A call that spares the name keeps what it serves.** -/
theorem Serves.step (serves : Serves name ref base dictionary entry catalog) {use : CatalogUse}
    (moved : UseStep name ref dictionary catalog use next) :
    Serves name ref base dictionary entry next := by
  obtain ⟨spares, rfl⟩ := moved
  cases use with
  | share graph => exact serves.keep (serves.keeps_allocGraph graph)
  | write other call => exact serves.keep (serves.keeps_write spares call)
  | compactIfNeeded other policy => exact serves.keep (serves.keeps_compactIfNeeded policy spares)
  | reverse other => exact serves.reverse other
  | traverse debug args =>
    rcases GraphTraverseUdtf.call_catalog debug args catalog with same | ⟨other, same⟩
    · rw [CatalogUse.run, same]
      exact serves
    · rw [CatalogUse.run, same]
      exact serves.reverse other
  | mutate other op =>
    obtain ⟨notReverse, own⟩ := spares
    rw [serves.residentReverse_eq] at notReverse
    by_cases here : other = ref
    · subst here
      obtain ⟨possible, fresh, -⟩ := own rfl
      exact serves.own (.mutate op) rfl possible fresh
    · exact serves.keep (serves.keeps_setGraph _ here notReverse)
  | reorder other order =>
    obtain ⟨notReverse, own⟩ := spares
    rw [serves.residentReverse_eq] at notReverse
    by_cases here : other = ref
    · subst here
      exact serves.own (.reorder order) rfl (own rfl) trivial
    · exact serves.keep (serves.keeps_setGraph _ here notReverse)

/-- **A call that leaves the graph as it is keeps it at rest.** -/
theorem AtRest.step (rests : AtRest ref base entry catalog)
    (serves : Serves name ref base dictionary entry catalog)
    (nodes : base.rows.length = nodeUniverse base.storedEdges) {use : CatalogUse}
    (moved : UseStep name ref dictionary catalog use next) (rest : use.Rests ref) :
    AtRest ref base entry next := by
  obtain ⟨spares, rfl⟩ := moved
  have keep : catalog.KeepsEntry (use.run catalog) name entry →
      AtRest ref base entry (use.run catalog) := rests.keep serves.history.forward
  cases use with
  | share graph => exact keep (serves.keeps_allocGraph graph)
  | write other call => exact keep (serves.keeps_write spares call)
  | compactIfNeeded other policy => exact keep (serves.keeps_compactIfNeeded policy spares)
  | reverse other => exact rests.reverse serves nodes other
  | traverse debug args =>
    rcases GraphTraverseUdtf.call_catalog debug args catalog with same | ⟨other, same⟩
    · rw [CatalogUse.run, same]
      exact rests
    · rw [CatalogUse.run, same]
      exact rests.reverse serves nodes other
  | mutate other op =>
    have notReverse := spares.1
    rw [serves.residentReverse_eq] at notReverse
    exact keep (serves.keeps_setGraph _ rest notReverse)
  | reorder other order =>
    have notReverse := spares.1
    rw [serves.residentReverse_eq] at notReverse
    exact keep (serves.keeps_setGraph _ rest notReverse)

/-! ## What a call does to the edges -/

theorem Serves.graph_reverse (serves : Serves name ref base dictionary entry catalog)
    (other : String) : (catalog.reverse other).1.graphs ref = catalog.graphs ref := by
  rcases catalog.reverse_cases other with same | ⟨found, built, -, -, stored⟩
  · rw [same]
  · rw [stored]
    exact Function.update_of_ne serves.history.inUse.ne ..

/-- The edges of the graph after a call. -/
def CatalogUse.onEdges (ref : GraphRef) (stored live : ℕ → ℕ → Prop) :
    CatalogUse → ℕ → ℕ → Prop
  | .mutate other op => if other = ref then op.onEdges stored live else live
  | _ => live

/-- **Only its own mutations change the edges of the graph.** -/
theorem Serves.edge_step (serves : Serves name ref base dictionary entry catalog)
    {use : CatalogUse} (moved : UseStep name ref dictionary catalog use next) :
    (next.graphs ref).Edge =
      use.onEdges ref (fun u v => v ∈ base.targets u) (catalog.graphs ref).Edge := by
  obtain ⟨spares, rfl⟩ := moved
  have same : catalog.KeepsEntry (use.run catalog) name entry →
      ((use.run catalog).graphs ref).Edge = (catalog.graphs ref).Edge := by
    intro keeps
    have kept := keeps.forward
    rw [serves.history.forward] at kept
    rw [kept]
  cases use with
  | share graph => exact same (serves.keeps_allocGraph graph)
  | write other call => exact same (serves.keeps_write spares call)
  | compactIfNeeded other policy => exact same (serves.keeps_compactIfNeeded policy spares)
  | reverse other => exact congrArg CsrGraph.Edge (serves.graph_reverse other)
  | traverse debug args =>
    refine congrArg CsrGraph.Edge ?_
    rw [CatalogUse.run]
    rcases GraphTraverseUdtf.call_catalog debug args catalog with same | ⟨other, same⟩
    · rw [same]
    · rw [same, serves.graph_reverse other]
  | mutate other op =>
    rw [CatalogUse.onEdges, CatalogUse.run]
    by_cases here : other = ref
    · subst here
      rw [if_pos rfl, catalog.graphs_setGraph_self, serves.history.stores.edge_mutate]
    · rw [if_neg here, catalog.graphs_setGraph_of_ne _ _ (Ne.symm here)]
  | reorder other order =>
    change ((catalog.setGraph other _).graphs ref).Edge = (catalog.graphs ref).Edge
    by_cases here : other = ref
    · subst here
      rw [catalog.graphs_setGraph_self, serves.history.stores.edge_reorder (spares.2 rfl)]
    · rw [catalog.graphs_setGraph_of_ne _ _ (Ne.symm here)]

/-- The edges between keys follow the edges of the graph. -/
theorem CatalogUse.named_onEdges (apart : NamesApart dictionary.keyOf)
    (stored live : ℕ → ℕ → Prop) (use : CatalogUse) :
    named dictionary.keyOf (use.onEdges ref stored live) =
      use.onLinks ref dictionary (named dictionary.keyOf stored) (named dictionary.keyOf live) := by
  cases use with
  | mutate other op =>
    rw [CatalogUse.onEdges, CatalogUse.onLinks]
    split
    · exact op.named_onEdges apart stored live
    · rfl
  | _ => rfl

/-- Edges stay between nodes with keys. -/
theorem CatalogUse.onEdges_keyed {catalog : GraphCatalog NodeDictionary} {use : CatalogUse}
    (spares : use.Spares name ref dictionary catalog) {stored live : ℕ → ℕ → Prop}
    (storedKeyed : ∀ u v, stored u v → u < dictionary.len ∧ v < dictionary.len)
    (liveKeyed : ∀ u v, live u v → u < dictionary.len ∧ v < dictionary.len) :
    ∀ u v, use.onEdges ref stored live u v → u < dictionary.len ∧ v < dictionary.len := by
  cases use with
  | mutate other op =>
    rw [CatalogUse.onEdges]
    split
    · rename_i here
      obtain ⟨-, -, keyed⟩ := spares.2 here
      cases op with
      | insert source target data =>
        rintro u v (old | ⟨rfl, rfl⟩)
        · exact liveKeyed u v old
        · exact keyed
      | delete source target => exact fun u v step => liveKeyed u v step.1
      | clear => exact storedKeyed
    · exact liveKeyed
  | _ => exact liveKeyed

end Served

end FusionGraph
