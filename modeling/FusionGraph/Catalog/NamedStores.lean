import FusionGraph.Catalog.CatalogUses
import FusionGraph.Catalog.OntologyRegistration
import FusionGraph.Catalog.SerialCalls
import FusionGraph.Core.StoreRun

/-!
# A set of edges under every name

What a catalog is for is a map from names to sets of edges, each with the
dictionary it was registered with. Registering a graph writes one name of the map,
an insertion or a deletion changes the set of one name, and neither a compaction
nor a transpose changes any.

Graphs are shared, and a compaction moves a name to a new graph while every other
name keeps its own. So the invariant of a run says that two names never lead to one
graph (`StandsFor.apart`): a write through one name is then no write through
another. It holds as long as each graph is registered under one name, and every
step keeps it (`StandsFor.step`).
-/

set_option autoImplicit false

namespace FusionGraph

open Foundations

variable {Dictionary : Type}

/-! ## Steps -/

namespace GraphCatalog

/-- Builds a graph, shares it and registers it. -/
def registerBuilt (self : GraphCatalog Dictionary) (calls : List BuilderCall)
    (register : GraphCatalog Dictionary → GraphRef → GraphCatalog Dictionary) :
    Outcome (GraphCatalog Dictionary) := do
  let graph ← (CsrBuilder.afterCalls calls).build
  let (forward, shared) := self.allocGraph graph
  .ok (register shared forward)

/-- Changes the graph registered under the name, if there is one. -/
def change (self : GraphCatalog Dictionary) (name : String) (effect : CsrGraph → CsrGraph) :
    GraphCatalog Dictionary :=
  match self.get name with
  | none => self
  | some ref => self.setGraph ref (effect (self.graphs ref))

end GraphCatalog

/-- A step of a caller that looks its graph up by name. The hash maps of a graph may
be found in another order at any time. -/
inductive NamedStep (Dictionary : Type) where
  | register (name : String) (calls : List BuilderCall)
  | registerWithReverse (name : String) (calls : List BuilderCall) (transpose : GraphRef)
  | registerWithDictionary (name : String) (calls : List BuilderCall) (dictionary : Dictionary)
  | deregister (name : String)
  | insert (name : String) (source target : ℕ) (data : EdgeData)
  | delete (name : String) (source target : ℕ)
  | compactIfNeeded (name : String) (policy : CompactionPolicy)
  | reverse (name : String)
  | reorder (name : String) (order : DeltaLayer)

/-- What a catalog is for: the sets of edges under its names, and their dictionaries. -/
abbrev NamedSets (Dictionary : Type) := String → Option (Set EdgeKey × Option Dictionary)

/-- Changes the set under the name, if there is one. -/
def NamedSets.change (sets : NamedSets Dictionary) (name : String)
    (effect : Set EdgeKey → Set EdgeKey) : NamedSets Dictionary :=
  Function.update sets name ((sets name).map (Prod.map effect id))

/-- The pairs of nodes that the calls of a builder add. -/
def addedKeys (calls : List BuilderCall) : Set EdgeKey :=
  {key | ∃ edge ∈ addedEdges calls, key = (edge.1, edge.2.1)}

/-- The calls of a builder give a graph with fewer nodes and edges than its arrays can
number. -/
structure SmallBuild (calls : List BuilderCall) : Prop where
  only : ∃ weighted, ∀ call ∈ calls, call.AddsOnly weighted
  endpoints : ∀ edge ∈ addedEdges calls, edge.1 < u32Max ∧ edge.2.1 < u32Max
  count : (addedEdges calls).length ≤ u32Max

namespace NamedStep

/-- The step on the catalog. -/
def run (catalog : GraphCatalog Dictionary) :
    NamedStep Dictionary → Outcome (GraphCatalog Dictionary)
  | register name calls =>
    catalog.registerBuilt calls fun shared forward => (shared.register name forward).1
  | registerWithReverse name calls transpose =>
    catalog.registerBuilt calls fun shared forward =>
      shared.registerWithReverse name forward transpose
  | registerWithDictionary name calls dictionary =>
    catalog.registerBuilt calls fun shared forward =>
      shared.registerWithDictionary name forward dictionary
  | deregister name => .ok (catalog.deregister name).1
  | insert name source target data =>
    .ok (catalog.change name fun graph => graph.mutate (.insert source target data))
  | delete name source target =>
    .ok (catalog.change name fun graph => graph.mutate (.delete source target))
  | compactIfNeeded name policy => do
    let (after, outcome) := catalog.compactIfNeeded name policy
    let _ ← outcome
    .ok after
  | reverse name => do
    let (after, outcome) := catalog.reverse name
    let _ ← outcome
    .ok after
  | reorder name order => .ok (catalog.change name fun graph => graph.withDelta order)

/-- The endpoints of the step are below `u32::MAX`. -/
def InRange : NamedStep Dictionary → Prop
  | register _ calls | registerWithReverse _ calls _ | registerWithDictionary _ calls _ =>
    SmallBuild calls
  | insert _ source target _ => source < u32Max ∧ target < u32Max
  | _ => True

/-- A graph that is compacted or transposed has fewer than `u32::MAX` edges, and another
order of a hash map has the same entries. -/
def Possible (catalog : GraphCatalog Dictionary) : NamedStep Dictionary → Prop
  | compactIfNeeded name _ | reverse name => ∀ ref, catalog.get name = some ref →
    ∃ live, (catalog.graphs ref).liveEdgeCount = .ok live ∧ live < u32Max
  | reorder name order => ∀ ref, catalog.get name = some ref →
    (catalog.graphs ref).delta.SameEntries order
  | _ => True

/-- The most edges that the step adds to a graph. -/
def added : NamedStep Dictionary → ℕ
  | register _ calls | registerWithReverse _ calls _ | registerWithDictionary _ calls _ =>
    (addedEdges calls).length
  | insert _ _ _ _ => 1
  | _ => 0

/-- The step on the sets. -/
def onSets (sets : NamedSets Dictionary) : NamedStep Dictionary → NamedSets Dictionary
  | register name calls | registerWithReverse name calls _ =>
    Function.update sets name (some (addedKeys calls, none))
  | registerWithDictionary name calls dictionary =>
    Function.update sets name (some (addedKeys calls, some dictionary))
  | deregister name => Function.update sets name none
  | insert name source target _ => sets.change name (· ∪ {(source, target)})
  | delete name source target => sets.change name (· \ {(source, target)})
  | compactIfNeeded _ _ | reverse _ | reorder _ _ => sets

end NamedStep

/-- The sets after a sequence of steps, from no name. -/
def setsAfter (steps : List (NamedStep Dictionary)) : NamedSets Dictionary :=
  steps.foldl NamedStep.onSets fun _ => none

/-- The runs of an empty catalog. -/
inductive CatalogRun : List (NamedStep Dictionary) → Outcome (GraphCatalog Dictionary) → Prop where
  | start : CatalogRun [] (.ok .new)
  | next {steps : List (NamedStep Dictionary)} {catalog : GraphCatalog Dictionary}
      (before : CatalogRun steps (.ok catalog)) (step : NamedStep Dictionary)
      (inRange : step.InRange) (possible : step.Possible catalog) :
      CatalogRun (steps ++ [step]) (step.run catalog)

/-! ## What a name shows -/

/-- The graph stands for the set, and its base layer and its insertions have at most
so many edges. -/
structure HoldsSet (graph : CsrGraph) (edges : Set EdgeKey) (total : ℕ) (base : BaseLayer) :
    Prop extends StoreInvariant False graph edges base where
  size : graph.edgeCount + graph.delta.insertions.entries.length ≤ total

namespace HoldsSet

variable {graph : CsrGraph} {edges : Set EdgeKey} {total more : ℕ} {base : BaseLayer}

theorem mono (holds : HoldsSet graph edges total base) (grows : total ≤ more) :
    HoldsSet graph edges more base :=
  { holds with size := holds.size.trans grows }

theorem insert (holds : HoldsSet graph edges total base) {source target : ℕ} (data : EdgeData)
    (inRange : source < u32Max ∧ target < u32Max) :
    HoldsSet (graph.mutate (.insert source target data)) (edges ∪ {(source, target)})
      (total + 1) base where
  toStoreInvariant := holds.toStoreInvariant.insert data inRange
  size := by
    have longer := graph.delta.length_insertions_apply (.insert source target data)
    exact (Nat.add_le_add_left longer graph.edgeCount).trans (Nat.succ_le_succ holds.size)

theorem delete (holds : HoldsSet graph edges total base) (source target : ℕ) :
    HoldsSet (graph.mutate (.delete source target)) (edges \ {(source, target)}) total base where
  toStoreInvariant := holds.toStoreInvariant.delete source target
  size :=
    (Nat.add_le_add_left (List.kerase_sublist _ _).length_le graph.edgeCount).trans holds.size

theorem reorder (holds : HoldsSet graph edges total base) {order : DeltaLayer}
    (same : graph.delta.SameEntries order) :
    HoldsSet (graph.withDelta order) edges total base where
  toStoreInvariant := holds.toStoreInvariant.reorder same
  size := (Nat.add_le_add_left same.insertions.length_eq.ge graph.edgeCount).trans holds.size

/-- A graph without its mutations stands for the edges of its base layer. -/
theorem drained (holds : HoldsSet graph edges total base) :
    HoldsSet (graph.withDelta .new) {key | key.2 ∈ base.merged .new key.1} total base where
  stores := holds.stores.withDelta .new
  disjoint := .new
  members source target := Iff.rfl
  inserted key member := by simp at member
  nodes := holds.nodes
  nodup := False.elim
  size := (Nat.le_add_right _ _).trans holds.size

theorem liveEdgeCount_le (holds : HoldsSet graph edges total base) :
    ∃ live, graph.liveEdgeCount = .ok live ∧ live ≤ total :=
  ⟨_, holds.stores.liveEdgeCount_eq,
    (holds.stores.length_merge_le graph.hasWeights graph.delta).trans holds.size⟩

/-- A compaction of few enough edges succeeds, and adds none. -/
theorem compact (holds : HoldsSet graph edges total base) {live : ℕ}
    (count : graph.liveEdgeCount = .ok live) (few : live < u32Max) :
    ∃ compacted layer, graph.compact.2 = .ok compacted ∧
      HoldsSet compacted edges total layer := by
  obtain ⟨compacted, layer, outcome, kept⟩ := holds.toStoreInvariant.compact count few
  refine ⟨compacted, layer, outcome, kept, ?_⟩
  obtain ⟨delta, found, stores, records⟩ := holds.stores.compact_records outcome
  rw [stores.edgeCount, records.count, delta]
  exact (holds.stores.length_merge_le graph.hasWeights graph.delta).trans holds.size

/-- A graph of few enough edges is transposed. -/
theorem transpose (holds : HoldsSet graph edges total base) {live : ℕ}
    (count : graph.liveEdgeCount = .ok live) (few : live < u32Max) :
    ∃ reverse, graph.transpose.2 = .ok reverse := by
  have inRange := holds.merge_inRange false
  refine holds.stores.transpose_ok
    (fun edge member => ⟨(inRange edge member).1.le, (inRange edge member).2.le⟩) ?_
  rw [holds.stores.liveEdgeCount_eq, Except.ok.injEq] at count
  rw [CsrGraph.length_merge base false graph.hasWeights graph.delta, count]
  exact few.le

/-- The graph of a builder holds the pairs that its calls add. -/
theorem of_build {calls : List BuilderCall} (small : SmallBuild calls) :
    ∃ graph base, (CsrBuilder.afterCalls calls).build = .ok graph ∧
      HoldsSet graph (addedKeys calls) (addedEdges calls).length base := by
  obtain ⟨weighted, only⟩ := small.only
  obtain ⟨graph, base, built, delta, stores, records⟩ :=
    (CsrBuilder.Holds.afterCalls only).build_ok
      (fun edge member =>
        ⟨(small.endpoints edge member).1.le, (small.endpoints edge member).2.le⟩)
      small.count (.inl (nodeUniverse_le small.endpoints))
  have invariant := StoreInvariant.built stores delta records small.endpoints
  refine ⟨graph, base, built, { invariant with nodup := False.elim, size := ?_ }⟩
  rw [stores.edgeCount, records.count, delta]
  exact Nat.le_refl _

end HoldsSet

namespace GraphCatalog

/-- The name shows the set and the dictionary, or nothing. -/
def ShowsSet (catalog : GraphCatalog Dictionary) (total : ℕ) (name : String) :
    Option (Set EdgeKey × Option Dictionary) → Prop
  | none => catalog.get name = none
  | some (edges, dictionary) => catalog.dictionary name = dictionary ∧
    ∃ ref base, catalog.get name = some ref ∧ HoldsSet (catalog.graphs ref) edges total base

variable {catalog after : GraphCatalog Dictionary} {name other : String} {ref : GraphRef}
  {shown : Option (Set EdgeKey × Option Dictionary)} {total more : ℕ}

theorem ShowsSet.of_sameBinding (shows : catalog.ShowsSet total name shown)
    (same : catalog.SameBinding after name) (grows : total ≤ more) :
    after.ShowsSet more name shown := by
  match shown, shows with
  | none, unbound => exact same.get.trans unbound
  | some (edges, dictionary), ⟨found, ref, base, bound, holds⟩ =>
    refine ⟨same.dictionary.trans found, ref, base, same.get.trans bound, ?_⟩
    rw [same.graph ref bound]
    exact holds.mono grows

theorem ShowsSet.exists_of_get (shows : catalog.ShowsSet total name shown)
    (bound : catalog.get name = some ref) :
    ∃ edges base, shown = some (edges, catalog.dictionary name) ∧
      HoldsSet (catalog.graphs ref) edges total base := by
  match shown, shows with
  | none, unbound => cases unbound.symm.trans bound
  | some (edges, dictionary), ⟨found, held, base, here, holds⟩ =>
    obtain rfl := Option.some.inj (here.symm.trans bound)
    exact ⟨edges, base, by rw [found], holds⟩

theorem ShowsSet.eq_none (shows : catalog.ShowsSet total name shown)
    (unbound : catalog.get name = none) : shown = none := by
  match shown, shows with
  | none, _ => rfl
  | some (edges, dictionary), ⟨_, ref, base, bound, _⟩ => cases unbound.symm.trans bound

/-- A change of a graph keeps what the names of other graphs show. -/
theorem sameBinding_setGraph (graph : CsrGraph) (different : catalog.get other ≠ some ref) :
    catalog.SameBinding (catalog.setGraph ref graph) other where
  get := rfl
  graph _ bound := graphs_setGraph_of_ne _ _ _ fun same => different (same ▸ bound)
  dictionary := rfl

/-- A compaction that is due and succeeds drains the graph and moves the name. -/
theorem compactIfNeeded_of_ok (catalog : GraphCatalog Dictionary) {entry : EntryRef}
    {policy : CompactionPolicy} {compacted : CsrGraph} (found : catalog.entry name = some entry)
    (due : (catalog.graphs (catalog.entries entry).forward).shouldCompact policy = true)
    (outcome : (catalog.graphs (catalog.entries entry).forward).compact.2 = .ok compacted) :
    catalog.compactIfNeeded name policy =
      (((catalog.setGraph (catalog.entries entry).forward
        ((catalog.graphs (catalog.entries entry).forward).withDelta .new)).allocGraph
          compacted).2.bindEntry name
            { forward := catalog.graphCount, reverse := none,
              dictionary := (catalog.entries entry).dictionary }, .ok true) := by
  generalize known : catalog.graphs (catalog.entries entry).forward = graph at due outcome ⊢
  have drains : graph.compact = (graph.withDelta .new, .ok compacted) := by
    rw [← outcome]
    simp only [CsrGraph.compact, DeltaLayer.drainDeletions_eq, DeltaLayer.drainInsertions_eq]
    rfl
  simp only [compactIfNeeded, found, known, due, if_true, drains]
  rfl

/-- A memoized transpose changes no other field of an entry. -/
theorem field_memoize (catalog : GraphCatalog Dictionary) (found : EntryRef)
    (memo : Option GraphRef) {Field : Type} (field : GraphEntry Dictionary → Field)
    (blind : ∀ record, field { record with reverse := memo } = field record) (entry : EntryRef) :
    field (Function.update catalog.entries found { catalog.entries found with reverse := memo }
      entry) = field (catalog.entries entry) := by
  rcases eq_or_ne entry found with rfl | different
  · rw [Function.update_self, blind]
  · rw [Function.update_of_ne different]

/-- Asking for a transpose changes what no name shows. -/
theorem WellFormed.reverse (wellFormed : catalog.WellFormed) (asked : String) :
    (catalog.reverse asked).1.WellFormed ∧
      ∀ name, catalog.SameBinding (catalog.reverse asked).1 name := by
  rcases catalog.reverse_cases asked with same | ⟨found, built, bound, outcome, stored⟩
  · rw [same]
    exact ⟨wellFormed, SameBinding.refl catalog⟩
  · -- Only the memo of the entry is written.
    have forward := catalog.field_memoize found (some catalog.graphCount)
      GraphEntry.forward fun _ => rfl
    have dictionary := catalog.field_memoize found (some catalog.graphCount)
      GraphEntry.dictionary fun _ => rfl
    rw [stored]
    refine ⟨⟨wellFormed.bound, fun entry inUse => ?_⟩, fun name => ⟨?_, fun ref bound => ?_, ?_⟩⟩
    · exact (forward entry).trans_lt (Nat.lt_succ_of_lt (wellFormed.forward entry inUse))
    · exact Option.map_congr fun entry _ => forward entry
    · exact Function.update_of_ne (wellFormed.get_lt bound).ne ..
    · exact Option.bind_congr fun entry _ => dictionary entry

end GraphCatalog

/-! ## The invariant -/

/-- Every name shows its set, two names never lead to one graph, and no graph under a
name has more edges than were added. -/
structure StandsFor (catalog : GraphCatalog Dictionary) (sets : NamedSets Dictionary)
    (total : ℕ) : Prop where
  wellFormed : catalog.WellFormed
  apart : ∀ ⦃first second : String⦄ ⦃ref : GraphRef⦄, catalog.get first = some ref →
    catalog.get second = some ref → first = second
  shows : ∀ name, catalog.ShowsSet total name (sets name)

namespace StandsFor

open GraphCatalog

variable {catalog after : GraphCatalog Dictionary} {sets : NamedSets Dictionary} {name : String}
  {ref : GraphRef} {graph : CsrGraph} {edges : Set EdgeKey} {base : BaseLayer} {total more : ℕ}

theorem new : StandsFor (.new : GraphCatalog Dictionary) (fun _ => none) 0 where
  wellFormed := .new
  apart _ _ _ bound := by cases bound
  shows name := rfl

/-- What changes no name keeps the sets. -/
theorem of_sameBinding (stands : StandsFor catalog sets total) (wellFormed : after.WellFormed)
    (same : ∀ name, catalog.SameBinding after name) : StandsFor after sets total where
  wellFormed := wellFormed
  apart first second _ left right :=
    stands.apart ((same first).get.symm.trans left) ((same second).get.symm.trans right)
  shows name := (stands.shows name).of_sameBinding (same name) (Nat.le_refl _)

/-- **What changes one name** writes its set, if no other name has its graph. -/
theorem update (stands : StandsFor catalog sets total) (wellFormed : after.WellFormed)
    (others : ∀ other, other ≠ name → catalog.SameBinding after other)
    (alone : ∀ other, other ≠ name → ∀ ref, catalog.get other = some ref →
      after.get name ≠ some ref)
    (grows : total ≤ more) {shown : Option (Set EdgeKey × Option Dictionary)}
    (own : after.ShowsSet more name shown) :
    StandsFor after (Function.update sets name shown) more where
  wellFormed := wellFormed
  apart first second _ left right := by
    by_cases isFirst : first = name <;> by_cases isSecond : second = name
    · rw [isFirst, isSecond]
    · subst isFirst
      exact absurd left (alone second isSecond _ ((others second isSecond).get.symm.trans right))
    · subst isSecond
      exact absurd right (alone first isFirst _ ((others first isFirst).get.symm.trans left))
    · exact stands.apart ((others first isFirst).get.symm.trans left)
        ((others second isSecond).get.symm.trans right)
  shows other := by
    by_cases same : other = name
    · subst same
      rw [Function.update_self]
      exact own
    · rw [Function.update_of_ne same]
      exact (stands.shows other).of_sameBinding (others other same) grows

/-- **A registered graph** is the set of its name. -/
theorem bind (stands : StandsFor catalog sets total) (name : String)
    (entry : GraphEntry Dictionary) (forward : entry.forward = catalog.graphCount)
    (holds : HoldsSet graph edges more base) (grows : total ≤ more) :
    StandsFor ((catalog.allocGraph graph).2.bindEntry name entry)
      (Function.update sets name (some (edges, entry.dictionary))) more := by
  have shared := stands.wellFormed.allocGraph graph
  have get : ((catalog.allocGraph graph).2.bindEntry name entry).get name =
      some catalog.graphCount := by
    rw [get_bindEntry, forward]
  refine stands.update (shared.bindEntry name (forward ▸ Nat.lt_succ_self _))
    (fun other different => ?_) (fun other _ ref bound => ?_) grows ⟨?_, _, base, get, ?_⟩
  · exact (stands.wellFormed.sameBinding_allocGraph other graph).trans
      (shared.sameBinding_bindEntry entry different)
  · rw [get, ne_eq, Option.some.injEq]
    exact (stands.wellFormed.get_lt bound).ne'
  · rw [GraphCatalog.dictionary, entry_bindEntry, Option.bind_some, entries_bindEntry_self]
  · rw [show ((catalog.allocGraph graph).2.bindEntry name entry).graphs catalog.graphCount = graph
      from Function.update_self ..]
    exact holds

/-- A graph that is built and registered. -/
theorem registerBuilt (stands : StandsFor catalog sets total) (name : String)
    (register : GraphCatalog Dictionary → GraphRef → GraphCatalog Dictionary)
    (entry : GraphEntry Dictionary) {calls : List BuilderCall} (small : SmallBuild calls)
    (forward : entry.forward = catalog.graphCount)
    (binds : ∀ graph, register (catalog.allocGraph graph).2 catalog.graphCount =
      (catalog.allocGraph graph).2.bindEntry name entry) :
    ∃ after, catalog.registerBuilt calls register = .ok after ∧
      StandsFor after (Function.update sets name (some (addedKeys calls, entry.dictionary)))
        (total + (addedEdges calls).length) := by
  obtain ⟨graph, base, built, holds⟩ := HoldsSet.of_build small
  refine ⟨(catalog.allocGraph graph).2.bindEntry name entry, ?_,
    stands.bind name entry forward (holds.mono (Nat.le_add_left _ _)) (Nat.le_add_right _ _)⟩
  rw [GraphCatalog.registerBuilt, built, ← binds graph]
  rfl

/-- **A change of the graph of a name** is a change of its set: no other name has
the graph. -/
theorem setGraph (stands : StandsFor catalog sets total) (bound : catalog.get name = some ref)
    (holds : HoldsSet graph edges more base) (grows : total ≤ more) :
    StandsFor (catalog.setGraph ref graph)
      (Function.update sets name (some (edges, catalog.dictionary name))) more := by
  have only : ∀ other, other ≠ name → catalog.get other ≠ some ref :=
    fun other different here => different (stands.apart here bound)
  have wellFormed : (catalog.setGraph ref graph).WellFormed :=
    ⟨stands.wellFormed.bound, stands.wellFormed.forward⟩
  refine stands.update wellFormed
    (fun other different => sameBinding_setGraph graph (only other different))
    (fun other different held here same => ?_) grows ⟨rfl, ref, base, bound, ?_⟩
  · obtain rfl := Option.some.inj (bound.symm.trans same)
    exact only other different here
  · rw [graphs_setGraph_self]
    exact holds

theorem mono (stands : StandsFor catalog sets total) (grows : total ≤ more) :
    StandsFor catalog sets more where
  wellFormed := stands.wellFormed
  apart := stands.apart
  shows name := (stands.shows name).of_sameBinding (.refl catalog name) grows

/-- A caller that changes the graph of a name, or finds none. -/
theorem change (stands : StandsFor catalog sets total) (name : String)
    (effect : CsrGraph → CsrGraph) (onSet : Set EdgeKey → Set EdgeKey) (grows : total ≤ more)
    (keeps : ∀ ref edges base, catalog.get name = some ref →
      HoldsSet (catalog.graphs ref) edges total base →
      HoldsSet (effect (catalog.graphs ref)) (onSet edges) more base) :
    StandsFor (catalog.change name effect) (sets.change name onSet) more := by
  rw [GraphCatalog.change, NamedSets.change]
  cases bound : catalog.get name with
  | none =>
    have unset := (stands.shows name).eq_none bound
    rw [unset, Option.map_none, ← unset, Function.update_eq_self]
    exact stands.mono grows
  | some ref =>
    obtain ⟨edges, base, shown, holds⟩ := (stands.shows name).exists_of_get bound
    rw [shown]
    exact stands.setGraph bound (keeps ref edges base bound holds) grows

theorem deregister (stands : StandsFor catalog sets total) (name : String) :
    StandsFor (catalog.deregister name).1 (Function.update sets name none) total := by
  have erased : (catalog.deregister name).1.entry name = none :=
    AList.lookup_erase name catalog.registry
  have others : ∀ other, other ≠ name →
      (catalog.deregister name).1.entry other = catalog.entry other :=
    fun other different => AList.lookup_erase_ne different
  have unbound : (catalog.deregister name).1.get name = none := by
    rw [GraphCatalog.get, erased, Option.map_none]
  have wellFormed : (catalog.deregister name).1.WellFormed := by
    refine ⟨fun other ref bound => ?_, stands.wellFormed.forward⟩
    by_cases same : other = name
    · rw [same, erased] at bound
      cases bound
    · exact stands.wellFormed.bound other ref ((others other same).symm.trans bound)
  have own : (catalog.deregister name).1.ShowsSet total name none := unbound
  refine stands.update wellFormed
    (fun other different => ⟨?_, fun ref bound => rfl, ?_⟩) (fun other _ ref _ => ?_)
    (Nat.le_refl _) own
  · rw [GraphCatalog.get, others other different]
    rfl
  · rw [GraphCatalog.dictionary, others other different]
    rfl
  · rw [unbound]
    exact (Option.some_ne_none ref).symm

/-- **A compaction succeeds and moves the name to a graph with its edges.** The graph
that it had keeps its base layer, and no name leads to it. -/
theorem compactIfNeeded (stands : StandsFor catalog sets total) (name : String)
    (policy : CompactionPolicy) (few : (NamedStep.compactIfNeeded name policy).Possible catalog) :
    ∃ ran, (catalog.compactIfNeeded name policy).2 = .ok ran ∧
      StandsFor (catalog.compactIfNeeded name policy).1 sets total := by
  cases found : catalog.entry name with
  | none =>
    refine ⟨false, ?_, ?_⟩ <;> simp only [GraphCatalog.compactIfNeeded, found]
    exact stands
  | some entry =>
    have bound : catalog.get name = some (catalog.entries entry).forward := by
      rw [GraphCatalog.get, found, Option.map_some]
    have dictionary : catalog.dictionary name = (catalog.entries entry).dictionary := by
      rw [GraphCatalog.dictionary, found, Option.bind_some]
    by_cases due : (catalog.graphs (catalog.entries entry).forward).shouldCompact policy = true
    · obtain ⟨edges, base, shown, holds⟩ := (stands.shows name).exists_of_get bound
      obtain ⟨live, count, few⟩ := few _ bound
      obtain ⟨compacted, layer, outcome, kept⟩ := holds.compact count few
      rw [catalog.compactIfNeeded_of_ok found due outcome]
      -- The name is bound twice: to the drained graph, and then to the compacted one.
      have drained := stands.setGraph bound holds.drained (Nat.le_refl _)
      have moved := drained.bind name
        { forward := catalog.graphCount, reverse := none,
          dictionary := (catalog.entries entry).dictionary } rfl kept (Nat.le_refl _)
      rw [Function.update_idem, ← dictionary, ← shown, Function.update_eq_self] at moved
      exact ⟨true, rfl, dictionary ▸ moved⟩
    · refine ⟨false, ?_, ?_⟩ <;>
        simp only [GraphCatalog.compactIfNeeded, found, if_neg due]
      exact stands

/-- **Asking for a transpose succeeds and changes no set.** -/
theorem reverse (stands : StandsFor catalog sets total) (name : String)
    (few : (NamedStep.reverse name).Possible catalog) :
    ∃ found, (catalog.reverse name).2 = .ok found ∧
      StandsFor (catalog.reverse name).1 sets total := by
  obtain ⟨wellFormed, same⟩ := stands.wellFormed.reverse name
  suffices answers : ∃ found, (catalog.reverse name).2 = .ok found by
    obtain ⟨found, outcome⟩ := answers
    exact ⟨found, outcome, stands.of_sameBinding wellFormed same⟩
  rw [GraphCatalog.reverse_eq]
  cases found : catalog.entry name with
  | none => exact ⟨none, rfl⟩
  | some entry =>
    cases memoized : (catalog.entries entry).reverse with
    | some reverse => exact ⟨some reverse, by simp only [memoized]⟩
    | none =>
      have bound : catalog.get name = some (catalog.entries entry).forward := by
        rw [GraphCatalog.get, found, Option.map_some]
      obtain ⟨edges, base, -, holds⟩ := (stands.shows name).exists_of_get bound
      obtain ⟨live, count, few⟩ := few _ bound
      obtain ⟨built, outcome⟩ := holds.transpose count few
      exact ⟨some catalog.graphCount, by simp only [memoized, outcome]⟩

/-- **Every step succeeds and keeps the relation to the sets.** -/
theorem step (stands : StandsFor catalog sets total) (step : NamedStep Dictionary)
    (inRange : step.InRange) (possible : step.Possible catalog) :
    ∃ after, step.run catalog = .ok after ∧
      StandsFor after (step.onSets sets) (total + step.added) := by
  cases step with
  | register name calls =>
    exact stands.registerBuilt name (fun shared forward => (shared.register name forward).1)
      (.new catalog.graphCount) inRange rfl fun graph => rfl
  | registerWithReverse name calls transpose =>
    exact stands.registerBuilt name
      (fun shared forward => shared.registerWithReverse name forward transpose)
      { forward := catalog.graphCount, reverse := some transpose, dictionary := none }
      inRange rfl fun graph => rfl
  | registerWithDictionary name calls dictionary =>
    exact stands.registerBuilt name
      (fun shared forward => shared.registerWithDictionary name forward dictionary)
      { forward := catalog.graphCount, reverse := none, dictionary := some dictionary }
      inRange rfl fun graph => rfl
  | deregister name => exact ⟨_, rfl, stands.deregister name⟩
  | insert name source target data =>
    exact ⟨_, rfl, stands.change name _ _ (Nat.le_succ _) fun ref edges base bound holds =>
      holds.insert data inRange⟩
  | delete name source target =>
    exact ⟨_, rfl, stands.change name _ _ (Nat.le_refl _) fun ref edges base bound holds =>
      holds.delete source target⟩
  | compactIfNeeded name policy =>
    obtain ⟨ran, outcome, kept⟩ := stands.compactIfNeeded name policy possible
    refine ⟨_, ?_, kept⟩
    have returned : catalog.compactIfNeeded name policy =
        ((catalog.compactIfNeeded name policy).1, .ok ran) := Prod.ext rfl outcome
    rw [NamedStep.run, returned]
    rfl
  | reverse name =>
    obtain ⟨found, outcome, kept⟩ := stands.reverse name possible
    refine ⟨_, ?_, kept⟩
    have returned : catalog.reverse name = ((catalog.reverse name).1, .ok found) :=
      Prod.ext rfl outcome
    rw [NamedStep.run, returned]
    rfl
  | reorder name order =>
    refine ⟨_, rfl, ?_⟩
    have kept := stands.change name (fun graph => graph.withDelta order) id (Nat.le_refl _)
      fun ref edges base bound holds => holds.reorder (possible ref bound)
    rwa [NamedSets.change, Prod.map_id, Option.map_id, id, Function.update_eq_self] at kept

/-- While few edges were added, every graph is small enough. -/
theorem liveEdgeCount_lt (stands : StandsFor catalog sets total) (few : total < u32Max)
    (bound : catalog.get name = some ref) :
    ∃ live, (catalog.graphs ref).liveEdgeCount = .ok live ∧ live < u32Max := by
  obtain ⟨edges, base, -, holds⟩ := (stands.shows name).exists_of_get bound
  obtain ⟨live, count, size⟩ := holds.liveEdgeCount_le
  exact ⟨live, count, size.trans_lt few⟩

/-- Then every step but another order is possible. -/
theorem possible (stands : StandsFor catalog sets total) (few : total < u32Max)
    {step : NamedStep Dictionary} (ordered : ∀ name order, step ≠ .reorder name order) :
    step.Possible catalog := by
  cases step with
  | compactIfNeeded name policy => exact fun ref bound => stands.liveEdgeCount_lt few bound
  | reverse name => exact fun ref bound => stands.liveEdgeCount_lt few bound
  | reorder name order => exact absurd rfl (ordered name order)
  | _ => trivial

end StandsFor

/-! ## Runs -/

/-- The edges that the steps add. -/
def edgesAdded (steps : List (NamedStep Dictionary)) : ℕ := (steps.map NamedStep.added).sum

theorem edgesAdded_concat (steps : List (NamedStep Dictionary)) (step : NamedStep Dictionary) :
    edgesAdded (steps ++ [step]) = edgesAdded steps + step.added := by
  simp [edgesAdded]

namespace CatalogRun

variable {steps : List (NamedStep Dictionary)} {outcome : Outcome (GraphCatalog Dictionary)}

/-- **A run keeps the relation to the sets**, and none of its steps fails. -/
theorem standsFor (run : CatalogRun steps outcome) :
    ∃ catalog, outcome = .ok catalog ∧
      StandsFor catalog (setsAfter steps) (edgesAdded steps) := by
  induction run with
  | start => exact ⟨.new, rfl, .new⟩
  | next before step inRange possible ih =>
    obtain ⟨catalog, same, stands⟩ := ih
    obtain rfl := Except.ok.inj same
    obtain ⟨after, ran, kept⟩ := stands.step step inRange possible
    refine ⟨after, ran, ?_⟩
    rw [setsAfter, List.foldl_append, edgesAdded_concat]
    exact kept

/-- **Steps in range that add fewer than `u32::MAX` edges are a run.** -/
theorem exists_of_added (steps : List (NamedStep Dictionary))
    (inRange : ∀ step ∈ steps, step.InRange)
    (ordered : ∀ step ∈ steps, ∀ name order, step ≠ .reorder name order)
    (few : edgesAdded steps < u32Max) : ∃ catalog, CatalogRun steps (.ok catalog) := by
  induction steps using List.reverseRecOn with
  | nil => exact ⟨.new, .start⟩
  | append_singleton steps step ih =>
    have last : step ∈ steps ++ [step] := List.mem_append_right _ List.mem_cons_self
    rw [edgesAdded_concat] at few
    obtain ⟨catalog, before⟩ := ih (fun step member => inRange step (List.mem_append_left _ member))
      (fun step member => ordered step (List.mem_append_left _ member)) (by omega)
    obtain ⟨same, returned, stands⟩ := before.standsFor
    obtain rfl := Except.ok.inj returned
    have possible := stands.possible (by omega) (ordered step last)
    obtain ⟨after, ran, -⟩ := stands.step step (inRange step last) possible
    exact ⟨after, ran ▸ before.next step (inRange step last) possible⟩

end CatalogRun

/-! ## What callers read -/

/-- What a caller reads under a name is its set and its dictionary, or that there is
none. -/
def GraphCatalog.Reads (catalog : GraphCatalog Dictionary) (name : String) :
    Option (Set EdgeKey × Option Dictionary) → Prop
  | none => catalog.get name = none ∧ catalog.dictionary name = none
  | some (edges, dictionary) => catalog.dictionary name = dictionary ∧
    ∃ ref, catalog.get name = some ref ∧ ∀ source target, ∃ neighbors,
      (catalog.graphs ref).neighbors source = .ok neighbors ∧
      (target ∈ neighbors ↔ (source, target) ∈ edges) ∧
      ((catalog.graphs ref).hasEdge source target = .ok true ↔ (source, target) ∈ edges) ∧
      ((catalog.graphs ref).hasEdge source target = .ok false ↔ (source, target) ∉ edges)

theorem GraphCatalog.ShowsSet.reads {catalog : GraphCatalog Dictionary} {name : String}
    {total : ℕ} {shown : Option (Set EdgeKey × Option Dictionary)}
    (shows : catalog.ShowsSet total name shown) : catalog.Reads name shown := by
  match shown, shows with
  | none, unbound =>
    have free : catalog.entry name = none := Option.map_eq_none_iff.mp unbound
    exact ⟨unbound, by rw [GraphCatalog.dictionary, free, Option.bind_none]⟩
  | some (edges, dictionary), ⟨found, ref, base, bound, holds⟩ =>
    refine ⟨found, ref, bound, fun source target => ?_⟩
    obtain ⟨neighbors, returned, listed, present, absent, -⟩ :=
      holds.toStoreInvariant.reads source target
    exact ⟨neighbors, returned, listed, present, absent⟩

/-- **The catalog refines a map from names to sets of edges over whole runs.** Every
step of every run succeeds, compactions and transpositions among them, and after it both
query paths of the graph under a name agree with the set that the writes under this name
have left, whatever was done under other names; the dictionary is the one it was
registered with. -/
theorem catalog_refines_named_sets {steps : List (NamedStep Dictionary)}
    {outcome : Outcome (GraphCatalog Dictionary)} (run : CatalogRun steps outcome) :
    ∃ catalog, outcome = .ok catalog ∧ ∀ name, catalog.Reads name (setsAfter steps name) := by
  obtain ⟨catalog, same, stands⟩ := run.standsFor
  exact ⟨catalog, same, fun name => (stands.shows name).reads⟩

theorem catalog_refines_named_sets_witness :
    ∃ (catalog : GraphCatalog Unit) (first second : GraphRef),
      CatalogRun [.register "a" [.edges [(0, 1)]],
        .registerWithDictionary "b" [.edges [(0, 1)]] (), .insert "a" 1 2 .default,
        .reverse "a", .compactIfNeeded "a" .eager, .delete "a" 0 1, .reverse "c"]
        (.ok catalog) ∧
      catalog.get "a" = some first ∧ (catalog.graphs first).hasEdge 0 1 = .ok false ∧
        (catalog.graphs first).hasEdge 1 2 = .ok true ∧
      catalog.get "b" = some second ∧ (catalog.graphs second).hasEdge 0 1 = .ok true ∧
        catalog.dictionary "b" = some () := by
  have small : SmallBuild [.edges [(0, 1)]] :=
    ⟨⟨false, by simp [BuilderCall.AddsOnly]⟩, by simp [addedEdges, BuilderCall.added, u32Max],
      by simp [addedEdges, BuilderCall.added, u32Max]⟩
  have keys : addedKeys [.edges [(0, 1)]] = {(0, 1)} := by
    ext key
    simp [addedKeys, addedEdges, BuilderCall.added]
  obtain ⟨catalog, run⟩ := CatalogRun.exists_of_added
    [NamedStep.register "a" [.edges [(0, 1)]],
      .registerWithDictionary "b" [.edges [(0, 1)]] (), .insert "a" 1 2 .default,
      .reverse "a", .compactIfNeeded "a" .eager, .delete "a" 0 1, .reverse "c"]
    (by simp [NamedStep.InRange, small, u32Max]) (by simp)
    (by simp [edgesAdded, NamedStep.added, addedEdges, BuilderCall.added, u32Max])
  obtain ⟨same, returned, reads⟩ := catalog_refines_named_sets run
  obtain rfl := Except.ok.inj returned
  obtain ⟨-, first, boundFirst, readsFirst⟩ : catalog.Reads "a"
      (some (({(0, 1)} ∪ {(1, 2)}) \ {(0, 1)}, none)) := by
    simpa [setsAfter, NamedStep.onSets, NamedSets.change, keys] using reads "a"
  obtain ⟨dictionary, second, boundSecond, readsSecond⟩ :
      catalog.Reads "b" (some ({(0, 1)}, some ())) := by
    simpa [setsAfter, NamedStep.onSets, NamedSets.change, keys] using reads "b"
  obtain ⟨_, -, -, -, deleted⟩ := readsFirst 0 1
  obtain ⟨_, -, -, inserted, -⟩ := readsFirst 1 2
  obtain ⟨_, -, -, kept, -⟩ := readsSecond 0 1
  exact ⟨catalog, first, second, run, boundFirst, deleted.mpr (by simp), inserted.mpr (by simp),
    boundSecond, kept.mpr (by simp), dictionary⟩

end FusionGraph
