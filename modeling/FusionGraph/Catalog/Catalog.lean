import FusionGraph.Core.Merge
import Mathlib.Logic.Function.Basic

/-!
# The graph catalog

The catalog maps names to entries, and an entry points at a graph, at its
memoized transpose once that has been asked for, and at a node dictionary.
Entries and graphs are shared: a caller that holds a graph sees every later
change of its delta layer, and keeps the graph after its name is bound to
another one. The state therefore has a store of graphs and a store of entries,
and a reference is a position in one of them.

The type of dictionaries is a parameter; the catalog only passes them on.
-/

set_option autoImplicit false

namespace FusionGraph

open Foundations

/-- A reference to a shared graph. -/
abbrev GraphRef := ℕ

/-- A reference to a shared catalog entry. -/
abbrev EntryRef := ℕ

/-- A registered graph, its memoized transpose and its dictionary. -/
structure GraphEntry (Dictionary : Type) where
  forward : GraphRef
  reverse : Option GraphRef
  dictionary : Option Dictionary

/-- `GraphEntry::new`. -/
def GraphEntry.new {Dictionary : Type} (forward : GraphRef) : GraphEntry Dictionary where
  forward := forward
  reverse := none
  dictionary := none

/-- The registry, and the shared graphs and entries that it leads to. -/
structure GraphCatalog (Dictionary : Type) where
  /-- Names and the entries they are bound to. -/
  registry : AList (fun _ : String => EntryRef)
  /-- The graphs, of which those below `graphCount` are in use. -/
  graphs : GraphRef → CsrGraph
  graphCount : ℕ
  /-- The entries, of which those below `entryCount` are in use. -/
  entries : EntryRef → GraphEntry Dictionary
  entryCount : ℕ

namespace GraphCatalog

variable {Dictionary : Type}

/-- The catalog without names. -/
def new : GraphCatalog Dictionary where
  registry := ∅
  graphs _ := .empty
  graphCount := 0
  entries _ := .new 0
  entryCount := 0

/-- Shares a new graph. -/
def allocGraph (self : GraphCatalog Dictionary) (graph : CsrGraph) :
    GraphRef × GraphCatalog Dictionary :=
  (self.graphCount,
    { self with
      graphs := Function.update self.graphs self.graphCount graph
      graphCount := self.graphCount + 1 })

/-- Changes a shared graph in place. -/
def setGraph (self : GraphCatalog Dictionary) (ref : GraphRef) (graph : CsrGraph) :
    GraphCatalog Dictionary :=
  { self with graphs := Function.update self.graphs ref graph }

/-- Shares a new entry and binds the name to it. -/
def bindEntry (self : GraphCatalog Dictionary) (name : String) (entry : GraphEntry Dictionary) :
    GraphCatalog Dictionary :=
  { self with
    registry := self.registry.insert name self.entryCount
    entries := Function.update self.entries self.entryCount entry
    entryCount := self.entryCount + 1 }

/-- The entry that the name is bound to. -/
def entry (self : GraphCatalog Dictionary) (name : String) : Option EntryRef :=
  self.registry.lookup name

/-- The graph registered under the name. -/
def get (self : GraphCatalog Dictionary) (name : String) : Option GraphRef :=
  (self.entry name).map fun ref => (self.entries ref).forward

/-- The transpose of the graph registered under the name, when it is memoized. -/
def residentReverse (self : GraphCatalog Dictionary) (name : String) : Option GraphRef :=
  (self.entry name).bind fun ref => (self.entries ref).reverse

/-- The dictionary of the graph registered under the name. -/
def dictionary (self : GraphCatalog Dictionary) (name : String) : Option Dictionary :=
  (self.entry name).bind fun ref => (self.entries ref).dictionary

/-- Registers a graph; returns the graph registered before. -/
def register (self : GraphCatalog Dictionary) (name : String) (graph : GraphRef) :
    GraphCatalog Dictionary × Option GraphRef :=
  (self.bindEntry name (.new graph), self.get name)

/-- Registers a graph together with its transpose. -/
def registerWithReverse (self : GraphCatalog Dictionary) (name : String)
    (forward reverse : GraphRef) : GraphCatalog Dictionary :=
  self.bindEntry name { forward := forward, reverse := some reverse, dictionary := none }

/-- Registers a graph together with its dictionary. -/
def registerWithDictionary (self : GraphCatalog Dictionary) (name : String) (forward : GraphRef)
    (dictionary : Dictionary) : GraphCatalog Dictionary :=
  self.bindEntry name { forward := forward, reverse := none, dictionary := some dictionary }

/-- Removes the name; returns the graph registered under it. -/
def deregister (self : GraphCatalog Dictionary) (name : String) :
    GraphCatalog Dictionary × Option GraphRef :=
  ({ self with registry := self.registry.erase name }, self.get name)

/-- The transpose of the graph registered under the name, built on first use. -/
def reverse (self : GraphCatalog Dictionary) (name : String) :
    GraphCatalog Dictionary × Outcome (Option GraphRef) :=
  match self.entry name with
  | none => (self, .ok none)
  | some ref =>
    let entry := self.entries ref
    match entry.reverse with
    | some reverse => (self, .ok (some reverse))
    | none =>
      match (self.graphs entry.forward).transpose with
      | (read, .error fault) => (self.setGraph entry.forward read, .error fault)
      | (read, .ok built) =>
        let (reverse, shared) := (self.setGraph entry.forward read).allocGraph built
        ({ shared with
          entries := Function.update shared.entries ref { entry with reverse := some reverse } },
          .ok (some reverse))

/-- Applies the mutations that were drained after a compaction to the new graph. -/
def replay (compacted : CsrGraph) (insertions : List (EdgeKey × EdgeData))
    (deletions : List EdgeKey) : CsrGraph :=
  let inserted := insertions.foldl
    (fun graph entry => graph.mutate (.insert entry.1.1 entry.1.2 entry.2)) compacted
  deletions.foldl (fun graph key => graph.mutate (.delete key.1 key.2)) inserted

/-- Compacts the graph registered under the name when the policy asks for it, and
binds the name to the result. -/
def compactIfNeeded (self : GraphCatalog Dictionary) (name : String)
    (policy : CompactionPolicy) : GraphCatalog Dictionary × Outcome Bool :=
  match self.entry name with
  | none => (self, .ok false)
  | some ref =>
    let entry := self.entries ref
    let forward := self.graphs entry.forward
    if forward.shouldCompact policy then
      match forward.compact with
      | (drained, .error fault) => (self.setGraph entry.forward drained, .error fault)
      | (drained, .ok compacted) =>
        let (insertions, delta) := drained.delta.drainInsertions
        let (deletions, delta) := delta.drainDeletions
        let emptied := self.setGraph entry.forward (drained.withDelta delta)
        let (shared, catalog) := emptied.allocGraph (replay compacted insertions deletions)
        (catalog.bindEntry name
          { forward := shared, reverse := none, dictionary := entry.dictionary }, .ok true)
    else (self, .ok false)

/-- The catalog in which one graph is shared and registered under a name. -/
def registering (graph : CsrGraph) (name : String) : GraphCatalog Unit :=
  ((new.allocGraph graph).2.register name 0).1

/-! ## Reading a catalog after a change -/

section Reads

variable (self : GraphCatalog Dictionary) (name : String) (ref : GraphRef) (graph : CsrGraph)
  (entry : GraphEntry Dictionary)

@[simp] theorem graphs_setGraph_self : (self.setGraph ref graph).graphs ref = graph :=
  Function.update_self ..

theorem graphs_setGraph_of_ne {other : GraphRef} (different : other ≠ ref) :
    (self.setGraph ref graph).graphs other = self.graphs other :=
  Function.update_of_ne different ..

theorem setGraph_self : self.setGraph ref (self.graphs ref) = self := by
  have same : Function.update self.graphs ref (self.graphs ref) = self.graphs :=
    Function.update_eq_self ref self.graphs
  simp only [setGraph, same]

@[simp] theorem entries_setGraph : (self.setGraph ref graph).entries = self.entries := rfl

@[simp] theorem entry_bindEntry : (self.bindEntry name entry).entry name = some self.entryCount :=
  AList.lookup_insert _

@[simp] theorem entries_bindEntry_self :
    (self.bindEntry name entry).entries self.entryCount = entry :=
  Function.update_self ..

/-- Asking for a transpose reads the graph, and writes at most a new graph and the memo of
the entry. -/
theorem reverse_eq : self.reverse name =
    match self.entry name with
    | none => (self, .ok none)
    | some ref =>
      match (self.entries ref).reverse with
      | some reverse => (self, .ok (some reverse))
      | none =>
        match (self.graphs (self.entries ref).forward).transpose.2 with
        | .error fault => (self, .error fault)
        | .ok built =>
          ({ (self.allocGraph built).2 with
            entries := Function.update self.entries ref
              { self.entries ref with reverse := some self.graphCount } },
            .ok (some self.graphCount)) := by
  rw [reverse]
  cases self.entry name with
  | none => rfl
  | some ref =>
    dsimp only
    cases (self.entries ref).reverse with
    | some reverse => rfl
    | none =>
      dsimp only
      have read : (self.graphs (self.entries ref).forward).transpose =
          (self.graphs (self.entries ref).forward,
            (self.graphs (self.entries ref).forward).transpose.2) := rfl
      rw [read]
      cases (self.graphs (self.entries ref).forward).transpose.2 <;> simp only [setGraph_self]
      rfl

end Reads

end GraphCatalog

end FusionGraph
