import FusionGraph.Catalog.CatalogUses
import FusionGraph.Exec.IncomingTraversal
import FusionGraph.Traversal.StartNodes

/-!
# Queries for the keys around a key

An ontology is registered, the catalog is used, and somebody asks for the keys within
some hops of a key. The rows that the query returns are the keys at their distances in
the edges of the projection, as the mutations of the graph have changed them since
(`key_query_follows_links`). The incoming query answers who leads to the key, while the
graph is not mutated (`incoming_key_query_finds_ancestors`).

A traversal answers with identifiers. The identifiers have distinct keys, so distances
between identifiers are distances between keys, and the join with the dictionary keeps
every row.
-/

set_option autoImplicit false

namespace FusionGraph

open Foundations Foundations.BreadthFirst

/-! ## Identifiers and keys -/

namespace NodeDictionary

/-- The dictionary numbers its keys, and a machine word counts them. -/
structure Sound (dictionary : NodeDictionary) : Prop where
  interned : dictionary.Interned
  few : dictionary.len ≤ usizeMax

variable {self : NodeDictionary}

theorem Sound.keyOf_eq (sound : self.Sound) (id : ℕ) : self.keyOf id = self.keys[id]? :=
  NodeDictionary.keyOf_eq self sound.few id

theorem Sound.keyOf_iff (sound : self.Sound) (key : String) (id : ℕ) :
    self.keyOf id = some key ↔ self.idOf key = some id := by
  rw [sound.keyOf_eq]
  exact (sound.interned key id).symm

theorem Sound.namesApart (sound : self.Sound) : NamesApart self.keyOf := by
  intro v w key first second
  rw [sound.keyOf_iff] at first second
  exact Option.some.inj (first.symm.trans second)

/-- An identifier has a key when it is below the number of keys. -/
theorem Sound.isSome_keyOf (sound : self.Sound) (id : ℕ) :
    (self.keyOf id).isSome ↔ id < self.len := by
  rw [sound.keyOf_eq, NodeDictionary.len, Option.isSome_iff_ne_none, Ne,
    List.getElem?_eq_none_iff, Nat.not_le]

theorem Sound.namesEdges (sound : self.Sound) {edge : ℕ → ℕ → Prop}
    (keyed : ∀ u v, edge u v → u < self.len ∧ v < self.len) : NamesEdges self.keyOf edge := by
  intro u v step
  rw [sound.isSome_keyOf, sound.isSome_keyOf]
  exact keyed u v step

end NodeDictionary

/-! ## Joining with the keys -/

/-- The rows of a traversal, joined with the keys. -/
def keyedRows (visited depths : List ℕ) (keys : List String) : List (Option String × ℕ) :=
  (innerJoin (fun row => some row.1) Prod.fst (visited.zip depths)
    (keys.zipIdx.map fun (key, id) => (some id, some key))).map fun (row, node) => (node.2, row.2)

section Join

variable {visited depths : List ℕ} {keys : List String}

theorem mem_keyedRows {found : Option String} {depth : ℕ} :
    (found, depth) ∈ keyedRows visited depths keys ↔
      ∃ id key, (id, depth) ∈ visited.zip depths ∧ keys[id]? = some key ∧ found = some key := by
  simp only [keyedRows, List.mem_map, mem_innerJoin, Prod.mk.injEq]
  constructor
  · rintro ⟨⟨⟨id, depth⟩, node⟩, ⟨inRows, ⟨⟨key, at_⟩, member, rfl⟩, shared, same, other⟩, rfl, rfl⟩
    obtain rfl : at_ = id := Option.some.inj (other.trans same.symm)
    exact ⟨at_, key, inRows, List.mem_zipIdx_iff_getElem?.mp member, rfl⟩
  · rintro ⟨id, key, inRows, held, rfl⟩
    refine ⟨((id, depth), (some id, some key)), ⟨inRows, ⟨(key, id), ?_, rfl⟩, id, rfl, rfl⟩, rfl, rfl⟩
    exact List.mem_zipIdx_iff_getElem?.mpr held

/-- Nodes that are visited once are answered once. -/
theorem keyedRows_nodup (once : visited.Nodup) (lengths : depths.length = visited.length)
    (apart : keys.Nodup) : (keyedRows visited depths keys).Nodup := by
  have rows : (visited.zip depths).map Prod.fst = visited :=
    List.map_fst_zip (Nat.le_of_eq lengths.symm)
  have ids : (keys.zipIdx.map fun entry => ((some entry.2, some entry.1) :
      Option ℕ × Option String)).Nodup := by
    refine List.Nodup.of_map Prod.snd ?_
    rw [List.map_map]
    have same : (Prod.snd ∘ fun entry : String × ℕ => ((some entry.2, some entry.1) :
        Option ℕ × Option String)) = some ∘ Prod.fst := rfl
    rw [same, ← List.map_map, List.zipIdx_map_fst]
    exact apart.map (Option.some_injective String)
  have rowsNodup : (visited.zip depths).Nodup := by
    refine List.Nodup.of_map Prod.fst ?_
    rwa [rows]
  refine nodup_map_innerJoin rowsNodup ids ?_
  rintro ⟨⟨v, d⟩, node⟩ first ⟨⟨w, e⟩, other⟩ second same
  obtain ⟨-, nodeListed, id, idAt, nodeAt⟩ := mem_innerJoin.mp first
  obtain ⟨-, otherListed, otherId, otherIdAt, otherAt⟩ := mem_innerJoin.mp second
  obtain ⟨⟨key, i⟩, here, rfl⟩ := List.mem_map.mp nodeListed
  obtain ⟨⟨otherKey, j⟩, there, rfl⟩ := List.mem_map.mp otherListed
  obtain ⟨sameKey, rfl⟩ := Prod.mk.inj same
  obtain rfl : key = otherKey := Option.some.inj sameKey
  have hereAt := List.mem_zipIdx_iff_getElem?.mp here
  have thereAt := List.mem_zipIdx_iff_getElem?.mp there
  obtain rfl : i = j := (List.getElem?_inj (List.getElem?_eq_some_iff.mp hereAt).1 apart).mp
    (hereAt.trans thereAt.symm)
  obtain rfl : v = i := Option.some.inj (idAt.trans nodeAt.symm)
  obtain rfl : w = v := Option.some.inj (otherIdAt.trans otherAt.symm)
  rfl

end Join

/-! ## The searches -/

section Search

variable {graph : CsrGraph} {base : BaseLayer}

/-- The search of an outgoing query is breadth-first, with a transpose that fits or
without one. -/
theorem CsrGraph.Stores.outgoing_isBreadthFirst (stores : graph.Stores base)
    (reachable : graph.Reachable) (reverse : Option CsrGraph)
    (fits : ∀ attached, reverse = some attached → attached.delta = DeltaLayer.new ∧
      ∃ reversed, attached.Stores reversed ∧ TransposeFits graph attached base reversed)
    (target : Target) (start maxDepth : ℕ) :
    ∃ result, (reverse.elim (bfsBounded target graph [start] maxDepth none) fun attached =>
        Checked.orElse (bfsDirectionOptimized target graph attached start maxDepth)
          (bfsBounded target graph [start] maxDepth none)) = .ok result ∧
      result.IsBreadthFirst graph.Edge (graph.IsStart [start]) maxDepth := by
  obtain ⟨plain, ran, lists⟩ :=
    stores.bfsBoundedWithBackend_eq [start] maxDepth none (selectBackend target)
  obtain ⟨last, invariant⟩ := stores.searchLog_invariant reachable [start] maxDepth
  have ran : bfsBounded target graph [start] maxDepth none = .ok plain := ran
  have correct := lists.isBreadthFirst invariant
  cases reverse with
  | none => exact ⟨plain, ran, correct⟩
  | some attached =>
    obtain ⟨clean, reversed, storesReverse, fit⟩ := fits attached rfl
    rw [Option.elim_some]
    by_cases counts : graph.nodeCount ≠ attached.nodeCount ∨ graph.edgeCount ≠ attached.edgeCount
    · refine ⟨plain, ?_, correct⟩
      rw [bfsDirectionOptimized, bfsDirectionOptimizedBy, if_pos counts, Checked.orElse_fail, ran]
    · have same := counts
      push Not at same
      by_cases empty : graph.delta.isEmpty = true
      · have transposed : Transposed base reversed := by
          constructor
          · rw [← storesReverse.nodeCount, ← stores.nodeCount, same.1]
          · exact fit empty same.1.symm same.2.symm
        obtain ⟨result, log, last, returned, listed, optimized⟩ :=
          stores.bfsDirectionOptimizedBy_eq bottomUp target (DeltaLayer.eq_new_of_isEmpty empty)
            storesReverse clean transposed same.2 start maxDepth
        refine ⟨result, ?_, listed.isBreadthFirst optimized⟩
        rw [bfsDirectionOptimized, returned, Checked.orElse_ok]
      · refine ⟨plain, ?_, correct⟩
        rw [bfsDirectionOptimized, bfsDirectionOptimizedBy, if_neg counts,
          if_neg (by simp [clean]), if_pos empty, bfs, ran, Checked.orElse_ok]

end Search

/-! ## The answer of one query -/

section Answer

variable {name : String} {ref : GraphRef} {base : BaseLayer} {dictionary : NodeDictionary}
  {entry : EntryRef} {catalog : GraphCatalog NodeDictionary} {debug : DebugText}
  {args : List Expr} {key : String} {hops : ℕ}

/-- The rows are the keys within the hops of a key, each once, at their distances. -/
structure AnswersKeys (links : String → String → Prop) (key : String) (hops : ℕ)
    (rows : List (Option String × ℕ)) : Prop where
  once : rows.Nodup
  rows : ∀ found depth, (found, depth) ∈ rows ↔ depth ≤ hops ∧
    ∃ other, found = some other ∧ IsDistance links (· = key) other depth

/-- What `graph_nodes` returns for a name with a dictionary. -/
theorem graphNodes_eq (debug : DebugText) (found : catalog.dictionary name = some dictionary)
    (fits : dictionary.FitsArray) :
    ∃ batch, GraphNodesUdtf.call debug [.literal (.utf8 (some name))] catalog = .ok batch ∧
      nodeRows batch = dictionary.keys.zipIdx.map fun (key, id) => (some id, some key) := by
  obtain ⟨batch, made, rows⟩ := dictionary.toBatch_eq fits
  refine ⟨batch, ?_, rows⟩
  have parsed : GraphTraverseUdtf.parseString debug
      [Expr.literal (.utf8 (some name))][0]? "1 (graph_name)" = .ok name := rfl
  rw [GraphNodesUdtf.call, if_neg (by simp), parsed]
  simp only [Checked.ok_bind, found, Checked.okOr_some, made, Checked.mapError]

/-- **The join of a breadth-first result with the keys answers for the keys.** -/
theorem answersKeys_of_isBreadthFirst (sound : dictionary.Sound) {result : BfsResult}
    {edge : ℕ → ℕ → Prop} {start : ℕ} (correct : result.IsBreadthFirst edge (· = start) hops)
    (keyed : ∀ u v, edge u v → u < dictionary.len ∧ v < dictionary.len)
    (known : dictionary.idOf key = some start) :
    AnswersKeys (named dictionary.keyOf edge) key hops
      (keyedRows result.visited result.depths dictionary.keys) := by
  have first : dictionary.keyOf start = some key := (sound.keyOf_iff key start).mpr known
  have distances := fun {w : ℕ} {other : String} (held : dictionary.keyOf w = some other) =>
    isDistance_named sound.namesApart (sound.namesEdges keyed) first held
  refine ⟨keyedRows_nodup correct.visited_nodup correct.length_depths sound.interned.nodup,
    fun found depth => ?_⟩
  rw [mem_keyedRows]
  constructor
  · rintro ⟨id, other, member, held, rfl⟩
    obtain ⟨room, distance⟩ := (correct.mem_nodeDepths id depth).mp member
    rw [← sound.keyOf_eq] at held
    exact ⟨room, other, rfl, (distances held depth).mpr distance⟩
  · rintro ⟨room, other, rfl, distance⟩
    obtain ⟨id, held⟩ := distance.exists_node sound.namesApart first
    refine ⟨id, other, (correct.mem_nodeDepths id depth).mpr ⟨room, ?_⟩, ?_, rfl⟩
    · exact (distances held depth).mp distance
    · rw [← sound.keyOf_eq, held]

/-- A scan of the two columns runs the operator and keeps them. -/
theorem scan_nodeDepths {target : Target} {graphs : GraphRef → CsrGraph} {table : TraversalTable}
    {batch : TraversalBatch} (ran : (table.exec graphs).execute target 0 = .ok batch) :
    ∃ plan kept, table.scan graphs (some [0, 1]) none = .ok plan ∧
      plan.execute target 0 = .ok kept ∧ kept.nodeDepths = batch.nodeId.zip batch.depth := by
  refine ⟨⟨table.exec graphs, some [0, 1], none⟩,
    ⟨[.nodeId batch.nodeId, .depth batch.depth], batch.nodeId.length⟩, rfl, ?_, rfl⟩
  rw [TraversalPlan.execute, ran]
  rfl

/-- The query, when both functions return and the traversal runs. -/
theorem keyQuery_eq {target : Target} {next : GraphCatalog NodeDictionary} {table : TraversalTable}
    {nodes : RecordBatch NodeDictionary.schema} {batch : TraversalBatch} {keys : List String}
    (planned : GraphTraverseUdtf.call debug args catalog = (next, .ok table))
    (listed : GraphNodesUdtf.call debug [.literal (.utf8 (some name))] next = .ok nodes)
    (rows : nodeRows nodes = keys.zipIdx.map fun (key, id) => (some id, some key))
    (ran : (table.exec next.graphs).execute target 0 = .ok batch) :
    keyQuery target debug args name catalog =
      (next, .ok (keyedRows batch.nodeId batch.depth keys)) := by
  obtain ⟨plan, kept, scanned, executed, columns⟩ := scan_nodeDepths ran
  simp only [keyQuery, planned, listed, scanned, executed, columns, Checked.ok_bind,
    Checked.pure_eq_ok, rows, keyedRows]

/-- A key that the dictionary does not have is an error, whatever the direction. -/
theorem Serves.keyQuery_unknown (serves : Serves name ref base dictionary entry catalog)
    {direction : TraversalDirection} (asks : AsksFor debug args name key hops direction)
    (unknown : dictionary.idOf key = none) (target : Target) :
    keyQuery target debug args name catalog =
      (catalog, Checked.fail (unknownKey key name)) := by
  simp only [keyQuery, asks.call_unknown serves.dictionary_eq unknown]
  rfl

/-- **An outgoing query answers along the edges between keys**, whatever transpose is
memoized. -/
theorem Serves.keyQuery_outgoing (serves : Serves name ref base dictionary entry catalog)
    (sound : dictionary.Sound) (fits : dictionary.FitsArray)
    (nodes : base.rows.length = dictionary.len)
    (keyed : ∀ u v, (catalog.graphs ref).Edge u v → u < dictionary.len ∧ v < dictionary.len)
    (asks : AsksFor debug args name key hops .outgoing) {start : ℕ}
    (known : dictionary.idOf key = some start) (target : Target) :
    ∃ rows, keyQuery target debug args name catalog = (catalog, .ok rows) ∧
      AnswersKeys (named dictionary.keyOf (catalog.graphs ref).Edge) key hops rows := by
  have attaches : (if TraversalDirection.outgoing = .incoming ∨
      (catalog.residentReverse name).isSome then catalog.reverse name else (catalog, .ok none)) =
        (catalog, .ok (catalog.entries entry).reverse) := by
    rw [serves.residentReverse_eq]
    cases memoized : (catalog.entries entry).reverse with
    | none => rfl
    | some reverse =>
      rw [if_pos (by simp), GraphCatalog.reverse_eq, serves.history.bound]
      simp only [memoized]
  have planned := asks.call_known serves.dictionary_eq known serves.get_eq attaches
  obtain ⟨nodesTable, listed, tableRows⟩ := graphNodes_eq debug serves.dictionary_eq fits
  have contained : (catalog.graphs ref).contains start = true := by
    rw [serves.history.stores.contains_iff, nodes]
    exact (sound.isSome_keyOf start).mp (by rw [(sound.keyOf_iff key start).mpr known]; rfl)
  obtain ⟨result, ran, correct⟩ := serves.history.stores.outgoing_isBreadthFirst
    serves.history.reachable ((catalog.entries entry).reverse.map catalog.graphs)
    (fun attached held => by
      obtain ⟨reverse, memoized, rfl⟩ := Option.map_eq_some_iff.mp held
      exact (serves.history.resident reverse memoized).2) target start hops
  have outgoing : (TraversalSpec.around start hops .outgoing).SingleOutgoing start hops :=
    ⟨rfl, rfl, rfl, rfl, rfl⟩
  have executed := GraphTraversalExec.execute_outgoing outgoing target (catalog.graphs ref)
    ((catalog.entries entry).reverse.map catalog.graphs) ran
  have exec : TraversalTable.exec
      ⟨ref, (catalog.entries entry).reverse, .around start hops .outgoing⟩ catalog.graphs =
        ⟨catalog.graphs ref, (catalog.entries entry).reverse.map catalog.graphs,
          .around start hops .outgoing⟩ := by
    rw [TraversalTable.exec]
    cases (catalog.entries entry).reverse <;> rfl
  rw [CsrGraph.isStart_singleton contained] at correct
  exact ⟨_, keyQuery_eq planned listed tableRows (exec ▸ executed),
    answersKeys_of_isBreadthFirst sound correct keyed known⟩

/-- **An incoming query on a graph at rest answers along the reversed edges.** -/
theorem Serves.keyQuery_incoming (serves : Serves name ref base dictionary entry catalog)
    (rests : AtRest ref base entry catalog) (sound : dictionary.Sound)
    (fits : dictionary.FitsArray) (nodes : base.rows.length = dictionary.len)
    (recorded : base.rows.length = nodeUniverse base.storedEdges)
    (asks : AsksFor debug args name key hops .incoming) {start : ℕ}
    (known : dictionary.idOf key = some start) (target : Target) :
    ∃ next rows, keyQuery target debug args name catalog = (next, .ok rows) ∧
      AnswersKeys (fun a b => named dictionary.keyOf (catalog.graphs ref).Edge b a) key hops
        rows := by
  have after := serves.reverse name
  have restsAfter := rests.reverse serves recorded name
  have graph := serves.graph_reverse name
  obtain ⟨reverse, memoized, outcome⟩ : ∃ reverse,
      (((catalog.reverse name).1).entries entry).reverse = some reverse ∧
        (catalog.reverse name).2 = .ok (some reverse) := by
    obtain ⟨built, -, transposed, -⟩ := serves.history.stores.exists_transposed rests.clean recorded
    cases memoized : (catalog.entries entry).reverse with
    | some reverse =>
      refine ⟨reverse, ?_⟩
      rw [GraphCatalog.reverse_eq, serves.history.bound]
      simp only [memoized, and_self]
    | none =>
      refine ⟨catalog.graphCount, ?_⟩
      rw [GraphCatalog.reverse_eq, serves.history.bound]
      simp only [memoized, serves.history.forward, transposed, GraphCatalog.allocGraph,
        Function.update_self, and_self]
  have attaches : (if TraversalDirection.incoming = .incoming ∨
      (catalog.residentReverse name).isSome then catalog.reverse name else (catalog, .ok none)) =
        ((catalog.reverse name).1, .ok (some reverse)) := by
    rw [if_pos (.inl rfl), ← outcome]
  have planned := asks.call_known serves.dictionary_eq known serves.get_eq attaches
  obtain ⟨nodesTable, listed, tableRows⟩ := graphNodes_eq debug after.dictionary_eq fits
  obtain ⟨reachableReverse, cleanReverse, reversed, storesReverse, transposed, sameEdges⟩ :=
    restsAfter.turned reverse memoized
  have stores := after.history.stores
  obtain ⟨result, ran, correct⟩ := storesReverse.uncappedSearch_eq reachableReverse cleanReverse
    stores restsAfter.clean transposed.symm sameEdges.symm target [start] hops
  have contained : ((catalog.reverse name).1.graphs reverse).contains start = true := by
    rw [storesReverse.contains_iff, transposed.nodes, nodes]
    exact (sound.isSome_keyOf start).mp (by rw [(sound.keyOf_iff key start).mpr known]; rfl)
  have edges : ((catalog.reverse name).1.graphs reverse).Edge =
      fun v w => (catalog.graphs ref).Edge w v := by
    funext v w
    refine propext ?_
    rw [← graph, stores.edge_iff, storesReverse.edge_iff, cleanReverse, restsAfter.clean,
      BaseLayer.merged_new, BaseLayer.merged_new, transposed.converse]
  rw [CsrGraph.isStart_singleton contained, edges] at correct
  have keyed : ∀ u v, (catalog.graphs ref).Edge v u → u < dictionary.len ∧ v < dictionary.len := by
    intro u v step
    rw [← graph, stores.edge_iff, restsAfter.clean, BaseLayer.merged_new] at step
    exact ⟨nodes ▸ BaseLayer.target_lt step, nodes ▸ BaseLayer.source_lt step⟩
  have incoming : (TraversalSpec.around start hops .incoming).Incoming [start] hops :=
    ⟨rfl, rfl, rfl, rfl, rfl⟩
  have executed := GraphTraversalExec.execute_incoming incoming target
    ((catalog.reverse name).1.graphs ref) ((catalog.reverse name).1.graphs reverse) ran
  have flipped : named dictionary.keyOf (fun v w => (catalog.graphs ref).Edge w v) =
      fun a b => named dictionary.keyOf (catalog.graphs ref).Edge b a := by
    funext a b
    exact propext named_flip
  exact ⟨_, _, keyQuery_eq planned listed tableRows executed,
    flipped ▸ answersKeys_of_isBreadthFirst sound correct keyed known⟩

end Answer

/-! ## A name that has just been registered -/

section Registration

variable {ctx : SessionContext} {ontology : Ontology} {asOf : Option String}
  {catalog final : GraphCatalog NodeDictionary} {names : List String} {edge : EdgeDefinition}

/-- Registering a graph memoizes no transpose, and forgets none of another name. -/
theorem GraphCatalog.residentReverse_bindGraph (wellFormed : catalog.WellFormed) (name : String)
    (graph : CsrGraph) (dictionary : Option NodeDictionary) {other : String}
    (bare : other = name ∨ catalog.residentReverse other = none) :
    (catalog.bindGraph name graph dictionary).residentReverse other = none := by
  by_cases same : other = name
  · subst same
    rw [bindGraph, residentReverse, entry_bindEntry, Option.bind_some, entries_bindEntry_self]
  · have before := bare.resolve_left same
    have bound : (catalog.bindGraph name graph dictionary).entry other = catalog.entry other :=
      entry_bindEntry_of_ne _ same
    rw [residentReverse] at before ⊢
    rw [bound, ← before]
    exact Option.bind_congr fun ref held =>
      congrArg GraphEntry.reverse (entries_bindEntry_of_lt _ (wellFormed.bound other ref held))

/-- No transpose is memoized under the names that a loop has registered. -/
theorem residentReverse_of_registerEdges (rest : List EdgeDefinition) {registered : List String}
    (wellFormed : catalog.WellFormed)
    (bare : ∀ name ∈ registered, catalog.residentReverse name = none)
    (outcome : registerEdges ctx ontology asOf rest registered catalog = (.ok names, final)) :
    ∀ name ∈ names, final.residentReverse name = none := by
  induction rest generalizing registered catalog with
  | nil =>
    obtain ⟨same, rfl⟩ := Prod.mk.inj outcome
    obtain rfl := Except.ok.inj same
    exact bare
  | cons edge rest ih =>
    rw [registerEdges, registerEdge_eq] at outcome
    cases projected : edge.projected ctx ontology asOf with
    | error fault =>
      rw [projected] at outcome
      cases outcome
    | ok built =>
      obtain ⟨graph, dictionary⟩ := built
      rw [projected] at outcome
      refine ih (wellFormed.bindGraph _ graph dictionary) (fun name member => ?_) outcome
      refine GraphCatalog.residentReverse_bindGraph wellFormed _ graph dictionary ?_
      rcases List.mem_append.mp member with earlier | last
      · exact .inr (bare name earlier)
      · exact .inl (List.mem_singleton.mp last)

/-- The edges between the keys of rows. -/
def linksOf (rows : List (EdgeRow String)) (a b : String) : Prop :=
  ∃ weight, (a, b, weight) ∈ rows

/-- The keys of the rows are listed in a dictionary whose table fits in an array. -/
def KeysFit (rows : List (EdgeRow String)) : Prop :=
  ((keysOf rows).eraseDups.map String.utf8ByteSize).sum ≤ i32Max

/-- A name serves the rows of a query: the graph has their keys as nodes and the edges
between them, and nothing is pending. -/
structure ServesRows (name : String) (ref : GraphRef) (base : BaseLayer)
    (dictionary : NodeDictionary) (entry : EntryRef) (rows : List (EdgeRow String))
    (catalog : GraphCatalog NodeDictionary) : Prop where
  serves : Serves name ref base dictionary entry catalog
  rests : AtRest ref base entry catalog
  sound : dictionary.Sound
  keys : dictionary.keys = (keysOf rows).eraseDups
  nodes : base.rows.length = dictionary.len
  recorded : base.rows.length = nodeUniverse base.storedEdges
  links : named dictionary.keyOf (fun u v => v ∈ base.targets u) = linksOf rows

/-- The edges of a layer that records numbered rows, under the keys, are those of the rows. -/
theorem named_of_records {state : KeyedEdges} {weighted : Bool} {rows : List (EdgeRow String)}
    {base : BaseLayer} (collected : state.Collected weighted rows)
    (sound : state.dictionary.Sound) (records : base.Records (numberedEdges weighted rows)) :
    named state.dictionary.keyOf (fun u v => v ∈ base.targets u) = linksOf rows := by
  funext a b
  refine propext ?_
  have targets : ∀ u v, v ∈ base.targets u ↔
      ∃ row ∈ rows, numberOf rows row.1 = u ∧ numberOf rows row.2.1 = v := by
    intro u v
    rw [BaseLayer.targets, records.row, List.mem_map]
    constructor
    · rintro ⟨entry, member, rfl⟩
      have inEdges : (u, entry) ∈ numberedEdges weighted rows := mem_entriesFrom.mpr member
      obtain ⟨row, inRows, same⟩ := List.mem_map.mp inEdges
      obtain ⟨rfl, rfl⟩ := Prod.mk.inj same
      exact ⟨row, inRows, rfl, rfl⟩
    · rintro ⟨row, inRows, rfl, rfl⟩
      exact ⟨_, mem_entriesFrom.mp (List.mem_map_of_mem inRows), rfl⟩
  have number : ∀ {key : String}, key ∈ keysOf rows →
      state.dictionary.keyOf (numberOf rows key) = some key := fun known =>
    (sound.keyOf_iff _ _).mpr (collected.idOf_eq known)
  constructor
  · rintro ⟨u, v, first, second, step⟩
    obtain ⟨⟨source, target, weight⟩, inRows, rfl, rfl⟩ := (targets u v).mp step
    obtain ⟨knownSource, knownTarget⟩ := mem_keysOf inRows
    obtain rfl := Option.some.inj ((number knownSource).symm.trans first)
    obtain rfl := Option.some.inj ((number knownTarget).symm.trans second)
    exact ⟨weight, inRows⟩
  · rintro ⟨weight, inRows⟩
    obtain ⟨knownSource, knownTarget⟩ := mem_keysOf inRows
    exact ⟨_, _, number knownSource, number knownTarget, (targets _ _).mpr ⟨_, inRows, rfl, rfl⟩⟩

/-- A name that shows what was built of the rows serves them. -/
theorem servesRows_of_build {name : String} {rows : List (EdgeRow String)} {weighted : Bool}
    {state : KeyedEdges} {builder : CsrBuilder} {graph : CsrGraph}
    (wellFormed : catalog.WellFormed) (shows : catalog.Shows name graph (some state.dictionary))
    (bare : catalog.residentReverse name = none) (collected : state.Collected weighted rows)
    (holds : builder.Holds weighted (numberedEdges weighted rows))
    (roomy : 28 ≤ builder.config.shardSize.val) (built : builder.build = .ok graph) :
    ∃ ref base dictionary entry, ServesRows name ref base dictionary entry rows catalog := by
  obtain ⟨clean, base, stores, records⟩ := holds.records_of_build roomy built
  have distinct : (keysOf rows).eraseDups.Nodup := collected.keys ▸ collected.interned.nodup
  have counted : nodeUniverse (numberedEdges weighted rows) ≤ u32Max + 1 :=
    nodeUniverse_le fun edge member => by
      obtain ⟨source, target⟩ := (holds.fit_of_build built).1 edge member
      omega
  have nodes : base.rows.length = state.dictionary.len := by
    rw [records.nodes, nodeUniverse_numberedEdges distinct, collected.len_eq]
  have sound : state.dictionary.Sound := by
    refine ⟨collected.interned, ?_⟩
    rw [← nodes, records.nodes]
    refine counted.trans ?_
    simp only [u32Max, usizeMax]
    omega
  obtain ⟨ref, found, rfl⟩ := Option.map_eq_some_iff.mp shows.graph
  obtain ⟨entry, bound, rfl⟩ := Option.map_eq_some_iff.mp found
  have inUse := wellFormed.bound name entry bound
  have bareEntry : (catalog.entries entry).reverse = none := by
    rwa [GraphCatalog.residentReverse, bound, Option.bind_some] at bare
  have keyed : (catalog.entries entry).dictionary = some state.dictionary := by
    have held := shows.dictionary
    rwa [GraphCatalog.dictionary, bound, Option.bind_some] at held
  refine ⟨_, base, state.dictionary, entry,
    ⟨⟨bound, rfl, wellFormed.forward entry inUse, .built built, stores, ?_⟩, inUse, ?_, keyed⟩,
    ⟨clean, ?_⟩, sound, collected.keys, nodes, records.nodes_storedEdges,
    named_of_records collected sound records⟩
  · intro reverse memoized
    rw [bareEntry] at memoized
    cases memoized
  · intro reverse memoized
    rw [bareEntry] at memoized
    cases memoized
  · intro reverse memoized
    rw [bareEntry] at memoized
    cases memoized

/-- **After a registration, the name of a string-keyed definition serves the rows of its
query.** -/
theorem exists_servesRows {start : GraphCatalog NodeDictionary} (wellFormed : start.WellFormed)
    (registered : registerOntologyGraphsAsOf ctx ontology start asOf = (.ok names, catalog))
    (member : edge ∈ ontology.edges) (keyed : ontology.needsDictionary edge = true)
    {batches : List (RecordBatch edge.projection)}
    (collects : ctx.collect (edge.keyedQuery asOf) = .ok batches) :
    ∃ ref base dictionary entry, ServesRows (ontology.graphName edge) ref base dictionary entry
      (edge.rowsOf batches) catalog := by
  rcases registerOntologyGraphsAsOf_outcome ctx ontology asOf wellFormed with
    ⟨fault, -, rejected⟩ | outcome
  · rw [registered] at rejected
    cases rejected
  rw [registered] at outcome
  cases outcome with
  | finished after all =>
    obtain ⟨graph, keys, projected, shows⟩ := all.bound edge (by simpa using member)
    have bare : catalog.residentReverse (ontology.graphName edge) = none := by
      rw [registerOntologyGraphsAsOf] at registered
      split at registered
      · cases registered
      · exact residentReverse_of_registerEdges ontology.edges wellFormed (by simp) registered _
          (by simpa using ⟨edge, member, rfl⟩)
    rw [EdgeDefinition.projected, if_pos keyed, Checked.mapError_eq_ok] at projected
    cases made : edge.buildKeyedGraph ctx asOf with
    | error fault =>
      rw [made] at projected
      cases projected
    | ok built =>
      obtain ⟨graph, dictionary⟩ := built
      rw [made] at projected
      obtain ⟨rfl, rfl⟩ := Prod.mk.inj (Except.ok.inj projected)
      rw [EdgeDefinition.buildKeyedGraph, collects] at made
      change edge.buildEdgeGraphWithDictionary batches = .ok (graph, dictionary) at made
      obtain ⟨state, builder, collected, holds, roomy, same⟩ :=
        edge.buildEdgeGraphWithDictionary_eq batches
      obtain ⟨found, built, pair⟩ := Checked.bind_eq_ok.mp (same.symm.trans made)
      obtain ⟨rfl, rfl⟩ := Prod.mk.inj (Except.ok.inj pair)
      rw [Checked.mapError_eq_ok] at built
      exact servesRows_of_build all.wellFormed shows bare collected holds roomy built

end Registration

/-! ## Queries over runs -/

section Runs

variable {name : String} {ref : GraphRef} {base : BaseLayer} {dictionary : NodeDictionary}
  {entry : EntryRef} {rows : List (EdgeRow String)} {catalog current : GraphCatalog NodeDictionary}
  {uses : List CatalogUse}

/-- What a run of calls that spare a name keeps: the name serves the graph, whose edges are
between nodes with keys, and are between keys what the mutations made of the rows. -/
theorem ServesRows.run (servesRows : ServesRows name ref base dictionary entry rows catalog)
    (run : Run (UseStep name ref dictionary) catalog uses current) :
    Serves name ref base dictionary entry current ∧
      (∀ u v, (current.graphs ref).Edge u v → u < dictionary.len ∧ v < dictionary.len) ∧
      named dictionary.keyOf (current.graphs ref).Edge =
        linksAfter ref dictionary (linksOf rows) uses := by
  obtain ⟨serves, rests, sound, -, nodes, -, links⟩ := servesRows
  have stored : ∀ u v, v ∈ base.targets u → u < dictionary.len ∧ v < dictionary.len :=
    fun u v step => ⟨nodes ▸ BaseLayer.source_lt step, nodes ▸ BaseLayer.target_lt step⟩
  have initial : (catalog.graphs ref).Edge = fun u v => v ∈ base.targets u := by
    funext u v
    rw [propext (serves.history.stores.edge_iff u v), rests.clean, BaseLayer.merged_new]
  refine run.invariant (fun uses catalog => Serves name ref base dictionary entry catalog ∧
    (∀ u v, (catalog.graphs ref).Edge u v → u < dictionary.len ∧ v < dictionary.len) ∧
    named dictionary.keyOf (catalog.graphs ref).Edge =
      linksAfter ref dictionary (linksOf rows) uses) ?_ ?_
  · refine ⟨serves, ?_, ?_⟩
    · rw [initial]
      exact stored
    · rw [initial, links]
      rfl
  · rintro done before use next - ⟨holds, keyed, same⟩ moved
    have edges := holds.edge_step moved
    refine ⟨holds.step moved, ?_, ?_⟩
    · rw [edges]
      exact CatalogUse.onEdges_keyed moved.1 stored keyed
    · rw [edges, CatalogUse.named_onEdges sound.namesApart, links, same, linksAfter, linksAfter,
        List.foldl_append]
      rfl

/-- Calls that leave the graph as it is keep it at rest. -/
theorem ServesRows.run_rests (servesRows : ServesRows name ref base dictionary entry rows catalog)
    (run : Run (UseStep name ref dictionary) catalog uses current)
    (rest : ∀ use ∈ uses, use.Rests ref) :
    Serves name ref base dictionary entry current ∧ AtRest ref base entry current := by
  refine run.invariant (fun done catalog => (∀ use ∈ done, use.Rests ref) →
    Serves name ref base dictionary entry catalog ∧ AtRest ref base entry catalog) ?_ ?_ rest
  · exact fun _ => ⟨servesRows.serves, servesRows.rests⟩
  · intro done before use next _ holds moved rest
    obtain ⟨serves, rests⟩ := holds fun use member => rest use (List.mem_append_left _ member)
    exact ⟨serves.step moved, rests.step serves servesRows.recorded moved
      (rest use (List.mem_append_right _ List.mem_cons_self))⟩

/-- The dictionary that is served knows the keys of the rows. -/
theorem ServesRows.exists_id (servesRows : ServesRows name ref base dictionary entry rows catalog)
    (key : String) : (key ∈ keysOf rows → ∃ id, dictionary.idOf key = some id) ∧
      (key ∉ keysOf rows → dictionary.idOf key = none) := by
  have known : (dictionary.idOf key).isSome ↔ key ∈ keysOf rows := by
    rw [servesRows.sound.interned.isSome_iff key, servesRows.keys, List.mem_eraseDups]
  refine ⟨fun member => Option.isSome_iff_exists.mp (known.mpr member), fun absent => ?_⟩
  exact Option.not_isSome_iff_eq_none.mp (mt known.mp absent)

theorem ServesRows.fitsArray (servesRows : ServesRows name ref base dictionary entry rows catalog)
    (fits : KeysFit rows) : dictionary.FitsArray := by
  rw [NodeDictionary.FitsArray, servesRows.keys]
  exact fits

end Runs

section Queries

variable {ctx : SessionContext} {ontology : Ontology} {asOf : Option String}
  {start catalog : GraphCatalog NodeDictionary} {names : List String} {edge : EdgeDefinition}
  {batches : List (RecordBatch edge.projection)}

/-- **A key query answers along the current edges between keys.** After an ontology is
registered, and any calls that leave the name of a string-keyed definition to its graph
(`CatalogUse.Spares`), the query returns each key within the hops once, at its distance
along the edges of the rows as the mutations have changed them; a key of no row is an
error. -/
theorem key_query_follows_links (target : Target) (debug : DebugText)
    (wellFormed : start.WellFormed)
    (registered : registerOntologyGraphsAsOf ctx ontology start asOf = (.ok names, catalog))
    (member : edge ∈ ontology.edges) (keyed : ontology.needsDictionary edge = true)
    (collects : ctx.collect (edge.keyedQuery asOf) = .ok batches)
    (fits : KeysFit (edge.rowsOf batches)) :
    ∃ ref dictionary, catalog.get (ontology.graphName edge) = some ref ∧
      catalog.dictionary (ontology.graphName edge) = some dictionary ∧
      ∀ uses current, Run (UseStep (ontology.graphName edge) ref dictionary) catalog uses current →
        ∀ args key hops, AsksFor debug args (ontology.graphName edge) key hops .outgoing →
          (key ∈ keysOf (edge.rowsOf batches) → ∃ rows,
            keyQuery target debug args (ontology.graphName edge) current = (current, .ok rows) ∧
            AnswersKeys (linksAfter ref dictionary (linksOf (edge.rowsOf batches)) uses) key hops
              rows) ∧
          (key ∉ keysOf (edge.rowsOf batches) →
            (keyQuery target debug args (ontology.graphName edge) current).2 =
              Checked.fail (unknownKey key (ontology.graphName edge))) := by
  obtain ⟨ref, base, dictionary, entry, servesRows⟩ :=
    exists_servesRows wellFormed registered member keyed collects
  refine ⟨ref, dictionary, servesRows.serves.get_eq, servesRows.serves.dictionary_eq, ?_⟩
  intro uses current run args key hops asks
  obtain ⟨serves, between, links⟩ := servesRows.run run
  obtain ⟨known, unknown⟩ := servesRows.exists_id key
  refine ⟨fun occurs => ?_, fun absent => ?_⟩
  · obtain ⟨id, found⟩ := known occurs
    rw [← links]
    exact serves.keyQuery_outgoing servesRows.sound (servesRows.fitsArray fits) servesRows.nodes
      between asks found target
  · rw [serves.keyQuery_unknown asks (unknown absent) target]

/-- **An incoming key query finds who leads to a key**, after any calls that leave the
name to its graph and the graph as it is. -/
theorem incoming_key_query_finds_ancestors (target : Target) (debug : DebugText)
    (wellFormed : start.WellFormed)
    (registered : registerOntologyGraphsAsOf ctx ontology start asOf = (.ok names, catalog))
    (member : edge ∈ ontology.edges) (keyed : ontology.needsDictionary edge = true)
    (collects : ctx.collect (edge.keyedQuery asOf) = .ok batches)
    (fits : KeysFit (edge.rowsOf batches)) :
    ∃ ref dictionary, catalog.get (ontology.graphName edge) = some ref ∧
      catalog.dictionary (ontology.graphName edge) = some dictionary ∧
      ∀ uses current, Run (UseStep (ontology.graphName edge) ref dictionary) catalog uses current →
        (∀ use ∈ uses, use.Rests ref) →
          ∀ args key hops, AsksFor debug args (ontology.graphName edge) key hops .incoming →
            key ∈ keysOf (edge.rowsOf batches) → ∃ next rows,
              keyQuery target debug args (ontology.graphName edge) current = (next, .ok rows) ∧
              AnswersKeys (fun a b => linksOf (edge.rowsOf batches) b a) key hops rows := by
  obtain ⟨ref, base, dictionary, entry, servesRows⟩ :=
    exists_servesRows wellFormed registered member keyed collects
  refine ⟨ref, dictionary, servesRows.serves.get_eq, servesRows.serves.dictionary_eq, ?_⟩
  intro uses current run rest args key hops asks occurs
  obtain ⟨serves, rests⟩ := servesRows.run_rests run rest
  obtain ⟨id, found⟩ := (servesRows.exists_id key).1 occurs
  have links : named dictionary.keyOf (current.graphs ref).Edge = linksOf (edge.rowsOf batches) := by
    rw [← servesRows.links]
    congr 1
    funext u v
    rw [propext (serves.history.stores.edge_iff u v), rests.clean, BaseLayer.merged_new]
  rw [← links]
  exact serves.keyQuery_incoming rests servesRows.sound (servesRows.fitsArray fits)
    servesRows.nodes servesRows.recorded asks found target

end Queries

/-! ## Users that follow each other -/

namespace Sample

/-- Users with string keys that follow each other. -/
def users : Ontology where
  ontology := { name := "social" }
  settings := { defaultNodeIdType := .string }
  nodes := [{ label := "User", idTransform := .passthrough }]
  edges := [{
    label := "FOLLOWS", source := "follows", fromNode := "User", fromColumn := "follower",
    toNode := "User", toColumn := "followee", weightColumn := none, weightDefault := 1.0,
    validFromColumn := none, validToColumn := none, partitionColumn := none }]
  properties := []

/-- The edge definition of the users. -/
def followsKeys : EdgeDefinition := users.edges.head (by simp [users])

/-- Ann follows Bob, and Bob follows Cy. -/
def followers : RecordBatch followsKeys.projection where
  columns := [.utf8 [some "ann", some "bob"], .utf8 [some "bob", some "cy"]]
  numRows := 2
  types := rfl
  lengths := by simp [ArrayRef.length]

theorem rowsOf_followers :
    followsKeys.rowsOf [followers] = [("ann", "bob", 1.0), ("bob", "cy", 1.0)] := rfl

theorem registers_users :
    ((registerOntologyGraphsAsOf (.answering [followers]) users .new none).1.passes
      fun _ => true) = true := by decide

end Sample

open Sample

/-- The users are registered. -/
theorem Sample.exists_registered : ∃ names catalog,
    registerOntologyGraphsAsOf (.answering [followers]) users .new none = (.ok names, catalog) := by
  obtain ⟨names, returned⟩ := Checked.returns_of_passes _ registers_users
  exact ⟨names, _, Prod.ext returned rfl⟩

/-- Prints that leave everything out. -/
def Sample.blank : DebugText where
  argument _ := ""
  names _ := ""

/-- A transpose is memoized, and then Ann follows Cy, who is one hop from her from then on. -/
theorem key_query_follows_links_witness : ∃ names catalog ref dictionary current rows,
    registerOntologyGraphsAsOf (.answering [followers]) users .new none = (.ok names, catalog) ∧
    Run (UseStep "social.FOLLOWS" ref dictionary) catalog
      [.reverse "social.FOLLOWS", .mutate ref (.insert 0 2 .default)] current ∧
    keyQuery .other blank [.literal (.utf8 (some "social.FOLLOWS")),
        .literal (.utf8 (some "ann")), .literal (.int64 (some 2))] "social.FOLLOWS" current =
          (current, .ok rows) ∧ (some "cy", 1) ∈ rows := by
  obtain ⟨names, catalog, registered⟩ := exists_registered
  have member : followsKeys ∈ users.edges := List.head_mem (by simp [users])
  have collects := SessionContext.collect_answering (followsKeys.keyedQuery none) [followers]
  obtain ⟨ref, dictionary, bound, keyed, answers⟩ := @key_query_follows_links _ _ _ _ _ _
    followsKeys [followers] .other blank .new registered member rfl collects
    (by rw [rowsOf_followers, KeysFit]; decide)
  obtain ⟨_, base, _, entry, servesRows⟩ := exists_servesRows .new registered member rfl collects
  obtain rfl := Option.some.inj (bound.symm.trans servesRows.serves.get_eq)
  obtain rfl := Option.some.inj (keyed.symm.trans servesRows.serves.dictionary_eq)
  have keys : dictionary.keys = ["ann", "bob", "cy"] := servesRows.keys
  have apart : (catalog.reverse "social.FOLLOWS").1.residentReverse "social.FOLLOWS" ≠ some ref :=
    (servesRows.serves.reverse "social.FOLLOWS").residentReverse_ne
  have few : ((catalog.reverse "social.FOLLOWS").1.graphs ref).delta.insertions.entries.length <
      isizeMax := by
    rw [servesRows.serves.graph_reverse, servesRows.rests.clean]
    decide
  have known : (DeltaOp.insert 0 2 .default).Keyed dictionary := by
    rw [DeltaOp.Keyed, NodeDictionary.len, keys]
    decide
  have run : Run (UseStep "social.FOLLOWS" ref dictionary) catalog
      [.reverse "social.FOLLOWS", .mutate ref (.insert 0 2 .default)] _ :=
    (Run.start.step ⟨trivial, rfl⟩).step
      ⟨⟨apart, fun _ => ⟨HistoryCall.possible_mutate _ few, trivial, known⟩⟩, rfl⟩
  obtain ⟨found, -⟩ := answers _ _ run _ "ann" _
    (AsksFor.literals blank "social.FOLLOWS" "ann" 2 (by decide) (by decide))
  obtain ⟨rows, ran, answered⟩ := found (by rw [rowsOf_followers]; decide)
  refine ⟨names, catalog, ref, dictionary, _, rows, registered, run, ran,
    (answered.rows _ _).mpr ⟨by decide, "cy", rfl, ?_⟩⟩
  have link : linksAfter ref dictionary (linksOf (followsKeys.rowsOf [followers]))
      [.reverse "social.FOLLOWS", .mutate ref (.insert 0 2 .default)] "ann" "cy" := by
    simp [linksAfter, CatalogUse.onLinks, DeltaOp.onLinks, servesRows.sound.keyOf_eq, keys]
  refine isDistance_succ_iff.mpr ⟨⟨"ann", isDistance_zero_iff.mpr rfl, link⟩, fun n small => ?_⟩
  rw [Nat.le_zero.mp small, isDistance_zero_iff]
  decide

/-- After a call of `graph_traverse`, who leads to Cy. -/
theorem incoming_key_query_finds_ancestors_witness : ∃ current next rows,
    keyQuery .other blank [.literal (.utf8 (some "social.FOLLOWS")),
        .literal (.utf8 (some "cy")), .literal (.int64 (some 2)), .literal (.utf8 (some "in"))]
        "social.FOLLOWS" current = (next, .ok rows) ∧ (some "cy", 0) ∈ rows := by
  obtain ⟨names, catalog, registered⟩ := exists_registered
  obtain ⟨ref, dictionary, -, -, answers⟩ := @incoming_key_query_finds_ancestors _ _ _ _ _ _
    followsKeys [followers] .other blank .new registered (List.head_mem (by simp [users])) rfl
    (SessionContext.collect_answering (followsKeys.keyedQuery none) [followers])
    (by rw [rowsOf_followers, KeysFit]; decide)
  have run : Run (UseStep "social.FOLLOWS" ref dictionary) catalog [.traverse blank []] _ :=
    Run.start.step ⟨trivial, rfl⟩
  obtain ⟨next, rows, ran, answered⟩ := answers _ _ run
    (List.forall_mem_singleton.mpr trivial) _ "cy" _
    (AsksFor.literalsIn blank "social.FOLLOWS" "cy" 2 (by decide) (by decide))
    (by rw [rowsOf_followers]; decide)
  exact ⟨_, next, rows, ran, (answered.rows _ _).mpr
    ⟨Nat.zero_le _, "cy", rfl, isDistance_zero_iff.mpr rfl⟩⟩

end FusionGraph
