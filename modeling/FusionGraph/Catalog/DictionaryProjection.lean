import FusionGraph.Catalog.NodeDictionary
import FusionGraph.Core.Construction
import FusionGraph.Exec.GraphTraversal
import FusionGraph.Exec.RecordBatch
import FusionGraph.Ontology.Schema

/-!
# Graphs over string keys

An edge definition with string keys is projected to two columns of strings and,
when it is weighted, one of weights. The loader gives each key an identifier when
it first sees it, row by row, and builds the graph of the identifiers. Rows with
a null key are skipped before their keys are looked at.

Nothing is lost: the dictionary and its inverse number the distinct keys in the
order of their first occurrence, the identifiers are the nodes of the graph, and
the edges of the graph, decoded, are the rows.
-/

set_option autoImplicit false

namespace FusionGraph

open Foundations Foundations.StableBuckets

/-- The dictionary, the edges and the weights that have been collected. -/
structure KeyedEdges where
  dictionary : NodeDictionary
  edges : List (ℕ × ℕ)
  weights : List Float32

namespace EdgeDefinition

/-- The schema of the query: both keys as strings, and the weight. -/
def projection (self : EdgeDefinition) : Schema :=
  [⟨self.fromColumn, .utf8⟩, ⟨self.toColumn, .utf8⟩] ++
    (self.weightColumn.map fun name => (⟨name, .float32⟩ : Field)).toList

/-- The entries of a key column. -/
def keyColumn {schema : Schema} (batch : RecordBatch schema) (i : ℕ) (name : String) :
    Checked DataFusionError (List (Option String)) := do
  let column ← batch.column i
  Checked.okOr (ArrowType.utf8.downcast column)
    (.execution s!"ID column '{name}' did not cast to Utf8")

/-- The entries of the weight column, when the definition has one. -/
def weightColumnOf (self : EdgeDefinition) (batch : RecordBatch self.projection) :
    Checked DataFusionError (Option (List (Option Float32))) :=
  if self.weightColumn.isSome then do
    let column ← batch.column 2
    let weights ← Checked.okOr (ArrowType.float32.downcast column)
      (.execution "weight column did not cast to Float32")
    pure (some weights)
  else pure none

/-- The columns of a batch of the query. -/
def edgeColumns (self : EdgeDefinition) (batch : RecordBatch self.projection) :
    Checked DataFusionError (EdgeColumns String) := do
  let sources ← keyColumn batch 0 self.fromColumn
  let targets ← keyColumn batch 1 self.toColumn
  let weights ← self.weightColumnOf batch
  pure { sources := sources, targets := targets, weights := weights }

/-- One row: both keys get their identifiers, unless one of them is null. -/
def internRow (columns : EdgeColumns String) (state : KeyedEdges) (i : ℕ) :
    Checked DataFusionError KeyedEdges := do
  let source ← Checked.index columns.sources i
  let target ← Checked.index columns.targets i
  match source, target with
  | some source, some target => do
    let (f, dictionary) := state.dictionary.getOrInsert source
    let (t, dictionary) := dictionary.getOrInsert target
    let weights ←
      match columns.weights with
      | some entries => do
        let weight ← Checked.index entries i
        pure (state.weights ++ [weight.getD 1.0])
      | none => pure state.weights
    pure { dictionary := dictionary, edges := state.edges ++ [(f, t)], weights := weights }
  | _, _ => pure state

/-- The rows of one batch. -/
def internBatch (self : EdgeDefinition) (state : KeyedEdges)
    (batch : RecordBatch self.projection) : Checked DataFusionError KeyedEdges := do
  let columns ← self.edgeColumns batch
  (List.range batch.numRows).foldlM (internRow columns) state

/-- The graph and the dictionary of the batches that the query returns. -/
def buildEdgeGraphWithDictionary (self : EdgeDefinition)
    (batches : List (RecordBatch self.projection)) :
    Checked DataFusionError (CsrGraph × NodeDictionary) := do
  let state ← batches.foldlM self.internBatch { dictionary := .new, edges := [], weights := [] }
  let builder :=
    if self.weightColumn.isSome then
      CsrBuilder.new.withWeightedEdges
        ((state.edges.zip state.weights).map fun ((f, t), w) => (f, t, w))
    else CsrBuilder.new.withEdges state.edges
  let graph ← Checked.mapError .external builder.build
  pure (graph, state.dictionary)

/-! ## The rows of the query -/

/-- The columns of a batch of the query, by their positions. -/
def columnsOf (self : EdgeDefinition) (batch : RecordBatch self.projection) :
    EdgeColumns String where
  sources := batch.valuesAt .utf8 0
  targets := batch.valuesAt .utf8 1
  weights := if self.weightColumn.isSome then some (batch.valuesAt .float32 2) else none

/-- The rows whose keys are not null, batch after batch, in row order. -/
def rowsOf (self : EdgeDefinition) (batches : List (RecordBatch self.projection)) :
    List (EdgeRow String) :=
  batches.flatMap fun batch => (self.columnsOf batch).edgeRows batch.numRows

variable (self : EdgeDefinition)

theorem source_type : self.projection[0]?.map Field.dataType = some ArrowType.utf8.dataType := rfl

theorem target_type : self.projection[1]?.map Field.dataType = some ArrowType.utf8.dataType := rfl

theorem weight_type (weighted : self.weightColumn.isSome = true) :
    self.projection[2]?.map Field.dataType = some ArrowType.float32.dataType := by
  obtain ⟨name, found⟩ := Option.isSome_iff_exists.mp weighted
  rw [projection, found]
  rfl

/-- The columns of a batch have an entry for each of its rows. -/
theorem columnsOf_full (batch : RecordBatch self.projection) :
    (self.columnsOf batch).Full batch.numRows where
  sources := by
    obtain ⟨-, -, -, length⟩ := batch.valuesAt_of_type .utf8 self.source_type
    exact length
  targets := by
    obtain ⟨-, -, -, length⟩ := batch.valuesAt_of_type .utf8 self.target_type
    exact length
  weights entries found := by
    cases weighted : self.weightColumn.isSome with
    | false => simp [columnsOf, weighted] at found
    | true =>
      obtain ⟨-, -, -, length⟩ := batch.valuesAt_of_type .float32 (self.weight_type weighted)
      obtain rfl : batch.valuesAt .float32 2 = entries := by simpa [columnsOf, weighted] using found
      exact length

/-- Every batch of the query is read. -/
theorem edgeColumns_eq (batch : RecordBatch self.projection) :
    self.edgeColumns batch = .ok (self.columnsOf batch) := by
  obtain ⟨source, sourceAt, sources, -⟩ := batch.valuesAt_of_type .utf8 self.source_type
  obtain ⟨target, targetAt, targets, -⟩ := batch.valuesAt_of_type .utf8 self.target_type
  have weights : self.weightColumnOf batch =
      .ok (if self.weightColumn.isSome then some (batch.valuesAt .float32 2) else none) := by
    rw [weightColumnOf]
    split
    · rename_i weighted
      obtain ⟨weight, weightAt, entries, -⟩ :=
        batch.valuesAt_of_type .float32 (self.weight_type weighted)
      simp only [RecordBatch.column, Checked.index_eq_ok weightAt, Checked.ok_bind, entries,
        Checked.okOr_some, Checked.pure_eq_ok]
    · rfl
  simp only [edgeColumns, keyColumn, RecordBatch.column, Checked.index_eq_ok sourceAt,
    Checked.index_eq_ok targetAt, Checked.ok_bind, sources, targets, Checked.okOr_some, weights,
    Checked.pure_eq_ok, columnsOf]

end EdgeDefinition

/-- The keys of the rows, in the order in which they are looked at. -/
def keysOf (rows : List (EdgeRow String)) : List String :=
  rows.flatMap fun row => [row.1, row.2.1]

theorem keysOf_concat (rows : List (EdgeRow String)) (row : EdgeRow String) :
    keysOf (rows ++ [row]) = keysOf rows ++ [row.1] ++ [row.2.1] := by
  simp [keysOf]

theorem mem_keysOf {rows : List (EdgeRow String)} {row : EdgeRow String} (member : row ∈ rows) :
    row.1 ∈ keysOf rows ∧ row.2.1 ∈ keysOf rows :=
  ⟨List.mem_flatMap.mpr ⟨row, member, by simp⟩, List.mem_flatMap.mpr ⟨row, member, by simp⟩⟩

/-! ## Interning -/

/-- The identifier of a key: its position among the distinct keys. -/
def numberOf (rows : List (EdgeRow String)) (key : String) : ℕ :=
  (keysOf rows).eraseDups.idxOf key

/-- What has been collected are the given rows. -/
structure KeyedEdges.Collected (state : KeyedEdges) (weighted : Bool)
    (rows : List (EdgeRow String)) : Prop where
  interned : state.dictionary.Interned
  keys : state.dictionary.keys = (keysOf rows).eraseDups
  edges : state.edges = rows.map fun row => (numberOf rows row.1, numberOf rows row.2.1)
  weights : state.weights = if weighted then rows.map fun row => row.2.2 else []

/-- The keys of earlier rows keep their identifiers. -/
theorem numberOf_concat {rows : List (EdgeRow String)} {key : String} (known : key ∈ keysOf rows)
    (row : EdgeRow String) : numberOf (rows ++ [row]) key = numberOf rows key := by
  rw [numberOf, keysOf_concat, List.append_assoc, idxOf_eraseDups_append known, numberOf]

/-- One more row is collected. -/
theorem KeyedEdges.Collected.concat {state : KeyedEdges} {weighted : Bool}
    {rows : List (EdgeRow String)} (collected : state.Collected weighted rows)
    (source target : String) (weight : Float32) :
    KeyedEdges.Collected
      { dictionary := ((state.dictionary.getOrInsert source).2.getOrInsert target).2
        edges := state.edges ++ [((state.dictionary.getOrInsert source).1,
          ((state.dictionary.getOrInsert source).2.getOrInsert target).1)]
        weights := if weighted then state.weights ++ [weight] else state.weights }
      weighted (rows ++ [(source, target, weight)]) := by
  obtain ⟨interned, keys, first⟩ := collected.interned.getOrInsert collected.keys source
  obtain ⟨internedToo, keysToo, second⟩ := interned.getOrInsert keys target
  refine ⟨internedToo, by rw [keysToo, keysOf_concat], ?_, ?_⟩
  · have earlier : rows.map (fun row => (numberOf rows row.1, numberOf rows row.2.1)) =
        rows.map fun row => (numberOf (rows ++ [(source, target, weight)]) row.1,
          numberOf (rows ++ [(source, target, weight)]) row.2.1) :=
      List.map_congr_left fun row member => by
        rw [numberOf_concat (mem_keysOf member).1, numberOf_concat (mem_keysOf member).2]
    have kept : (keysOf rows ++ [source] ++ [target]).eraseDups.idxOf source =
        (keysOf rows ++ [source]).eraseDups.idxOf source :=
      idxOf_eraseDups_append (by simp) [target]
    rw [List.map_append, ← earlier, ← collected.edges, first, second]
    simp only [List.map_cons, List.map_nil, numberOf, keysOf_concat, kept]
  · rw [collected.weights]
    cases weighted with
    | false => rfl
    | true => simp

namespace EdgeDefinition

variable {columns : EdgeColumns String} {state : KeyedEdges} {rows : List (EdgeRow String)}

/-- A row is collected, or skipped when one of its keys is null. -/
theorem internRow_collected {numRows i : ℕ} (full : columns.Full numRows) (inside : i < numRows)
    (collected : state.Collected columns.weights.isSome rows) :
    ∃ next, internRow columns state i = .ok next ∧
      next.Collected columns.weights.isSome (rows ++ (columns.kept i).toList) := by
  obtain ⟨source, target, sourceAt, targetAt, weightAt⟩ := full.entries inside
  simp only [internRow, EdgeColumns.kept, Checked.index_eq_ok sourceAt,
    Checked.index_eq_ok targetAt, Checked.ok_bind, sourceAt, targetAt]
  cases source with
  | none => exact ⟨state, rfl, by simpa using collected⟩
  | some source =>
    cases target with
    | none => exact ⟨state, rfl, by simpa using collected⟩
    | some target =>
      have next := collected.concat source target
        ((columns.weights.bind fun entries => entries[i]?.join).getD 1.0)
      cases weighted : columns.weights with
      | none =>
        rw [weighted] at next
        exact ⟨_, rfl, next⟩
      | some entries =>
        obtain ⟨weight, held⟩ := weightAt entries weighted
        simp only [weighted, Option.bind_some, held, Option.join_some, Option.isSome_some,
          if_true] at next
        simp only [Checked.index_eq_ok held, Checked.ok_bind, Option.bind_some, held,
          Option.join_some]
        exact ⟨_, rfl, next⟩

/-- The rows of a batch are collected. -/
theorem internBatch_collected (self : EdgeDefinition) (batch : RecordBatch self.projection)
    (collected : state.Collected self.weightColumn.isSome rows) :
    ∃ next, self.internBatch state batch = .ok next ∧
      next.Collected self.weightColumn.isSome
        (rows ++ (self.columnsOf batch).edgeRows batch.numRows) := by
  have full := self.columnsOf_full batch
  have weighted : (self.columnsOf batch).weights.isSome = self.weightColumn.isSome := by
    cases known : self.weightColumn.isSome <;> simp [columnsOf, known]
  rw [internBatch, edgeColumns_eq, Checked.ok_bind]
  rw [← weighted] at collected ⊢
  refine Checked.foldlM_of_invariant
    (fun done (state : KeyedEdges) => state.Collected (self.columnsOf batch).weights.isSome
      (rows ++ done.filterMap (self.columnsOf batch).kept))
    (List.range batch.numRows) (by simpa using collected) fun done i rest state whole holds => ?_
  have inside : i < batch.numRows := List.mem_range.mp (whole ▸ by simp)
  obtain ⟨next, moved, kept⟩ := internRow_collected full inside holds
  refine ⟨next, moved, ?_⟩
  have split : [i].filterMap (self.columnsOf batch).kept =
      ((self.columnsOf batch).kept i).toList := by
    cases edge : (self.columnsOf batch).kept i <;> simp [edge]
  rwa [List.filterMap_append, split, ← List.append_assoc]

/-- **The rows of all batches are collected.** -/
theorem internBatches_collected (self : EdgeDefinition)
    (batches : List (RecordBatch self.projection)) :
    ∃ state, batches.foldlM self.internBatch { dictionary := .new, edges := [], weights := [] } =
        .ok state ∧
      state.Collected self.weightColumn.isSome (self.rowsOf batches) := by
  refine Checked.foldlM_of_invariant
    (fun done (state : KeyedEdges) =>
      state.Collected self.weightColumn.isSome (self.rowsOf done)) batches ?_
    fun done batch rest state whole holds => ?_
  · exact ⟨.new, rfl, rfl, by simp [rowsOf]⟩
  · obtain ⟨next, moved, kept⟩ := self.internBatch_collected batch holds
    exact ⟨next, moved, by simpa [rowsOf] using kept⟩

end EdgeDefinition

/-! ## The graph -/

/-- The edges of the rows between the identifiers of their keys. -/
def numberedEdges (weighted : Bool) (rows : List (EdgeRow String)) : List StoredEdge :=
  rows.map fun row =>
    (numberOf rows row.1, numberOf rows row.2.1, if weighted then some row.2.2 else none)

/-- What has been collected is what the builder holds. -/
theorem KeyedEdges.Collected.holds {state : KeyedEdges} {weighted : Bool}
    {rows : List (EdgeRow String)} (collected : state.Collected weighted rows) :
    (if weighted then
        CsrBuilder.new.withWeightedEdges
          ((state.edges.zip state.weights).map fun ((f, t), w) => (f, t, w))
      else CsrBuilder.new.withEdges state.edges).Holds weighted (numberedEdges weighted rows) := by
  cases weighted with
  | false =>
    simpa [numberedEdges, collected.edges, Function.comp_def] using
      CsrBuilder.Holds.withEdges state.edges
  | true =>
    simpa [numberedEdges, collected.edges, collected.weights, Function.comp_def,
      List.zip_map'] using CsrBuilder.Holds.withWeightedEdges
        ((state.edges.zip state.weights).map fun ((f, t), w) => (f, t, w))

variable {rows : List (EdgeRow String)} {weighted : Bool}

/-- An identifier is below the number of keys. -/
theorem numberOf_lt {key : String} (known : key ∈ keysOf rows) :
    numberOf rows key < (keysOf rows).eraseDups.length :=
  List.idxOf_lt_length_of_mem (List.mem_eraseDups.mpr known)

theorem endpoints_lt {edge : StoredEdge} (member : edge ∈ numberedEdges weighted rows) :
    edge.1 < (keysOf rows).eraseDups.length ∧ edge.2.1 < (keysOf rows).eraseDups.length := by
  obtain ⟨row, inRows, rfl⟩ := List.mem_map.mp member
  exact ⟨numberOf_lt (mem_keysOf inRows).1, numberOf_lt (mem_keysOf inRows).2⟩

/-- The nodes of the graph are the identifiers of the keys. -/
theorem nodeUniverse_numberedEdges (distinct : (keysOf rows).eraseDups.Nodup) :
    nodeUniverse (numberedEdges weighted rows) = (keysOf rows).eraseDups.length := by
  refine eq_of_forall_lt_iff fun node => ?_
  rw [lt_nodeUniverse]
  constructor
  · rintro ⟨edge, member, bound⟩
    have below := endpoints_lt member
    omega
  · intro inside
    have number : numberOf rows (keysOf rows).eraseDups[node] = node :=
      distinct.idxOf_getElem node inside
    obtain ⟨row, inRows, endpoint⟩ :=
      List.mem_flatMap.mp (List.mem_eraseDups.mp (List.getElem_mem inside))
    refine ⟨_, List.mem_map_of_mem inRows, ?_⟩
    simp only [List.mem_cons, List.not_mem_nil, or_false] at endpoint
    rcases endpoint with source | target
    · exact .inl (Nat.le_of_eq (number.symm.trans (congrArg (numberOf rows) source)))
    · exact .inr (Nat.le_of_eq (number.symm.trans (congrArg (numberOf rows) target)))

/-! ## Decoding -/

/-- An edge under the keys of its endpoints. -/
def NodeDictionary.decode (dictionary : NodeDictionary) (edge : StoredEdge) :
    Option String × Option String × Option Float32 :=
  (dictionary.keyOf edge.1, dictionary.keyOf edge.2.1, edge.2.2)

/-- The edges of all nodes of a graph, decoded. -/
def CsrGraph.decodedEdges (graph : CsrGraph) (dictionary : NodeDictionary) :
    Outcome (List (Option String × Option String × Option Float32)) := do
  let decoded ← (List.range graph.nodeCount).mapM fun node => do
    let row ← graph.baseRow node
    pure (row.map fun entry => dictionary.decode (node, entry))
  pure decoded.flatten

/-- The edges of a graph that stores edges are these, decoded. -/
theorem decodedEdges_perm {graph : CsrGraph} {base : BaseLayer} {edges : List StoredEdge}
    (stores : graph.Stores base) (records : base.Records edges) (dictionary : NodeDictionary) :
    ∃ decoded, graph.decodedEdges dictionary = .ok decoded ∧
      decoded.Perm (edges.map dictionary.decode) := by
  have each : ∀ node ∈ List.range graph.nodeCount,
      (graph.baseRow node >>= fun row => pure (row.map fun entry =>
        dictionary.decode (node, entry))) =
        .ok ((bucket Prod.fst edges node).map dictionary.decode) := by
    intro node _
    rw [stores.baseRow_eq, records.row, Checked.ok_bind, entriesFrom, List.map_map]
    refine congrArg Except.ok (List.map_congr_left fun edge member => ?_)
    obtain ⟨-, source⟩ := (mem_bucket Prod.fst).mp member
    rw [Function.comp_apply, ← source]
  have bound : ∀ edge ∈ edges, edge.1 < graph.nodeCount := by
    intro edge member
    rw [stores.nodeCount, records.nodes]
    exact lt_nodeUniverse.mpr ⟨edge, member, .inl (Nat.le_refl _)⟩
  refine ⟨_, by rw [CsrGraph.decodedEdges, Checked.mapM_eq_ok each]; rfl, ?_⟩
  have gathered : ((List.range graph.nodeCount).map fun node =>
      (bucket Prod.fst edges node).map dictionary.decode).flatten =
        (buckets Prod.fst graph.nodeCount edges).flatten.map dictionary.decode := by
    rw [List.map_flatten, buckets, List.map_map]
    rfl
  rw [gathered]
  exact (flatten_buckets_perm Prod.fst bound).map dictionary.decode

/-! ## Nothing is lost -/

/-- A graph and a dictionary stand for rows: the dictionary numbers the distinct
keys in the order of their first occurrence, the nodes are the identifiers, and the
decoded edges are the rows with their weights. -/
structure LosslessProjection (graph : CsrGraph) (dictionary : NodeDictionary) (weighted : Bool)
    (rows : List (EdgeRow String)) : Prop where
  inverse : ∀ key id, dictionary.idOf key = some id ↔ dictionary.keyOf id = some key
  keys : ∀ key, (dictionary.idOf key).isSome ↔ key ∈ keysOf rows
  ids : ∀ id, (dictionary.keyOf id).isSome ↔ id < dictionary.len
  order : ∀ first second firstId secondId, dictionary.idOf first = some firstId →
    dictionary.idOf second = some secondId →
    (firstId < secondId ↔ (keysOf rows).idxOf first < (keysOf rows).idxOf second)
  nodes : graph.nodeCount = dictionary.len
  contained : ∀ key id, dictionary.idOf key = some id → graph.contains id = true
  clean : graph.delta = DeltaLayer.new
  edges : ∃ decoded, graph.decodedEdges dictionary = .ok decoded ∧
    decoded.Perm (rows.map fun row =>
      (some row.1, some row.2.1, if weighted then some row.2.2 else none))

namespace KeyedEdges.Collected

variable {state : KeyedEdges} (collected : state.Collected weighted rows)

include collected

theorem len_eq : state.dictionary.len = (keysOf rows).eraseDups.length := by
  rw [NodeDictionary.len, collected.keys]

/-- The keys that have an identifier are those that occur. -/
theorem isSome_idOf (key : String) : (state.dictionary.idOf key).isSome ↔ key ∈ keysOf rows := by
  rw [collected.interned.isSome_iff key, collected.keys, List.mem_eraseDups]

/-- The identifier of a key that occurs. -/
theorem idOf_eq {key : String} (known : key ∈ keysOf rows) :
    state.dictionary.idOf key = some (numberOf rows key) := by
  refine (collected.interned key _).mpr ?_
  rw [collected.keys, numberOf]
  exact List.getElem?_idxOf (List.mem_eraseDups.mpr known)

theorem eq_numberOf {key : String} {id : ℕ} (found : state.dictionary.idOf key = some id) :
    key ∈ keysOf rows ∧ numberOf rows key = id := by
  have known := (collected.isSome_idOf key).mp (by rw [found]; rfl)
  exact ⟨known, Option.some.inj ((collected.idOf_eq known).symm.trans found)⟩

/-- With few keys, the identifiers are decoded by their positions. -/
theorem keyOf_eq (few : (keysOf rows).eraseDups.length ≤ usizeMax) (id : ℕ) :
    state.dictionary.keyOf id = state.dictionary.keys[id]? :=
  state.dictionary.keyOf_eq (by rwa [collected.len_eq]) id

/-- The numbered edges are decoded to the rows. -/
theorem decode_numberedEdges (few : (keysOf rows).eraseDups.length ≤ usizeMax) :
    (numberedEdges weighted rows).map state.dictionary.decode = rows.map fun row =>
      (some row.1, some row.2.1, if weighted then some row.2.2 else none) := by
  have decoded : ∀ key ∈ keysOf rows,
      state.dictionary.keyOf (numberOf rows key) = some key := fun key known => by
    rw [collected.keyOf_eq few]
    exact (collected.interned key _).mp (collected.idOf_eq known)
  rw [numberedEdges, List.map_map]
  refine List.map_congr_left fun row member => ?_
  rw [Function.comp_apply, NodeDictionary.decode, decoded _ (mem_keysOf member).1,
    decoded _ (mem_keysOf member).2]

/-- The graph of what has been collected stands for the rows. -/
theorem lossless (few : (keysOf rows).eraseDups.length ≤ usizeMax) {graph : CsrGraph}
    {base : BaseLayer} (clean : graph.delta = DeltaLayer.new) (stores : graph.Stores base)
    (records : base.Records (numberedEdges weighted rows)) :
    LosslessProjection graph state.dictionary weighted rows := by
  have distinct : (keysOf rows).eraseDups.Nodup := collected.keys ▸ collected.interned.nodup
  have nodes : base.rows.length = state.dictionary.len := by
    rw [records.nodes, nodeUniverse_numberedEdges distinct, collected.len_eq]
  refine ⟨fun key id => ?_, collected.isSome_idOf, fun id => ?_, ?_, stores.nodeCount.trans nodes,
    ?_, clean, ?_⟩
  · rw [collected.keyOf_eq few]
    exact collected.interned key id
  · rw [collected.keyOf_eq few, NodeDictionary.len, Option.isSome_iff_ne_none, Ne,
      List.getElem?_eq_none_iff, Nat.not_le]
  · intro first second firstId secondId foundFirst foundSecond
    obtain ⟨knownFirst, rfl⟩ := collected.eq_numberOf foundFirst
    obtain ⟨knownSecond, rfl⟩ := collected.eq_numberOf foundSecond
    exact idxOf_eraseDups_lt_iff knownFirst knownSecond
  · intro key id found
    obtain ⟨known, rfl⟩ := collected.eq_numberOf found
    rw [stores.contains_iff, nodes, collected.len_eq]
    exact numberOf_lt known
  · rw [← collected.decode_numberedEdges few]
    exact decodedEdges_perm stores records state.dictionary

end KeyedEdges.Collected

/-- A graph that is built of what has been collected stands for the rows. -/
theorem KeyedEdges.Collected.lossless_of_build {state : KeyedEdges}
    (collected : state.Collected weighted rows) {builder : CsrBuilder} {graph : CsrGraph}
    (holds : builder.Holds weighted (numberedEdges weighted rows))
    (roomy : 28 ≤ builder.config.shardSize.val) (built : builder.build = .ok graph) :
    LosslessProjection graph state.dictionary weighted rows := by
  obtain ⟨clean, base, stores, records⟩ := holds.records_of_build roomy built
  have distinct : (keysOf rows).eraseDups.Nodup := collected.keys ▸ collected.interned.nodup
  have nodes : nodeUniverse (numberedEdges weighted rows) ≤ u32Max + 1 :=
    nodeUniverse_le fun edge member => by
      obtain ⟨source, target⟩ := (holds.fit_of_build built).1 edge member
      omega
  rw [nodeUniverse_numberedEdges distinct] at nodes
  refine collected.lossless (nodes.trans ?_) clean stores records
  simp only [u32Max, usizeMax]
  omega

namespace EdgeDefinition

/-- The graph is built of what has been collected of the rows. -/
theorem buildEdgeGraphWithDictionary_eq (self : EdgeDefinition)
    (batches : List (RecordBatch self.projection)) :
    ∃ (state : KeyedEdges) (builder : CsrBuilder),
      state.Collected self.weightColumn.isSome (self.rowsOf batches) ∧
      builder.Holds self.weightColumn.isSome
        (numberedEdges self.weightColumn.isSome (self.rowsOf batches)) ∧
      28 ≤ builder.config.shardSize.val ∧
      self.buildEdgeGraphWithDictionary batches = (do
        let graph ← Checked.mapError .external builder.build
        pure (graph, state.dictionary)) := by
  obtain ⟨state, interned, collected⟩ := self.internBatches_collected batches
  refine ⟨state, _, collected, collected.holds, ?_, by
    simp only [buildEdgeGraphWithDictionary, interned, Checked.ok_bind]⟩
  split
  · exact show 28 ≤ defaultShardSize.val by decide
  · exact show 28 ≤ defaultShardSize.val by decide

/-- **The graph and the dictionary that the loader returns stand for the rows.** -/
theorem lossless_of_buildEdgeGraph {self : EdgeDefinition}
    {batches : List (RecordBatch self.projection)} {graph : CsrGraph} {dictionary : NodeDictionary}
    (outcome : self.buildEdgeGraphWithDictionary batches = .ok (graph, dictionary)) :
    LosslessProjection graph dictionary self.weightColumn.isSome (self.rowsOf batches) := by
  obtain ⟨state, builder, collected, holds, roomy, same⟩ :=
    self.buildEdgeGraphWithDictionary_eq batches
  obtain ⟨found, built, pair⟩ := Checked.bind_eq_ok.mp (same.symm.trans outcome)
  obtain ⟨rfl, rfl⟩ := Prod.mk.inj (Except.ok.inj pair)
  exact collected.lossless_of_build holds roomy (Checked.mapError_eq_ok.mp built)

/-- **Dictionary projection is lossless.** The graph and the dictionary that the
loader returns for the batches of a query stand for the rows whose keys are not
null. It returns them whenever the rows can be counted in 32 bits. -/
theorem dictionary_projection_lossless (self : EdgeDefinition)
    (batches : List (RecordBatch self.projection))
    (few : (keysOf (self.rowsOf batches)).eraseDups.length < u32Max) :
    ((self.rowsOf batches).length ≤ u32Max →
      ∃ graph dictionary, self.buildEdgeGraphWithDictionary batches = .ok (graph, dictionary)) ∧
    ∀ graph dictionary, self.buildEdgeGraphWithDictionary batches = .ok (graph, dictionary) →
      LosslessProjection graph dictionary self.weightColumn.isSome (self.rowsOf batches) := by
  refine ⟨fun count => ?_, fun graph dictionary outcome => lossless_of_buildEdgeGraph outcome⟩
  obtain ⟨state, builder, collected, holds, roomy, same⟩ :=
    self.buildEdgeGraphWithDictionary_eq batches
  have valid : ∀ edge ∈ numberedEdges self.weightColumn.isSome (self.rowsOf batches),
      edge.1 ≤ u32Max ∧ edge.2.1 ≤ u32Max := fun edge member => by
    have below := endpoints_lt member
    omega
  obtain ⟨graph, -, built, -⟩ :=
    holds.build_ok valid (by rwa [numberedEdges, List.length_map]) (.inr roomy)
  exact ⟨graph, state.dictionary, by rw [same, built]; rfl⟩

/-- A weighted definition and a batch of it: the second row has a null key, the
third a null weight. -/
def knows : EdgeDefinition where
  label := "KNOWS"
  source := "knows"
  fromNode := "Person"
  fromColumn := "from"
  toNode := "Person"
  toColumn := "to"
  weightColumn := some "weight"
  weightDefault := 1.0
  validFromColumn := none
  validToColumn := none
  partitionColumn := none

def knowsBatch : RecordBatch knows.projection where
  columns := [.utf8 [some "b", some "c", some "a"], .utf8 [some "a", none, some "b"],
    .float32 [some 2.0, some 3.0, none]]
  numRows := 3
  types := rfl
  lengths := by simp [ArrayRef.length]

theorem dictionary_projection_lossless_witness : ∃ graph dictionary,
    knows.buildEdgeGraphWithDictionary [knowsBatch] = .ok (graph, dictionary) ∧
    (dictionary.idOf "c").isSome = false ∧ ∃ decoded, graph.decodedEdges dictionary = .ok decoded ∧
      decoded.Perm [(some "b", some "a", some 2.0), (some "a", some "b", some 1.0)] := by
  have rows : knows.rowsOf [knowsBatch] = [("b", "a", 2.0), ("a", "b", 1.0)] := rfl
  obtain ⟨computed, lossless⟩ := dictionary_projection_lossless knows [knowsBatch]
    (by rw [rows]; decide)
  obtain ⟨graph, dictionary, outcome⟩ := computed (by rw [rows]; decide)
  have all := lossless graph dictionary outcome
  rw [rows] at all
  refine ⟨graph, dictionary, outcome, ?_, all.edges⟩
  rw [Bool.eq_false_iff]
  exact fun found => absurd ((all.keys "c").mp found) (by decide)

end EdgeDefinition

end FusionGraph
