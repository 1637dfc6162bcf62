import FusionGraph.Catalog.OntologyLoader
import FusionGraph.Exec.GraphTraverseUdtf
import FusionGraph.Foundations.TableJoin

/-!
# Queries with the table functions

`graph_traverse` plans a traversal, and the table that it returns is scanned when the
query runs. `graph_nodes` returns the dictionary of a graph as a table. The query that
the documentation shows joins the two on the identifier, to answer with keys.

Here nothing runs beside a call, so a call is its steps one after the other
(`GraphTraverseUdtf.call`). It takes at most six, and changes the catalog in no other
way than `GraphCatalog.reverse` does (`call_catalog`).
-/

set_option autoImplicit false

namespace FusionGraph

open Foundations

/-! ## A call of graph_traverse on its own -/

namespace GraphTraverseUdtf

/-- Steps of a call until it returns. -/
def runCall (debug : DebugText) (args : List Expr) : ℕ → GraphCatalog NodeDictionary →
    TraverseCall → GraphCatalog NodeDictionary × Checked DataFusionError TraversalTable
  | _, catalog, .done result => (catalog, result)
  | 0, catalog, _ => (catalog, Checked.abort .loopBoundExhausted)
  | fuel + 1, catalog, call =>
    let (catalog, call) := call.step debug args catalog
    runCall debug args fuel catalog call

/-- A call of `graph_traverse`. -/
def call (debug : DebugText) (args : List Expr) (catalog : GraphCatalog NodeDictionary) :
    GraphCatalog NodeDictionary × Checked DataFusionError TraversalTable :=
  runCall debug args 6 catalog (.begin debug args)

end GraphTraverseUdtf

/-! ## Scanning the table -/

/-- A column of the output of a traversal. -/
inductive TraversalColumn where
  | nodeId (values : List ℕ)
  | depth (values : List ℕ)
  | path (values : List (Option (List ℕ)))

/-- The first entries of a column. -/
def TraversalColumn.take (count : ℕ) : TraversalColumn → TraversalColumn
  | nodeId values => nodeId (values.take count)
  | depth values => depth (values.take count)
  | path values => path (values.take count)

/-- The columns of a batch, in the order of the output schema. -/
def TraversalBatch.columns (batch : TraversalBatch) : List TraversalColumn :=
  [.nodeId batch.nodeId, .depth batch.depth, .path batch.path]

/-- A batch of some of the columns. -/
structure ProjectedBatch where
  columns : List TraversalColumn
  numRows : ℕ

/-- What a scan returns: the traversal, the columns it keeps, and how many rows. -/
structure TraversalPlan where
  exec : GraphTraversalExec
  projection : Option (List ℕ)
  fetch : Option ℕ

namespace TraversalTable

/-- The operator for the graph of the table. -/
def exec (self : TraversalTable) (graphs : GraphRef → CsrGraph) : GraphTraversalExec :=
  let exec := GraphTraversalExec.new (graphs self.graph) self.spec
  match self.reverse with
  | some reverse => exec.withReverse (graphs reverse)
  | none => exec

/-- Plans a scan of some of the columns and rows. Each column is looked up in the
schema of the table. -/
def scan (self : TraversalTable) (graphs : GraphRef → CsrGraph) (projection : Option (List ℕ))
    (limit : Option ℕ) : Checked DataFusionError TraversalPlan := do
  let (_ : List PUnit) ← (projection.getD []).mapM fun i =>
    if i < 3 then .ok PUnit.unit else Checked.abort .indexOutOfBounds
  pure { exec := self.exec graphs, projection := projection, fetch := limit }

end TraversalTable

/-- Runs a plan: the traversal, then the projection, then the limit. -/
def TraversalPlan.execute (target : Target) (self : TraversalPlan) (partition : ℕ) :
    Checked DataFusionError ProjectedBatch := do
  let batch ← self.exec.execute target partition
  let kept := match self.projection with
    | none => batch.columns
    | some indices => indices.filterMap fun i => batch.columns[i]?
  let rows := batch.nodeId.length
  match self.fetch with
  | none => pure { columns := kept, numRows := rows }
  | some count => pure { columns := kept.map (.take count), numRows := min count rows }

/-- The identifiers and the depths of a batch that keeps these columns first. -/
def ProjectedBatch.nodeDepths (self : ProjectedBatch) : List (ℕ × ℕ) :=
  match self.columns with
  | .nodeId nodes :: .depth depths :: _ => nodes.zip depths
  | _ => []

/-! ## The table of a dictionary -/

namespace NodeDictionary

/-- The schema of the table. -/
def schema : Schema := [⟨"node_id", .uint64⟩, ⟨"node_key", .utf8⟩]

/-- The fields of the table that are not nullable. -/
def required : List String := ["node_id", "node_key"]

/-- The identifiers and their keys. -/
def toBatch (self : NodeDictionary) : Checked ArrowError (RecordBatch schema) := do
  let ids := ArrayRef.uint64 ((List.range self.keys.length).map some)
  let keys ← stringArray (self.keys.map some)
  RecordBatch.tryNew schema required [ids, keys]

end NodeDictionary

/-- An error of the array library, as an error of the query engine. -/
def ArrowError.toDataFusion : ArrowError → DataFusionError
  | .invalidArgument reason => .other s!"Arrow error: Invalid argument error: {reason}"

/-- A call of `graph_nodes`: the table of the dictionary. -/
def GraphNodesUdtf.call (debug : DebugText) (args : List Expr)
    (catalog : GraphCatalog NodeDictionary) :
    Checked DataFusionError (RecordBatch NodeDictionary.schema) :=
  if args.length ≠ 1 then
    Checked.fail (.plan s!"graph_nodes expects 1 argument (graph_name), got {args.length}")
  else do
    let name ← GraphTraverseUdtf.parseString debug args[0]? "1 (graph_name)"
    let available := debug.names catalog.names
    let dictionary ← Checked.okOr (catalog.dictionary name) (.plan
      (s!"graph_nodes: graph '{name}' has no node-key dictionary (only graphs projected from " ++
        s!"string-keyed ontologies have one); available graphs: {available}"))
    Checked.mapError ArrowError.toDataFusion dictionary.toBatch

/-! ## Traversals answered with keys -/

/-- The rows of the table of a dictionary. -/
def nodeRows (batch : RecordBatch NodeDictionary.schema) : List (Option ℕ × Option String) :=
  (batch.valuesAt .uint64 0).zip (batch.valuesAt .utf8 1)

/-- The query that joins a traversal with the keys of its nodes:
`SELECT k.node_key, t.depth FROM graph_traverse(args) t JOIN graph_nodes(name) k ON
k.node_id = t.node_id`. Both functions are called before the traversal is scanned for the
two columns and runs. -/
def keyQuery (target : Target) (debug : DebugText) (args : List Expr) (name : String)
    (catalog : GraphCatalog NodeDictionary) :
    GraphCatalog NodeDictionary × Checked DataFusionError (List (Option String × ℕ)) :=
  let (catalog, planned) := GraphTraverseUdtf.call debug args catalog
  (catalog, do
    let table ← planned
    let nodes ← GraphNodesUdtf.call debug [.literal (.utf8 (some name))] catalog
    let plan ← table.scan catalog.graphs (some [0, 1]) none
    let batch ← plan.execute target 0
    pure ((innerJoin (fun row => some row.1) Prod.fst batch.nodeDepths (nodeRows nodes)).map
      fun (row, node) => (node.2, row.2)))

/-! ## What a call does -/

namespace GraphTraverseUdtf

variable {debug : DebugText} {args : List Expr} {catalog : GraphCatalog NodeDictionary}
  {request : TraverseRequest} {graph : GraphRef} {entry : EntryRef} {fuel : ℕ}

/-- What a call that has found a graph returns. -/
def finished (request : TraverseRequest) (graph : GraphRef) (reverse : Option GraphRef) :
    Checked DataFusionError TraversalTable :=
  match u32TryFrom request.maxHops with
  | none => Checked.fail (.plan "graph_traverse: max_hops exceeds u32")
  | some maxDepth =>
    .ok
      { graph := graph
        reverse := reverse
        spec := { TraversalSpec.default with
          start := [request.startNode]
          maxDepth := maxDepth
          maxNodes := request.maxNodes
          direction := request.direction } }

theorem finish_eq (request : TraverseRequest) (graph : GraphRef) (reverse : Option GraphRef) :
    TraverseCall.finish request graph reverse = .done (finished request graph reverse) := by
  rw [TraverseCall.finish, finished]
  cases u32TryFrom request.maxHops <;> rfl

theorem runCall_done (result : Checked DataFusionError TraversalTable) :
    runCall debug args fuel catalog (.done result) = (catalog, result) := by
  cases fuel <;> rfl

/-- The transpose that a call attaches: an incoming traversal asks the catalog for it, an
outgoing one takes it when it is there. -/
def attached (request : TraverseRequest) (catalog : GraphCatalog NodeDictionary) :
    GraphCatalog NodeDictionary × Outcome (Option GraphRef) :=
  if request.direction = .incoming ∨ (catalog.residentReverse request.graphName).isSome then
    catalog.reverse request.graphName
  else (catalog, .ok none)

/-- What a call that has its start node returns. -/
def planned (debug : DebugText) (request : TraverseRequest) (catalog : GraphCatalog NodeDictionary) :
    GraphCatalog NodeDictionary × Checked DataFusionError TraversalTable :=
  match catalog.get request.graphName with
  | none =>
    let graphName := request.graphName
    let available := debug.names catalog.names
    (catalog, Checked.fail (.plan
      (s!"graph_traverse: no graph named '{graphName}' is registered; available graphs: " ++
        available)))
  | some graph =>
    match attached request catalog with
    | (next, .error fault) => (next, Checked.mapError .external (.error fault))
    | (next, .ok reverse) => (next, finished request graph reverse)

/-- **A call that has its start node looks the graph up and attaches its transpose.** -/
theorem runCall_findGraph (enough : 5 ≤ fuel) :
    runCall debug args fuel catalog (.findGraph request) = planned debug request catalog := by
  obtain ⟨fuel, rfl⟩ := Nat.exists_eq_add_of_le' enough
  cases bound : catalog.entry request.graphName with
  | none =>
    have absent : catalog.get request.graphName = none := by
      rw [GraphCatalog.get, bound, Option.map_none]
    simp only [planned, absent, runCall, TraverseCall.step]
  | some entry =>
    have found : catalog.get request.graphName = some (catalog.entries entry).forward := by
      rw [GraphCatalog.get, bound, Option.map_some]
    have resident : catalog.residentReverse request.graphName = (catalog.entries entry).reverse := by
      rw [GraphCatalog.residentReverse, bound, Option.bind_some]
    simp only [planned, attached, found, resident, runCall, TraverseCall.step, bound]
    cases memoized : (catalog.entries entry).reverse with
    | some reverse =>
      simp only [Option.isSome_some, or_true, if_true, GraphCatalog.reverse_eq, bound, memoized,
        finish_eq, runCall_done]
    | none =>
      by_cases incoming : request.direction = .incoming
      · cases outcome : (catalog.graphs (catalog.entries entry).forward).transpose.2 with
        | error fault =>
          simp only [incoming, if_true, runCall, TraverseCall.step, outcome, true_or,
            GraphCatalog.reverse_eq, bound, memoized]
        | ok built =>
          simp only [incoming, if_true, runCall, TraverseCall.step, outcome, true_or,
            GraphCatalog.reverse_eq, bound, memoized, finish_eq, GraphCatalog.allocGraph]
      · simp only [incoming, if_false, Option.isSome_none, Bool.false_eq_true, or_self, finish_eq,
          runCall_done]

theorem planned_catalog (request : TraverseRequest) (catalog : GraphCatalog NodeDictionary) :
    (planned debug request catalog).1 = catalog ∨
      (planned debug request catalog).1 = (catalog.reverse request.graphName).1 := by
  rw [planned]
  cases catalog.get request.graphName with
  | none => exact .inl rfl
  | some graph =>
    have either : (attached request catalog).1 = catalog ∨
        (attached request catalog).1 = (catalog.reverse request.graphName).1 := by
      rw [attached]
      split
      · exact .inr rfl
      · exact .inl rfl
    generalize attached request catalog = picked at either ⊢
    rcases picked with ⟨next, fault | reverse⟩
    · exact either
    · exact either

/-- A call whose start node is resolved fails to parse the rest, or plans a request. -/
theorem runCall_resolved (enough : 5 ≤ fuel) (graphName : String) (startNode : ℕ) :
    runCall debug args fuel catalog (.resolved debug args graphName startNode) =
      match TraverseCall.parseRequest debug args graphName startNode with
      | .error fault => (catalog, .error fault)
      | .ok request => planned debug request catalog := by
  rw [TraverseCall.resolved]
  cases TraverseCall.parseRequest debug args graphName startNode with
  | error fault => exact runCall_done _
  | ok request => exact runCall_findGraph enough

/-- **A call changes the catalog at most by memoizing a transpose.** -/
theorem call_catalog (debug : DebugText) (args : List Expr) (catalog : GraphCatalog NodeDictionary) :
    (call debug args catalog).1 = catalog ∨
      ∃ name, (call debug args catalog).1 = (catalog.reverse name).1 := by
  have resolved : ∀ fuel graphName startNode, 5 ≤ fuel →
      (runCall debug args fuel catalog (.resolved debug args graphName startNode)).1 = catalog ∨
        ∃ name, (runCall debug args fuel catalog
          (.resolved debug args graphName startNode)).1 = (catalog.reverse name).1 := by
    intro fuel graphName startNode enough
    rw [runCall_resolved enough]
    cases TraverseCall.parseRequest debug args graphName startNode with
    | error fault => exact .inl rfl
    | ok request => exact (planned_catalog request catalog).imp_right fun same => ⟨_, same⟩
  rw [call, TraverseCall.begin]
  split
  · exact .inl (congrArg Prod.fst (runCall_done _))
  · cases parseString debug args[0]? "1 (graph_name)" with
    | error fault => exact .inl (congrArg Prod.fst (runCall_done _))
    | ok graphName =>
      cases startKey args[1]? with
      | none =>
        cases parseU64 debug args[1]? "2 (start_node)" with
        | error fault => exact .inl (congrArg Prod.fst (runCall_done _))
        | ok startNode => exact resolved 6 graphName startNode (Nat.le_succ 5)
      | some key =>
        simp only [runCall, TraverseCall.step]
        cases catalog.dictionary graphName with
        | none => exact .inl (congrArg Prod.fst (runCall_done _))
        | some dictionary =>
          dsimp only
          cases dictionary.idOf key with
          | none => exact .inl (congrArg Prod.fst (runCall_done _))
          | some startNode => exact resolved 5 graphName startNode (Nat.le_refl 5)

end GraphTraverseUdtf

/-! ## Queries for a key -/

/-- The arguments ask for the nodes around a key, within a number of hops and without a
cap. -/
structure AsksFor (debug : DebugText) (args : List Expr) (name key : String) (hops : ℕ)
    (direction : TraversalDirection) : Prop where
  count : 3 ≤ args.length ∧ args.length ≤ 5
  named : GraphTraverseUdtf.parseString debug args[0]? "1 (graph_name)" = .ok name
  keyed : GraphTraverseUdtf.startKey args[1]? = some key
  rest : ∀ node, TraverseCall.parseRequest debug args name node =
    .ok { graphName := name, startNode := node, maxHops := hops, maxNodes := none,
          direction := direction }
  deep : hops ≤ u32Max

/-- The specification of the traversal from one node. -/
def TraversalSpec.around (node hops : ℕ) (direction : TraversalDirection) : TraversalSpec :=
  { TraversalSpec.default with
    start := [node]
    maxDepth := hops
    maxNodes := none
    direction := direction }

/-- The error for a key that is not in the dictionary. -/
def unknownKey (key graphName : String) : DataFusionError :=
  .plan s!"graph_traverse: node key '{key}' not found in graph '{graphName}'"

namespace AsksFor

variable {debug : DebugText} {args : List Expr} {name key : String} {hops : ℕ}
  {direction : TraversalDirection} {catalog : GraphCatalog NodeDictionary}
  {dictionary : NodeDictionary}

theorem begin_eq (asks : AsksFor debug args name key hops direction) :
    TraverseCall.begin debug args = .findDictionary name key := by
  have count : ¬ (args.length < 3 ∨ 5 < args.length) := by
    have bounds := asks.count
    omega
  rw [TraverseCall.begin, if_neg count]
  simp only [asks.named, asks.keyed]

/-- A key that the dictionary does not have is an error. -/
theorem call_unknown (asks : AsksFor debug args name key hops direction)
    (found : catalog.dictionary name = some dictionary) (unknown : dictionary.idOf key = none) :
    GraphTraverseUdtf.call debug args catalog =
      (catalog, Checked.fail (unknownKey key name)) := by
  rw [unknownKey, GraphTraverseUdtf.call, asks.begin_eq]
  simp only [GraphTraverseUdtf.runCall, TraverseCall.step, found, unknown,
    GraphTraverseUdtf.runCall_done]

/-- A key of the dictionary is resolved, and the traversal from its node is planned. -/
theorem call_known (asks : AsksFor debug args name key hops direction) {node : ℕ}
    (found : catalog.dictionary name = some dictionary) (known : dictionary.idOf key = some node)
    {ref : GraphRef} (bound : catalog.get name = some ref)
    {next : GraphCatalog NodeDictionary} {reverse : Option GraphRef}
    (attaches : (if direction = .incoming ∨ (catalog.residentReverse name).isSome then
      catalog.reverse name else (catalog, .ok none)) = (next, .ok reverse)) :
    GraphTraverseUdtf.call debug args catalog = (next, .ok
      { graph := ref, reverse := reverse, spec := .around node hops direction }) := by
  rw [GraphTraverseUdtf.call, asks.begin_eq]
  simp only [GraphTraverseUdtf.runCall, TraverseCall.step, found, known]
  rw [GraphTraverseUdtf.runCall_resolved (Nat.le_refl 5), asks.rest]
  simp only [GraphTraverseUdtf.planned, bound, GraphTraverseUdtf.attached, attaches,
    GraphTraverseUdtf.finished, u32TryFrom_of_le asks.deep]
  rfl

/-- The arguments `'name', 'key', hops` ask for the nodes that the key leads to. -/
theorem literals (debug : DebugText) (name key : String) (hops : Int64) (sign : 0 ≤ hops.toInt)
    (deep : hops.toInt.toNat ≤ u32Max) :
    AsksFor debug [.literal (.utf8 (some name)), .literal (.utf8 (some key)),
      .literal (.int64 (some hops))] name key hops.toInt.toNat .outgoing where
  count := by simp
  named := rfl
  keyed := rfl
  rest node := by
    simp [TraverseCall.parseRequest, GraphTraverseUdtf.parseU64, GraphTraverseUdtf.natOfInt, sign,
      GraphTraverseUdtf.parseFourth, GraphTraverseUdtf.parseFifth,
      GraphTraverseUdtf.parseDirection, Checked.ok_bind, Checked.pure_eq_ok]
  deep := deep

/-- With a fourth argument `'in'`, they ask for the nodes that lead to the key. -/
theorem literalsIn (debug : DebugText) (name key : String) (hops : Int64) (sign : 0 ≤ hops.toInt)
    (deep : hops.toInt.toNat ≤ u32Max) :
    AsksFor debug [.literal (.utf8 (some name)), .literal (.utf8 (some key)),
      .literal (.int64 (some hops)), .literal (.utf8 (some "in"))] name key hops.toInt.toNat
      .incoming where
  count := by simp
  named := rfl
  keyed := rfl
  rest node := by
    simp [TraverseCall.parseRequest, GraphTraverseUdtf.parseU64, GraphTraverseUdtf.natOfInt, sign,
      GraphTraverseUdtf.parseFourth, GraphTraverseUdtf.isText, GraphTraverseUdtf.parseString,
      GraphTraverseUdtf.parseFifth, GraphTraverseUdtf.parseDirection, Checked.ok_bind,
      Checked.pure_eq_ok]
  deep := deep

end AsksFor

/-! ## The table of a dictionary lists its keys -/

/-- The keys of a dictionary fit in one array of strings. -/
def NodeDictionary.FitsArray (self : NodeDictionary) : Prop :=
  (self.keys.map String.utf8ByteSize).sum ≤ i32Max

/-- **The table has a row for each identifier, with its key.** -/
theorem NodeDictionary.toBatch_eq (self : NodeDictionary) (fits : self.FitsArray) :
    ∃ batch, self.toBatch = .ok batch ∧
      nodeRows batch = self.keys.zipIdx.map fun (key, id) => (some id, some key) := by
  have bytes : ((self.keys.map some).map fun value =>
      (value.map String.utf8ByteSize).getD 0).sum ≤ i32Max := by
    rw [List.map_map]
    exact fits
  have array : (stringArray (self.keys.map some) : Checked ArrowError ArrayRef) =
      .ok (.utf8 (self.keys.map some)) := by
    rw [stringArray, if_pos bytes]
  obtain ⟨batch, made, columns⟩ := RecordBatch.exists_of_tryNew schema required
    (.uint64 ((List.range self.keys.length).map some)) [.utf8 (self.keys.map some)]
    (by simp [ArrayRef.length]) rfl
    (by simp [firstNull, schema, ArrayRef.hasNull])
  refine ⟨batch, by simp only [toBatch, array, Checked.ok_bind, made], ?_⟩
  have ids : batch.valuesAt .uint64 0 = (List.range self.keys.length).map some := by
    rw [RecordBatch.valuesAt, columns]
    rfl
  have keys : batch.valuesAt .utf8 1 = self.keys.map some := by
    rw [RecordBatch.valuesAt, columns]
    rfl
  rw [nodeRows, ids, keys]
  refine List.ext_getElem? fun i => ?_
  rw [List.getElem?_map, List.getElem?_zipIdx]
  by_cases inside : i < self.keys.length
  · simp [inside]
  · simp [inside]

end FusionGraph
