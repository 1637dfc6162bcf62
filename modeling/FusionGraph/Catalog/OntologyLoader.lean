import FusionGraph.Catalog.Catalog
import FusionGraph.Catalog.DictionaryProjection
import FusionGraph.Exec.StreamOutcome
import FusionGraph.Ontology.Validation

/-!
# Registering the graphs of an ontology

The loader goes through the edge definitions of an ontology in order. For each it
queries the table of the definition, builds a graph of the rows, and registers it in
the catalog before it looks at the next definition. A definition with string keys is
built with a dictionary, any other one by the build operator. The first error ends the
loop.

The query engine is outside. A query says which filters and expressions it has; what
planning it and running it returns comes from the session.
-/

set_option autoImplicit false

namespace FusionGraph

open Foundations Foundations.PolledStream

/-! ## Queries -/

/-- An expression over the columns of a table. -/
inductive SqlExpr where
  | col (name : String)
  | lit (text : String)
  | isNull (expr : SqlExpr)
  | or (left right : SqlExpr)
  | ltEq (left right : SqlExpr)
  | gt (left right : SqlExpr)
  | regexpReplace (source pattern replacement flags : SqlExpr)
  deriving DecidableEq, Repr

/-- A query over the table of an edge definition. It selects the rows that pass all
filters, and from each the columns, cast to the types of the schema and named by it. -/
structure EdgeQuery where
  edge : EdgeDefinition
  filters : List SqlExpr
  columns : List SqlExpr
  schema : Schema

/-- What comes from outside: the answers to queries, how long builds take, and the table
of printed characters. -/
structure SessionContext where
  /-- Plans a query; the answers of its scan, whose partitions are coalesced. -/
  scan : (query : EdgeQuery) → Checked DataFusionError (List (Exec.InputPoll query.schema))
  /-- Runs a query; its batches. -/
  collect : (query : EdgeQuery) → Checked DataFusionError (List (RecordBatch query.schema))
  /-- The milliseconds that the polls of a build measure. -/
  millis : EdgeDefinition → ℕ → ℕ
  /-- The characters that a debug print shows as they are. -/
  printed : Char → Bool

namespace EdgeDefinition

variable (self : EdgeDefinition)

/-- The temporal filters for an instant, when they are configured. -/
def temporalFilters (asOf : Option String) : List SqlExpr :=
  match asOf with
  | none => []
  | some instant =>
    (self.validFromColumn.map fun column => SqlExpr.ltEq (.col column) (.lit instant)).toList ++
    (self.validToColumn.map fun column =>
      SqlExpr.or (.isNull (.col column)) (.gt (.col column) (.lit instant))).toList

/-- The expression of a numeric identifier: the digits of the column when the node
says so, else the column. -/
def numericIdExpr (ontology : Ontology) (nodeLabel column : String) : SqlExpr :=
  if (ontology.node nodeLabel).any fun node => node.idTransform = .extractNumeric then
    .regexpReplace (.col column) (.lit "[^0-9]") (.lit "") (.lit "g")
  else .col column

/-- The schema of the numeric query: both identifiers as numbers, and the weight. -/
def numericProjection : Schema :=
  [⟨self.fromColumn, .uint64⟩, ⟨self.toColumn, .uint64⟩] ++
    (self.weightColumn.map fun name => (⟨name, .float32⟩ : Field)).toList

/-- The weight expression, when there is one. -/
def weightExprs : List SqlExpr := (self.weightColumn.map SqlExpr.col).toList

/-- The query of a definition with numeric identifiers. -/
def numericQuery (ontology : Ontology) (asOf : Option String) : EdgeQuery where
  edge := self
  filters := self.temporalFilters asOf
  columns := [numericIdExpr ontology self.fromNode self.fromColumn,
    numericIdExpr ontology self.toNode self.toColumn] ++ self.weightExprs
  schema := self.numericProjection

/-- The query of a definition with string keys. -/
def keyedQuery (asOf : Option String) : EdgeQuery where
  edge := self
  filters := self.temporalFilters asOf
  columns := [.col self.fromColumn, .col self.toColumn] ++ self.weightExprs
  schema := self.projection

/-! ## Graphs of one definition -/

/-- The configuration of the build operator. -/
def buildConfig : Exec.CsrBuildConfig :=
  { Exec.CsrBuildConfig.default with
    sourceColumn := self.fromColumn
    targetColumn := self.toColumn
    graphSink := some none
    weightColumn := self.weightColumn }

/-- Builds the graph of a definition with the build operator. -/
def buildEdgeGraph (ctx : SessionContext) (ontology : Ontology) (asOf : Option String) :
    Checked DataFusionError CsrGraph := do
  let input ← ctx.scan (self.numericQuery ontology asOf)
  match tryCollect Exec.CsrBuildStream.pollNext (input.length + 2) (ctx.millis self)
    (.new input self.buildConfig) with
  | none => Checked.abort .loopBoundExhausted
  | some (.error fault, _) => .error fault
  | some (.ok _, final) =>
    Checked.okOr final.config.graphSink.join
      (.execution "CSRBuilderExec completed without publishing a graph")

/-- Builds the graph and the dictionary of a definition. -/
def buildKeyedGraph (ctx : SessionContext) (asOf : Option String) :
    Checked DataFusionError (CsrGraph × NodeDictionary) := do
  let batches ← ctx.collect (self.keyedQuery asOf)
  self.buildEdgeGraphWithDictionary batches

/-- What an error is put under. -/
def context (error : DataFusionError) : DataFusionError :=
  .context s!"while projecting edge '{self.label}' from table '{self.source}'" error

end EdgeDefinition

/-! ## Registration -/

/-- Whether the keys of an edge need a dictionary. -/
def Ontology.needsDictionary (self : Ontology) (edge : EdgeDefinition) : Bool :=
  if self.settings.defaultNodeIdType = .string then true
  else
    ([edge.fromNode, edge.toNode].filterMap self.node).any fun node =>
      node.idTransform = .hashU64 || node.idTransform = .hashU32 ||
        node.idTransform = .uuidToU128

/-- Builds the graph of an edge definition and registers it under its name. -/
def registerEdge (ctx : SessionContext) (ontology : Ontology) (asOf : Option String)
    (catalog : GraphCatalog NodeDictionary) (edge : EdgeDefinition) :
    Checked DataFusionError String × GraphCatalog NodeDictionary :=
  let name := ontology.graphName edge
  if ontology.needsDictionary edge then
    match Checked.mapError edge.context (edge.buildKeyedGraph ctx asOf) with
    | .error fault => (.error fault, catalog)
    | .ok (graph, dictionary) =>
      let (forward, catalog) := catalog.allocGraph graph
      (.ok name, catalog.registerWithDictionary name forward dictionary)
  else
    match Checked.mapError edge.context (edge.buildEdgeGraph ctx ontology asOf) with
    | .error fault => (.error fault, catalog)
    | .ok graph =>
      let (forward, catalog) := catalog.allocGraph graph
      (.ok name, (catalog.register name forward).1)

/-- Registers edge definitions in order, up to the first that fails. -/
def registerEdges (ctx : SessionContext) (ontology : Ontology) (asOf : Option String) :
    List EdgeDefinition → List String → GraphCatalog NodeDictionary →
      Checked DataFusionError (List String) × GraphCatalog NodeDictionary
  | [], registered, catalog => (.ok registered, catalog)
  | edge :: rest, registered, catalog =>
    match registerEdge ctx ontology asOf catalog edge with
    | (.error fault, catalog) => (.error fault, catalog)
    | (.ok name, catalog) =>
      registerEdges ctx ontology asOf rest (registered ++ [name]) catalog

/-- Registers the graphs of all edge definitions of an ontology. -/
def registerOntologyGraphsAsOf (ctx : SessionContext) (ontology : Ontology)
    (catalog : GraphCatalog NodeDictionary) (asOf : Option String) :
    Checked DataFusionError (List String) × GraphCatalog NodeDictionary :=
  match Checked.mapError (fun e =>
    let text := e.display ctx.printed
    DataFusionError.plan s!"ontology validation failed: {text}") ontology.validateOrError with
  | .error fault => (.error fault, catalog)
  | .ok () => registerEdges ctx ontology asOf ontology.edges [] catalog

/-! ## Sessions of one answer -/

/-- A session that answers the queries of one schema with the batches, and fails others. -/
def SessionContext.answering {schema : Schema} (batches : List (RecordBatch schema)) :
    SessionContext where
  scan query :=
    if same : schema = query.schema then .ok (same ▸ batches.map .ok)
    else Checked.fail (.plan "unknown table")
  collect query :=
    if same : schema = query.schema then .ok (same ▸ batches)
    else Checked.fail (.plan "unknown table")
  millis _ _ := 0
  printed := printedAscii

@[simp] theorem SessionContext.scan_answering (query : EdgeQuery)
    (batches : List (RecordBatch query.schema)) :
    (SessionContext.answering batches).scan query = .ok (batches.map .ok) := dif_pos rfl

@[simp] theorem SessionContext.collect_answering (query : EdgeQuery)
    (batches : List (RecordBatch query.schema)) :
    (SessionContext.answering batches).collect query = .ok batches := dif_pos rfl

/-! ## What a build returns -/

namespace EdgeDefinition

variable (self : EdgeDefinition)

/-- **The build operator returns the outcome of the answers of the scan.** -/
theorem buildEdgeGraph_eq (ctx : SessionContext) (ontology : Ontology) (asOf : Option String) :
    self.buildEdgeGraph ctx ontology asOf =
      ctx.scan (self.numericQuery ontology asOf) >>= fun input =>
        self.buildConfig.outcome input [] := by
  rw [buildEdgeGraph]
  refine congrArg _ (funext fun input => ?_)
  obtain ⟨last, final, bound, yields, settled⟩ :=
    Exec.CsrBuildStream.collecting_yieldsOnce self.buildConfig input [] (ctx.millis self)
  rw [Exec.CsrBuildStream.collecting_nil] at yields
  rw [yields.tryCollect_eq (Nat.add_le_add_right bound 2)]
  cases outcome : self.buildConfig.outcome input [] with
  | ok graph =>
    rw [outcome] at settled
    simp [Exec.statistics, Except.map, settled, Exec.CsrBuildConfig.settle,
      Exec.CsrBuildConfig.publish, buildConfig, Exec.GraphSink.set]
  | error fault => rfl

end EdgeDefinition

end FusionGraph
