import FusionGraph.Exec.GraphTraversal
import FusionGraph.Exec.RecordBatch
import FusionGraph.Foundations.PolledStream

/-!
# The build operator

`CSRBuilderExec` builds a graph from the batches of its input. Its stream takes
at most one batch of its input at each poll, appends the edges of the batch to a
buffer and returns nothing yet. At the end of its input it builds the graph,
puts it into the sink and returns one row of statistics. An error of the input,
of a batch or of the builder is returned instead, and ends the stream.

The input is the list of the polls that it still answers, up to its end. The
time that a build takes comes from outside.
-/

set_option autoImplicit false

namespace FusionGraph

open Foundations

/-- `GraphError` in an error message. -/
def GraphError.display : GraphError → String
  | .invalidEdge source target =>
      s!"FG-CSR-E002: Invalid edge: source Node({source}) or target Node({target}) out of range"
  | .unsupportedGraphSize reason => s!"FG-CSR-E003: Unsupported graph size: {reason}"
  | .invalidTraversal reason => s!"FG-TRV-E002: Invalid traversal: {reason}"
  | .circuitOpen => "FG-SYS-E001: Circuit breaker open, failing fast"

/-- `CsrGraph::shard_count`. -/
def CsrGraph.shardCount (self : CsrGraph) : ℕ := self.shards.length

namespace Exec

/-- A slot that receives the built graph, empty at first. -/
abbrev GraphSink := Option CsrGraph

/-- `OnceLock::set`: a slot that is filled keeps its graph. -/
def GraphSink.set (sink : GraphSink) (graph : CsrGraph) : GraphSink :=
  match sink with
  | none => some graph
  | some held => some held

/-- Configuration for CSR building. -/
structure CsrBuildConfig where
  /-- Shard size in bytes. -/
  shardSize : Usize
  /-- Memory limit for the edge buffer. -/
  memoryLimit : Option Usize
  sourceColumn : String
  targetColumn : String
  /-- The slot that receives the graph, when there is one. -/
  graphSink : Option GraphSink
  /-- The name of the weight column; without one the graph is unweighted. -/
  weightColumn : Option String

/-- `CsrBuildConfig::default()`. -/
def CsrBuildConfig.default : CsrBuildConfig where
  shardSize := defaultShardSize
  memoryLimit := none
  sourceColumn := "source"
  targetColumn := "target"
  graphSink := none
  weightColumn := none

/-- What the input answers to a poll before its end. -/
inductive InputPoll (schema : Schema) where
  | pending
  | ok (batch : RecordBatch schema)
  | err (reason : DataFusionError)

/-- Schema of the build statistics. -/
def statsSchema : Schema :=
  [⟨"node_count", .uint64⟩, ⟨"edge_count", .uint64⟩, ⟨"shard_count", .uint64⟩,
    ⟨"build_time_ms", .uint64⟩]

/-- The statistics of a graph that was built in the given number of milliseconds. -/
def statsBatch (graph : CsrGraph) (millis : ℕ) : RecordBatch statsSchema where
  columns := [.uint64 [some graph.nodeCount], .uint64 [some graph.edgeCount],
    .uint64 [some graph.shardCount], .uint64 [some (min millis u64Max)]]
  numRows := 1
  types := rfl
  lengths := by simp [ArrayRef.length]

/-- `Schema::index_of`, with the message for a column that is not there. -/
def columnIndex (schema : Schema) (role name : String) : Checked DataFusionError ℕ :=
  Checked.okOr (schema.indexOf name)
    (.execution s!"{role} column '{name}' not found in input schema")

/-- The entries of a column, with the message for a column of another type. -/
def downcastColumn {schema : Schema} {α : Type} (batch : RecordBatch schema) (type : ArrowType α)
    (role name : String) (i : ℕ) : Checked DataFusionError (List (Option α)) := do
  let column ← batch.column i
  Checked.okOr (type.downcast column) (.execution s!"{role} column '{name}' must be {type.name}")

namespace CsrBuildConfig

/-- The entries of the weight column, when one is configured. -/
def weightEntries {schema : Schema} (self : CsrBuildConfig) (batch : RecordBatch schema) :
    Checked DataFusionError (Option (List (Option Float32))) :=
  match self.weightColumn with
  | some name => do
    let idx ← columnIndex schema "Weight" name
    let weights ← downcastColumn batch .float32 "Weight" name idx
    pure (some weights)
  | none => pure none

/-- The columns that the configuration names. -/
def edgeColumns {schema : Schema} (self : CsrBuildConfig) (batch : RecordBatch schema) :
    Checked DataFusionError (EdgeColumns ℕ) := do
  let sourceIdx ← columnIndex schema "Source" self.sourceColumn
  let targetIdx ← columnIndex schema "Target" self.targetColumn
  let sources ← downcastColumn batch .uint64 "Source" self.sourceColumn sourceIdx
  let targets ← downcastColumn batch .uint64 "Target" self.targetColumn targetIdx
  let weights ← self.weightEntries batch
  pure { sources := sources, targets := targets, weights := weights }

/-- The bytes of a buffer of edges. -/
def edgeBufferBytes (edgeCount : ℕ) : Checked DataFusionError ℕ :=
  Checked.okOr (usizeTryFrom (edgeCount * 16))
    (.execution "CSRBuilderExec edge buffer size overflowed usize accounting")

def enforceMemoryLimit (self : CsrBuildConfig) (edgeCount : ℕ) : Checked DataFusionError Unit :=
  match self.memoryLimit with
  | none => .ok ()
  | some memoryLimit => do
    let bytes ← edgeBufferBytes edgeCount
    if memoryLimit.val < bytes then
      Checked.fail (.execution (s!"CSRBuilderExec edge buffer exceeded memory limit " ++
        s!"({bytes} bytes > {memoryLimit.val} bytes)"))
    else .ok ()

/-- The checks before an edge joins a buffer of `edgeCount` others. -/
def enforceNextEdge (self : CsrBuildConfig) (edgeCount : ℕ) : Checked DataFusionError Unit := do
  let edgeCount ← Checked.okOr (usizeTryFrom (edgeCount + 1))
    (.execution "CSRBuilderExec edge count overflowed usize accounting")
  self.enforceMemoryLimit edgeCount

/-- Puts the graph into the sink, when there is one. -/
def publish (self : CsrBuildConfig) (graph : CsrGraph) : CsrBuildConfig :=
  { self with graphSink := self.graphSink.map fun sink => sink.set graph }

end CsrBuildConfig

/-- Stream that collects edges and builds the graph. -/
structure CsrBuildStream (schema : Schema) where
  /-- The answers of the input that are still to come. -/
  input : List (InputPoll schema)
  config : CsrBuildConfig
  /-- Collected edges. -/
  edges : List (ℕ × ℕ)
  /-- Collected weights, beside the edges when a weight column is configured. -/
  weights : List Float32
  /-- Whether the stream has returned its item. -/
  finished : Bool

namespace CsrBuildStream

variable {schema : Schema}

def new (input : List (InputPoll schema)) (config : CsrBuildConfig) : CsrBuildStream schema where
  input := input
  config := config
  edges := []
  weights := []
  finished := false

/-- One row of a batch: an edge when neither endpoint is null. -/
def extractRow (columns : EdgeColumns ℕ) (self : CsrBuildStream schema) (i : ℕ) :
    Checked DataFusionError (CsrBuildStream schema) := do
  let source ← Checked.index columns.sources i
  let target ← Checked.index columns.targets i
  match source, target with
  | some source, some target => do
    self.config.enforceNextEdge self.edges.length
    let weights ←
      match columns.weights with
      | some entries => do
        let weight ← Checked.index entries i
        pure (self.weights ++ [weight.getD 1.0])
      | none => pure self.weights
    pure { self with edges := self.edges ++ [(source, target)], weights := weights }
  | _, _ => pure self

/-- The rows of a batch, one after another up to the first that fails. The edges
of the rows before that one stay in the buffer. -/
def extractRows (columns : EdgeColumns ℕ) (self : CsrBuildStream schema) :
    List ℕ → Checked DataFusionError Unit × CsrBuildStream schema
  | [] => (.ok (), self)
  | i :: rest =>
    match extractRow columns self i with
    | .ok next => extractRows columns next rest
    | .error fault => (.error fault, self)

def extractEdges (self : CsrBuildStream schema) (batch : RecordBatch schema) :
    Checked DataFusionError Unit × CsrBuildStream schema :=
  match self.config.edgeColumns batch with
  | .ok columns => extractRows columns self (List.range batch.numRows)
  | .error fault => (.error fault, self)

/-- Moves the collected edges, with their weights when a weight column is
configured, into a builder. -/
def takeBuilder (self : CsrBuildStream schema) : CsrBuilder × CsrBuildStream schema :=
  let builder := CsrBuilder.new.withShardSize self.config.shardSize
  if self.config.weightColumn.isSome then
    (builder.withWeightedEdges
      ((self.edges.zip self.weights).map fun ((source, target), weight) =>
        (source, target, weight)),
      { self with edges := [], weights := [] })
  else (builder.withEdges self.edges, { self with edges := [] })

/-- Builds the graph of the collected edges and publishes it. -/
def buildCsr (self : CsrBuildStream schema) (millis : ℕ) :
    Checked DataFusionError (RecordBatch statsSchema) × CsrBuildStream schema :=
  let (builder, drained) := self.takeBuilder
  match Checked.mapError (fun e => .execution s!"CSR build failed: {e.display}") builder.build with
  | .error fault => (.error fault, drained)
  | .ok graph =>
    (.ok (statsBatch graph millis), { drained with config := drained.config.publish graph })

/-- A poll of the stream. -/
def pollNext (self : CsrBuildStream schema) (millis : ℕ) :
    Poll (Option (Checked DataFusionError (RecordBatch statsSchema))) × CsrBuildStream schema :=
  if self.finished then (.ready none, self)
  else
    match self.input with
    | .ok batch :: rest =>
      match { self with input := rest }.extractEdges batch with
      | (.error fault, next) => (.ready (some (.error fault)), { next with finished := true })
      | (.ok (), next) => (.pending, next)
    | .err reason :: rest =>
      (.ready (some (Checked.fail reason)), { self with input := rest, finished := true })
    | [] =>
      let (result, next) := self.buildCsr millis
      (.ready (some result), { next with finished := true })
    | .pending :: rest => (.pending, { self with input := rest })

end CsrBuildStream

end Exec

end FusionGraph
