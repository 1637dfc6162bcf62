import FusionGraph.Traversal.Dobfs

/-!
# The traversal operator

`GraphTraversalExec` holds a graph, its transpose if one is attached, and a
specification of the traversal. It runs one of two searches: the
direction-optimizing one when a transpose is attached and the specification has
one start node and no cap, and the plain one otherwise. When the
direction-optimizing search returns an error, the plain one is run instead.

Of the output batch, the columns are kept as lists; the `path` column is `null`
in every row.
-/

set_option autoImplicit false

namespace FusionGraph

open Foundations

/-- The traversal algorithm; only the breadth-first search is executed. -/
inductive TraversalAlgorithm where
  | bfs
  | dfs
  | dijkstra
  deriving DecidableEq, Repr

/-- The name of the algorithm in a debug print. -/
def TraversalAlgorithm.debug : TraversalAlgorithm → String
  | bfs => "Bfs"
  | dfs => "Dfs"
  | dijkstra => "Dijkstra"

inductive TraversalDirection where
  /-- Follow outgoing edges. -/
  | outgoing
  /-- Follow incoming edges. -/
  | incoming
  /-- Follow both directions. -/
  | both
  deriving DecidableEq, Repr

/-- What to traverse. -/
structure TraversalSpec where
  /-- The start nodes. -/
  start : List ℕ
  maxDepth : ℕ
  /-- The largest number of nodes to visit. -/
  maxNodes : Option ℕ
  algorithm : TraversalAlgorithm
  direction : TraversalDirection
  deriving Repr

/-- `TraversalSpec::default()`. -/
def TraversalSpec.default : TraversalSpec where
  start := []
  maxDepth := 10
  maxNodes := none
  algorithm := .bfs
  direction := .outgoing

/-- The errors of the query engine. -/
inductive DataFusionError where
  | notImplemented (reason : String)
  | plan (reason : String)
  | execution (reason : String)
  | external (error : GraphError)
  /-- An error under a description of what was being done. -/
  | context (description : String) (inner : DataFusionError)
  /-- An error of another kind, which no modelled function makes. -/
  | other (reason : String)
  deriving DecidableEq, Repr

/-- The output of the operator. -/
structure TraversalBatch where
  nodeId : List ℕ
  depth : List ℕ
  path : List (Option (List ℕ))
  deriving Repr

/-- The operator that executes a traversal. -/
structure GraphTraversalExec where
  /-- The graph to traverse. -/
  graph : CsrGraph
  /-- The transposed graph, when it is attached. -/
  reverse : Option CsrGraph
  spec : TraversalSpec

namespace GraphTraversalExec

def new (graph : CsrGraph) (spec : TraversalSpec) : GraphTraversalExec where
  graph := graph
  reverse := none
  spec := spec

/-- Attaches the transposed graph. -/
def withReverse (self : GraphTraversalExec) (reverse : CsrGraph) : GraphTraversalExec :=
  { self with reverse := some reverse }

def validateSpec (self : GraphTraversalExec) : Checked DataFusionError Unit :=
  if self.spec.algorithm ≠ .bfs then
    Checked.fail (.notImplemented
      s!"GraphTraversalExec only supports BFS traversal, got {self.spec.algorithm.debug}")
  else
    match self.spec.direction with
    | .outgoing => .ok ()
    | .incoming =>
      if self.reverse.isSome then .ok ()
      else Checked.fail (.plan ("incoming traversal requires the transposed graph; attach it " ++
        "with GraphTraversalExec::with_reverse (built via CsrGraph::transpose) or register the " ++
        "graph with a reverse in the GraphCatalog"))
    | .both => Checked.fail
        (.notImplemented "GraphTraversalExec does not support bidirectional traversal yet")

/-- The node and depth columns of a traversal of at most `maxNodes` nodes. -/
def collectBfsRows (target : Target) (self : GraphTraversalExec) (maxNodes : ℕ) :
    Outcome (List ℕ × List ℕ) :=
  if maxNodes = 0 then .ok ([], [])
  else do
    let bounded := if maxNodes = usizeMax then none else some maxNodes
    -- an incoming traversal is an outgoing one of the transpose
    let (forward, reverse) ←
      match self.spec.direction with
      | .incoming => do
        let transposed ← Checked.expect self.reverse
        pure (transposed, some self.graph)
      | _ => pure (self.graph, self.reverse)
    let plain := bfsBounded target forward self.spec.start self.spec.maxDepth bounded
    let result ←
      match reverse, bounded, self.spec.start with
      | some rev, none, [start] =>
        Checked.orElse (bfsDirectionOptimized target forward rev start self.spec.maxDepth) plain
      | _, _, _ => plain
    pure (result.visited, result.depths)

/-- Executes a partition. -/
def execute (target : Target) (self : GraphTraversalExec) (partition : ℕ) :
    Checked DataFusionError TraversalBatch :=
  if partition ≠ 0 then
    Checked.fail (.execution s!"GraphTraversalExec only supports partition 0, got {partition}")
  else do
    self.validateSpec
    let maxNodes := self.spec.maxNodes.getD usizeMax
    let (nodeIds, depths) ←
      Checked.mapError .external (self.collectBfsRows target maxNodes)
    pure { nodeId := nodeIds, depth := depths, path := nodeIds.map fun _ => none }

end GraphTraversalExec

/-- The pairs of a node and its depth in the rows of a batch. -/
def TraversalBatch.rows (batch : TraversalBatch) : Set (ℕ × ℕ) :=
  {row | row ∈ batch.nodeId.zip batch.depth}

end FusionGraph
