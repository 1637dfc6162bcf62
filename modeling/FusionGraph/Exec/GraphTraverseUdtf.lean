import FusionGraph.Catalog.Concurrent
import FusionGraph.Catalog.NodeDictionary
import FusionGraph.Exec.GraphTraversal
import Mathlib.Data.List.Sort

/-!
# The table function graph_traverse

A call of `graph_traverse` checks its arguments and asks the catalog up to three
times: for the dictionary when the start node is a string, for the graph, and
for the entry that holds the transpose. Each of these is a lookup of its own, so
`TraverseCall` says where a call stands between them and `TraverseCall.step`
what it does next. Reading and filling the memoized transpose of the entry that
was found are steps as well.

How a value is printed in an error message is left open (`DebugText`).
-/

set_option autoImplicit false

namespace FusionGraph

open Foundations

/-- A literal value, as far as the function tells literals apart. -/
inductive ScalarValue where
  | utf8 (value : Option String)
  | largeUtf8 (value : Option String)
  | int64 (value : Option Int64)
  | uint64 (value : Option UInt64)
  | int32 (value : Option Int32)
  | uint32 (value : Option UInt32)
  /-- A literal of any other type. -/
  | other (type : String)

/-- An argument of the function. -/
inductive Expr where
  | literal (value : ScalarValue)
  /-- An expression that is not a literal. -/
  | computed (text : String)

/-- The debug prints of arguments and of lists of names. -/
structure DebugText where
  argument : Option Expr → String
  names : List String → String

/-- The names of all registered graphs, sorted. -/
def GraphCatalog.names {Dictionary : Type} (self : GraphCatalog Dictionary) : List String :=
  self.registry.keys.mergeSort fun first second => decide (first ≤ second)

namespace GraphTraverseUdtf

/-- A string argument. -/
def parseString (debug : DebugText) (expr : Option Expr) (position : String) :
    Checked DataFusionError String :=
  match expr with
  | some (.literal (.utf8 (some value))) => .ok value
  | some (.literal (.largeUtf8 (some value))) => .ok value
  | other =>
    let got := debug.argument other
    Checked.fail (.plan
      s!"graph_traverse: argument {position} must be a string literal, got {got}")

/-- A natural number, or the error that a negative argument causes. -/
def natOfInt (value : ℤ) (position : String) : Checked DataFusionError ℕ :=
  if 0 ≤ value then .ok value.toNat
  else Checked.fail (.plan
    s!"graph_traverse: argument {position} must be a non-negative integer literal, got {value}")

/-- An unsigned integer argument. -/
def parseU64 (debug : DebugText) (expr : Option Expr) (position : String) :
    Checked DataFusionError ℕ :=
  match expr with
  | some (.literal (.int64 (some value))) => natOfInt value.toInt position
  | some (.literal (.uint64 (some value))) => .ok value.toNat
  | some (.literal (.int32 (some value))) => natOfInt value.toInt position
  | some (.literal (.uint32 (some value))) => .ok value.toNat
  | other =>
    let got := debug.argument other
    Checked.fail (.plan
      s!"graph_traverse: argument {position} must be a non-negative integer literal, got {got}")

/-- The key of a start node that is given as a string. -/
def startKey : Option Expr → Option String
  | some (.literal (.utf8 (some key))) => some key
  | some (.literal (.largeUtf8 (some key))) => some key
  | _ => none

/-- Whether an argument is a string literal or a null of a string type. -/
def isText : Expr → Bool
  | .literal (.utf8 _) => true
  | .literal (.largeUtf8 _) => true
  | _ => false

/-- The fourth argument: a cap on the nodes or a direction. -/
def parseFourth (debug : DebugText) (args : List Expr) :
    Checked DataFusionError (Option ℕ × Option String) :=
  match args[3]? with
  | none => .ok (none, none)
  | some fourth =>
    if isText fourth then do
      let direction ← parseString debug (some fourth) "4 (direction)"
      pure (none, some direction)
    else do
      let value ← parseU64 debug (some fourth) "4 (max_nodes)"
      let maxNodes ← Checked.okOr (usizeTryFrom value)
        (.plan "graph_traverse: max_nodes exceeds usize")
      pure (some maxNodes, none)

/-- The fifth argument: a direction that was not given before. -/
def parseFifth (debug : DebugText) (args : List Expr) (direction : Option String) :
    Checked DataFusionError (Option String) :=
  match args[4]? with
  | none => .ok direction
  | some fifth =>
    if direction.isSome then
      Checked.fail (.plan "graph_traverse: direction was already given in position 4")
    else do
      let value ← parseString debug (some fifth) "5 (direction)"
      pure (some value)

/-- The direction that a text names. -/
def parseDirection : Option String → Checked DataFusionError TraversalDirection
  | none => .ok .outgoing
  | some text =>
    if text = "out" ∨ text = "outgoing" then .ok .outgoing
    else if text = "in" ∨ text = "incoming" then .ok .incoming
    else Checked.fail (.plan s!"graph_traverse: direction must be 'out' or 'in', got '{text}'")

end GraphTraverseUdtf

/-- What the arguments ask for, once the start node is resolved. -/
structure TraverseRequest where
  graphName : String
  startNode : ℕ
  maxHops : ℕ
  maxNodes : Option ℕ
  direction : TraversalDirection

/-- The table that a call returns: it plans the traversal of a fixed graph. -/
structure TraversalTable where
  graph : GraphRef
  reverse : Option GraphRef
  spec : TraversalSpec

/-- What a call of `graph_traverse` does next. -/
inductive TraverseCall where
  | findDictionary (graphName key : String)
  | findGraph (request : TraverseRequest)
  | listNames (request : TraverseRequest)
  | findEntry (request : TraverseRequest) (graph : GraphRef)
  | readReverse (request : TraverseRequest) (graph : GraphRef) (entry : EntryRef)
  | transpose (request : TraverseRequest) (graph : GraphRef) (entry : EntryRef)
  | storeReverse (request : TraverseRequest) (graph : GraphRef) (entry : EntryRef)
      (built : CsrGraph)
  | done (result : Checked DataFusionError TraversalTable)

namespace TraverseCall

open GraphTraverseUdtf

/-- The arguments behind the start node. -/
def parseRequest (debug : DebugText) (args : List Expr) (graphName : String) (startNode : ℕ) :
    Checked DataFusionError TraverseRequest := do
  let maxHops ← parseU64 debug args[2]? "3 (max_hops)"
  let (maxNodes, direction) ← parseFourth debug args
  let direction ← parseFifth debug args direction
  let direction ← parseDirection direction
  pure { graphName := graphName, startNode := startNode, maxHops := maxHops,
         maxNodes := maxNodes, direction := direction }

/-- A call whose start node is resolved. -/
def resolved (debug : DebugText) (args : List Expr) (graphName : String) (startNode : ℕ) :
    TraverseCall :=
  match parseRequest debug args graphName startNode with
  | .error fault => done (.error fault)
  | .ok request => findGraph request

/-- A call before its first lookup. -/
def begin (debug : DebugText) (args : List Expr) : TraverseCall :=
  if args.length < 3 ∨ 5 < args.length then
    done (Checked.fail (.plan ("graph_traverse expects 3 to 5 arguments (graph_name, " ++
      s!"start_node, max_hops [, max_nodes] [, direction]), got {args.length}")))
  else
    match parseString debug args[0]? "1 (graph_name)" with
    | .error fault => done (.error fault)
    | .ok graphName =>
      match startKey args[1]? with
      | some key => findDictionary graphName key
      | none =>
        match parseU64 debug args[1]? "2 (start_node)" with
        | .error fault => done (.error fault)
        | .ok startNode => resolved debug args graphName startNode

/-- The last check and the table. -/
def finish (request : TraverseRequest) (graph : GraphRef) (reverse : Option GraphRef) :
    TraverseCall :=
  match u32TryFrom request.maxHops with
  | none => done (Checked.fail (.plan "graph_traverse: max_hops exceeds u32"))
  | some maxDepth =>
    done (.ok
      { graph := graph
        reverse := reverse
        spec := { TraversalSpec.default with
          start := [request.startNode]
          maxDepth := maxDepth
          maxNodes := request.maxNodes
          direction := request.direction } })

/-- One step of a call. A call that has returned stays as it is. -/
def step (debug : DebugText) (args : List Expr) (catalog : GraphCatalog NodeDictionary) :
    TraverseCall → GraphCatalog NodeDictionary × TraverseCall
  | findDictionary graphName key =>
    match catalog.dictionary graphName with
    | none => (catalog, done (Checked.fail (.plan
        (s!"graph_traverse: start node '{key}' is a string but graph '{graphName}' has no " ++
          "node-key dictionary; use an integer node ID or project the graph from a " ++
          "string-keyed ontology"))))
    | some dictionary =>
      match dictionary.idOf key with
      | none => (catalog, done (Checked.fail
          (.plan s!"graph_traverse: node key '{key}' not found in graph '{graphName}'")))
      | some startNode => (catalog, resolved debug args graphName startNode)
  | findGraph request =>
    match catalog.get request.graphName with
    | none => (catalog, listNames request)
    | some graph => (catalog, findEntry request graph)
  | listNames request =>
    let graphName := request.graphName
    let available := debug.names catalog.names
    (catalog, done (Checked.fail (.plan
      (s!"graph_traverse: no graph named '{graphName}' is registered; available graphs: " ++
        available))))
  | findEntry request graph =>
    match catalog.entry request.graphName with
    | none => (catalog, finish request graph none)
    | some entry => (catalog, readReverse request graph entry)
  | readReverse request graph entry =>
    match (catalog.entries entry).reverse with
    | some reverse => (catalog, finish request graph (some reverse))
    | none =>
      if request.direction = .incoming then (catalog, transpose request graph entry)
      else (catalog, finish request graph none)
  | transpose request graph entry =>
    match (catalog.graphs (catalog.entries entry).forward).transpose.2 with
    | .error fault => (catalog, done (Checked.mapError .external (.error fault)))
    | .ok built => (catalog, storeReverse request graph entry built)
  | storeReverse request graph entry built =>
    -- another call may have stored its own transpose in the meantime
    match (catalog.entries entry).reverse with
    | some reverse => (catalog, finish request graph (some reverse))
    | none =>
      let (reverse, shared) := catalog.allocGraph built
      ({ shared with
        entries := Function.update shared.entries entry
          { shared.entries entry with reverse := some reverse } },
        finish request graph (some reverse))
  | done result => (catalog, done result)

end TraverseCall

end FusionGraph
