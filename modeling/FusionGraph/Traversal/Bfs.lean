import FusionGraph.Core.Merge
import FusionGraph.Traversal.Simd

/-!
# Breadth-first search

The search keeps a queue of admitted nodes and marks them in a tracker: a dense
bitset for the nodes of the base layer, and a hash set for nodes beyond it. With
an empty delta layer the neighbors of a node are a base slice that a SIMD
backend filters against the bitset; otherwise they come from the merged
iterator. The loop has a bound in the model, which is the number of nodes that
can be admitted at all.
-/

set_option autoImplicit false

namespace FusionGraph

open Foundations Foundations.Bitset

/-- Result of a breadth-first search. -/
structure BfsResult where
  /-- Visited nodes in order. -/
  visited : List ℕ
  /-- Depth of each visited node. -/
  depths : List ℕ
  /-- Nodes at each level. -/
  levels : List (List ℕ)
  /-- Maximum depth reached. -/
  maxDepthReached : ℕ
  /-- Number of edges examined. -/
  edgesExamined : ℕ
  deriving DecidableEq, Repr

/-- `BfsResult::empty`. -/
def BfsResult.empty : BfsResult where
  visited := []
  depths := []
  levels := []
  maxDepthReached := 0
  edgesExamined := 0

/-- Dense bitset of visited nodes, with a hash set for identifiers beyond it. -/
structure Visited where
  words : List (BitVec 64)
  capacity : ℕ
  overflow : List ℕ

namespace Visited

def new (nodeCount : ℕ) : Visited where
  words := List.replicate ((nodeCount + 63) / 64) 0#64
  capacity := nodeCount
  overflow := []

/-- Marks a node visited; returns whether it was unvisited. -/
def testAndSet (self : Visited) (node : ℕ) : Outcome (Bool × Visited) :=
  if node < self.capacity then do
    let word ← Checked.index self.words (node / 64)
    let words ← Checked.store self.words (node / 64) (word ||| mask (node % 64))
    pure (decide (word &&& mask (node % 64) = 0#64), { self with words := words })
  else pure (decide (node ∉ self.overflow), { self with overflow := self.overflow.insert node })

end Visited

/-- The tracker, the queue and the counters of a search. -/
structure Admission where
  tracker : Visited
  queue : List (ℕ × ℕ)
  admitted : ℕ
  edgesExamined : ℕ

namespace Admission

/-- The state before the first start node. -/
def new (nodeCount : ℕ) : Admission where
  tracker := .new nodeCount
  queue := []
  admitted := 0
  edgesExamined := 0

/-- Enqueues a node that has not been visited. -/
def admitNode (self : Admission) (node depth : ℕ) : Outcome Admission := do
  let (unvisited, tracker) ← self.tracker.testAndSet node
  if unvisited then
    pure
      { self with
        tracker := tracker, queue := self.queue ++ [(node, depth)],
        admitted := self.admitted + 1 }
  else pure { self with tracker := tracker }

end Admission

/-- Admits the start nodes that the graph contains. -/
def admitStarts (graph : CsrGraph) (maxNodes : ℕ) : List ℕ → Admission → Outcome Admission
  | [], state => pure state
  | start :: rest, state =>
    if maxNodes ≤ state.admitted then pure state
    else if graph.contains start then do
      let state ← state.admitNode start 0
      admitStarts graph maxNodes rest state
    else admitStarts graph maxNodes rest state

/-- Admits neighbors at the given depth until the cap is reached. -/
def admitNeighbors (maxNodes depth perEdge : ℕ) : List ℕ → Admission → Outcome Admission
  | [], state => pure state
  | neighbor :: rest, state =>
    let counted := { state with edgesExamined := state.edgesExamined + perEdge }
    if maxNodes ≤ counted.admitted then pure counted
    else do
      let state ← counted.admitNode neighbor depth
      admitNeighbors maxNodes depth perEdge rest state

/-- Admits the neighbors of a node. -/
def expand (graph : CsrGraph) (backend : SimdBackend) (maxNodes node depth : ℕ)
    (state : Admission) : Outcome Admission :=
  if graph.delta.isEmpty then do
    let neighbors ← graph.baseNeighborSlice node
    let filtered ← backend.filterSlice neighbors state.tracker.words
    admitNeighbors maxNodes (depth + 1) 0 filtered
      { state with edgesExamined := state.edgesExamined + neighbors.length }
  else do
    let neighbors ← graph.neighbors node
    admitNeighbors maxNodes (depth + 1) 1 neighbors state

/-- The state of the main loop. -/
structure BfsState where
  admission : Admission
  visited : List ℕ
  depths : List ℕ
  levels : List (List ℕ)
  currentDepth : ℕ
  currentLevel : List ℕ

/-- The state before the main loop. -/
def BfsState.new (admission : Admission) : BfsState where
  admission := admission
  visited := []
  depths := []
  levels := []
  currentDepth := 0
  currentLevel := []

/-- Records a node that leaves the queue, and closes a level when it is deeper. -/
def BfsState.record (self : BfsState) (node depth : ℕ) : BfsState :=
  let opened :=
    if self.currentDepth < depth then
      { self with
        levels := self.levels ++ [self.currentLevel], currentDepth := depth, currentLevel := [] }
    else self
  { opened with
    visited := opened.visited ++ [node], depths := opened.depths ++ [depth],
    currentLevel := opened.currentLevel ++ [node] }

/-- The main loop, for at most `fuel` nodes. -/
def bfsLoop (graph : CsrGraph) (backend : SimdBackend) (maxDepth maxNodes : ℕ) :
    ℕ → BfsState → Outcome BfsState
  | fuel, state =>
    match state.admission.queue with
    | [] => pure state
    | (node, depth) :: queue =>
      match fuel with
      | 0 => Checked.abort .loopBoundExhausted
      | fuel + 1 =>
        let popped := { state with admission := { state.admission with queue := queue } }
        let recorded := popped.record node depth
        if maxDepth ≤ depth ∨ maxNodes ≤ recorded.admission.admitted then
          bfsLoop graph backend maxDepth maxNodes fuel recorded
        else do
          let admission ← expand graph backend maxNodes node depth recorded.admission
          bfsLoop graph backend maxDepth maxNodes fuel { recorded with admission := admission }

/-- The number of nodes that a search can admit. -/
def CsrGraph.nodeBound (graph : CsrGraph) : ℕ :=
  graph.nodeCount + graph.delta.insertions.entries.length

/-- Breadth-first search with an explicit backend. -/
def bfsBoundedWithBackend (graph : CsrGraph) (starts : List ℕ) (maxDepth : ℕ)
    (maxNodes : Option ℕ) (backend : SimdBackend) : Outcome BfsResult := do
  let maxNodes := maxNodes.getD usizeMax
  let admission ← admitStarts graph maxNodes starts (.new graph.nodeCount)
  if admission.queue.isEmpty then pure .empty
  else do
    let final ← bfsLoop graph backend maxDepth maxNodes graph.nodeBound (.new admission)
    pure
      { visited := final.visited, depths := final.depths,
        levels := if final.currentLevel.isEmpty then final.levels
          else final.levels ++ [final.currentLevel],
        maxDepthReached := final.currentDepth, edgesExamined := final.admission.edgesExamined }

/-- Breadth-first search from several start nodes, with an optional cap on the
number of visited nodes. -/
def bfsBounded (target : Target) (graph : CsrGraph) (starts : List ℕ) (maxDepth : ℕ)
    (maxNodes : Option ℕ) : Outcome BfsResult :=
  bfsBoundedWithBackend graph starts maxDepth maxNodes (selectBackend target)

/-- Breadth-first search from one start node. -/
def bfs (target : Target) (graph : CsrGraph) (start maxDepth : ℕ) : Outcome BfsResult :=
  bfsBounded target graph [start] maxDepth none

/-! ## The tracker stores a set -/

/-- The tracker has marked exactly the given nodes. -/
structure Visited.Tracks (visited : Visited) (size : ℕ) (seen : ℕ → Prop) : Prop where
  capacity : visited.capacity = size
  dense : Represents visited.words size seen
  sparse : ∀ node, size ≤ node → (node ∈ visited.overflow ↔ seen node)

namespace Visited

variable {visited : Visited} {size : ℕ} {seen : ℕ → Prop}

theorem Tracks.new (size : ℕ) : (new size).Tracks size fun _ => False where
  capacity := rfl
  dense := .zero size
  sparse := by simp [Visited.new]

theorem Tracks.congr {other : ℕ → Prop} (tracks : visited.Tracks size seen)
    (same : ∀ node, seen node ↔ other node) : visited.Tracks size other where
  capacity := tracks.capacity
  dense := tracks.dense.congr fun node _ => same node
  sparse node beyond := (tracks.sparse node beyond).trans (same node)

/-- **Marking a node tells whether it is new and adds it to the set.** -/
theorem Tracks.testAndSet (tracks : visited.Tracks size seen) (node : ℕ) :
    ∃ unvisited after, visited.testAndSet node = .ok (unvisited, after) ∧
      (unvisited = true ↔ ¬ seen node) ∧
      after.Tracks size fun other => seen other ∨ other = node := by
  by_cases inside : node < size
  · obtain ⟨word, read, found, clear⟩ := tracks.dense.index_eq (ε := GraphError) inside
    have stored := tracks.dense.word_lt inside
    refine ⟨decide (word &&& mask (node % 64) = 0#64),
      { visited with words := visited.words.set (node / 64) (word ||| mask (node % 64)) },
      ?_, ?_, ?_, ?_, fun other beyond => ?_⟩
    · simp only [Visited.testAndSet, tracks.capacity, inside, if_true, read, Checked.ok_bind,
        Checked.store_of_lt _ stored, Checked.pure_eq_ok]
    · rw [decide_eq_true_eq, clear]
    · exact tracks.capacity
    · exact tracks.dense.insert found
    · have different : other ≠ node := by omega
      simp [tracks.sparse other beyond, different]
  · refine ⟨decide (node ∉ visited.overflow),
      { visited with overflow := visited.overflow.insert node }, ?_, ?_, ?_, ?_,
      fun other beyond => ?_⟩
    · simp only [Visited.testAndSet, tracks.capacity, inside, if_false, Checked.pure_eq_ok]
    · rw [decide_eq_true_eq, tracks.sparse node (Nat.le_of_not_lt inside)]
    · exact tracks.capacity
    · refine tracks.dense.congr fun other below => ?_
      have different : other ≠ node := by omega
      simp [different]
    · rw [List.mem_insert_iff, tracks.sparse other beyond, or_comm]

end Visited

end FusionGraph
