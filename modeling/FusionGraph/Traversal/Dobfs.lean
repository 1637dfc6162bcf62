import FusionGraph.Traversal.Bfs

/-!
# Direction-optimizing breadth-first search

A level is expanded in one of two ways: top-down over the out-edges of the
frontier, or bottom-up over the in-edges of the unvisited nodes, read from the
transposed graph. A heuristic on the numbers of edges and nodes chooses the
direction at every level. The choice is a parameter of the loop
(`bfsDirectionOptimizedBy`), and `bfsDirectionOptimized` is the loop with the
choice that the code makes.
-/

set_option autoImplicit false

namespace FusionGraph

open Foundations Foundations.Bitset

/-- Switch to bottom-up when `frontier_out_edges > unvisited_edges / ALPHA`. -/
def ALPHA : ℕ := 14

/-- Switch back to top-down when `frontier_len < node_count / BETA`. -/
def BETA : ℕ := 24

def testBit (words : List (BitVec 64)) (i : ℕ) : Outcome Bool := do
  let word ← Checked.index words (i / 64)
  pure (decide (word &&& mask (i % 64) ≠ 0#64))

def setBit (words : List (BitVec 64)) (i : ℕ) : Outcome (List (BitVec 64)) := do
  let word ← Checked.index words (i / 64)
  Checked.store words (i / 64) (word ||| mask (i % 64))

/-- Clears a bit, as the reset of the frontier bits does. -/
def clearBit (words : List (BitVec 64)) (i : ℕ) : Outcome (List (BitVec 64)) := do
  let word ← Checked.index words (i / 64)
  Checked.store words (i / 64) (word &&& ~~~mask (i % 64))

/-! ## Top-down -/

/-- Marks the unvisited nodes of a batch and appends them to the next frontier. -/
def markNext : List ℕ → List (BitVec 64) → List ℕ → Outcome (List (BitVec 64) × List ℕ)
  | [], visitedBits, next => pure (visitedBits, next)
  | m :: rest, visitedBits, next => do
    let visited ← testBit visitedBits m
    if visited then markNext rest visitedBits next
    else do
      let visitedBits ← setBit visitedBits m
      markNext rest visitedBits (next ++ [m])

/-- Scans the out-edges of the frontier. -/
def topDown (forward : CsrGraph) (backend : SimdBackend) :
    List ℕ → List (BitVec 64) → List ℕ → ℕ → Outcome (List (BitVec 64) × List ℕ × ℕ)
  | [], visitedBits, next, edgesExamined => pure (visitedBits, next, edgesExamined)
  | n :: frontier, visitedBits, next, edgesExamined => do
    let neighbors ← forward.baseNeighborSlice n
    let filtered ← backend.filterSlice neighbors visitedBits
    let (visitedBits, next) ← markNext filtered visitedBits next
    topDown forward backend frontier visitedBits next (edgesExamined + neighbors.length)

/-! ## Bottom-up -/

/-- Looks for a parent in the frontier; returns also how many parents it read. -/
def findParent (frontierBits : List (BitVec 64)) : List ℕ → Outcome (Bool × ℕ)
  | [] => pure (false, 0)
  | p :: parents => do
    let found ← testBit frontierBits p
    if found then pure (true, 1)
    else do
      let (later, examined) ← findParent frontierBits parents
      pure (later, examined + 1)

/-- The unvisited nodes of a word, without the padding bits of the last word. -/
def unvisitedWord (nodeCount wordIdx : ℕ) (word : BitVec 64) : Outcome (BitVec 64) :=
  if nodeCount < (wordIdx + 1) * 64 then do
    let valid ← Checked.sub nodeCount (wordIdx * 64)
    let valid ← Checked.shift 64 valid
    pure (~~~word &&& (1#64 <<< valid - 1#64))
  else pure (~~~word)

/-- Visits the nodes of a word from the lowest set bit, for at most `fuel` bits. -/
def scanWord (reverse : CsrGraph) (frontierBits : List (BitVec 64)) (wordIdx : ℕ) :
    ℕ → BitVec 64 → List ℕ → ℕ → Outcome (List ℕ × ℕ)
  | fuel, unvisited, next, edgesExamined =>
    if unvisited = 0#64 then pure (next, edgesExamined)
    else
      match fuel with
      | 0 => Checked.abort .loopBoundExhausted
      | fuel + 1 => do
        let bit := unvisited.ctz.toNat
        let first ← Checked.mul u32Max (wordIdx % (u32Max + 1)) 64
        let u ← Checked.add u32Max first bit
        let parents ← reverse.baseNeighborSlice u
        let (found, examined) ← findParent frontierBits parents
        scanWord reverse frontierBits wordIdx fuel (unvisited &&& (unvisited - 1#64))
          (if found then next ++ [u] else next) (edgesExamined + examined)

/-- Scans the in-edges of the unvisited nodes, word by word from the given index. -/
def scanWords (reverse : CsrGraph) (frontierBits : List (BitVec 64)) (nodeCount : ℕ) :
    ℕ → List (BitVec 64) → List ℕ → ℕ → Outcome (List ℕ × ℕ)
  | _, [], next, edgesExamined => pure (next, edgesExamined)
  | wordIdx, word :: words, next, edgesExamined => do
    let unvisited ← unvisitedWord nodeCount wordIdx word
    let (next, edgesExamined) ← scanWord reverse frontierBits wordIdx 64 unvisited next edgesExamined
    scanWords reverse frontierBits nodeCount (wordIdx + 1) words next edgesExamined

/-- The state at the start of a level. -/
structure DobfsState where
  visitedBits : List (BitVec 64)
  frontierBits : List (BitVec 64)
  frontier : List ℕ
  visited : List ℕ
  depths : List ℕ
  levels : List (List ℕ)
  edgesExamined : ℕ
  visitedOutEdges : ℕ
  depth : ℕ

namespace DobfsState

/-- The state before the first level. -/
def new (visitedBits frontierBits : List (BitVec 64)) (start : ℕ) : DobfsState where
  visitedBits := visitedBits
  frontierBits := frontierBits
  frontier := [start]
  visited := []
  depths := []
  levels := []
  edgesExamined := 0
  visitedOutEdges := 0
  depth := 0

/-- Expands the frontier over its out-edges; returns the next frontier as well. -/
def expandTopDown (self : DobfsState) (forward : CsrGraph) (backend : SimdBackend) :
    Outcome (DobfsState × List ℕ) := do
  let (visitedBits, next, edgesExamined) ←
    topDown forward backend self.frontier self.visitedBits [] self.edgesExamined
  pure ({ self with visitedBits := visitedBits, edgesExamined := edgesExamined }, next)

/-- Expands the frontier over the in-edges of the unvisited nodes. -/
def expandBottomUp (self : DobfsState) (reverse : CsrGraph) (nodeCount : ℕ) :
    Outcome (DobfsState × List ℕ) := do
  let frontierBits ← self.frontier.foldlM setBit self.frontierBits
  let (next, edgesExamined) ←
    scanWords reverse frontierBits nodeCount 0 self.visitedBits [] self.edgesExamined
  let visitedBits ← next.foldlM setBit self.visitedBits
  let frontierBits ← self.frontier.foldlM clearBit frontierBits
  pure ({ self with
    visitedBits := visitedBits, frontierBits := frontierBits, edgesExamined := edgesExamined }, next)

/-- Expands the frontier in the given direction. -/
def expand (self : DobfsState) (bottomUp : Bool) (forward reverse : CsrGraph)
    (backend : SimdBackend) : Outcome (DobfsState × List ℕ) :=
  if bottomUp then self.expandBottomUp reverse forward.nodeCount
  else self.expandTopDown forward backend

/-- Accounts out-edges to the visited nodes. -/
def account (self : DobfsState) (outEdges : ℕ) : DobfsState :=
  { self with visitedOutEdges := self.visitedOutEdges + outEdges }

/-- Records the current level. -/
def recordLevel (self : DobfsState) : DobfsState :=
  { self with
    visited := self.visited ++ self.frontier,
    depths := self.depths ++ self.frontier.map fun _ => self.depth,
    levels := self.levels ++ [self.frontier] }

/-- The result after the last level. -/
def result (self : DobfsState) : BfsResult where
  visited := self.visited
  depths := self.depths
  levels := self.levels
  maxDepthReached := self.depth
  edgesExamined := self.edgesExamined

end DobfsState

/-- The number of out-edges of a node. -/
def degree (forward : CsrGraph) (n : ℕ) : Outcome ℕ := do
  let neighbors ← forward.baseNeighborSlice n
  pure neighbors.length

/-- A choice of the direction from the out-edges of the frontier, the edges not
yet accounted to visited nodes, the length of the frontier and the number of
nodes. -/
abbrev Heuristic := (frontierOutEdges unvisitedEdges frontierLen nodeCount : ℕ) → Bool

/-- Whether the next level is expanded bottom-up. -/
def bottomUp : Heuristic := fun frontierOutEdges unvisitedEdges frontierLen nodeCount =>
  decide (unvisitedEdges / ALPHA < frontierOutEdges) && decide (nodeCount / max BETA 1 ≤ frontierLen)

/-- The level loop, for at most `fuel` expansions. -/
def dobfsLoop (choose : Heuristic) (forward reverse : CsrGraph) (backend : SimdBackend)
    (maxDepth : ℕ) : ℕ → DobfsState → Outcome BfsResult
  | fuel, state =>
    let state := state.recordLevel
    if maxDepth ≤ state.depth then pure state.result
    else
      match fuel with
      | 0 => Checked.abort .loopBoundExhausted
      | fuel + 1 => do
        let degrees ← state.frontier.mapM (degree forward)
        let state := state.account degrees.sum
        let bottomUp := choose degrees.sum (forward.edgeCount - state.visitedOutEdges)
          state.frontier.length forward.nodeCount
        let (state, next) ← state.expand bottomUp forward reverse backend
        if next.isEmpty then pure state.result
        else
          dobfsLoop choose forward reverse backend maxDepth fuel
            { state with frontier := next, depth := state.depth + 1 }

/-- Direction-optimizing search with the given choice of directions. -/
def bfsDirectionOptimizedBy (choose : Heuristic) (target : Target) (forward reverse : CsrGraph)
    (start maxDepth : ℕ) : Outcome BfsResult :=
  if forward.nodeCount ≠ reverse.nodeCount ∨ forward.edgeCount ≠ reverse.edgeCount then
    Checked.fail (.invalidTraversal
      s!"reverse graph is not the transpose of forward: {forward.nodeCount}/{reverse.nodeCount} nodes, {forward.edgeCount}/{reverse.edgeCount} edges")
  else if ¬ reverse.delta.isEmpty then
    Checked.fail (.invalidTraversal "reverse graph has delta mutations; rebuild the transpose")
  else if ¬ forward.delta.isEmpty then bfs target forward start maxDepth
  else if ¬ forward.contains start then pure .empty
  else do
    let words := List.replicate ((forward.nodeCount + 63) / 64) 0#64
    let startDense := start % (u32Max + 1)
    let visitedBits ← setBit words startDense
    dobfsLoop choose forward reverse (selectBackend target) maxDepth forward.nodeCount
      (.new visitedBits words startDense)

/-- Direction-optimizing search of `forward` using its transpose `reverse`. -/
def bfsDirectionOptimized (target : Target) (forward reverse : CsrGraph) (start maxDepth : ℕ) :
    Outcome BfsResult :=
  bfsDirectionOptimizedBy bottomUp target forward reverse start maxDepth

end FusionGraph
