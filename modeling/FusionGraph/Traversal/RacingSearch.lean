import FusionGraph.Core.DeltaMoments
import FusionGraph.Foundations.Runs
import FusionGraph.Traversal.ShortestPaths

/-!
# A search beside writers

A search reads the delta layer many times: it asks once whether the layer is empty, and
for each node that it expands on the slow path it lists the inserted targets and then
asks for the tombstone of each base target. Writers change the layer between these reads,
and a hash map is listed and measured one part after the other.

Here each of these reads is a step, and any map operation of a writer can come between
two of them.
-/

set_option autoImplicit false

namespace FusionGraph

open Foundations Foundations.BreadthFirst

/-! ## The search -/

/-- The arguments of a search, and what it runs on. -/
structure SearchCall where
  graph : CsrGraph
  backend : SimdBackend
  starts : List ℕ
  maxDepth : ℕ
  maxNodes : ℕ
  parts : DeltaHalf → MapParts

/-- Where a search stands. -/
inductive SearchPhase where
  /-- It has measured the parts of a half before the given one; `empty` while it has found
  no entry. -/
  | checking (half : DeltaHalf) (next : ℕ) (empty : Bool) (bfs : BfsState)
  /-- It takes the next node from the queue. -/
  | looping (deltaEmpty : Bool) (bfs : BfsState)
  /-- It has listed the inserted targets of a node in the parts before the given one. -/
  | collecting (bfs : BfsState) (node depth : ℕ) (baseIter : BaseNeighborIter) (next : ℕ)
    (found : List ℕ)
  /-- It admits the neighbors of a node and has yielded the base targets `seen`. -/
  | yielding (bfs : BfsState) (node depth : ℕ) (baseIter : BaseNeighborIter) (seen : List ℕ)
    (inserted : List ℕ)
  | finished (result : BfsResult)

/-- The result of a search whose queue is empty. -/
def BfsState.result (self : BfsState) : BfsResult where
  visited := self.visited
  depths := self.depths
  levels := if self.currentLevel.isEmpty then self.levels else self.levels ++ [self.currentLevel]
  maxDepthReached := self.currentDepth
  edgesExamined := self.admission.edgesExamined

namespace SearchPhase

/-- A search that has admitted its start nodes. -/
def start (call : SearchCall) : Outcome SearchPhase := do
  let admission ← admitStarts call.graph call.maxNodes call.starts (.new call.graph.nodeCount)
  if admission.queue.isEmpty then pure (.finished .empty)
  else pure (.checking .insertions 0 true (.new admission))

/-- The step that takes the next node from the queue. -/
def pop (call : SearchCall) (deltaEmpty : Bool) (bfs : BfsState) : Outcome SearchPhase :=
  match bfs.admission.queue with
  | [] => pure (.finished bfs.result)
  | (node, depth) :: queue =>
    let popped := { bfs with admission := { bfs.admission with queue := queue } }
    let recorded := popped.record node depth
    if call.maxDepth ≤ depth ∨ call.maxNodes ≤ recorded.admission.admitted then
      pure (.looping deltaEmpty recorded)
    else if deltaEmpty then do
      let neighbors ← call.graph.baseNeighborSlice node
      let filtered ← call.backend.filterSlice neighbors recorded.admission.tracker.words
      let admission ← admitNeighbors call.maxNodes (depth + 1) 0 filtered
        { recorded.admission with
          edgesExamined := recorded.admission.edgesExamined + neighbors.length }
      pure (.looping true { recorded with admission := admission })
    else do
      let baseIter ← call.graph.baseNeighbors node
      pure (.collecting recorded node depth baseIter 0 [])

/-- The step that admits the next neighbor of a node. The base part asks for the tombstone of
each target; the inserted targets were read before. -/
def yieldNext (call : SearchCall) (delta : DeltaLayer) (bfs : BfsState) (node depth : ℕ)
    (baseIter : BaseNeighborIter) (seen inserted : List ℕ) : Outcome SearchPhase :=
  match baseIter.next with
  | some (neighbor, rest) =>
    if delta.isDeleted node neighbor then pure (.yielding bfs node depth rest seen inserted)
    else
      let counted :=
        { bfs.admission with edgesExamined := bfs.admission.edgesExamined + 1 }
      if call.maxNodes ≤ counted.admitted then
        pure (.looping false { bfs with admission := counted })
      else do
        let admission ← counted.admitNode neighbor (depth + 1)
        pure (.yielding { bfs with admission := admission } node depth rest (neighbor :: seen)
          inserted)
  | none => do
    let admission ← admitNeighbors call.maxNodes (depth + 1) 1
      (inserted.filter fun neighbor => decide (neighbor ∉ seen)) bfs.admission
    pure (.looping false { bfs with admission := admission })

/-- One step of the search, which reads the delta layer at most once. -/
def advance (call : SearchCall) (delta : DeltaLayer) : SearchPhase → Outcome SearchPhase
  | .checking half next empty bfs =>
    if next < (call.parts half).count then
      pure (.checking half (next + 1) (empty && (delta.keysIn call.parts half next).isEmpty) bfs)
    else
      match half with
      | .insertions =>
        if empty then pure (.checking .deletions 0 true bfs) else pure (.looping false bfs)
      | .deletions => pure (.looping empty bfs)
  | .looping deltaEmpty bfs => pop call deltaEmpty bfs
  | .collecting bfs node depth baseIter next found =>
    if next < (call.parts .insertions).count then
      pure (.collecting bfs node depth baseIter (next + 1)
        (found ++ delta.neighborsIn call.parts node next))
    else pure (.yielding bfs node depth baseIter [] found)
  | .yielding bfs node depth baseIter seen inserted =>
    yieldNext call delta bfs node depth baseIter seen inserted
  | .finished result => pure (.finished result)

/-- The search has returned. -/
def Done : SearchPhase → Prop
  | .finished _ => True
  | _ => False

end SearchPhase

/-- A delta layer that a search shares with writers. -/
structure RacingSearch where
  delta : DeltaLayer
  phase : SearchPhase

/-- A step of a writer or of the search. -/
inductive SearchAction where
  | write (op : MapOp)
  | search

/-- The steps of the writers and of the search. -/
inductive SearchStep (call : SearchCall) : RacingSearch → SearchAction → RacingSearch → Prop
  | write {state : RacingSearch} (op : MapOp) :
      SearchStep call state (.write op) { state with delta := op.run state.delta }
  | search {state : RacingSearch} {next : SearchPhase} (running : ¬ state.phase.Done)
      (does : state.phase.advance call state.delta = .ok next) :
      SearchStep call state .search { state with phase := next }

/-- Plays a list of steps, as long as the search is not done. -/
def RacingSearch.play (call : SearchCall) : List SearchAction → RacingSearch → Option RacingSearch
  | [], state => some state
  | .write op :: rest, state => play call rest { state with delta := op.run state.delta }
  | .search :: rest, state =>
    match state.phase, state.phase.advance call state.delta with
    | .finished _, _ => none
    | _, .ok next => play call rest { state with phase := next }
    | _, .error _ => none

/-- The steps that are played are a run. -/
theorem RacingSearch.run_of_play {call : SearchCall} {actions : List SearchAction}
    {state last : RacingSearch} (plays : state.play call actions = some last) :
    Run (SearchStep call) state actions last := by
  induction actions generalizing state with
  | nil =>
    obtain rfl := Option.some.inj plays
    exact .start
  | cons action rest ih =>
    cases action with
    | write op => exact .cons (.write op) (ih plays)
    | search =>
      rw [RacingSearch.play] at plays
      split at plays
      · cases plays
      · next does running =>
        refine .cons (.search ?_ does) (ih plays)
        intro ended
        cases phase : state.phase with
        | finished result => exact running result phase
        | _ =>
          rw [phase] at ended
          exact ended
      · cases plays

/-- The writes among the steps. -/
def SearchAction.writes (actions : List SearchAction) : List MapOp :=
  actions.filterMap fun
    | write op => some op
    | search => none

end FusionGraph
