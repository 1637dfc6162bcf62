import FusionGraph.Core.DeltaMoments
import FusionGraph.Core.DeltaRaces
import FusionGraph.Core.Merge
import FusionGraph.Foundations.Linearizable

/-!
# Threads that share the edges of a graph

Threads insert and delete edges of a graph and ask for edges. None of these calls is one
atomic step: an insertion and a deletion change one map of the delta layer after the other,
and `has_edge` reads the tombstones, then the insertions, and then walks the neighbors,
for which it lists the insertions part by part and asks for the tombstone of each base
target.

As long as an insertion and a deletion of the same edge do not overlap, these calls are
linearizable: their histories are those of a set of edges on which every call acts in one
step (`edge_calls_linearizable`). A write acts with the one of its two operations that
changes the answer of `has_edge`. A question acts with the read that decides its answer,
which can be long before it returns. No call waits for another one: each takes a number of
steps that its arguments bound.
-/

set_option autoImplicit false

namespace FusionGraph

open Foundations Foundations.AtomicCalls

/-! ## The calls -/

/-- A call on the edges of a graph. -/
inductive EdgeCall where
  | write (write : EdgeWrite)
  | hasEdge (source target : ℕ)

/-- The answer of a call. -/
inductive EdgeAnswer where
  | done
  | found (value : Bool)
  deriving DecidableEq, Repr

/-- How far `has_edge` has got. -/
inductive HasEdgePhase where
  | askDeleted
  | askInserted
  /-- It has listed the inserted targets of the source in the parts before the given one. -/
  | listing (baseIter : BaseNeighborIter) (next : ℕ) (found : List ℕ)
  /-- It has passed the base targets `seen`. -/
  | yielding (baseIter : BaseNeighborIter) (seen inserted : List ℕ)

/-- A step of `has_edge`, which reads the delta layer at most once: how it goes on, or its
answer. -/
def HasEdgePhase.advance (graph : CsrGraph) (parts : DeltaHalf → MapParts) (delta : DeltaLayer)
    (source target : ℕ) : HasEdgePhase → Outcome (HasEdgePhase ⊕ Bool)
  | askDeleted =>
    if delta.isDeleted source target then pure (.inr false) else pure (.inl .askInserted)
  | askInserted =>
    if delta.hasInsertion source target then pure (.inr true)
    else do
      let baseIter ← graph.baseNeighbors source
      pure (.inl (.listing baseIter 0 []))
  | listing baseIter next found =>
    if next < (parts .insertions).count then
      pure (.inl (.listing baseIter (next + 1) (found ++ delta.neighborsIn parts source next)))
    else pure (.inl (.yielding baseIter [] found))
  | yielding baseIter seen inserted =>
    match baseIter.next with
    | some (neighbor, rest) =>
      if delta.isDeleted source neighbor then pure (.inl (.yielding rest seen inserted))
      else if neighbor = target then pure (.inr true)
      else pure (.inl (.yielding rest (neighbor :: seen) inserted))
    | none =>
      -- the inserted targets were collected before, so no read is left
      pure (.inr ((inserted.filter fun neighbor => decide (neighbor ∉ seen)).any
        fun neighbor => decide (neighbor = target)))

/-- Where a thread is in its call. -/
inductive EdgePlace where
  | starting (write : EdgeWrite)
  | halfway (write : EdgeWrite)
  | asking (source target : ℕ) (phase : HasEdgePhase)

/-- Where a call starts. -/
def EdgeCall.start : EdgeCall → EdgePlace
  | write call => .starting call
  | hasEdge source target => .asking source target .askDeleted

/-- A step of a call: the delta layer after it, and how the call goes on or its answer. -/
def EdgePlace.advance (graph : CsrGraph) (parts : DeltaHalf → MapParts) (delta : DeltaLayer) :
    EdgePlace → Outcome (DeltaLayer × (EdgePlace ⊕ EdgeAnswer))
  | starting write => pure (write.first.run delta, .inl (.halfway write))
  | halfway write => pure (write.second.run delta, .inr .done)
  | asking source target phase => do
    let result ← phase.advance graph parts delta source target
    pure (delta, result.map (.asking source target) .found)

/-- The calls on the edges of a graph, by their steps on its delta layer. -/
def CsrGraph.edgeCalls (graph : CsrGraph) (parts : DeltaHalf → MapParts) :
    Implementation DeltaLayer EdgePlace EdgeCall EdgeAnswer where
  start := EdgeCall.start
  step delta place after result := place.advance graph parts delta = .ok (after, result)

/-! ## The set of edges -/

namespace EdgeSet

/-- The edges after a write. -/
def after (edges : Set EdgeKey) : EdgeWrite → Set EdgeKey
  | .insert source target _ => insert (source, target) edges
  | .delete source target => edges \ {(source, target)}

/-- A set of edges as a shared object. -/
def object : Object (Set EdgeKey) EdgeCall EdgeAnswer := fun edges effect next =>
  match effect.1 with
  | .write write => effect.2 = .done ∧ next = after edges write
  | .hasEdge source target =>
    next = edges ∧ ∃ value, effect.2 = .found value ∧ (value = true ↔ (source, target) ∈ edges)

theorem mem_after {edges : Set EdgeKey} {write : EdgeWrite} {key : EdgeKey} :
    key ∈ after edges write ↔ if key = write.key then write.Adds else key ∈ edges := by
  cases write with
  | insert source target data =>
    by_cases same : key = (source, target)
    · simp [after, EdgeWrite.key, EdgeWrite.Adds, same]
    · simp [after, EdgeWrite.key, same]
  | delete source target =>
    by_cases same : key = (source, target)
    · simp [after, EdgeWrite.key, EdgeWrite.Adds, same]
    · simp [after, EdgeWrite.key, same]

end EdgeSet

/-- The edges of a graph with a delta layer, as `has_edge` tells them. -/
def CsrGraph.edges (graph : CsrGraph) (delta : DeltaLayer) : Set EdgeKey :=
  {key | (graph.withDelta delta).hasEdge key.1 key.2 = .ok true}

namespace CsrGraph.Stores

variable {graph : CsrGraph} {base : BaseLayer} {delta : DeltaLayer} {key : EdgeKey}
  {write : EdgeWrite}

theorem mem_edges (stores : graph.Stores base) : key ∈ graph.edges delta ↔
    key ∉ delta.deletions ∧ (key.2 ∈ base.targets key.1 ∨ key ∈ delta.insertions) := by
  rw [CsrGraph.edges, Set.mem_ofPred_eq, stores.hasEdge_iff, BaseLayer.mem_merged]
  exact and_congr_right fun live => or_congr_left (and_iff_left live)

theorem mem_edges_of_ne (stores : graph.Stores base) (op : MapOp) (different : key ≠ op.key) :
    key ∈ graph.edges (op.run delta) ↔ key ∈ graph.edges delta := by
  rw [stores.mem_edges, stores.mem_edges, MapOp.mem_deletions_of_ne _ _ _ different,
    MapOp.mem_insertions_of_ne _ _ _ different]

/-- The first operation of a write does it for `has_edge`, or nothing. -/
theorem edges_first (stores : graph.Stores base) (delta : DeltaLayer) (write : EdgeWrite) :
    (write.key ∈ graph.edges (write.first.run delta) ↔ write.Adds) ∨
      graph.edges (write.first.run delta) = graph.edges delta := by
  suffices either : (write.key ∈ graph.edges (write.first.run delta) ↔ write.Adds) ∨
      (write.key ∈ graph.edges (write.first.run delta) ↔ write.key ∈ graph.edges delta) by
    refine either.imp_right fun kept => Set.ext fun key => ?_
    by_cases same : key = write.key
    · rw [same]
      exact kept
    · exact stores.mem_edges_of_ne _ (by simpa using same)
  rw [stores.mem_edges, stores.mem_edges]
  cases write with
  | insert source target data =>
    simp only [EdgeWrite.key, EdgeWrite.first, EdgeWrite.Adds, MapOp.insertions_removeTombstone,
      MapOp.mem_deletions_removeTombstone]
    tauto
  | delete source target =>
    simp only [EdgeWrite.key, EdgeWrite.first, EdgeWrite.Adds, MapOp.deletions_removeInsertion,
      MapOp.mem_insertions_removeInsertion]
    tauto

/-- The second operation does the rest. -/
theorem mem_edges_second (stores : graph.Stores base) (ready : write.Ready delta) :
    write.key ∈ graph.edges (write.second.run delta) ↔ write.Adds := by
  rw [stores.mem_edges]
  cases write with
  | insert source target data =>
    simpa [EdgeWrite.key, EdgeWrite.second, EdgeWrite.Adds, EdgeWrite.Ready] using ready
  | delete source target => simp [EdgeWrite.key, EdgeWrite.second, EdgeWrite.Adds]

/-- An operation on the edge of a write that leaves the edge as the write wants it is the
write. -/
theorem edges_eq_after (stores : graph.Stores base) {op : MapOp} (same : op.key = write.key)
    (wanted : write.key ∈ graph.edges (op.run delta) ↔ write.Adds) :
    graph.edges (op.run delta) = EdgeSet.after (graph.edges delta) write := by
  refine Set.ext fun key => ?_
  rw [EdgeSet.mem_after]
  split
  next here =>
    rw [here]
    exact wanted
  next different => exact stores.mem_edges_of_ne _ (by rwa [same])

/-- Operations of a write keep an edge as another write wants it, if the two are apart. -/
theorem mem_edges_of_apart (stores : graph.Stores base) {op : MapOp} {other : EdgeWrite}
    (same : op.key = write.key) (apart : write.Apart other)
    (does : (write.key ∈ graph.edges (op.run delta) ↔ write.Adds) ∨
      graph.edges (op.run delta) = graph.edges delta)
    (wanted : other.key ∈ graph.edges delta ↔ other.Adds) :
    other.key ∈ graph.edges (op.run delta) ↔ other.Adds := by
  rcases does with done | kept
  · by_cases here : write.key = other.key
    · rw [← here, done]
      exact apart here
    · rwa [stores.mem_edges_of_ne _ (by rw [same]; exact Ne.symm here)]
  · rwa [kept]

end CsrGraph.Stores

/-! ## Questions -/

/-- The answer that is decided when these targets were found inserted and these base targets
are still to be asked for. -/
def decided (target : ℕ) (found pending : List ℕ) : Option EdgeAnswer :=
  if target ∈ found then some (.found true)
  else if target ∈ pending then none else some (.found false)

namespace HasEdgePhase

/-- What a question has found out, and the answer with which it has acted. -/
def Tied (base : BaseLayer) (parts : DeltaHalf → MapParts) (source target : ℕ) :
    HasEdgePhase → Option EdgeAnswer → Prop
  | askDeleted, status => status = none
  | askInserted, status => status = none
  | listing baseIter next found, status =>
    baseIter.pending = base.targets source ∧
      if next ≤ (parts .insertions).part (source, target) then target ∉ found ∧ status = none
      else status = decided target found (base.targets source)
  | yielding baseIter seen inserted, status =>
    baseIter.pending ⊆ base.targets source ∧ target ∉ seen ∧
      status = decided target inserted baseIter.pending

variable {graph : CsrGraph} {base : BaseLayer} {parts : DeltaHalf → MapParts} {delta : DeltaLayer}
  {source target : ℕ} {status : Option EdgeAnswer} {result : HasEdgePhase ⊕ Bool}

/-- A question that acts answers whether the edge is there. -/
theorem acts (value : Bool) (right : value = true ↔ (source, target) ∈ graph.edges delta) :
    Acts EdgeSet.object (.hasEdge source target) (graph.edges delta) none (graph.edges delta)
      (some (.found value)) :=
  .act ⟨rfl, value, rfl, right⟩

/-- What a step of a question does: it acts or not, and goes on or answers. -/
def Goes (graph : CsrGraph) (base : BaseLayer) (parts : DeltaHalf → MapParts) (delta : DeltaLayer)
    (source target : ℕ) (status : Option EdgeAnswer) (result : HasEdgePhase ⊕ Bool) : Prop :=
  ∃ after, Acts EdgeSet.object (.hasEdge source target) (graph.edges delta) status
    (graph.edges delta) after ∧
      GoesOn (fun phase status => phase.Tied base parts source target status) after
        (result.map id .found)

/-- The listing of a part finds the target when it is inserted and in this part. -/
theorem goes_listing (stores : graph.Stores base) (disjoint : delta.Disjoint)
    {baseIter : BaseNeighborIter} {next : ℕ} {found : List ℕ}
    (tied : (listing baseIter next found).Tied base parts source target status) :
    Goes graph base parts delta source target status
      (.inl (.listing baseIter (next + 1) (found ++ delta.neighborsIn parts source next))) := by
  obtain ⟨pending, listed⟩ := tied
  rcases Nat.lt_trichotomy next ((parts .insertions).part (source, target)) with
    before | here | past
  · -- the part of the edge is still to come
    rw [if_pos before.le] at listed
    refine ⟨status, .not _, pending, ?_⟩
    rw [if_pos (Nat.succ_le_of_lt before), List.mem_append, DeltaLayer.mem_neighborsIn]
    exact ⟨fun either => either.elim listed.1 fun inserted => before.ne' inserted.2, listed.2⟩
  · rw [if_pos here.le] at listed
    obtain ⟨absent, rfl⟩ := listed
    have split : ∀ {status}, status = decided target (found ++ delta.neighborsIn parts source next)
        (base.targets source) → (listing baseIter (next + 1)
          (found ++ delta.neighborsIn parts source next)).Tied base parts source target status :=
      fun same => ⟨pending, by rwa [if_neg (by omega)]⟩
    have found_iff : target ∈ found ++ delta.neighborsIn parts source next ↔
        (source, target) ∈ delta.insertions := by
      rw [List.mem_append, DeltaLayer.mem_neighborsIn, here]
      exact ⟨fun either => (either.resolve_left absent).1, fun inserted => .inr ⟨inserted, rfl⟩⟩
    by_cases inserted : (source, target) ∈ delta.insertions
    · refine ⟨_, acts true ?_, split ?_⟩
      · simpa [stores.mem_edges, inserted] using disjoint _ inserted
      · rw [decided, if_pos (found_iff.mpr inserted)]
    · by_cases inBase : target ∈ base.targets source
      · refine ⟨none, .not _, split ?_⟩
        rw [decided, if_neg (mt found_iff.mp inserted), if_pos inBase]
      · refine ⟨_, acts false ?_, split ?_⟩
        · simp [stores.mem_edges, inserted, inBase]
        · rw [decided, if_neg (mt found_iff.mp inserted), if_neg inBase]
  · rw [if_neg (Nat.not_le_of_lt past)] at listed
    refine ⟨status, .not _, pending, ?_⟩
    have same : target ∈ found ++ delta.neighborsIn parts source next ↔ target ∈ found := by
      rw [List.mem_append, DeltaLayer.mem_neighborsIn]
      exact or_iff_left fun inserted => past.ne inserted.2
    rw [if_neg (by omega), listed]
    simp only [decided, same]

/-- The walk of the base targets passes one with a tombstone. -/
theorem goes_skip (stores : graph.Stores base) {baseIter rest : BaseNeighborIter}
    {seen inserted : List ℕ} {neighbor : ℕ} (pending : baseIter.pending = neighbor :: rest.pending)
    (deleted : (source, neighbor) ∈ delta.deletions)
    (tied : (yielding baseIter seen inserted).Tied base parts source target status) :
    Goes graph base parts delta source target status (.inl (.yielding rest seen inserted)) := by
  obtain ⟨inBase, unseen, rfl⟩ := tied
  rw [pending, List.cons_subset] at inBase
  rw [pending]
  by_cases last : target ∉ inserted ∧ target = neighbor ∧ target ∉ rest.pending
  · -- the last copy of the target is deleted, so the edge is not there
    obtain ⟨unlisted, rfl, gone⟩ := last
    refine ⟨_, ?_, inBase.2, unseen, rfl⟩
    rw [decided, decided, if_neg unlisted, if_pos List.mem_cons_self, if_neg unlisted, if_neg gone]
    apply acts false
    simp [stores.mem_edges, deleted]
  · refine ⟨_, .not _, inBase.2, unseen, ?_⟩
    rw [decided, decided]
    grind

/-- It ends with the answer when it comes to the target without a tombstone. -/
theorem goes_hit (stores : graph.Stores base) {baseIter rest : BaseNeighborIter}
    {seen inserted : List ℕ} (pending : baseIter.pending = target :: rest.pending)
    (live : (source, target) ∉ delta.deletions)
    (tied : (yielding baseIter seen inserted).Tied base parts source target status) :
    Goes graph base parts delta source target status (.inr true) := by
  obtain ⟨inBase, unseen, rfl⟩ := tied
  rw [pending, List.cons_subset] at inBase
  rw [pending, decided]
  by_cases listed : target ∈ inserted
  · rw [if_pos listed]
    exact ⟨_, .not _, rfl⟩
  · rw [if_neg listed, if_pos List.mem_cons_self]
    refine ⟨_, acts true ?_, rfl⟩
    simp [stores.mem_edges, live, inBase.1]

/-- What a step of a question reads, and how the question goes on. -/
inductive Reads (base : BaseLayer) (parts : DeltaHalf → MapParts) (delta : DeltaLayer)
    (source target : ℕ) : HasEdgePhase → HasEdgePhase ⊕ Bool → Prop
  | deleted (deleted : (source, target) ∈ delta.deletions) :
      Reads base parts delta source target .askDeleted (.inr false)
  | live (live : (source, target) ∉ delta.deletions) :
      Reads base parts delta source target .askDeleted (.inl .askInserted)
  | inserted (inserted : (source, target) ∈ delta.insertions) :
      Reads base parts delta source target .askInserted (.inr true)
  | absent {baseIter : BaseNeighborIter} (absent : (source, target) ∉ delta.insertions)
      (pending : baseIter.pending = base.targets source) :
      Reads base parts delta source target .askInserted (.inl (.listing baseIter 0 []))
  | part {baseIter : BaseNeighborIter} {next : ℕ} {found : List ℕ}
      (more : next < (parts .insertions).count) :
      Reads base parts delta source target (.listing baseIter next found)
        (.inl (.listing baseIter (next + 1) (found ++ delta.neighborsIn parts source next)))
  | listed {baseIter : BaseNeighborIter} {next : ℕ} {found : List ℕ}
      (done : (parts .insertions).count ≤ next) :
      Reads base parts delta source target (.listing baseIter next found)
        (.inl (.yielding baseIter [] found))
  | skip {baseIter rest : BaseNeighborIter} {seen inserted : List ℕ} {neighbor : ℕ}
      (pending : baseIter.pending = neighbor :: rest.pending)
      (deleted : (source, neighbor) ∈ delta.deletions) :
      Reads base parts delta source target (.yielding baseIter seen inserted)
        (.inl (.yielding rest seen inserted))
  | hit {baseIter rest : BaseNeighborIter} {seen inserted : List ℕ}
      (pending : baseIter.pending = target :: rest.pending)
      (live : (source, target) ∉ delta.deletions) :
      Reads base parts delta source target (.yielding baseIter seen inserted) (.inr true)
  | pass {baseIter rest : BaseNeighborIter} {seen inserted : List ℕ} {neighbor : ℕ}
      (pending : baseIter.pending = neighbor :: rest.pending) (other : target ≠ neighbor) :
      Reads base parts delta source target (.yielding baseIter seen inserted)
        (.inl (.yielding rest (neighbor :: seen) inserted))
  | ended {baseIter : BaseNeighborIter} {seen inserted : List ℕ} (pending : baseIter.pending = []) :
      Reads base parts delta source target (.yielding baseIter seen inserted)
        (.inr (decide (target ∈ inserted ∧ target ∉ seen)))

/-- **A question never fails**, and its steps read what `Reads` says. -/
theorem exists_reads (stores : graph.Stores base) (parts : DeltaHalf → MapParts)
    (delta : DeltaLayer) (source target : ℕ) (phase : HasEdgePhase) :
    ∃ result, phase.advance graph parts delta source target = .ok result ∧
      Reads base parts delta source target phase result := by
  cases phase with
  | askDeleted =>
    by_cases deleted : (source, target) ∈ delta.deletions
    · exact ⟨_, if_pos (by simpa using deleted), .deleted deleted⟩
    · exact ⟨_, if_neg (by simpa using deleted), .live deleted⟩
  | askInserted =>
    by_cases inserted : (source, target) ∈ delta.insertions
    · exact ⟨_, if_pos (by simpa using inserted), .inserted inserted⟩
    · obtain ⟨baseIter, started, pending⟩ := stores.baseNeighbors_eq source
      refine ⟨_, ?_, .absent inserted pending⟩
      rw [advance, if_neg (by simpa using inserted), started]
      rfl
  | listing baseIter next found =>
    by_cases more : next < (parts .insertions).count
    · exact ⟨_, if_pos more, .part more⟩
    · exact ⟨_, if_neg more, .listed (Nat.le_of_not_lt more)⟩
  | yielding baseIter seen inserted =>
    cases pending : baseIter.pending with
    | nil =>
      have answer : ((inserted.filter fun neighbor => decide (neighbor ∉ seen)).any
          fun neighbor => decide (neighbor = target)) =
            decide (target ∈ inserted ∧ target ∉ seen) := by
        rw [Bool.eq_iff_iff]
        simp
      refine ⟨_, ?_, .ended pending⟩
      rw [advance, BaseNeighborIter.next_of_pending_nil pending]
      exact congrArg (fun found => Except.ok (Sum.inr found)) answer
    | cons neighbor remaining =>
      obtain ⟨rest, next, rfl⟩ := BaseNeighborIter.next_of_pending_cons pending
      simp only [advance, next]
      by_cases deleted : (source, neighbor) ∈ delta.deletions
      · exact ⟨_, if_pos (by simpa using deleted), .skip pending deleted⟩
      · rw [if_neg (by simpa using deleted)]
        by_cases same : neighbor = target
        · subst same
          exact ⟨_, if_pos rfl, .hit pending deleted⟩
        · exact ⟨_, if_neg same, .pass pending (Ne.symm same)⟩

/-- A step reads what `Reads` says. -/
theorem reads (stores : graph.Stores base) {phase : HasEdgePhase}
    (does : phase.advance graph parts delta source target = .ok result) :
    Reads base parts delta source target phase result := by
  obtain ⟨found, advances, reads⟩ := phase.exists_reads stores parts delta source target
  obtain rfl := Except.ok.inj (does.symm.trans advances)
  exact reads

/-- **A step of a question acts or not, and goes on or answers.** -/
theorem Reads.goes {phase : HasEdgePhase}
    (reads : Reads base parts delta source target phase result)
    (stores : graph.Stores base) (disjoint : delta.Disjoint)
    (tied : phase.Tied base parts source target status) :
    Goes graph base parts delta source target status result := by
  cases reads with
  | deleted deleted =>
    obtain rfl : status = none := tied
    refine ⟨_, acts false ?_, rfl⟩
    simp [stores.mem_edges, deleted]
  | live live =>
    obtain rfl : status = none := tied
    exact ⟨none, .not _, rfl⟩
  | inserted inserted =>
    obtain rfl : status = none := tied
    refine ⟨_, acts true ?_, rfl⟩
    simpa [stores.mem_edges, inserted] using disjoint _ inserted
  | absent absent pending =>
    obtain rfl : status = none := tied
    refine ⟨none, .not _, pending, ?_⟩
    rw [if_pos (Nat.zero_le _)]
    exact ⟨List.not_mem_nil, rfl⟩
  | part more => exact goes_listing stores disjoint tied
  | listed done =>
    -- all parts are listed, also the one of the edge
    obtain ⟨pending, listed⟩ := tied
    have inside := (parts .insertions).inside (source, target)
    rw [if_neg (by omega)] at listed
    exact ⟨status, .not _, pending ▸ List.Subset.refl _, List.not_mem_nil, pending ▸ listed⟩
  | skip pending deleted => exact goes_skip stores pending deleted tied
  | hit pending live => exact goes_hit stores pending live tied
  | pass pending other =>
    obtain ⟨inBase, unseen, rfl⟩ := tied
    rw [pending, List.cons_subset] at inBase
    refine ⟨_, .not _, inBase.2, ?_, ?_⟩
    · simpa [other] using unseen
    · simp [decided, pending, other]
  | @ended baseIter seen inserted pending =>
    obtain ⟨-, unseen, rfl⟩ := tied
    refine ⟨_, .not _, ?_⟩
    by_cases listed : target ∈ inserted
    · simp [GoesOn, decided, listed, unseen]
    · simp [GoesOn, decided, listed, pending]

/-- The steps that a question from the source can still take. -/
def rank (base : BaseLayer) (parts : DeltaHalf → MapParts) (source : ℕ) : HasEdgePhase → ℕ
  | askDeleted => (parts .insertions).count + (base.targets source).length + 4
  | askInserted => (parts .insertions).count + (base.targets source).length + 3
  | listing baseIter next _ => (parts .insertions).count - next + baseIter.pending.length + 2
  | yielding baseIter _ _ => baseIter.pending.length + 1

/-- Every step of a question lowers its rank. -/
theorem Reads.rank_lt {phase next : HasEdgePhase}
    (reads : Reads base parts delta source target phase (.inl next)) :
    next.rank base parts source < phase.rank base parts source := by
  cases reads with
  | live live => exact Nat.lt_succ_self _
  | absent absent pending => simp [rank, pending]
  | part more =>
    simp only [rank]
    omega
  | listed done =>
    simp only [rank]
    omega
  | skip pending deleted => simp [rank, pending]
  | pass pending other => simp [rank, pending]

end HasEdgePhase

/-! ## Threads -/

/-- A graph whose delta layer threads share, and the calls in progress. -/
abbrev SharedGraph (Thread : Type) := Calls DeltaLayer EdgePlace EdgeCall EdgeAnswer Thread

/-- The write whose first operation is done and whose second one is not. -/
def halfwayWrite : CallPhase EdgePlace EdgeCall EdgeAnswer → Option EdgeWrite
  | .running _ (.halfway write) => some write
  | _ => none

/-- What a call may have answered, wherever it is. -/
inductive EdgePlace.Tied (graph : CsrGraph) (base : BaseLayer) (parts : DeltaHalf → MapParts)
    (delta : DeltaLayer) : EdgeCall → EdgePlace → Option EdgeAnswer → Prop
  | starting (write : EdgeWrite) : Tied graph base parts delta (.write write) (.starting write) none
  | halfway (write : EdgeWrite) : Tied graph base parts delta (.write write) (.halfway write) none
  | acted {write : EdgeWrite} (wanted : write.key ∈ graph.edges delta ↔ write.Adds) :
      Tied graph base parts delta (.write write) (.halfway write) (some .done)
  | asking {source target : ℕ} {phase : HasEdgePhase} {status : Option EdgeAnswer}
      (holds : phase.Tied base parts source target status) :
      Tied graph base parts delta (.hasEdge source target) (.asking source target phase) status

/-- The steps that a call can still take. -/
def EdgePlace.rank (base : BaseLayer) (parts : DeltaHalf → MapParts) : EdgePlace → ℕ
  | starting _ => 2
  | halfway _ => 1
  | asking source _ phase => phase.rank base parts source

namespace SharedGraph

section Steps

variable {Thread : Type} [DecidableEq Thread] {graph : CsrGraph} {base : BaseLayer}
  {parts : DeltaHalf → MapParts} {calls next : SharedGraph Thread}
  {action : CallAction Thread EdgeCall EdgeAnswer} {thread other : Thread} {op : EdgeCall}
  {place : EdgePlace} {delta : DeltaLayer} {result : EdgePlace ⊕ EdgeAnswer}
  {status : Option EdgeAnswer}

/-- The writes in progress. -/
def writers (self : SharedGraph Thread) : SharedDelta Thread where
  delta := self.shared
  inProgress thread := halfwayWrite (self.phase thread)

/-- A step that begins no write while a write of the other kind on the same edge is in
progress. -/
def ApartStep (graph : CsrGraph) (parts : DeltaHalf → MapParts) (calls : SharedGraph Thread)
    (action : CallAction Thread EdgeCall EdgeAnswer) (next : SharedGraph Thread) : Prop :=
  CallStep (graph.edgeCalls parts) calls action next ∧ ∀ thread op write,
    action = .inner thread → calls.phase thread = .running op (.starting write) →
      calls.writers.Admits write

theorem writers_update (calls : SharedGraph Thread) (thread : Thread) (delta : DeltaLayer)
    (phase : CallPhase EdgePlace EdgeCall EdgeAnswer) :
    writers ⟨delta, Function.update calls.phase thread phase⟩ =
      ⟨delta, Function.update calls.writers.inProgress thread (halfwayWrite phase)⟩ :=
  congrArg (SharedDelta.mk delta) (Function.comp_update halfwayWrite ..)

/-- A step of a thread that is in no write before it and after it. -/
theorem writers_update_of_eq {phase : CallPhase EdgePlace EdgeCall EdgeAnswer}
    (same : halfwayWrite phase = halfwayWrite (calls.phase thread)) :
    writers ⟨calls.shared, Function.update calls.phase thread phase⟩ = calls.writers := by
  rw [writers_update, same]
  exact congrArg (SharedDelta.mk calls.shared) (Function.update_eq_self ..)

/-- **A step is one of the writers, or leaves them alone.** -/
theorem ApartStep.writers (moved : ApartStep graph parts calls action next) :
    (∃ op, SharedDelta.ApartStep calls.writers op next.writers) ∨ next.writers = calls.writers := by
  obtain ⟨moved, admits⟩ := moved
  cases moved with
  | @call thread op idle =>
    refine .inr (writers_update_of_eq ?_)
    rw [idle]
    cases op <;> rfl
  | @inner thread op place delta result running does =>
    have busy : calls.writers.inProgress thread = halfwayWrite (.running op place) :=
      congrArg halfwayWrite running
    cases place with
    | starting write =>
      cases does
      refine .inl ⟨.begin thread write, ?_, ?_⟩
      · rw [writers_update]
        exact .begin write busy
      · rintro mover other same
        cases same
        exact admits thread op write rfl running
    | halfway write =>
      cases does
      refine .inl ⟨.finish thread, ?_, by simp⟩
      rw [writers_update]
      exact .finish busy
    | asking source target phase =>
      obtain ⟨found, -, same⟩ := Checked.bind_eq_ok.mp does
      cases same
      refine .inr (writers_update_of_eq ?_)
      rw [running]
      cases found <;> rfl
  | @ret thread op answer answered =>
    refine .inr (writers_update_of_eq ?_)
    rw [answered]
    rfl

omit [DecidableEq Thread] in
/-- A step of a call acts or not, and goes on or answers. -/
theorem own (stores : graph.Stores base) (separate : calls.writers.Separate)
    (running : calls.phase thread = .running op place)
    (does : (graph.edgeCalls parts).step calls.shared place delta result)
    (tied : place.Tied graph base parts calls.shared op status) :
    ∃ after, Acts EdgeSet.object op (graph.edges calls.shared) status (graph.edges delta) after ∧
      GoesOn (fun place status => place.Tied graph base parts delta op status) after result := by
  cases tied with
  | starting write =>
    cases does
    rcases stores.edges_first calls.shared write with done | kept
    · exact ⟨_, .act ⟨rfl, stores.edges_eq_after write.key_first done⟩, .acted done⟩
    · rw [kept]
      exact ⟨none, .not _, .halfway write⟩
  | halfway write =>
    cases does
    have ready : write.Ready calls.shared :=
      separate.ready thread write (congrArg halfwayWrite running)
    exact ⟨_, .act ⟨rfl, stores.edges_eq_after write.key_second (stores.mem_edges_second ready)⟩,
      rfl⟩
  | @acted write wanted =>
    cases does
    have ready : write.Ready calls.shared :=
      separate.ready thread write (congrArg halfwayWrite running)
    have kept : graph.edges (write.second.run calls.shared) = graph.edges calls.shared := by
      rw [stores.edges_eq_after write.key_second (stores.mem_edges_second ready)]
      refine Set.ext fun key => ?_
      rw [EdgeSet.mem_after]
      split
      next same => rw [same, wanted]
      next different => rfl
    rw [kept]
    exact ⟨_, .not _, rfl⟩
  | asking holds =>
    obtain ⟨found, advances, same⟩ := Checked.bind_eq_ok.mp does
    cases same
    have reads := HasEdgePhase.reads stores advances
    obtain ⟨after, acts, goesOn⟩ := reads.goes stores separate.disjoint holds
    refine ⟨after, acts, ?_⟩
    cases found with
    | inl phase => exact .asking goesOn
    | inr value => exact goesOn

/-- The steps of other threads keep what a call has answered. -/
theorem others (stores : graph.Stores base) (separate : calls.writers.Separate)
    (moved : ApartStep graph parts calls (.inner thread) next)
    (running : calls.phase other = .running op place)
    (tied : place.Tied graph base parts calls.shared op status) :
    place.Tied graph base parts next.shared op status := by
  cases tied with
  | starting write => exact .starting write
  | halfway write => exact .halfway write
  | asking holds => exact .asking holds
  | @acted write wanted =>
    refine .acted ?_
    have busy : calls.writers.inProgress other = some write := congrArg halfwayWrite running
    obtain ⟨moved, admits⟩ := moved
    cases moved with
    | @inner thread op place delta result moving does =>
      cases place with
      | starting mover =>
        cases does
        exact stores.mem_edges_of_apart mover.key_first
          (admits thread op mover rfl moving other write busy)
          (stores.edges_first calls.shared mover) wanted
      | halfway mover =>
        cases does
        have moves : calls.writers.inProgress thread = some mover := congrArg halfwayWrite moving
        exact stores.mem_edges_of_apart mover.key_second
          (separate.apart thread mover other write moves busy)
          (.inl (stores.mem_edges_second (separate.ready thread mover moves))) wanted
      | asking source target phase =>
        obtain ⟨found, -, same⟩ := Checked.bind_eq_ok.mp does
        cases same
        exact wanted

/-- **The calls are tied to a set of edges.** -/
theorem ties (stores : graph.Stores base) (parts : DeltaHalf → MapParts) :
    Ties (graph.edgeCalls parts) EdgeSet.object
      (ApartStep graph parts : SharedGraph Thread → _ → SharedGraph Thread → Prop)
      (fun calls => (writers calls).Separate) graph.edges
      (fun delta op place status => place.Tied graph base parts delta op status) where
  steps moved := moved.1
  keeps separate moved := by
    rcases moved.writers with ⟨op, stepped⟩ | same
    · exact separate.step stepped
    · rwa [same]
  starts delta op := by
    cases op with
    | write write => exact .starting write
    | hasEdge source target => exact .asking rfl
  own separate _ running does _ tied := own stores separate running does tied
  others separate moved _ running tied := others stores separate moved running tied

/-- A call can always take its next step. -/
theorem exists_step (stores : graph.Stores base)
    (running : calls.phase thread = .running op place) :
    ∃ next, CallStep (graph.edgeCalls parts) calls (.inner thread) next := by
  cases place with
  | starting write => exact ⟨_, .inner running rfl⟩
  | halfway write => exact ⟨_, .inner running rfl⟩
  | asking source target phase =>
    obtain ⟨found, advances, -⟩ := phase.exists_reads stores parts calls.shared source target
    exact ⟨_, .inner running (Checked.bind_eq_ok.mpr ⟨found, advances, rfl⟩)⟩

/-- Every step of a call lowers its rank. -/
theorem rank_lt (stores : graph.Stores base) {before after : DeltaLayer} {later : EdgePlace}
    (does : (graph.edgeCalls parts).step before place after (.inl later)) :
    later.rank base parts < place.rank base parts := by
  cases place with
  | starting write =>
    cases does
    exact Nat.lt_succ_self 1
  | halfway write => cases does
  | asking source target phase =>
    obtain ⟨found, advances, same⟩ := Checked.bind_eq_ok.mp does
    cases found with
    | inl phase =>
      cases same
      exact (HasEdgePhase.reads stores advances).rank_lt
    | inr value => cases same

theorem rank_pos (base : BaseLayer) (parts : DeltaHalf → MapParts) (place : EdgePlace) :
    0 < place.rank base parts := by
  cases place with
  | starting write => exact Nat.two_pos
  | halfway write => exact Nat.one_pos
  | asking source target phase => cases phase <;> simp [EdgePlace.rank, HasEdgePhase.rank]

end Steps

/-- **Insertions, deletions and questions are linearizable, and none of them waits.** In
every run in which no insertion overlaps a deletion of the same edge, the calls have the
history of a set of edges on which every call acts in one step. In every run at all, a
thread in a call can take its next step, and takes two steps for a write and for a
question a number that the parts of the insertions and the base targets bound. -/
theorem edge_calls_linearizable {Thread : Type} [DecidableEq Thread] {graph : CsrGraph}
    (reachable : graph.Reachable) (parts : DeltaHalf → MapParts) :
    (∀ actions (calls : SharedGraph Thread),
      Run (ApartStep graph parts) (.start graph.delta) actions calls →
        Linearizable EdgeSet.object (graph.edges graph.delta) (history actions)) ∧
    ∃ bound : EdgeCall → ℕ, (∀ write, bound (.write write) = 2) ∧
      (∀ source target slice, graph.baseNeighborSlice source = .ok slice →
        bound (.hasEdge source target) = (parts .insertions).count + slice.length + 4) ∧
      ∀ actions (calls : SharedGraph Thread),
        Run (CallStep (graph.edgeCalls parts)) (.start graph.delta) actions calls → ∀ thread,
          innerSteps thread actions ≤ ((startedCalls thread actions).map bound).sum ∧
          ∀ op place, calls.phase thread = .running op place →
            ∃ next, CallStep (graph.edgeCalls parts) calls (.inner thread) next := by
  obtain ⟨base, stores⟩ := reachable.stores
  refine ⟨fun actions calls run => ?_, fun op => op.start.rank base parts, fun write => rfl,
    fun source target slice listed => ?_, fun actions calls run thread => ⟨?_, ?_⟩⟩
  · have separate : (writers (.start graph.delta : SharedGraph Thread)).Separate :=
      .of_idle (fun thread => rfl) reachable.disjoint
    exact ((ties stores parts).linearizable separate run).2
  · rw [stores.baseNeighborSlice_eq] at listed
    obtain rfl := Except.ok.inj listed
    rfl
  · have bounded := inner_le (EdgePlace.rank base parts) (rank_pos base parts) (rank_lt stores) run
      thread
    exact (Nat.le_add_right ..).trans bounded
  · intro op place running
    exact exists_step stores running

/-- A step that begins no write needs no other write to be apart. -/
theorem ApartStep.of_step {Thread : Type} [DecidableEq Thread] {graph : CsrGraph}
    {parts : DeltaHalf → MapParts} {calls next : SharedGraph Thread}
    {action : CallAction Thread EdgeCall EdgeAnswer}
    (moved : CallStep (graph.edgeCalls parts) calls action next)
    (begins : ∀ op write, calls.phase action.thread ≠ .running op (.starting write)) :
    ApartStep graph parts calls action next := by
  refine ⟨moved, fun thread op write same running => absurd running ?_⟩
  subst same
  exact begins op write

/-- One thread inserts an edge, and another one asks for it and finds it before the insertion
has returned. -/
theorem edge_calls_linearizable_witness : ∃ (parts : DeltaHalf → MapParts)
    (calls : SharedGraph Bool),
    Run (ApartStep CsrGraph.empty parts) (.start CsrGraph.empty.delta)
      [.event (.call false (.write (.insert 0 2 .default))), .inner false,
        .event (.call true (.hasEdge 0 2)), .inner true, .inner false, .inner true,
        .event (.ret true (.hasEdge 0 2) (.found true))] calls ∧
    Linearizable EdgeSet.object (CsrGraph.empty.edges CsrGraph.empty.delta)
      [.call false (.write (.insert 0 2 .default)), .call true (.hasEdge 0 2),
        .ret true (.hasEdge 0 2) (.found true)] := by
  obtain ⟨calls, run⟩ : ∃ calls : SharedGraph Bool,
      Run (ApartStep CsrGraph.empty fun _ => ⟨1, fun _ => 0, fun _ => Nat.one_pos⟩)
        (.start CsrGraph.empty.delta) [.event (.call false (.write (.insert 0 2 .default))),
          .inner false, .event (.call true (.hasEdge 0 2)), .inner true, .inner false, .inner true,
          .event (.ret true (.hasEdge 0 2) (.found true))] calls := by
    refine ⟨_, .cons (.of_step (.call _ rfl) nofun) (.cons ⟨.inner rfl rfl, ?_⟩
      (.cons (.of_step (.call _ rfl) nofun) (.cons (.of_step (.inner rfl rfl) nofun)
        (.cons (.of_step (.inner rfl rfl) nofun) (.cons (.of_step (.inner rfl rfl) nofun)
          (.cons (.of_step (.ret rfl) nofun) .start))))))⟩
    -- no other write is in progress when the insertion begins
    rintro thread op write same running other found busy
    cases other <;> cases busy
  have reachable : CsrGraph.empty.Reachable :=
    .built (show CsrBuilder.new.build = .ok CsrGraph.empty from rfl)
  exact ⟨_, calls, run, (edge_calls_linearizable reachable _).1 _ calls run⟩

end SharedGraph

end FusionGraph
