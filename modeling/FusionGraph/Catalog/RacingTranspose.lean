import FusionGraph.Catalog.Replay
import FusionGraph.Core.DeltaMoments
import FusionGraph.Core.Transpose
import FusionGraph.Foundations.Runs
import FusionGraph.Traversal.ShortestPaths

/-!
# One transpose for all callers

Callers that ask an entry for its transpose share one write-once cell. A caller that finds
it empty builds a transpose outside any lock, reading the delta layer part by part beside
writers, and offers it to the cell. Whoever comes first wins, every caller returns what the
cell holds, and none waits for another (`reverse_calls_agree`).

A transpose that was built beside writers turns around what the graph had at every moment of
the build, and only what it listed at some moment of it (`racing_transpose_between`). When
nothing is written during a build it is the transpose of the graph (`Turns.quiet`).

The calls here have looked up their entry; an entry does not change its graph.
-/

set_option autoImplicit false

namespace FusionGraph

open Foundations

/-! ## Building from what was listed -/

namespace CsrGraph

variable {graph reverse : CsrGraph} {base : BaseLayer} {deletions : List EdgeKey}
  {insertions : List (EdgeKey × EdgeData)}

/-- What is built from two lists records their merge, turned around. -/
theorem Stores.transposeFrom_records (stores : graph.Stores base)
    (outcome : graph.transposeFrom deletions insertions = .ok reverse) :
    reverse.delta = DeltaLayer.new ∧ ∃ layer, reverse.Stores layer ∧
      layer.Records (reversedEdges (mergedEdges base false deletions insertions)) := by
  obtain ⟨builder, same, size, holds⟩ := stores.transposeFrom_eq deletions insertions
  exact holds.records_of_build (defaultShardSize_roomy size) (same.symm.trans outcome)

/-- **What a transpose built from two lists lists.** -/
theorem Stores.edge_transposeFrom (stores : graph.Stores base)
    (outcome : graph.transposeFrom deletions insertions = .ok reverse) (source target : ℕ) :
    reverse.Edge target source ↔
      (target ∈ base.targets source ∧ (source, target) ∉ deletions) ∨
        (target ∉ base.targets source ∧ (source, target) ∈ insertions.map Prod.fst) := by
  obtain ⟨clean, layer, stored, records⟩ := stores.transposeFrom_records outcome
  rw [stored.edge_iff, clean, BaseLayer.merged_new, records.mem_targets_reversed]
  exact @exists_mem_mergedEdges base (source, target) deletions insertions false

/-- The graph turns around what another had at every moment of some writes, and only what
that one listed at some moment of them. -/
structure Turns (reverse graph : CsrGraph) (start : DeltaLayer) (writes : List MapOp) : Prop where
  clean : reverse.delta = DeltaLayer.new
  kept : ∀ u w, graph.HasAlways start writes u w → reverse.Edge w u
  listed : ∀ u w, reverse.Edge w u → graph.ListsSometime start writes u w

/-- Without writes it is the edges of the one moment that are turned around. -/
theorem Turns.quiet {start : DeltaLayer} (turns : reverse.Turns graph start [])
    (stores : graph.Stores base) (disjoint : start.Disjoint) (u w : ℕ) :
    reverse.Edge w u ↔ (graph.withDelta start).Edge u w := by
  constructor
  · intro edge
    obtain ⟨delta, moment, listed⟩ := turns.listed u w edge
    rwa [atSomeMoment_nil.mp moment] at listed
  · intro edge
    refine turns.kept u w fun delta moment => ?_
    rw [atSomeMoment_nil.mp moment, (stores.withDelta start).hasEdge_eq disjoint u w]
    exact congrArg Except.ok (decide_eq_true (((stores.withDelta start).edge_iff u w).mp edge))

end CsrGraph

/-! ## The callers of an entry -/

/-- Where a call of `reverse` stands. -/
inductive ReverseCall where
  | idle
  /-- It has listed the tombstones in the parts before the given one. -/
  | deleting (next : ℕ) (deletions : List EdgeKey)
  /-- It has listed the insertions in the parts before the given one. -/
  | inserting (deletions : List EdgeKey) (next : ℕ) (insertions : List (EdgeKey × EdgeData))
  /-- It has built a graph that it offers to the cell. -/
  | setting (built : GraphRef)
  /-- It reads the cell after its offer. -/
  | getting (built : GraphRef)

namespace ReverseCall

/-- The step of a call that lists the delta layer, part by part. -/
def read (parts : DeltaHalf → MapParts) (delta : DeltaLayer) : ReverseCall → Option ReverseCall
  | deleting next deletions =>
    if next < (parts .deletions).count then
      some (deleting (next + 1) (deletions ++ delta.keysIn parts .deletions next))
    else some (inserting deletions 0 [])
  | inserting deletions next insertions =>
    if next < (parts .insertions).count then
      some (inserting deletions (next + 1) (insertions ++ delta.insertionsIn parts next))
    else none
  | _ => none

/-- The call lists the delta layer. -/
def Reads : ReverseCall → Prop
  | deleting _ _ => True
  | inserting _ _ _ => True
  | _ => False

/-- A call that lists goes on listing. -/
theorem reads_of_read {parts : DeltaHalf → MapParts} {delta : DeltaLayer} {call next : ReverseCall}
    (reads : call.read parts delta = some next) : call.Reads ∧ next.Reads := by
  cases call with
  | deleting position deletions =>
    rw [read] at reads
    split at reads <;> cases reads <;> exact ⟨trivial, trivial⟩
  | inserting deletions position insertions =>
    rw [read] at reads
    split at reads <;> cases reads
    exact ⟨trivial, trivial⟩
  | _ => cases reads

/-- The steps that the call has left, at most. -/
def left (parts : DeltaHalf → MapParts) : ReverseCall → ℕ
  | idle => 0
  | deleting next _ => (parts .deletions).count - next + 1 + (parts .insertions).count + 3
  | inserting _ next _ => (parts .insertions).count - next + 3
  | setting _ => 2
  | getting _ => 1

end ReverseCall

/-- The delta layer of a graph, and the transposes of its entry. -/
structure SharedEntry (Thread : Type) where
  delta : DeltaLayer
  /-- The write-once cell. -/
  reverse : Option GraphRef
  /-- The graphs that were built; a reference is a position. -/
  built : List CsrGraph
  call : Thread → ReverseCall

/-- A step of a writer or of a call. -/
inductive ReverseAction (Thread : Type) where
  | write (op : MapOp)
  /-- The call finds the cell full and returns what it holds. -/
  | hit (thread : Thread) (ref : GraphRef)
  | miss (thread : Thread)
  /-- It lists a part of one of the maps, or turns to the next map. -/
  | read (thread : Thread)
  | build (thread : Thread) (ref : GraphRef)
  /-- The build fails, and the call returns its error. -/
  | fail (thread : Thread) (fault : Fault GraphError)
  | set (thread : Thread)
  | ret (thread : Thread) (ref : GraphRef)

namespace ReverseAction

variable {Thread : Type}

/-- A call returns the transpose. -/
def Returns (ref : GraphRef) : ReverseAction Thread → Prop
  | hit _ found => found = ref
  | ret _ found => found = ref
  | _ => False

/-- The call of the thread ends. -/
def Ends (thread : Thread) : ReverseAction Thread → Prop
  | fail other _ => other = thread
  | ret other _ => other = thread
  | _ => False

/-- The thread that takes the step. -/
def thread : ReverseAction Thread → Option Thread
  | write _ => none
  | hit thread _ => some thread
  | miss thread => some thread
  | read thread => some thread
  | build thread _ => some thread
  | fail thread _ => some thread
  | set thread => some thread
  | ret thread _ => some thread

/-- The writes among the steps. -/
def writes (actions : List (ReverseAction Thread)) : List MapOp :=
  actions.filterMap fun
    | write op => some op
    | _ => none

end ReverseAction

section Steps

variable {Thread : Type} [DecidableEq Thread]

namespace SharedEntry

/-- An entry with the transpose it was registered with, if any. -/
def new (delta : DeltaLayer) (prebuilt : Option CsrGraph) : SharedEntry Thread where
  delta := delta
  reverse := prebuilt.map fun _ => 0
  built := prebuilt.toList
  call _ := .idle

/-- The call of a thread moves on. -/
def moves (self : SharedEntry Thread) (thread : Thread) (call : ReverseCall) :
    SharedEntry Thread :=
  { self with call := Function.update self.call thread call }

/-- The call of a thread offers a graph that it has built. -/
def builds (self : SharedEntry Thread) (thread : Thread) (reverse : CsrGraph) :
    SharedEntry Thread :=
  { self.moves thread (.setting self.built.length) with built := self.built ++ [reverse] }

/-- The cell takes an offer when it is empty. -/
def sets (self : SharedEntry Thread) (thread : Thread) (ref : GraphRef) : SharedEntry Thread :=
  { self.moves thread (.getting ref) with reverse := some (self.reverse.getD ref) }

end SharedEntry

/-- The steps of the writers and of the calls of `reverse`. -/
inductive ReverseStep (graph : CsrGraph) (parts : DeltaHalf → MapParts) :
    SharedEntry Thread → ReverseAction Thread → SharedEntry Thread → Prop
  | write {state : SharedEntry Thread} (op : MapOp) :
      ReverseStep graph parts state (.write op) { state with delta := op.run state.delta }
  | hit {state : SharedEntry Thread} {thread : Thread} {ref : GraphRef}
      (idle : state.call thread = .idle) (full : state.reverse = some ref) :
      ReverseStep graph parts state (.hit thread ref) state
  | miss {state : SharedEntry Thread} {thread : Thread} (idle : state.call thread = .idle)
      (empty : state.reverse = none) :
      ReverseStep graph parts state (.miss thread) (state.moves thread (.deleting 0 []))
  | read {state : SharedEntry Thread} {thread : Thread} {next : ReverseCall}
      (reads : (state.call thread).read parts state.delta = some next) :
      ReverseStep graph parts state (.read thread) (state.moves thread next)
  | build {state : SharedEntry Thread} {thread : Thread} {deletions : List EdgeKey} {next : ℕ}
      {insertions : List (EdgeKey × EdgeData)} {reverse : CsrGraph}
      (listed : state.call thread = .inserting deletions next insertions)
      (whole : (parts .insertions).count ≤ next)
      (does : graph.transposeFrom deletions insertions = .ok reverse) :
      ReverseStep graph parts state (.build thread state.built.length)
        (state.builds thread reverse)
  | fail {state : SharedEntry Thread} {thread : Thread} {deletions : List EdgeKey} {next : ℕ}
      {insertions : List (EdgeKey × EdgeData)} {fault : Fault GraphError}
      (listed : state.call thread = .inserting deletions next insertions)
      (whole : (parts .insertions).count ≤ next)
      (fails : graph.transposeFrom deletions insertions = .error fault) :
      ReverseStep graph parts state (.fail thread fault) (state.moves thread .idle)
  | set {state : SharedEntry Thread} {thread : Thread} {ref : GraphRef}
      (setting : state.call thread = .setting ref) :
      ReverseStep graph parts state (.set thread) (state.sets thread ref)
  | ret {state : SharedEntry Thread} {thread : Thread} {ref : GraphRef}
      (getting : state.call thread = .getting ref) :
      ReverseStep graph parts state (.ret thread (state.reverse.getD ref))
        (state.moves thread .idle)

variable {graph : CsrGraph} {base : BaseLayer} {parts : DeltaHalf → MapParts}
  {state next : SharedEntry Thread} {action : ReverseAction Thread} {thread : Thread}
  {actions : List (ReverseAction Thread)} {delta : DeltaLayer} {prebuilt : Option CsrGraph}
  {ref : GraphRef}

namespace SharedEntry

@[simp] theorem call_moves (call : ReverseCall) : (state.moves thread call).call thread = call :=
  Function.update_self ..

theorem call_moves_of_ne (call : ReverseCall) {other : Thread} (different : thread ≠ other) :
    (state.moves other call).call thread = state.call thread :=
  Function.update_of_ne different ..

end SharedEntry

namespace ReverseStep

/-- Other threads leave the call of a thread alone. -/
theorem call_of_ne (moved : ReverseStep graph parts state action next)
    (other : action.thread ≠ some thread) : next.call thread = state.call thread := by
  have apart : ∀ {who : Thread}, some who ≠ some thread → thread ≠ who :=
    fun different same => different (congrArg some same.symm)
  cases moved with
  | write op => rfl
  | hit idle full => rfl
  | miss idle empty => exact SharedEntry.call_moves_of_ne _ (apart other)
  | read reads => exact SharedEntry.call_moves_of_ne _ (apart other)
  | build listed whole does => exact SharedEntry.call_moves_of_ne _ (apart other)
  | fail listed whole fails => exact SharedEntry.call_moves_of_ne _ (apart other)
  | set setting => exact SharedEntry.call_moves_of_ne _ (apart other)
  | ret getting => exact SharedEntry.call_moves_of_ne _ (apart other)

/-- The cell is written once. -/
theorem reverse_of_full (moved : ReverseStep graph parts state action next)
    (full : state.reverse = some ref) : next.reverse = some ref := by
  cases moved with
  | set setting => rw [SharedEntry.sets, full, Option.getD_some]
  | _ => exact full

/-- Graphs that were built stay. -/
theorem built_prefix (moved : ReverseStep graph parts state action next) :
    state.built <+: next.built := by
  cases moved with
  | build listed whole does => exact List.prefix_append ..
  | _ => exact List.prefix_refl _

/-- A step of a call that is under way brings it nearer to its end. -/
theorem left_lt (moved : ReverseStep graph parts state action next)
    (own : action.thread = some thread) (busy : state.call thread ≠ .idle) :
    (next.call thread).left parts < (state.call thread).left parts := by
  cases moved with
  | write op => cases own
  | hit idle full =>
    cases own
    exact absurd idle busy
  | miss idle empty =>
    cases own
    exact absurd idle busy
  | read reads =>
    cases own
    rw [SharedEntry.call_moves]
    cases call : state.call thread with
    | deleting position deletions =>
      rw [call, ReverseCall.read] at reads
      split at reads
      · obtain rfl := Option.some.inj reads
        simp only [ReverseCall.left]
        omega
      · obtain rfl := Option.some.inj reads
        simp only [ReverseCall.left]
        omega
    | inserting deletions position insertions =>
      rw [call, ReverseCall.read] at reads
      obtain ⟨inside, same⟩ := Option.ite_none_right_eq_some.mp reads
      obtain rfl := Option.some.inj same
      simp only [ReverseCall.left]
      omega
    | _ =>
      rw [call] at reads
      cases reads
  | build listed whole does =>
    cases own
    rw [SharedEntry.builds, SharedEntry.call_moves, listed]
    exact Nat.lt_of_lt_of_le (Nat.lt_succ_self 2) (Nat.le_add_left ..)
  | fail listed whole fails =>
    cases own
    rw [SharedEntry.call_moves, listed]
    exact Nat.succ_pos _
  | set setting =>
    cases own
    rw [SharedEntry.sets, SharedEntry.call_moves, setting]
    exact Nat.lt_succ_self 1
  | ret getting =>
    cases own
    rw [SharedEntry.call_moves, getting]
    exact Nat.lt_succ_self 0

/-- What a step does to the call that takes it. -/
theorem call_cases (moved : ReverseStep graph parts state action next)
    (own : action.thread = some thread) :
    next.call thread = state.call thread ∧ next = state ∨
    (next.call thread).Reads ∨
    action.Ends thread ∧ next.call thread = .idle ∨
    next.call thread = .setting state.built.length ∧ state.built.length < next.built.length ∨
    ∃ ref, state.call thread = .setting ref ∧ next.call thread = .getting ref ∧
      next.reverse.isSome = true := by
  cases moved with
  | write op => cases own
  | hit idle full => exact .inl ⟨rfl, rfl⟩
  | miss idle empty =>
    cases own
    refine .inr (.inl ?_)
    rw [SharedEntry.call_moves]
    trivial
  | read reads =>
    cases own
    refine .inr (.inl ?_)
    rw [SharedEntry.call_moves]
    exact (ReverseCall.reads_of_read reads).2
  | build listed whole does =>
    cases own
    refine .inr (.inr (.inr (.inl ⟨SharedEntry.call_moves _, ?_⟩)))
    rw [SharedEntry.builds, List.length_append]
    exact Nat.lt_succ_self _
  | fail listed whole fails =>
    cases own
    exact .inr (.inr (.inl ⟨rfl, SharedEntry.call_moves _⟩))
  | set setting =>
    cases own
    exact .inr (.inr (.inr (.inr ⟨_, setting, SharedEntry.call_moves _, rfl⟩)))
  | ret getting =>
    cases own
    exact .inr (.inr (.inl ⟨rfl, SharedEntry.call_moves _⟩))

/-- A call that is under way stays so until it ends. -/
theorem busy (moved : ReverseStep graph parts state action next)
    (continues : ¬ action.Ends thread) (busy : state.call thread ≠ .idle) :
    next.call thread ≠ .idle := by
  by_cases own : action.thread = some thread
  · intro idle
    rcases moved.call_cases own with ⟨same, -⟩ | reads | ⟨ends, -⟩ | ⟨setting, -⟩ |
      ⟨ref, -, getting, -⟩
    · exact busy (same ▸ idle)
    · rw [idle] at reads
      exact reads
    · exact continues ends
    · cases setting.symm.trans idle
    · cases getting.symm.trans idle
  · rwa [moved.call_of_ne own]

/-- A call that is under way has a step, whatever the others do. -/
theorem exists_of_busy (graph : CsrGraph) (parts : DeltaHalf → MapParts)
    (busy : state.call thread ≠ .idle) : ∃ action next,
      action.thread = some thread ∧ ReverseStep graph parts state action next := by
  cases call : state.call thread with
  | idle => exact absurd call busy
  | deleting position deletions =>
    obtain ⟨after, reads⟩ : ∃ after, (state.call thread).read parts state.delta = some after := by
      rw [call, ReverseCall.read]
      split
      · exact ⟨_, rfl⟩
      · exact ⟨_, rfl⟩
    exact ⟨_, _, rfl, .read reads⟩
  | inserting deletions position insertions =>
    by_cases inside : position < (parts .insertions).count
    · have reads : (state.call thread).read parts state.delta =
          some (.inserting deletions (position + 1)
            (insertions ++ state.delta.insertionsIn parts position)) := by
        rw [call, ReverseCall.read, if_pos inside]
      exact ⟨_, _, rfl, .read reads⟩
    · cases outcome : graph.transposeFrom deletions insertions with
      | ok reverse => exact ⟨_, _, rfl, .build call (Nat.le_of_not_lt inside) outcome⟩
      | error fault => exact ⟨_, _, rfl, .fail call (Nat.le_of_not_lt inside) outcome⟩
  | setting ref => exact ⟨_, _, rfl, .set call⟩
  | getting ref => exact ⟨_, _, rfl, .ret call⟩

end ReverseStep

/-! ## The cell -/

/-- What holds of the references after some steps. -/
structure SharedEntry.Agrees (actions : List (ReverseAction Thread)) (state : SharedEntry Thread) :
    Prop where
  /-- Every call that has returned has returned what the cell holds. -/
  returned : ∀ action ∈ actions, ∀ ref, action.Returns ref → state.reverse = some ref
  stored : ∀ ref, state.reverse = some ref → ref < state.built.length
  offered : ∀ thread ref, state.call thread = .setting ref ∨ state.call thread = .getting ref →
    ref < state.built.length
  /-- The cell is full when a call reads it again. -/
  full : ∀ thread ref, state.call thread = .getting ref → state.reverse.isSome = true

omit [DecidableEq Thread] in
theorem SharedEntry.agrees_new : (SharedEntry.new delta prebuilt : SharedEntry Thread).Agrees [] where
  returned := by simp
  stored := by
    intro ref
    cases prebuilt with
    | none => nofun
    | some graph =>
      rintro ⟨⟩
      exact Nat.zero_lt_one
  offered := by
    rintro thread ref (setting | getting)
    · cases setting
    · cases getting
  full := by
    rintro thread ref ⟨⟩

namespace ReverseStep

/-- What a call returns is what the cell holds then. -/
theorem reverse_of_returns (moved : ReverseStep graph parts state action next)
    (agrees : state.Agrees actions) (returns : action.Returns ref) :
    next.reverse = some ref := by
  cases moved with
  | hit idle full =>
    obtain rfl := returns
    exact full
  | ret getting =>
    obtain rfl := returns
    obtain ⟨held, holds⟩ := Option.isSome_iff_exists.mp (agrees.full _ _ getting)
    rw [SharedEntry.moves, holds, Option.getD_some]
  | _ => exact returns.elim

/-- A reference that a call holds is that of a graph. -/
theorem offered (moved : ReverseStep graph parts state action next) (agrees : state.Agrees actions)
    (holds : next.call thread = .setting ref ∨ next.call thread = .getting ref) :
    ref < next.built.length := by
  have longer : state.built.length ≤ next.built.length := moved.built_prefix.length_le
  by_cases own : action.thread = some thread
  · rcases moved.call_cases own with ⟨same, -⟩ | reads | ⟨-, idle⟩ | ⟨setting, built⟩ |
      ⟨offer, setting, getting, -⟩
    · exact (agrees.offered _ _ (same ▸ holds)).trans_le longer
    · rcases holds with holds | holds
      · rw [holds] at reads
        exact reads.elim
      · rw [holds] at reads
        exact reads.elim
    · rw [idle] at holds
      rcases holds with holds | holds <;> cases holds
    · rw [setting] at holds
      rcases holds with holds | holds <;> cases holds
      exact built
    · rw [getting] at holds
      rcases holds with holds | holds <;> cases holds
      exact (agrees.offered _ _ (.inl setting)).trans_le longer
  · rw [moved.call_of_ne own] at holds
    exact (agrees.offered _ _ holds).trans_le longer

/-- The cell is full when a call reads it again. -/
theorem full (moved : ReverseStep graph parts state action next) (agrees : state.Agrees actions)
    (getting : next.call thread = .getting ref) : next.reverse.isSome = true := by
  have stays : ∀ ref, state.call thread = .getting ref → next.reverse.isSome = true := by
    intro ref getting
    obtain ⟨held, holds⟩ := Option.isSome_iff_exists.mp (agrees.full _ _ getting)
    exact Option.isSome_iff_exists.mpr ⟨held, moved.reverse_of_full holds⟩
  by_cases own : action.thread = some thread
  · rcases moved.call_cases own with ⟨same, -⟩ | reads | ⟨-, idle⟩ | ⟨setting, -⟩ |
      ⟨offer, -, -, written⟩
    · exact stays ref (same ▸ getting)
    · rw [getting] at reads
      exact reads.elim
    · cases idle.symm.trans getting
    · cases setting.symm.trans getting
    · exact written
  · exact stays ref (moved.call_of_ne own ▸ getting)

/-- **A step of a writer or of a call keeps the agreement.** -/
theorem agrees (moved : ReverseStep graph parts state action next)
    (agrees : state.Agrees actions) : next.Agrees (actions ++ [action]) where
  returned := by
    intro one member ref returns
    rcases List.mem_append.mp member with early | last
    · exact moved.reverse_of_full (agrees.returned one early ref returns)
    · obtain rfl := List.mem_singleton.mp last
      exact moved.reverse_of_returns agrees returns
  stored := by
    intro ref holds
    refine lt_of_lt_of_le ?_ moved.built_prefix.length_le
    cases moved with
    | @set thread offer setting =>
      have taken : some (state.reverse.getD offer) = some ref := holds
      obtain rfl := Option.some.inj taken
      cases cell : state.reverse with
      | none => exact agrees.offered _ _ (.inl setting)
      | some held => exact agrees.stored held cell
    | _ => exact agrees.stored ref holds
  offered := fun _ _ holds => moved.offered agrees holds
  full := fun _ _ getting => moved.full agrees getting

end ReverseStep

/-- The steps of a call since it found the cell empty. -/
theorem ReverseStep.left_add_of_run {during : List (ReverseAction Thread)}
    (run : Run (ReverseStep graph parts) state during next)
    (continues : ∀ action ∈ during, ¬ action.Ends thread) (busy : state.call thread ≠ .idle) :
    next.call thread ≠ .idle ∧
      (next.call thread).left parts + during.countP (fun action => decide (action.thread = some thread))
        ≤ (state.call thread).left parts := by
  induction run with
  | start => exact ⟨busy, le_rfl⟩
  | @step during state after action before moved ih =>
      obtain ⟨stillBusy, bound⟩ := ih fun action member =>
        continues action (List.mem_append_left _ member)
      refine ⟨moved.busy (continues action (List.mem_append_right _ List.mem_cons_self)) stillBusy, ?_⟩
      rw [List.countP_append, List.countP_singleton]
      by_cases own : action.thread = some thread
      · have closer := moved.left_lt own stillBusy
        rw [if_pos (decide_eq_true own)]
        omega
      · rw [moved.call_of_ne own, if_neg (by simpa using own)]
        exact bound

/-! ## The window of a build -/

/-- What a call knows that lists the delta layer beside writers. -/
def ReverseCall.Holds (base : BaseLayer) (parts : DeltaHalf → MapParts)
    (always sometimes : ℕ → ℕ → Prop) : ReverseCall → Prop
  | .deleting next deletions =>
    (∀ u w, (u, w) ∈ deletions → ¬ always u w) ∧
      ∀ u w, w ∈ base.targets u → (parts .deletions).part (u, w) < next →
        (u, w) ∈ deletions ∨ sometimes u w
  | .inserting deletions next insertions =>
    (∀ u w, (u, w) ∈ deletions → ¬ always u w) ∧
      (∀ u w, w ∈ base.targets u → (u, w) ∈ deletions ∨ sometimes u w) ∧
      (∀ u w, (u, w) ∈ insertions.map Prod.fst → sometimes u w) ∧
      ∀ u w, always u w → (parts .insertions).part (u, w) < next →
        (u, w) ∈ insertions.map Prod.fst ∨ w ∈ base.targets u
  | _ => True

section Windows

variable {always sometimes : ℕ → ℕ → Prop} {call after : ReverseCall}

theorem ReverseCall.Holds.mono (holds : call.Holds base parts always sometimes)
    {always' sometimes' : ℕ → ℕ → Prop} (fewer : ∀ u w, always' u w → always u w)
    (more : ∀ u w, sometimes u w → sometimes' u w) : call.Holds base parts always' sometimes' := by
  cases call with
  | deleting next deletions =>
    obtain ⟨gone, passed⟩ := holds
    exact ⟨fun u w listed stays => gone u w listed (fewer u w stays),
      fun u w target early => (passed u w target early).imp_right (more u w)⟩
  | inserting deletions next insertions =>
    obtain ⟨gone, passed, edges, complete⟩ := holds
    exact ⟨fun u w listed stays => gone u w listed (fewer u w stays),
      fun u w target => (passed u w target).imp_right (more u w),
      fun u w listed => more u w (edges u w listed),
      fun u w stays early => complete u w (fewer u w stays) early⟩
  | _ => trivial

/-- **A step that lists the delta layer at some moment keeps what the call knows.** -/
theorem ReverseCall.Holds.read (holds : call.Holds base parts always sometimes)
    (sees : Sees base always sometimes delta) (reads : call.read parts delta = some after) :
    after.Holds base parts always sometimes := by
  cases call with
  | deleting next deletions =>
    obtain ⟨gone, passed⟩ := holds
    rw [ReverseCall.read] at reads
    split at reads
    · obtain rfl := Option.some.inj reads
      constructor
      · intro u w listed stays
        rcases List.mem_append.mp listed with early | here
        · exact gone u w early stays
        · exact (sees.present u w stays).1 (DeltaLayer.mem_keysIn_deletions.mp here).1
      · intro u w target early
        rcases Nat.lt_succ_iff_lt_or_eq.mp early with earlier | here
        · exact (passed u w target earlier).imp_left (List.mem_append_left _)
        · by_cases deleted : (u, w) ∈ delta.deletions
          · refine .inl (List.mem_append_right _ ?_)
            exact DeltaLayer.mem_keysIn_deletions.mpr ⟨deleted, here⟩
          · exact .inr (sees.listed_of_target target deleted)
    · next outside =>
      obtain rfl := Option.some.inj reads
      refine ⟨gone, fun u w target => passed u w target ?_, by simp, by simp⟩
      exact ((parts .deletions).inside _).trans_le (Nat.le_of_not_lt outside)
  | inserting deletions next insertions =>
    obtain ⟨gone, passed, edges, complete⟩ := holds
    rw [ReverseCall.read] at reads
    obtain ⟨inside, same⟩ := Option.ite_none_right_eq_some.mp reads
    obtain rfl := Option.some.inj same
    refine ⟨gone, passed, fun u w listed => ?_, fun u w stays early => ?_⟩
    · rw [List.map_append] at listed
      rcases List.mem_append.mp listed with early | here
      · exact edges u w early
      · exact sees.listed_of_inserted (DeltaLayer.mem_map_insertionsIn.mp here).1
    · rw [List.map_append, List.mem_append]
      rcases Nat.lt_succ_iff_lt_or_eq.mp early with earlier | here
      · exact (complete u w stays earlier).imp_left .inl
      · by_cases inserted : (u, w) ∈ delta.insertions
        · exact .inl (.inr (DeltaLayer.mem_map_insertionsIn.mpr ⟨inserted, here⟩))
        · exact .inr (sees.target_of_notMem stays inserted)
  | _ => cases reads

/-- What is built from the lists of a call turns the edges around. -/
theorem CsrGraph.Stores.turns_of_holds (stores : graph.Stores base) {start : DeltaLayer}
    {writes : List MapOp} {deletions : List EdgeKey} {next : ℕ}
    {insertions : List (EdgeKey × EdgeData)} {reverse : CsrGraph}
    (holds : (ReverseCall.inserting deletions next insertions).Holds base parts
      (graph.HasAlways start writes) (graph.ListsSometime start writes))
    (whole : (parts .insertions).count ≤ next)
    (does : graph.transposeFrom deletions insertions = .ok reverse) :
    reverse.Turns graph start writes := by
  obtain ⟨gone, passed, edges, complete⟩ := holds
  refine ⟨(stores.transposeFrom_records does).1, fun u w stays => ?_, fun u w edge => ?_⟩
  · rw [stores.edge_transposeFrom does]
    by_cases target : w ∈ base.targets u
    · exact .inl ⟨target, fun listed => gone u w listed stays⟩
    · refine .inr ⟨target, (complete u w stays ?_).resolve_right target⟩
      exact ((parts .insertions).inside _).trans_le whole
  · rcases (stores.edge_transposeFrom does u w).mp edge with ⟨target, live⟩ | ⟨-, inserted⟩
    · exact (passed u w target).resolve_left live
    · exact edges u w inserted

end Windows

/-- The steps end in a window of the call: since it found the cell empty, it has listed. -/
structure EndInWindow (thread : Thread) (actions before during : List (ReverseAction Thread)) :
    Prop where
  whole : actions = before ++ .miss thread :: during
  only : ∀ action ∈ during, action.thread = some thread → action = .read thread

/-- A call has built the graph in a window of the steps, and the graph turns around what
the call read there. -/
def BuiltInWindow (graph : CsrGraph) (start : DeltaLayer) (actions : List (ReverseAction Thread))
    (ref : GraphRef) (reverse : CsrGraph) : Prop :=
  ∃ thread before during rest, actions =
      before ++ .miss thread :: (during ++ .build thread ref :: rest) ∧
    (∀ action ∈ during, action.thread = some thread → action = .read thread) ∧
    reverse.Turns graph (MapOp.runAll (ReverseAction.writes before) start)
      (ReverseAction.writes during)

/-- What holds of an entry after some steps from its registration. -/
structure SharedEntry.Tracks (graph : CsrGraph) (base : BaseLayer) (parts : DeltaHalf → MapParts)
    (start : DeltaLayer) (prebuilt : Option CsrGraph) (actions : List (ReverseAction Thread))
    (state : SharedEntry Thread) : Prop where
  delta : state.delta = MapOp.runAll (ReverseAction.writes actions) start
  calls : ∀ thread, (state.call thread).Reads → ∃ before during,
    EndInWindow thread actions before during ∧ (state.call thread).Holds base parts
      (graph.HasAlways (MapOp.runAll (ReverseAction.writes before) start)
        (ReverseAction.writes during))
      (graph.ListsSometime (MapOp.runAll (ReverseAction.writes before) start)
        (ReverseAction.writes during))
  built : ∀ ref reverse, state.built[ref]? = some reverse →
    prebuilt = some reverse ∨ BuiltInWindow graph start actions ref reverse

section Windows

variable {start : DeltaLayer} {before during : List (ReverseAction Thread)} {reverse : CsrGraph}

omit [DecidableEq Thread] in
theorem EndInWindow.snoc (window : EndInWindow thread actions before during)
    (allowed : action.thread = some thread → action = .read thread) :
    EndInWindow thread (actions ++ [action]) before (during ++ [action]) where
  whole := by rw [window.whole, List.append_assoc, List.cons_append]
  only := by
    intro one member own
    rcases List.mem_append.mp member with early | last
    · exact window.only one early own
    · obtain rfl := List.mem_singleton.mp last
      exact allowed own

omit [DecidableEq Thread] in
theorem BuiltInWindow.snoc (built : BuiltInWindow graph start actions ref reverse) :
    BuiltInWindow graph start (actions ++ [action]) ref reverse := by
  obtain ⟨thread, before, during, rest, whole, only, turns⟩ := built
  refine ⟨thread, before, during, rest ++ [action], ?_, only, turns⟩
  rw [whole]
  simp

omit [DecidableEq Thread] in
theorem ReverseAction.writes_prefix (actions : List (ReverseAction Thread))
    (action : ReverseAction Thread) : writes actions <+: writes (actions ++ [action]) := by
  rw [writes, writes, List.filterMap_append]
  exact List.prefix_append ..

omit [DecidableEq Thread] in
/-- The writes of a window lead from the layer before it to the layer now. -/
theorem SharedEntry.Tracks.moment (tracks : state.Tracks graph base parts start prebuilt actions)
    (window : EndInWindow thread actions before during) :
    AtSomeMoment (MapOp.runAll (ReverseAction.writes before) start)
      (ReverseAction.writes during) state.delta := by
  refine ⟨_, List.prefix_refl _, ?_⟩
  rw [tracks.delta, window.whole, ReverseAction.writes, List.filterMap_append, MapOp.runAll,
    List.foldl_append]
  rfl

theorem ReverseStep.delta_eq (moved : ReverseStep graph parts state action next)
    (same : state.delta = MapOp.runAll (ReverseAction.writes actions) start) :
    next.delta = MapOp.runAll (ReverseAction.writes (actions ++ [action])) start := by
  rw [ReverseAction.writes, List.filterMap_append, MapOp.runAll, List.foldl_append]
  change next.delta = List.foldl MapOp.run (MapOp.runAll (ReverseAction.writes actions) start) _
  rw [← same]
  cases moved <;> rfl

/-- **A step keeps what is known of the windows.** -/
theorem ReverseStep.tracks (stores : graph.Stores base)
    (moved : ReverseStep graph parts state action next)
    (tracks : state.Tracks graph base parts start prebuilt actions) :
    next.Tracks graph base parts start prebuilt (actions ++ [action]) where
  delta := moved.delta_eq tracks.delta
  calls := by
    -- a window that goes on: what the call knows stays, since the moments only become more
    have goesOn : ∀ {thread before during} {call : ReverseCall},
        EndInWindow thread actions before during →
        (action.thread = some thread → action = .read thread) → call.Holds base parts
          (graph.HasAlways (MapOp.runAll (ReverseAction.writes before) start)
            (ReverseAction.writes during))
          (graph.ListsSometime (MapOp.runAll (ReverseAction.writes before) start)
            (ReverseAction.writes during)) →
        ∃ before during, EndInWindow thread (actions ++ [action]) before during ∧
          call.Holds base parts
            (graph.HasAlways (MapOp.runAll (ReverseAction.writes before) start)
              (ReverseAction.writes during))
            (graph.ListsSometime (MapOp.runAll (ReverseAction.writes before) start)
              (ReverseAction.writes during)) := by
      intro thread before during call window allowed holds
      refine ⟨before, during ++ [action], window.snoc allowed, holds.mono ?_ ?_⟩
      · exact fun _ _ => CsrGraph.HasAlways.earlier (ReverseAction.writes_prefix ..)
      · exact fun _ _ => CsrGraph.ListsSometime.later (ReverseAction.writes_prefix ..)
    intro thread reading
    by_cases own : action.thread = some thread
    · cases moved with
      | write op => cases own
      | hit idle full =>
        cases own
        rw [idle] at reading
        exact reading.elim
      | miss idle empty =>
        cases own
        refine ⟨actions, [], ⟨rfl, by simp⟩, ?_⟩
        rw [SharedEntry.call_moves]
        exact ⟨by simp, fun _ _ _ early => absurd early (Nat.not_lt_zero _)⟩
      | read reads =>
        cases own
        obtain ⟨before, during, window, holds⟩ :=
          tracks.calls thread (ReverseCall.reads_of_read reads).1
        rw [SharedEntry.call_moves]
        exact goesOn window (fun _ => rfl) (holds.read ((tracks.moment window).sees stores) reads)
      | build listed whole does =>
        cases own
        rw [SharedEntry.builds, SharedEntry.call_moves] at reading
        exact reading.elim
      | fail listed whole fails =>
        cases own
        rw [SharedEntry.call_moves] at reading
        exact reading.elim
      | set setting =>
        cases own
        rw [SharedEntry.sets, SharedEntry.call_moves] at reading
        exact reading.elim
      | ret getting =>
        cases own
        rw [SharedEntry.call_moves] at reading
        exact reading.elim
    · rw [moved.call_of_ne own] at reading ⊢
      obtain ⟨before, during, window, holds⟩ := tracks.calls thread reading
      exact goesOn window (fun same => absurd same own) holds
  built := by
    have older : ∀ ref reverse, state.built[ref]? = some reverse →
        prebuilt = some reverse ∨ BuiltInWindow graph start (actions ++ [action]) ref reverse :=
      fun ref reverse found => (tracks.built ref reverse found).imp_right .snoc
    intro ref reverse found
    cases moved with
    | @build thread deletions position insertions fresh listed whole does =>
      rw [SharedEntry.builds, List.getElem?_append] at found
      split at found
      · exact older ref reverse found
      · next outside =>
        rw [List.getElem?_singleton] at found
        obtain ⟨last, same⟩ := Option.ite_none_right_eq_some.mp found
        obtain rfl := Option.some.inj same
        obtain rfl : ref = state.built.length :=
          Nat.le_antisymm (Nat.sub_eq_zero_iff_le.mp last) (Nat.le_of_not_lt outside)
        obtain ⟨before, during, window, holds⟩ :=
          tracks.calls thread (by rw [listed]; trivial)
        rw [listed] at holds
        refine .inr ⟨thread, before, during, [], ?_, window.only,
          stores.turns_of_holds holds whole does⟩
        rw [window.whole]
        simp
    | _ => exact older ref reverse found

end Windows

/-! ## Runs -/

/-- **All calls of `reverse` return one transpose, and none waits for another.** In every
interleaving of any number of calls with writers, from the registration of the entry:
every call that has returned a transpose has returned the one that the cell holds now; a
call that is under way can take its next step; and a call ends within a number of its own
steps that depends on the hash maps alone. -/
theorem reverse_calls_agree
    (run : Run (ReverseStep graph parts) (SharedEntry.new delta prebuilt) actions state) :
    (∀ action ∈ actions, ∀ ref, action.Returns ref →
      state.reverse = some ref ∧ ref < state.built.length) ∧
    (∀ thread, state.call thread ≠ .idle → ∃ action next,
      action.thread = some thread ∧ ReverseStep graph parts state action next) ∧
    ∀ thread before during, actions = before ++ .miss thread :: during →
      (∀ action ∈ during, ¬ action.Ends thread) →
        during.countP (fun action => decide (action.thread = some thread)) <
          (parts .deletions).count + (parts .insertions).count + 4 := by
  refine ⟨fun action member ref returns => ?_, fun thread => ReverseStep.exists_of_busy _ _, ?_⟩
  · have agrees := run.invariant SharedEntry.Agrees SharedEntry.agrees_new
      fun _ agrees moved => moved.agrees agrees
    have held := agrees.returned action member ref returns
    exact ⟨held, agrees.stored ref held⟩
  · rintro thread before during rfl continues
    obtain ⟨middle, after, -, missed, rest⟩ := run.split
    have called : after.call thread = .deleting 0 [] := by
      cases missed
      exact SharedEntry.call_moves _
    obtain ⟨busy, bound⟩ := ReverseStep.left_add_of_run rest continues (by rw [called]; nofun)
    have ahead : 0 < (state.call thread).left parts := by
      cases call : state.call thread with
      | idle => exact absurd call busy
      | _ => exact Nat.succ_pos _
    rw [called, ReverseCall.left, Nat.sub_zero] at bound
    omega

/-- **What a call of `reverse` returns beside writers.** In every interleaving of any number
of calls with writers, what a call returns is the transpose that the entry was registered
with, or one that some call has built since it found the cell empty: it turns around what
the graph had at every moment of that window, and only what the graph listed at some moment
of it. -/
theorem racing_transpose_between (reachable : graph.Reachable)
    (run : Run (ReverseStep graph parts) (SharedEntry.new delta prebuilt) actions state)
    (returned : ∃ action ∈ actions, action.Returns ref) :
    ∃ reverse, state.built[ref]? = some reverse ∧
      (prebuilt = some reverse ∨ BuiltInWindow graph delta actions ref reverse) := by
  obtain ⟨base, stores⟩ := reachable.stores
  obtain ⟨action, member, returns⟩ := returned
  have agrees := run.invariant SharedEntry.Agrees SharedEntry.agrees_new
    fun _ agrees moved => moved.agrees agrees
  have inUse := agrees.stored ref (agrees.returned action member ref returns)
  refine ⟨state.built[ref], List.getElem?_eq_getElem inUse, ?_⟩
  have tracks := run.invariant (SharedEntry.Tracks graph base parts delta prebuilt) ?_
    fun _ tracks moved => moved.tracks stores tracks
  · exact tracks.built ref _ (List.getElem?_eq_getElem inUse)
  · refine ⟨rfl, fun thread reading => reading.elim, fun ref reverse found => .inl ?_⟩
    exact Option.mem_toList.mp (List.mem_of_getElem? found)

end Steps

/-! ## A run -/

namespace RacingTransposeSample

open CsrGraph

/-- Takes a step, unless it is a build that fails. -/
def next (graph : CsrGraph) (parts : DeltaHalf → MapParts) (state : SharedEntry ℕ) :
    ReverseAction ℕ → Option (SharedEntry ℕ)
  | .write op => some { state with delta := op.run state.delta }
  | .hit thread ref =>
    match state.call thread with
    | .idle => if state.reverse = some ref then some state else none
    | _ => none
  | .miss thread =>
    match state.call thread, state.reverse with
    | .idle, none => some (state.moves thread (.deleting 0 []))
    | _, _ => none
  | .read thread => ((state.call thread).read parts state.delta).map (state.moves thread)
  | .build thread ref =>
    match state.call thread with
    | .inserting deletions next insertions =>
      if (parts .insertions).count ≤ next ∧ ref = state.built.length then
        (graph.transposeFrom deletions insertions).toOption.map (state.builds thread)
      else none
    | _ => none
  | .fail _ _ => none
  | .set thread =>
    match state.call thread with
    | .setting ref => some (state.sets thread ref)
    | _ => none
  | .ret thread ref =>
    match state.call thread with
    | .getting offer =>
      if state.reverse.getD offer = ref then some (state.moves thread .idle) else none
    | _ => none

/-- The steps that are taken are steps. -/
theorem step_of_next {graph : CsrGraph} {parts : DeltaHalf → MapParts} (state : SharedEntry ℕ)
    (action : ReverseAction ℕ) (after : SharedEntry ℕ)
    (taken : next graph parts state action = some after) :
    ReverseStep graph parts state action after := by
  cases action with
  | write op =>
    obtain rfl := Option.some.inj taken
    exact .write op
  | hit thread ref =>
    rw [next] at taken
    split at taken
    · next idle =>
      obtain ⟨full, same⟩ := Option.ite_none_right_eq_some.mp taken
      obtain rfl := Option.some.inj same
      exact .hit idle full
    · cases taken
  | miss thread =>
    rw [next] at taken
    split at taken
    · next idle empty =>
      obtain rfl := Option.some.inj taken
      exact .miss idle empty
    · cases taken
  | read thread =>
    obtain ⟨call, reads, rfl⟩ := Option.map_eq_some_iff.mp taken
    exact .read reads
  | build thread ref =>
    rw [next] at taken
    split at taken
    · next deletions position insertions listed =>
      obtain ⟨⟨whole, rfl⟩, does⟩ := Option.ite_none_right_eq_some.mp taken
      obtain ⟨reverse, built, rfl⟩ := Option.map_eq_some_iff.mp does
      cases outcome : graph.transposeFrom deletions insertions with
      | error fault => simp [outcome, Except.toOption] at built
      | ok found =>
        rw [outcome] at built
        obtain rfl : found = reverse := Option.some.inj built
        exact .build listed whole outcome
    · cases taken
  | fail thread fault => cases taken
  | set thread =>
    rw [next] at taken
    split at taken
    · next ref setting =>
      obtain rfl := Option.some.inj taken
      exact .set setting
    · cases taken
  | ret thread ref =>
    rw [next] at taken
    split at taken
    · next offer getting =>
      obtain ⟨rfl, same⟩ := Option.ite_none_right_eq_some.mp taken
      obtain rfl := Option.some.inj same
      exact .ret getting
    · cases taken

/-- The hash maps have one part. -/
def parts : DeltaHalf → MapParts := fun _ =>
  { count := 1, part := fun _ => 0, inside := fun _ => Nat.zero_lt_one }

/-- Two calls build a transpose each, and an edge is deleted after the first has listed the
tombstones. The second offers its own first. -/
def actions : List (ReverseAction ℕ) :=
  [.miss 0, .miss 1, .read 0, .read 0, .write (.putTombstone (0, 1)), .read 0, .build 0 0,
    .read 1, .read 1, .read 1, .build 1 1, .set 1, .set 0, .ret 0 1, .hit 2 1, .ret 1 1]

theorem exists_run : ∃ graph state, graph.Reachable ∧
    Run (ReverseStep graph parts) (SharedEntry.new .new none) actions state := by
  have plays : (buildAndMutate [(0, 1), (1, 2)] []).toOption.any (fun graph =>
      (actions.foldlM (next graph parts) (SharedEntry.new .new none)).isSome) = true := by
    decide +kernel
  cases built : buildAndMutate [(0, 1), (1, 2)] [] with
  | error fault => simp [built, Except.toOption] at plays
  | ok graph =>
    rw [built] at plays
    obtain ⟨state, played⟩ := Option.isSome_iff_exists.mp plays
    exact ⟨graph, state, Reachable.of_buildAndMutate (by decide) built,
      Run.of_foldlM step_of_next played⟩

end RacingTransposeSample

/-- The three calls return the transpose that was offered first. -/
theorem reverse_calls_agree_witness : ∃ (graph : CsrGraph) (state : SharedEntry ℕ),
    Run (ReverseStep graph RacingTransposeSample.parts) (SharedEntry.new .new none)
      RacingTransposeSample.actions state ∧ state.reverse = some 1 := by
  obtain ⟨graph, state, -, run⟩ := RacingTransposeSample.exists_run
  exact ⟨graph, state, run, ((reverse_calls_agree run).1 (.hit 2 1) (by
    simp [RacingTransposeSample.actions]) 1 rfl).1⟩

/-- The transpose that they return was built in a window of the run. -/
theorem racing_transpose_between_witness :
    ∃ graph reverse, BuiltInWindow graph .new RacingTransposeSample.actions 1 reverse := by
  obtain ⟨graph, state, reachable, run⟩ := RacingTransposeSample.exists_run
  obtain ⟨reverse, -, prebuilt | built⟩ := racing_transpose_between reachable run
    ⟨.hit 2 1, by simp [RacingTransposeSample.actions], rfl⟩
  · cases prebuilt
  · exact ⟨graph, reverse, built⟩

end FusionGraph
