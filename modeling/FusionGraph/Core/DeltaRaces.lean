import FusionGraph.Core.DeltaSteps
import FusionGraph.Foundations.Runs

/-!
# Racing calls on one delta layer

Any number of threads call `insert` and `delete` on one delta layer, in any order
and on any edges. A call takes its edge out of one map and then puts it into the
other, and between these two operations other threads may run. The insertions
and the tombstones stay disjoint as long as an insertion and a deletion of the
same edge do not overlap. Where two such calls do overlap, their second
operations can leave the edge in both maps, and nothing removes it again.
-/

set_option autoImplicit false

namespace FusionGraph

open Foundations

/-! ## Calls on one edge -/

namespace EdgeWrite

variable {delta : DeltaLayer} {write other : EdgeWrite}

/-- The call has put its edge into its own map. -/
def Done (delta : DeltaLayer) : EdgeWrite → Prop
  | insert source target _ => (source, target) ∈ delta.insertions
  | delete source target => (source, target) ∈ delta.deletions

/-- The calls are on different edges, or both insert or both delete. -/
def Apart (write other : EdgeWrite) : Prop := write.key = other.key → (write.Adds ↔ other.Adds)

theorem Apart.symm (apart : write.Apart other) : other.Apart write :=
  fun same => (apart same.symm).symm

theorem Apart.refl (write : EdgeWrite) : write.Apart write := fun _ => Iff.rfl

/-- A first operation only takes edges out, so other calls stay ready. -/
theorem Ready.first (ready : other.Ready delta) (write : EdgeWrite) :
    other.Ready (write.first.run delta) := by
  cases write <;> cases other <;> simp_all [Ready, EdgeWrite.first]

/-- A second operation leaves the calls ready that are apart from it. -/
theorem Ready.second (ready : other.Ready delta) (apart : write.Apart other) :
    other.Ready (write.second.run delta) := by
  cases write <;> cases other <;>
    simp_all [Ready, EdgeWrite.second, Apart, EdgeWrite.key, Adds, eq_comm]

/-- The second operation does the call, and undoes no other. -/
theorem done_second (write : EdgeWrite) (delta : DeltaLayer) :
    write.Done (write.second.run delta) := by
  cases write <;> simp [Done, EdgeWrite.second]

theorem Done.second (done : other.Done delta) (write : EdgeWrite) :
    other.Done (write.second.run delta) := by
  cases write <;> cases other <;> simp_all [Done, EdgeWrite.second]

/-- Two calls that are not apart and both done leave their edge in both maps. -/
theorem not_disjoint_of_done (together : ¬ write.Apart other) (done : write.Done delta)
    (otherDone : other.Done delta) : ¬ delta.Disjoint := by
  rw [Apart, Classical.not_imp] at together
  obtain ⟨same, kinds⟩ := together
  intro disjoint
  cases write <;> cases other <;> simp_all [Done, EdgeWrite.key, Adds]
  · exact disjoint _ done otherDone
  · exact disjoint _ otherDone done

end EdgeWrite

/-! ## Threads -/

/-- A delta layer and the calls in progress: the threads that have done the first
operation of a call and not yet the second. -/
structure SharedDelta (Thread : Type) where
  delta : DeltaLayer
  inProgress : Thread → Option EdgeWrite

/-- One operation of a thread: the first of a call or the second. -/
inductive ThreadOp (Thread : Type) where
  | begin (thread : Thread) (write : EdgeWrite)
  | finish (thread : Thread)

namespace SharedDelta

variable {Thread : Type}

/-- A new delta layer, before any call. -/
def new : SharedDelta Thread where
  delta := .new
  inProgress _ := none

/-- No call is in progress. -/
def Idle (self : SharedDelta Thread) : Prop := ∀ thread, self.inProgress thread = none

/-- A call may start: every call in progress is apart from it. -/
def Admits (self : SharedDelta Thread) (write : EdgeWrite) : Prop :=
  ∀ thread other, self.inProgress thread = some other → write.Apart other

/-- The maps are disjoint, and the calls in progress are ready and pairwise apart. -/
structure Separate (state : SharedDelta Thread) : Prop where
  disjoint : state.delta.Disjoint
  ready : ∀ thread write, state.inProgress thread = some write → write.Ready state.delta
  apart : ∀ thread write other second, state.inProgress thread = some write →
    state.inProgress other = some second → write.Apart second

theorem Separate.of_idle {state : SharedDelta Thread} (idle : state.Idle)
    (disjoint : state.delta.Disjoint) :
    state.Separate where
  disjoint := disjoint
  ready thread write busy := by rw [idle] at busy; cases busy
  apart thread write other second busy := by rw [idle] at busy; cases busy

variable [DecidableEq Thread]

/-- The state after the first operation of a call. -/
def begin (self : SharedDelta Thread) (thread : Thread) (write : EdgeWrite) :
    SharedDelta Thread where
  delta := write.first.run self.delta
  inProgress := Function.update self.inProgress thread (some write)

/-- The state after the second operation of a call. -/
def finish (self : SharedDelta Thread) (thread : Thread) (write : EdgeWrite) :
    SharedDelta Thread where
  delta := write.second.run self.delta
  inProgress := Function.update self.inProgress thread none

section InProgress

variable (state : SharedDelta Thread) (thread : Thread) (write : EdgeWrite)

@[simp] theorem inProgress_begin_self : (state.begin thread write).inProgress thread = some write :=
  Function.update_self ..

@[simp] theorem inProgress_finish_self : (state.finish thread write).inProgress thread = none :=
  Function.update_self ..

variable {thread} {other : Thread} (different : other ≠ thread)
include different

theorem inProgress_begin_of_ne :
    (state.begin thread write).inProgress other = state.inProgress other :=
  Function.update_of_ne different ..

theorem inProgress_finish_of_ne :
    (state.finish thread write).inProgress other = state.inProgress other :=
  Function.update_of_ne different ..

end InProgress

/-- A call that starts and finishes leaves no call in progress behind. -/
theorem Idle.finish_begin {state : SharedDelta Thread} (idle : state.Idle) (thread : Thread)
    (write : EdgeWrite) : ((state.begin thread write).finish thread write).Idle := by
  intro other
  by_cases same : other = thread
  · rw [same, inProgress_finish_self]
  · rw [inProgress_finish_of_ne _ _ same, inProgress_begin_of_ne _ _ same, idle]

/-- A thread between two calls starts one, or a thread in a call finishes it. -/
inductive Step : SharedDelta Thread → ThreadOp Thread → SharedDelta Thread → Prop where
  | begin {state : SharedDelta Thread} {thread : Thread} (write : EdgeWrite)
      (free : state.inProgress thread = none) :
      Step state (.begin thread write) (state.begin thread write)
  | finish {state : SharedDelta Thread} {thread : Thread} {write : EdgeWrite}
      (busy : state.inProgress thread = some write) :
      Step state (.finish thread) (state.finish thread write)

/-- A step that starts no call while a call of the other kind on the same edge is
in progress. -/
def ApartStep (state : SharedDelta Thread) (op : ThreadOp Thread) (next : SharedDelta Thread) :
    Prop :=
  Step state op next ∧ ∀ thread write, op = .begin thread write → state.Admits write

/-! ## Runs without overlap -/

variable {start state next : SharedDelta Thread} {actions : List (ThreadOp Thread)}

/-- The calls in progress after a call has started. -/
theorem inProgress_begin {thread other : Thread} {write found : EdgeWrite}
    (busy : (state.begin thread write).inProgress other = some found) :
    found = write ∨ state.inProgress other = some found := by
  by_cases same : other = thread
  · rw [same, inProgress_begin_self] at busy
    exact .inl (Option.some.inj busy).symm
  · rw [inProgress_begin_of_ne _ _ same] at busy
    exact .inr busy

/-- The calls in progress after a call has finished were in progress before. -/
theorem inProgress_finish {thread other : Thread} {write found : EdgeWrite}
    (busy : (state.finish thread write).inProgress other = some found) :
    state.inProgress other = some found := by
  by_cases same : other = thread
  · rw [same, inProgress_finish_self] at busy
    cases busy
  · rwa [inProgress_finish_of_ne _ _ same] at busy

/-- **A step without overlap keeps the maps disjoint.** -/
theorem Separate.step {op : ThreadOp Thread} (separate : state.Separate)
    (moved : ApartStep state op next) : next.Separate := by
  obtain ⟨moved, admits⟩ := moved
  cases moved with
  | @begin thread write free =>
      have allowed := admits thread write rfl
      obtain ⟨disjoint, ready⟩ := EdgeWrite.disjoint_first separate.disjoint write
      refine ⟨disjoint, fun other found busy => ?_, fun one first two second busy both => ?_⟩
      · rcases inProgress_begin busy with rfl | before
        · exact ready
        · exact (separate.ready other found before).first write
      · rcases inProgress_begin busy with rfl | before
        · rcases inProgress_begin both with rfl | earlier
          · exact .refl _
          · exact allowed two second earlier
        · rcases inProgress_begin both with rfl | earlier
          · exact (allowed one first before).symm
          · exact separate.apart one first two second before earlier
  | @finish thread write busy =>
      refine ⟨EdgeWrite.disjoint_second separate.disjoint (separate.ready thread write busy),
        fun other found later => ?_, fun one first two second before earlier => ?_⟩
      · have pending := inProgress_finish later
        exact (separate.ready other found pending).second
          (separate.apart thread write other found busy pending)
      · exact separate.apart one first two second (inProgress_finish before)
          (inProgress_finish earlier)

/-! ## What an overlap leads to -/

/-- In a run from an idle state, finitely many calls are in progress. -/
theorem exists_threads (idle : start.Idle) (run : Run Step start actions state) :
    ∃ threads : List Thread, ∀ thread, state.inProgress thread ≠ none → thread ∈ threads := by
  induction run with
  | start => exact ⟨[], fun thread busy => absurd (idle thread) busy⟩
  | step _ moved ih =>
      obtain ⟨threads, all⟩ := ih
      cases moved with
      | @begin thread write free =>
          refine ⟨thread :: threads, fun other busy => ?_⟩
          by_cases same : other = thread
          · exact same ▸ List.mem_cons_self
          · rw [inProgress_begin_of_ne _ _ same] at busy
            exact List.mem_cons_of_mem thread (all other busy)
      | @finish thread write busy =>
          refine ⟨threads, fun other later => all other fun none => later ?_⟩
          by_cases same : other = thread
          · rw [same, inProgress_finish_self]
          · rwa [inProgress_finish_of_ne _ _ same]

/-- The calls in progress can all finish. Then they are done, and so is every call
that was done before. -/
theorem exists_finished {threads : List Thread}
    (all : ∀ thread, state.inProgress thread ≠ none → thread ∈ threads) :
    ∃ more last, Run Step state more last ∧ last.Idle ∧
      (∀ write : EdgeWrite, write.Done state.delta → write.Done last.delta) ∧
      ∀ thread write, state.inProgress thread = some write → write.Done last.delta := by
  induction threads generalizing state with
  | nil =>
      have idle : state.Idle := fun thread => by
        by_contra busy
        exact List.not_mem_nil (all thread busy)
      refine ⟨[], state, .start, idle, fun write done => done, fun thread write busy => ?_⟩
      rw [idle] at busy
      cases busy
  | cons thread threads ih =>
      cases busy : state.inProgress thread with
      | none =>
          refine ih fun other later => (List.mem_cons.mp (all other later)).resolve_left ?_
          rintro rfl
          exact later busy
      | some write =>
          have fewer : ∀ other, (state.finish thread write).inProgress other ≠ none →
              other ∈ threads := by
            intro other later
            have different : other ≠ thread := by
              rintro rfl
              exact later (inProgress_finish_self ..)
            rw [inProgress_finish_of_ne _ _ different] at later
            exact (List.mem_cons.mp (all other later)).resolve_left different
          obtain ⟨more, last, run, idle, kept, done⟩ := ih fewer
          refine ⟨_, last, .cons (.finish busy) run, idle,
            fun other before => kept other (before.second write), fun other found pending => ?_⟩
          by_cases same : other = thread
          · rw [same, busy] at pending
            obtain rfl := Option.some.inj pending
            exact kept write (write.done_second state.delta)
          · exact done other found (by rwa [inProgress_finish_of_ne _ _ same])

/-- **Insertions and tombstones stay disjoint when no insertion overlaps a deletion
of the same edge**, in every state of the run. A call that starts during one of the
other kind on its edge can lead to a state without calls in progress in which the
edge is in both maps. -/
theorem disjoint_of_apart_calls (idle : start.Idle) (disjoint : start.delta.Disjoint) :
    (∀ actions state, Run ApartStep start actions state → state.delta.Disjoint) ∧
      ∀ actions state, Run Step start actions state → ∀ thread write,
        state.inProgress thread = none → ¬ state.Admits write →
        ∃ more last, Run Step start (actions ++ .begin thread write :: more) last ∧
          last.Idle ∧ ¬ last.delta.Disjoint := by
  constructor
  · intro actions state run
    have separate : state.Separate := run.invariant (fun _ state => state.Separate)
      (.of_idle idle disjoint) fun _ before moved => before.step moved
    exact separate.disjoint
  · intro actions state run thread write free overlap
    rw [Admits, not_forall] at overlap
    obtain ⟨other, overlap⟩ := overlap
    rw [not_forall] at overlap
    obtain ⟨second, overlap⟩ := overlap
    rw [Classical.not_imp] at overlap
    obtain ⟨busy, together⟩ := overlap
    have different : other ≠ thread := by
      rintro rfl
      rw [free] at busy
      cases busy
    have began := run.step (.begin write free)
    obtain ⟨threads, all⟩ := exists_threads idle began
    obtain ⟨more, last, rest, stopped, -, done⟩ := exists_finished all
    refine ⟨more, last, ?_, stopped, ?_⟩
    · rw [List.append_cons]
      exact began.append rest
    · exact EdgeWrite.not_disjoint_of_done together
        (done thread write (inProgress_begin_self ..))
        (done other second ((inProgress_begin_of_ne _ _ different).trans busy))

theorem disjoint_of_apart_calls_witness :
    (∃ state : SharedDelta ℕ, Run ApartStep new [.begin 0 (.insert 0 1 .default), .finish 0,
        .begin 1 (.delete 0 1)] state ∧ state.delta.Disjoint) ∧
      ∃ (more : List (ThreadOp ℕ)) (last : SharedDelta ℕ),
        Run Step new ([.begin 0 (.insert 0 1 .default)] ++ .begin 1 (.delete 0 1) :: more) last ∧
          last.Idle ∧ ¬ last.delta.Disjoint := by
  obtain ⟨kept, broken⟩ := @disjoint_of_apart_calls ℕ _ new (fun _ => rfl) .new
  constructor
  · have inserted : ApartStep (new : SharedDelta ℕ) (.begin 0 (.insert 0 1 .default)) _ :=
      ⟨.begin _ rfl, fun _ _ _ _ _ busy => by cases busy⟩
    have finished : ApartStep _ (.finish 0) _ :=
      ⟨.finish (inProgress_begin_self (new : SharedDelta ℕ) 0 (.insert 0 1 .default)), by simp⟩
    have alone : Idle (((new : SharedDelta ℕ).begin 0 (.insert 0 1 .default)).finish 0
        (.insert 0 1 .default)) := .finish_begin (fun _ => rfl) 0 _
    have deleted : ApartStep _ (.begin 1 (.delete 0 1)) _ :=
      ⟨.begin _ (alone 1), fun _ _ _ thread _ busy => by rw [alone thread] at busy; cases busy⟩
    have run := Run.cons inserted (.cons finished (.cons deleted .start))
    exact ⟨_, run, kept _ _ run⟩
  · refine broken _ _ (Run.start.step (.begin (.insert 0 1 .default) rfl)) 1 (.delete 0 1) ?_
      fun every => ?_
    · rw [inProgress_begin_of_ne _ _ (by decide)]
      rfl
    · exact (every 0 (.insert 0 1 .default) (inProgress_begin_self ..) rfl).mpr trivial

/-- Thread 0 inserts and thread 1 deletes one edge; both have done their first
operation before either does its second. -/
theorem overlapping_calls_keep_both : ∃ state : SharedDelta ℕ,
    Run Step new [.begin 0 (.insert 0 1 .default), .begin 1 (.delete 0 1), .finish 0, .finish 1]
      state ∧
    state.Idle ∧ (0, 1) ∈ state.delta.insertions ∧ (0, 1) ∈ state.delta.deletions := by
  have inserting : Step (new : SharedDelta ℕ) (.begin 0 (.insert 0 1 .default)) _ := .begin _ rfl
  have deleting : Step ((new : SharedDelta ℕ).begin 0 (.insert 0 1 .default))
      (.begin 1 (.delete 0 1)) _ :=
    .begin _ (inProgress_begin_of_ne _ _ (by decide))
  have inserted : Step (((new : SharedDelta ℕ).begin 0 (.insert 0 1 .default)).begin 1
      (.delete 0 1)) (.finish 0) _ :=
    .finish ((inProgress_begin_of_ne _ _ (by decide)).trans (inProgress_begin_self ..))
  have deleted : Step ((((new : SharedDelta ℕ).begin 0 (.insert 0 1 .default)).begin 1
      (.delete 0 1)).finish 0 (.insert 0 1 .default)) (.finish 1) _ :=
    .finish ((inProgress_finish_of_ne _ _ (by decide)).trans (inProgress_begin_self ..))
  refine ⟨_, .cons inserting (.cons deleting (.cons inserted (.cons deleted .start))),
    fun thread => ?_, ?_, ?_⟩
  · by_cases second : thread = 1
    · rw [second, inProgress_finish_self]
    · rw [inProgress_finish_of_ne _ _ second]
      by_cases first : thread = 0
      · rw [first, inProgress_finish_self]
      · rw [inProgress_finish_of_ne _ _ first, inProgress_begin_of_ne _ _ second,
          inProgress_begin_of_ne _ _ first]
        rfl
  · exact (MapOp.mem_insertions_putInsertion ..).mpr (.inl rfl)
  · exact (MapOp.mem_deletions_putTombstone ..).mpr (.inl rfl)

end SharedDelta

end FusionGraph
