import FusionGraph.Foundations.AtomicCalls
import Mathlib.Algebra.GroupWithZero.Nat

/-!
# Linearizable calls

The calls of an implementation take several steps each, and the steps of different threads
interleave. A history is what the threads see: which calls start, and which return with
which answers. It is linearizable when calls that act in one step have the same history,
so that every call takes effect at one moment between its start and its return.

`Ties.linearizable` is the rule for forward simulations. A call that runs is tied to the
answer with which it has acted, if it has. A step of a call can let it act, and the steps
of the other threads keep the tie. `inner_le` bounds the steps that a thread takes, by a
rank that every step of a call lowers.
-/

set_option autoImplicit false

namespace Foundations

namespace AtomicCalls

universe u

variable {State Shared Local Op Answer Thread : Type u}

/-! ## Histories -/

/-- What threads see of a call. -/
inductive Event (Thread Op Answer : Type u) where
  | call (thread : Thread) (op : Op)
  | ret (thread : Thread) (op : Op) (answer : Answer)

/-- What is seen of a step of calls that act in one step. -/
def Action.seen : Action Thread Op Answer → List (Event Thread Op Answer)
  | call thread op => [.call thread op]
  | act _ _ _ => []
  | ret thread op answer => [.ret thread op answer]

/-- The object has a run with this history, when every call acts in one step. -/
def Linearizable [DecidableEq Thread] (object : Object State Op Answer) (state : State)
    (history : List (Event Thread Op Answer)) : Prop :=
  ∃ actions system, Run (Step object) (.start state) actions system ∧
    actions.flatMap Action.seen = history

/-! ## Calls of several steps -/

/-- An object whose calls take several steps: where a call starts, and what its steps do to
what the threads share, until it has an answer. -/
structure Implementation (Shared Local Op Answer : Type u) where
  start : Op → Local
  step : Shared → Local → Shared → Local ⊕ Answer → Prop

/-- How far a thread has got with its call. -/
inductive CallPhase (Local Op Answer : Type u) where
  | idle
  | running (op : Op) (place : Local)
  | answered (op : Op) (answer : Answer)

/-- What the threads share, and the calls in progress. -/
structure Calls (Shared Local Op Answer Thread : Type u) where
  shared : Shared
  phase : Thread → CallPhase Local Op Answer

/-- Before any call. -/
def Calls.start (shared : Shared) : Calls Shared Local Op Answer Thread where
  shared := shared
  phase _ := .idle

/-- A step that is seen, or one inside a call. -/
inductive CallAction (Thread Op Answer : Type u) where
  | event (event : Event Thread Op Answer)
  | inner (thread : Thread)

namespace CallAction

/-- What is seen of a step. -/
def seen : CallAction Thread Op Answer → List (Event Thread Op Answer)
  | event found => [found]
  | inner _ => []

/-- The thread that takes the step. -/
def thread : CallAction Thread Op Answer → Thread
  | event (.call thread _) => thread
  | event (.ret thread _ _) => thread
  | inner thread => thread

end CallAction

/-- The history of a run. -/
def history (actions : List (CallAction Thread Op Answer)) : List (Event Thread Op Answer) :=
  actions.flatMap CallAction.seen

variable [DecidableEq Thread]

/-- The phase after a step of a call. -/
def CallPhase.after (op : Op) : Local ⊕ Answer → CallPhase Local Op Answer
  | .inl place => .running op place
  | .inr answer => .answered op answer

/-- The steps of an implementation. -/
inductive CallStep (impl : Implementation Shared Local Op Answer) :
    Calls Shared Local Op Answer Thread → CallAction Thread Op Answer →
      Calls Shared Local Op Answer Thread → Prop
  | call {calls : Calls Shared Local Op Answer Thread} {thread : Thread} (op : Op)
      (idle : calls.phase thread = .idle) :
      CallStep impl calls (.event (.call thread op))
        { calls with phase := Function.update calls.phase thread (.running op (impl.start op)) }
  | inner {calls : Calls Shared Local Op Answer Thread} {thread : Thread} {op : Op} {place : Local}
      {shared : Shared} {result : Local ⊕ Answer}
      (running : calls.phase thread = .running op place)
      (does : impl.step calls.shared place shared result) :
      CallStep impl calls (.inner thread)
        { shared := shared, phase := Function.update calls.phase thread (.after op result) }
  | ret {calls : Calls Shared Local Op Answer Thread} {thread : Thread} {op : Op} {answer : Answer}
      (answered : calls.phase thread = .answered op answer) :
      CallStep impl calls (.event (.ret thread op answer))
        { calls with phase := Function.update calls.phase thread .idle }

/-- A step of another thread leaves the phase of this one. -/
theorem CallStep.phase_of_ne {impl : Implementation Shared Local Op Answer}
    {calls next : Calls Shared Local Op Answer Thread} {action : CallAction Thread Op Answer}
    (moved : CallStep impl calls action next) {thread : Thread}
    (different : thread ≠ action.thread) : next.phase thread = calls.phase thread := by
  cases moved with
  | call op idle => exact Function.update_of_ne different ..
  | inner running does => exact Function.update_of_ne different ..
  | ret answered => exact Function.update_of_ne different ..

/-! ## Forward simulations -/

/-- A call acts during a step, or the object stays as it is. -/
inductive Acts (object : Object State Op Answer) (op : Op) (state : State) :
    Option Answer → State → Option Answer → Prop
  | not (status : Option Answer) : Acts object op state status state status
  | act {answer : Answer} {next : State} (does : object state (op, answer) next) :
      Acts object op state none next (some answer)

/-- A call goes on and is tied, or it returns the answer with which it has acted. -/
def GoesOn (tied : Local → Option Answer → Prop) (status : Option Answer) : Local ⊕ Answer → Prop
  | .inl place => tied place status
  | .inr answer => status = some answer

/-- What ties the calls of an implementation to calls that act in one step. The steps are
those that the relation allows; `tied` says with which answer a call may have acted. -/
structure Ties (impl : Implementation Shared Local Op Answer) (object : Object State Op Answer)
    (moves : Calls Shared Local Op Answer Thread → CallAction Thread Op Answer →
      Calls Shared Local Op Answer Thread → Prop)
    (sound : Calls Shared Local Op Answer Thread → Prop) (state : Shared → State)
    (tied : Shared → Op → Local → Option Answer → Prop) : Prop where
  steps : ∀ {calls action next}, moves calls action next → CallStep impl calls action next
  keeps : ∀ {calls action next}, sound calls → moves calls action next → sound next
  starts : ∀ shared op, tied shared op (impl.start op) none
  own : ∀ {calls thread next op place status shared result}, sound calls →
    moves calls (.inner thread) next → calls.phase thread = .running op place →
    impl.step calls.shared place shared result → next.shared = shared →
    tied calls.shared op place status → ∃ after,
      Acts object op (state calls.shared) status (state shared) after ∧
        GoesOn (tied shared op) after result
  others : ∀ {calls thread other next op place status}, sound calls →
    moves calls (.inner thread) next → other ≠ thread → calls.phase other = .running op place →
    tied calls.shared op place status → tied next.shared op place status

/-- The phase of a call that acts in one step. -/
def Phase.ofStatus (op : Op) : Option Answer → Phase Op Answer
  | none => .called op
  | some answer => .acted op answer

/-- The phases of a thread match. -/
inductive PhasesTied (tied : Shared → Op → Local → Option Answer → Prop) (shared : Shared) :
    CallPhase Local Op Answer → Phase Op Answer → Prop
  | idle : PhasesTied tied shared .idle .idle
  | running {op : Op} {place : Local} {status : Option Answer}
      (holds : tied shared op place status) :
      PhasesTied tied shared (.running op place) (.ofStatus op status)
  | answered (op : Op) (answer : Answer) :
      PhasesTied tied shared (.answered op answer) (.acted op answer)

namespace PhasesTied

variable {tied : Shared → Op → Local → Option Answer → Prop} {shared : Shared}
  {phase : Phase Op Answer} {op : Op} {place : Local} {answer : Answer}

theorem eq_idle (matched : PhasesTied tied shared .idle phase) : phase = .idle := by
  cases matched
  rfl

theorem eq_acted (matched : PhasesTied tied shared (.answered op answer) phase) :
    phase = .acted op answer := by
  cases matched
  rfl

theorem exists_status (matched : PhasesTied tied shared (.running op place) phase) :
    ∃ status, tied shared op place status ∧ phase = .ofStatus op status := by
  cases matched with
  | running holds => exact ⟨_, holds, rfl⟩

end PhasesTied

/-- The object is in the state that the threads share, and all phases match. -/
structure Matched (sound : Calls Shared Local Op Answer Thread → Prop) (state : Shared → State)
    (tied : Shared → Op → Local → Option Answer → Prop)
    (calls : Calls Shared Local Op Answer Thread) (system : System State Op Answer Thread) : Prop where
  sound : sound calls
  state : system.state = state calls.shared
  phases : ∀ thread, PhasesTied tied calls.shared (calls.phase thread) (system.phase thread)

section Rule

variable {impl : Implementation Shared Local Op Answer} {object : Object State Op Answer}
  {moves : Calls Shared Local Op Answer Thread → CallAction Thread Op Answer →
    Calls Shared Local Op Answer Thread → Prop}
  {sound : Calls Shared Local Op Answer Thread → Prop} {state : Shared → State}
  {tied : Shared → Op → Local → Option Answer → Prop}
  {calls next : Calls Shared Local Op Answer Thread} {action : CallAction Thread Op Answer}
  {system : System State Op Answer Thread} {actions : List (CallAction Thread Op Answer)}
  {shared : Shared}

/-- A change of the object that a call makes, as steps of calls that act in one step. -/
theorem Acts.run {thread : Thread} {op : Op} {status after : Option Answer} {before later : State}
    (acts : Acts object op before status later after) {system : System State Op Answer Thread}
    (here : system.state = before) (phase : system.phase thread = .ofStatus op status) :
    ∃ actions, Run (Step object) system actions
        ⟨later, Function.update system.phase thread (.ofStatus op after)⟩ ∧
      actions.flatMap Action.seen = [] := by
  subst here
  cases acts with
  | not status =>
      refine ⟨[], ?_, rfl⟩
      rw [← phase, Function.update_eq_self]
      exact .start
  | act does => exact ⟨[.act thread op _], .step .start (.act phase does), rfl⟩

/-- **A step of the implementation is matched** by steps of calls that act in one step. -/
theorem Ties.step (ties : Ties impl object moves sound state tied)
    (matched : Matched sound state tied calls system) (moved : moves calls action next) :
    ∃ actions after, Run (Step object) system actions after ∧
      actions.flatMap Action.seen = action.seen ∧ Matched sound state tied next after := by
  have kept := ties.keeps matched.sound moved
  cases ties.steps moved with
  | @call thread op idle =>
      have free := (idle ▸ matched.phases thread).eq_idle
      refine ⟨[.call thread op], _, .step .start (.call op free), rfl, kept, matched.state,
        fun other => ?_⟩
      by_cases same : other = thread
      · subst same
        simpa [Phase.ofStatus] using PhasesTied.running (ties.starts calls.shared op)
      · simpa [same] using matched.phases other
  | @inner thread op place shared result running does =>
      obtain ⟨status, holds, phase⟩ := (running ▸ matched.phases thread).exists_status
      obtain ⟨after, acts, goesOn⟩ := ties.own matched.sound moved running does rfl holds
      obtain ⟨actions, run, unseen⟩ := acts.run matched.state phase
      refine ⟨actions, _, run, unseen, kept, rfl, fun other => ?_⟩
      by_cases same : other = thread
      · subst same
        cases result with
        | inl place => simpa [CallPhase.after] using PhasesTied.running goesOn
        | inr answer =>
            obtain rfl : after = some answer := goesOn
            simpa [CallPhase.after, Phase.ofStatus] using PhasesTied.answered op answer
      · -- the other calls keep their ties
        have phases := matched.phases other
        have stays : ∀ {op place status}, calls.phase other = .running op place →
            tied calls.shared op place status → tied shared op place status :=
          ties.others matched.sound moved same
        simp only [Function.update_of_ne same]
        generalize calls.phase other = found at phases stays
        generalize system.phase other = expected at phases
        cases phases with
        | idle => exact .idle
        | running holds => exact .running (stays rfl holds)
        | answered op answer => exact .answered op answer
  | @ret thread op answer answered =>
      have acted := (answered ▸ matched.phases thread).eq_acted
      refine ⟨[.ret thread op answer], _, .step .start (.ret acted), rfl, kept, matched.state,
        fun other => ?_⟩
      by_cases same : other = thread
      · subst same
        simpa using PhasesTied.idle
      · simpa [same] using matched.phases other

/-- **The rule for linearizability**: the histories of an implementation that is tied to
calls that act in one step are linearizable, and the object ends in the state that the
threads share. -/
theorem Ties.linearizable (ties : Ties impl object moves sound state tied)
    (init : sound (.start shared)) (run : Run moves (.start shared) actions calls) :
    sound calls ∧ Linearizable object (state shared) (history actions) := by
  suffices matched : ∃ acts system, Run (Step object) (.start (state shared)) acts system ∧
      acts.flatMap Action.seen = history actions ∧ Matched sound state tied calls system by
    obtain ⟨acts, system, taken, same, final⟩ := matched
    exact ⟨final.sound, acts, system, taken, same⟩
  refine run.invariant (fun actions calls => ∃ acts system,
    Run (Step object) (.start (state shared)) acts system ∧
      acts.flatMap Action.seen = history actions ∧ Matched sound state tied calls system)
    ⟨[], _, .start, rfl, init, rfl, fun thread => .idle⟩ ?_
  rintro actions calls action next - ⟨acts, system, taken, same, matched⟩ moved
  obtain ⟨more, after, ran, seen, kept⟩ := ties.step matched moved
  refine ⟨acts ++ more, after, taken.append ran, ?_, kept⟩
  rw [List.flatMap_append, same, seen, history, history, List.flatMap_append,
    List.flatMap_singleton]

end Rule

/-! ## The steps of a call -/

/-- The steps that a thread takes inside its calls. -/
def innerSteps (thread : Thread) (actions : List (CallAction Thread Op Answer)) : ℕ :=
  actions.countP fun
    | .inner mover => mover = thread
    | .event _ => false

/-- The calls that a thread starts. -/
def startedCalls (thread : Thread) (actions : List (CallAction Thread Op Answer)) : List Op :=
  actions.filterMap fun
    | .event (.call mover op) => if mover = thread then some op else none
    | _ => none

/-- The steps that a call has left. -/
def CallPhase.left (rank : Local → ℕ) : CallPhase Local Op Answer → ℕ
  | .idle => 0
  | .running _ place => rank place
  | .answered _ _ => 0

/-- **A rank that every step of a call lowers bounds the steps of a thread**: they are no
more than the ranks of its calls at their starts. -/
theorem inner_le {impl : Implementation Shared Local Op Answer} {shared : Shared}
    {actions : List (CallAction Thread Op Answer)} {calls : Calls Shared Local Op Answer Thread}
    (rank : Local → ℕ) (positive : ∀ place, 0 < rank place)
    (lowers : ∀ {before place after next}, impl.step before place after (.inl next) →
      rank next < rank place)
    (run : Run (CallStep impl) (.start shared) actions calls) (thread : Thread) :
    innerSteps thread actions + (calls.phase thread).left rank ≤
      ((startedCalls thread actions).map fun op => rank (impl.start op)).sum := by
  refine run.invariant (fun actions calls => innerSteps thread actions +
    (calls.phase thread).left rank ≤
      ((startedCalls thread actions).map fun op => rank (impl.start op)).sum) (Nat.le_refl 0) ?_
  intro actions calls action next _ bound moved
  rw [innerSteps, startedCalls, List.countP_append, List.filterMap_append, List.map_append,
    List.sum_append]
  rw [innerSteps, startedCalls] at bound
  by_cases mine : thread = action.thread
  · cases moved with
    | @call mover op idle =>
        obtain rfl : thread = mover := mine
        rw [idle, CallPhase.left] at bound
        simpa [CallPhase.left] using bound
    | @inner mover op place shared result running does =>
        obtain rfl : thread = mover := mine
        rw [running, CallPhase.left] at bound
        have lower : (CallPhase.after op result).left rank < rank place := by
          cases result with
          | inl next => exact lowers does
          | inr answer => exact positive place
        simp only [Function.update_self, List.countP_singleton, decide_true, if_true,
          List.filterMap_cons, List.filterMap_nil, List.map_nil, List.sum_nil]
        omega
    | @ret mover op answer answered =>
        obtain rfl : thread = mover := mine
        rw [answered, CallPhase.left] at bound
        simpa [CallPhase.left] using bound
  · have phase := moved.phase_of_ne mine
    rw [phase]
    cases moved with
    | @call mover op idle =>
        have different : mover ≠ thread := fun same => mine same.symm
        simpa [different] using bound
    | @inner mover op place shared result running does =>
        have different : mover ≠ thread := fun same => mine same.symm
        simpa [different] using bound
    | ret answered => simpa using bound

end AtomicCalls

end Foundations
