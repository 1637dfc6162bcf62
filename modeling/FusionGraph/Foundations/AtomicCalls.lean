import FusionGraph.Foundations.Runs
import Mathlib.Data.List.Perm.Subperm
import Mathlib.Logic.Function.Basic

/-!
# Calls that act in one step

Threads call the operations of a shared object. A call starts, acts on the object in
one atomic step that also settles its answer, and returns; between these steps other
threads may run. The object is given by what its operations do one at a time.

The calls that have acted, in the order of their atomic steps, are a run of the object
alone (`Run.sequential`). Each thread's returns are its acted calls in order, up to the
one that has not returned, and its acted calls are its started calls, up to the one that
has not acted (`Run.keepsBooks`). So an acted call has started and has not returned
before, and when no call is in progress the started, the acted and the returned calls
are the same (`KeepsBooks.returned_perm`).
-/

set_option autoImplicit false

namespace Foundations

namespace AtomicCalls

universe u

variable {State Op Answer Thread : Type u}

/-- What an operation does on a state: its answer and the state after it. -/
abbrev Object (State Op Answer : Type u) := State → Op × Answer → State → Prop

/-- How far a thread has got with its call. -/
inductive Phase (Op Answer : Type u) where
  | idle
  | called (op : Op)
  | acted (op : Op) (answer : Answer)

/-- A step of a thread. -/
inductive Action (Thread Op Answer : Type u) where
  | call (thread : Thread) (op : Op)
  | act (thread : Thread) (op : Op) (answer : Answer)
  | ret (thread : Thread) (op : Op) (answer : Answer)

/-- The object and the calls in progress. -/
structure System (State Op Answer Thread : Type u) where
  state : State
  phase : Thread → Phase Op Answer

/-- The system before any call. -/
def System.start (state : State) : System State Op Answer Thread where
  state := state
  phase _ := .idle

/-- No call is in progress. -/
def System.Idle (system : System State Op Answer Thread) : Prop :=
  ∀ thread, system.phase thread = .idle

section Steps

variable [DecidableEq Thread]

/-- The steps of a system. -/
inductive Step (object : Object State Op Answer) :
    System State Op Answer Thread → Action Thread Op Answer → System State Op Answer Thread → Prop
  | call {system : System State Op Answer Thread} {thread : Thread} (op : Op)
      (idle : system.phase thread = .idle) :
      Step object system (.call thread op)
        { system with phase := Function.update system.phase thread (.called op) }
  | act {system : System State Op Answer Thread} {thread : Thread} {op : Op} {answer : Answer}
      {state : State} (called : system.phase thread = .called op)
      (does : object system.state (op, answer) state) :
      Step object system (.act thread op answer)
        { state := state, phase := Function.update system.phase thread (.acted op answer) }
  | ret {system : System State Op Answer Thread} {thread : Thread} {op : Op} {answer : Answer}
      (acted : system.phase thread = .acted op answer) :
      Step object system (.ret thread op answer)
        { system with phase := Function.update system.phase thread .idle }

/-- A call acts as the object does. -/
theorem Step.does {object : Object State Op Answer} {system next : System State Op Answer Thread}
    {thread : Thread} {op : Op} {answer : Answer}
    (moved : Step object system (.act thread op answer) next) :
    object system.state (op, answer) next.state := by
  cases moved with
  | act called does => exact does

end Steps

/-! ## The calls of a run -/

namespace Action

/-- The thread that takes the step. -/
def thread : Action Thread Op Answer → Thread
  | call thread _ => thread
  | act thread _ _ => thread
  | ret thread _ _ => thread

/-- The call that the step starts. -/
def started : Action Thread Op Answer → List (Thread × Op)
  | call thread op => [(thread, op)]
  | _ => []

/-- The call that the step lets act. -/
def acted : Action Thread Op Answer → List (Thread × Op × Answer)
  | act thread op answer => [(thread, op, answer)]
  | _ => []

/-- The call that the step returns from. -/
def returned : Action Thread Op Answer → List (Thread × Op × Answer)
  | ret thread op answer => [(thread, op, answer)]
  | _ => []

end Action

section Calls

variable (actions : List (Action Thread Op Answer)) (action : Action Thread Op Answer)

/-- The started calls, in order. -/
def started : List (Thread × Op) := actions.flatMap Action.started

/-- The acted calls, in the order of their atomic steps. -/
def acted : List (Thread × Op × Answer) := actions.flatMap Action.acted

/-- The returned calls, in order. -/
def returned : List (Thread × Op × Answer) := actions.flatMap Action.returned

/-- The operations that acted and their answers, in order. -/
def effects : List (Op × Answer) := (acted actions).map Prod.snd

/-- The operations that returned and their answers, in order. -/
def answers : List (Op × Answer) := (returned actions).map Prod.snd

theorem started_snoc : started (actions ++ [action]) = started actions ++ action.started := by
  simp [started]

theorem acted_snoc : acted (actions ++ [action]) = acted actions ++ action.acted := by
  simp [acted]

theorem returned_snoc : returned (actions ++ [action]) = returned actions ++ action.returned := by
  simp [returned]

theorem effects_snoc :
    effects (actions ++ [action]) = effects actions ++ action.acted.map Prod.snd := by
  rw [effects, acted_snoc, List.map_append, effects]

end Calls

/-! ## The object alone -/

variable [DecidableEq Thread] {object : Object State Op Answer} {state : State}
  {actions : List (Action Thread Op Answer)} {system : System State Op Answer Thread}

/-- **The acted calls are a run of the object alone**, in the order of their atomic
steps. -/
theorem sequential (run : Run (Step object) (.start state) actions system) :
    Run object state (effects actions) system.state := by
  refine run.invariant (fun actions system => Run object state (effects actions) system.state)
    .start fun {actions _ action _} _ holds moved => ?_
  rw [effects_snoc]
  cases moved with
  | call op idle => simpa [Action.acted] using holds
  | act called does => exact holds.step does
  | ret acted => simpa [Action.acted] using holds

/-! ## The calls of one thread -/

section Books

variable (thread : Thread)

/-- The calls of one thread. -/
def ofThread {α : Type u} (calls : List (Thread × α)) : List α :=
  (calls.filter fun call => call.1 = thread).map Prod.snd

@[simp] theorem ofThread_nil {α : Type u} : ofThread thread ([] : List (Thread × α)) = [] := rfl

theorem ofThread_append {α : Type u} (calls more : List (Thread × α)) :
    ofThread thread (calls ++ more) = ofThread thread calls ++ ofThread thread more := by
  simp [ofThread]

@[simp] theorem ofThread_self {α : Type u} (call : α) :
    ofThread thread [(thread, call)] = [call] := by
  simp [ofThread]

theorem ofThread_of_ne {α : Type u} {thread mover : Thread} (different : mover ≠ thread)
    (call : α) : ofThread thread [(mover, call)] = [] := by
  simp [ofThread, different]

/-- What the calls of one thread are in its phase: the started, the acted and the
returned ones. -/
def Matches (called : List Op) (acted returned : List (Op × Answer)) :
    Phase Op Answer → Prop
  | .idle => called = acted.map Prod.fst ∧ acted = returned
  | .called op => called = acted.map Prod.fst ++ [op] ∧ acted = returned
  | .acted op answer => called = acted.map Prod.fst ∧ acted = returned ++ [(op, answer)]

end Books

/-- Every thread's started, acted and returned calls match, up to the one in progress. -/
def KeepsBooks (actions : List (Action Thread Op Answer)) (system : System State Op Answer Thread) :
    Prop :=
  ∀ thread, Matches (ofThread thread (started actions)) (ofThread thread (acted actions))
    (ofThread thread (returned actions)) (system.phase thread)

/-- A step of another thread adds no call of this one. -/
theorem Action.ofThread_eq_nil {thread : Thread} {action : Action Thread Op Answer}
    (different : action.thread ≠ thread) :
    ofThread thread action.started = [] ∧ ofThread thread action.acted = [] ∧
      ofThread thread action.returned = [] := by
  cases action with
  | call mover op => exact ⟨ofThread_of_ne different op, rfl, rfl⟩
  | act mover op answer => exact ⟨rfl, ofThread_of_ne different (op, answer), rfl⟩
  | ret mover op answer => exact ⟨rfl, rfl, ofThread_of_ne different (op, answer)⟩

/-- A step of another thread leaves the phase of this one. -/
theorem Step.phase_of_ne {action : Action Thread Op Answer}
    {system next : System State Op Answer Thread} (moved : Step object system action next)
    {thread : Thread} (different : action.thread ≠ thread) :
    next.phase thread = system.phase thread := by
  cases moved with
  | call op idle => exact Function.update_of_ne different.symm ..
  | act called does => exact Function.update_of_ne different.symm ..
  | ret acted => exact Function.update_of_ne different.symm ..

/-- **Every thread's calls match**: a call acts between its start and its return, and
returns the answer of its atomic step. -/
theorem keepsBooks (run : Run (Step object) (.start state) actions system) :
    KeepsBooks actions system := by
  refine run.invariant KeepsBooks (fun thread => ⟨rfl, rfl⟩)
    fun {actions system action next} _ books moved thread => ?_
  have before := books thread
  rw [started_snoc, acted_snoc, returned_snoc, ofThread_append, ofThread_append, ofThread_append]
  by_cases same : action.thread = thread
  · subst same
    cases moved with
    | call op idle =>
      rw [Action.thread, idle] at before
      simpa [Action.thread, Action.started, Action.acted, Action.returned, Matches] using before
    | act called does =>
      rw [Action.thread, called] at before
      simpa [Action.thread, Action.started, Action.acted, Action.returned, Matches] using before
    | ret acted =>
      rw [Action.thread, acted] at before
      simpa [Action.thread, Action.started, Action.acted, Action.returned, Matches] using before
  · obtain ⟨noStart, noAct, noReturn⟩ := Action.ofThread_eq_nil same
    rw [noStart, noAct, noReturn, List.append_nil, List.append_nil, List.append_nil,
      moved.phase_of_ne same]
    exact before

/-- A call is counted among the calls of its thread. -/
theorem count_ofThread {α : Type u} [DecidableEq α] (call : Thread × α)
    (calls : List (Thread × α)) : (ofThread call.1 calls).count call.2 = calls.count call := by
  induction calls with
  | nil => rfl
  | cons first rest ih =>
      obtain ⟨mover, value⟩ := first
      rw [← List.singleton_append, ofThread_append, List.count_append, ih, List.count_append]
      refine congrArg (· + rest.count call) ?_
      by_cases same : mover = call.1
      · subst same
        simp [List.count_singleton, Prod.ext_iff]
      · simp [ofThread_of_ne same, Prod.ext_iff, same]

theorem ofThread_map {α β : Type u} (thread : Thread) (f : α → β) (calls : List (Thread × α)) :
    ofThread thread (calls.map fun call => (call.1, f call.2)) = (ofThread thread calls).map f := by
  simp [ofThread, List.filter_map, Function.comp_def]

/-- Lists of calls that are the same for every thread have the same entries. -/
theorem perm_of_ofThread_eq {α : Type u} {calls others : List (Thread × α)}
    (same : ∀ thread, ofThread thread calls = ofThread thread others) : calls.Perm others := by
  classical
  refine List.perm_iff_count.mpr fun call => ?_
  rw [← count_ofThread, ← count_ofThread, same]

/-- Calls that are for every thread the first ones of others are among these. -/
theorem subperm_of_ofThread_prefix {α : Type u} {calls others : List (Thread × α)}
    (first : ∀ thread, (ofThread thread calls).IsPrefix (ofThread thread others)) :
    calls.Subperm others := by
  classical
  refine List.subperm_ext_iff.mpr fun call _ => ?_
  rw [← count_ofThread, ← count_ofThread]
  exact (first call.1).sublist.count_le call.2

namespace KeepsBooks

variable (books : KeepsBooks actions system)

include books

/-- The returned calls have acted. -/
theorem returned_subperm : (returned actions).Subperm (acted actions) := by
  refine subperm_of_ofThread_prefix fun thread => ?_
  have settled := books thread
  cases phase : system.phase thread with
  | idle =>
    rw [phase] at settled
    exact settled.2 ▸ List.prefix_rfl
  | called op =>
    rw [phase] at settled
    exact settled.2 ▸ List.prefix_rfl
  | acted op answer =>
    rw [phase] at settled
    exact settled.2 ▸ List.prefix_append ..

/-- The acted calls were started. -/
theorem acted_subperm :
    ((acted actions).map fun call => (call.1, call.2.1)).Subperm (started actions) := by
  refine subperm_of_ofThread_prefix fun thread => ?_
  have settled := books thread
  rw [ofThread_map]
  cases phase : system.phase thread with
  | idle =>
    rw [phase] at settled
    exact settled.1 ▸ List.prefix_rfl
  | called op =>
    rw [phase] at settled
    exact settled.1 ▸ List.prefix_append ..
  | acted op answer =>
    rw [phase] at settled
    exact settled.1 ▸ List.prefix_rfl

theorem answers_subperm : (answers actions).Subperm (effects actions) := by
  obtain ⟨calls, same, first⟩ := books.returned_subperm
  exact ⟨calls.map Prod.snd, same.map Prod.snd, first.map Prod.snd⟩

/-- A call that acts was started. -/
theorem started_of_mem_effects {op : Op} {answer : Answer}
    (effect : (op, answer) ∈ effects actions) : ∃ thread, (thread, op) ∈ started actions := by
  obtain ⟨⟨thread, call⟩, member, rfl⟩ := List.mem_map.mp effect
  exact ⟨thread, books.acted_subperm.subset (List.mem_map.mpr ⟨_, member, rfl⟩)⟩

/-- When no call is in progress, the returned calls are the acted ones. -/
theorem returned_perm (idle : system.Idle) : (returned actions).Perm (acted actions) := by
  refine perm_of_ofThread_eq fun thread => ?_
  have settled := books thread
  rw [idle thread] at settled
  exact settled.2.symm

/-- When no call is in progress, the started calls are the acted ones. -/
theorem started_perm (idle : system.Idle) :
    (started actions).Perm ((acted actions).map fun call => (call.1, call.2.1)) := by
  refine perm_of_ofThread_eq fun thread => ?_
  have settled := books thread
  rw [idle thread] at settled
  rw [ofThread_map]
  exact settled.1

theorem answers_perm (idle : system.Idle) : (answers actions).Perm (effects actions) :=
  (books.returned_perm idle).map Prod.snd

/-- When no call is in progress, a started call has acted. -/
theorem effect_of_started (idle : system.Idle) {thread : Thread} {op : Op}
    (called : (thread, op) ∈ started actions) : ∃ answer, (op, answer) ∈ effects actions := by
  obtain ⟨⟨mover, call, answer⟩, member, same⟩ :=
    List.mem_map.mp ((books.started_perm idle).subset called)
  obtain ⟨-, rfl⟩ := Prod.mk.inj same
  exact ⟨answer, List.mem_map.mpr ⟨_, member, rfl⟩⟩

end KeepsBooks

end AtomicCalls

end Foundations
