import Mathlib.Data.List.Basic

/-!
# Runs of a transition relation

A transition relation says which actions lead from a state to which others. Its
runs are the finite sequences of such steps, recorded with their actions. The
rule `Run.invariant` is how safety properties are proved about them: what holds
at the start and is kept by every step holds in every state of every run.
-/

set_option autoImplicit false

namespace Foundations

universe u v

variable {State : Type u} {Action : Type v} {step other : State → Action → State → Prop}
  {start state next : State} {actions more : List Action} {action : Action}

/-- The runs of a relation from a state: the actions taken and the state reached. -/
inductive Run (step : State → Action → State → Prop) (start : State) :
    List Action → State → Prop where
  | start : Run step start [] start
  | step {actions : List Action} {state next : State} {action : Action}
      (before : Run step start actions state) (moved : step state action next) :
      Run step start (actions ++ [action]) next

namespace Run

/-- **The invariant rule**, for a property of the actions taken and the state
reached. -/
theorem invariant (holds : List Action → State → Prop) (run : Run step start actions state)
    (init : holds [] start)
    (keep : ∀ {actions state action next}, Run step start actions state → holds actions state →
      step state action next → holds (actions ++ [action]) next) : holds actions state := by
  induction run with
  | start => exact init
  | step before moved ih => exact keep before ih moved

/-- **The simulation rule**: when related states take the same actions to related
states, every run is a run of the other relation. -/
theorem simulate {Abstract : Type*} {abstractStep : Abstract → Action → Abstract → Prop}
    {begin : Abstract} (run : Run step start actions state) (related : State → Abstract → Prop)
    (init : related start begin)
    (each : ∀ {state abstract action next}, related state abstract → step state action next →
      ∃ after, abstractStep abstract action after ∧ related next after) :
    ∃ abstract, Run abstractStep begin actions abstract ∧ related state abstract := by
  induction run with
  | start => exact ⟨begin, .start, init⟩
  | step before moved ih =>
      obtain ⟨abstract, ran, holds⟩ := ih
      obtain ⟨after, taken, kept⟩ := each holds moved
      exact ⟨after, ran.step taken, kept⟩

theorem append (first : Run step start actions state) (second : Run step state more next) :
    Run step start (actions ++ more) next := by
  induction second with
  | start => rwa [List.append_nil]
  | step before moved ih =>
      rw [← List.append_assoc]
      exact ih.step moved

/-- A run passes through each of its steps. -/
theorem split (run : Run step start (actions ++ action :: more) next) :
    ∃ state after, Run step start actions state ∧ step state action after ∧
      Run step after more next := by
  generalize whole : actions ++ action :: more = all at run
  induction run generalizing more with
  | start => simp at whole
  | @step taken state next last before moved ih =>
      rcases List.eq_nil_or_concat more with rfl | ⟨front, back, rfl⟩
      · obtain ⟨rfl, rfl⟩ := List.append_inj' whole rfl |>.imp_right List.singleton_inj.mp
        exact ⟨state, next, before, moved, .start⟩
      · rw [List.concat_eq_append, ← List.cons_append, ← List.append_assoc] at whole
        obtain ⟨rfl, rfl⟩ := List.append_inj' whole rfl |>.imp_right List.singleton_inj.mp
        obtain ⟨first, after, early, taken, late⟩ := ih rfl
        exact ⟨first, after, early, taken, List.concat_eq_append ▸ late.step moved⟩

/-- A run passes through the state after each of its fronts. -/
theorem split_append (run : Run step start (actions ++ more) next) :
    ∃ state, Run step start actions state ∧ Run step state more next := by
  cases more with
  | nil => exact ⟨next, List.append_nil actions ▸ run, .start⟩
  | cons action more =>
      obtain ⟨state, after, early, moved, late⟩ := run.split
      exact ⟨state, early, append (Run.start.step moved) late⟩

/-- A run can be read from its first step. -/
theorem cons (moved : step start action state) (rest : Run step state actions next) :
    Run step start (action :: actions) next :=
  append (Run.start.step moved) rest

/-- **The descent rule**: when a step lowers a rank of two parts until an end is reached,
repeating it ends. -/
theorem exists_replicate (action : Action) (holds ends : State → Prop) (rank : State → ℕ × ℕ)
    (descends : ∀ state, holds state → ¬ ends state → ∃ next, step state action next ∧ holds next ∧
      (ends next ∨ Prod.Lex (· < ·) (· < ·) (rank next) (rank state)))
    (state : State) (init : holds state) :
    ∃ count final, Run step state (List.replicate count action) final ∧ holds final ∧ ends final := by
  have founded : WellFounded (Prod.Lex (· < · : ℕ → ℕ → Prop) (· < · : ℕ → ℕ → Prop)) :=
    (Prod.lex Nat.lt_wfRel Nat.lt_wfRel).wf
  generalize measured : rank state = value
  induction value using founded.induction generalizing state with
  | _ value ih =>
      by_cases ended : ends state
      · exact ⟨0, state, .start, init, ended⟩
      · obtain ⟨next, moved, kept, done | lower⟩ := descends state init ended
        · exact ⟨1, next, .cons moved .start, kept, done⟩
        · obtain ⟨count, final, ran, result⟩ := ih (rank next) (measured ▸ lower) next kept rfl
          exact ⟨count + 1, final, .cons moved ran, result⟩

end Run

/-! ## Playing a list of actions -/

/-- Actions that can always be taken, by a function. -/
theorem Run.of_foldl {next : State → Action → State}
    (sound : ∀ state action, step state action (next state action)) (actions : List Action)
    (state : State) : Run step state actions (actions.foldl next state) := by
  induction actions generalizing state with
  | nil => exact .start
  | cons action rest ih => exact .cons (sound state action) (ih _)

/-- Actions that a function takes where it can. -/
theorem Run.of_foldlM {next : State → Action → Option State}
    (sound : ∀ state action after, next state action = some after → step state action after)
    {actions : List Action} {state last : State}
    (plays : actions.foldlM next state = some last) : Run step state actions last := by
  induction actions generalizing state with
  | nil =>
      obtain rfl := Option.some.inj plays
      exact .start
  | cons action rest ih =>
      rw [List.foldlM_cons] at plays
      obtain ⟨after, taken, plays⟩ := Option.bind_eq_some_iff.mp plays
      exact .cons (sound state action after taken) (ih plays)

/-- Whether every action of a list passes a test on the state before it, when the
actions are taken by a function. -/
def plays (test : State → Action → Bool) (next : State → Action → State) :
    State → List Action → Bool
  | _, [] => true
  | state, action :: rest => test state action && plays test next (next state action) rest

/-- Actions that pass a test are a run to the state that they lead to. -/
theorem Run.of_plays {test : State → Action → Bool} {next : State → Action → State}
    (sound : ∀ state action, test state action = true → step state action (next state action))
    {actions : List Action} {state : State} (passes : plays test next state actions = true) :
    Run step state actions (actions.foldl next state) := by
  induction actions generalizing state with
  | nil => exact .start
  | cons action rest ih =>
      rw [plays, Bool.and_eq_true] at passes
      exact .cons (sound state action passes.1) (ih passes.2)

end Foundations
