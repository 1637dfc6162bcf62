import FusionGraph.Foundations.Checked

/-!
# Calls that change a state and may fail

A call runs on a state. It returns a value, returns an error or aborts, and leaves a
state in each case. A call is atomic when it leaves the state as it was unless it
returns a value. A call that first only reads, and then changes the state by steps
that cannot fail, is atomic: the rules are `Atomic.of_total` for the end and
`Atomic.bind` for a step before it.
-/

set_option autoImplicit false

namespace Foundations

universe u

/-- A call on a state. -/
abbrev Stateful (ε σ α : Type u) := ExceptT (Fault ε) (StateM σ) α

namespace Stateful

variable {ε σ α β : Type u}

/-- The outcome of a call on a state, and the state that it leaves. -/
def runFrom (call : Stateful ε σ α) (state : σ) : Checked ε α × σ := (ExceptT.run call).run state

/-- A computation that does not touch the state. -/
def lift (computation : Checked ε α) : Stateful ε σ α := ExceptT.mk (pure computation)

variable (state : σ)

@[simp] theorem runFrom_pure (value : α) :
    (pure value : Stateful ε σ α).runFrom state = (.ok value, state) := rfl

@[simp] theorem runFrom_lift (computation : Checked ε α) :
    (lift computation : Stateful ε σ α).runFrom state = (computation, state) := rfl

@[simp] theorem runFrom_get : (get : Stateful ε σ σ).runFrom state = (.ok state, state) := rfl

@[simp] theorem runFrom_modify (change : σ → σ) :
    (modify change : Stateful ε σ PUnit).runFrom state = (.ok ⟨⟩, change state) := rfl

theorem runFrom_bind (call : Stateful ε σ α) (next : α → Stateful ε σ β) :
    (call >>= next).runFrom state =
      match call.runFrom state with
      | (.ok value, after) => (next value).runFrom after
      | (.error fault, after) => (.error fault, after) := by
  simp only [runFrom, ExceptT.run_bind, StateT.run_bind]
  cases ran : (ExceptT.run call).run state with
  | mk result after => cases result <;> rfl

/-- A sequence of two calls returns when both do. -/
theorem runFrom_bind_eq_ok {call : Stateful ε σ α} {next : α → Stateful ε σ β} {state after : σ}
    {result : β} (returned : (call >>= next).runFrom state = (.ok result, after)) :
    ∃ value between, call.runFrom state = (.ok value, between) ∧
      (next value).runFrom between = (.ok result, after) := by
  rw [runFrom_bind] at returned
  cases ran : call.runFrom state with
  | mk outcome between =>
    rw [ran] at returned
    cases outcome with
    | ok value => exact ⟨value, between, rfl, returned⟩
    | error fault => cases returned

theorem runFrom_lift_eq_ok {computation : Checked ε α} {state after : σ} {result : α}
    (returned : (lift computation : Stateful ε σ α).runFrom state = (.ok result, after)) :
    computation = .ok result ∧ state = after :=
  ⟨congrArg Prod.fst returned, congrArg Prod.snd returned⟩

/-- Whatever its outcome, the call leaves the state as it was. -/
def ReadOnly (call : Stateful ε σ α) : Prop := ∀ state, (call.runFrom state).2 = state

/-- The call returns a value. -/
def Total (call : Stateful ε σ α) : Prop := ∀ state, ∃ value, (call.runFrom state).1 = .ok value

/-- A call that returns no value leaves the state as it was. -/
def Atomic (call : Stateful ε σ α) : Prop :=
  ∀ state fault, (call.runFrom state).1 = .error fault → (call.runFrom state).2 = state

theorem readOnly_lift (computation : Checked ε α) :
    (lift computation : Stateful ε σ α).ReadOnly := fun _ => rfl

theorem readOnly_get : (get : Stateful ε σ σ).ReadOnly := fun _ => rfl

theorem total_modify (change : σ → σ) : (modify change : Stateful ε σ PUnit).Total :=
  fun _ => ⟨⟨⟩, rfl⟩

theorem Total.bind {call : Stateful ε σ α} {next : α → Stateful ε σ β} (total : call.Total)
    (each : ∀ value, (next value).Total) : (call >>= next).Total := by
  intro state
  obtain ⟨value, returned⟩ := total state
  rw [runFrom_bind]
  cases ran : call.runFrom state with
  | mk result after =>
    rw [ran] at returned
    cases returned
    exact each value after

/-- A call that cannot fail is atomic. -/
theorem Atomic.of_total {call : Stateful ε σ α} (total : call.Total) : call.Atomic := by
  intro state fault failed
  obtain ⟨value, returned⟩ := total state
  cases returned.symm.trans failed

/-- An atomic call after one that only reads is atomic. -/
theorem Atomic.bind {call : Stateful ε σ α} {next : α → Stateful ε σ β} (reads : call.ReadOnly)
    (each : ∀ value, (next value).Atomic) : (call >>= next).Atomic := by
  intro state fault failed
  have kept := reads state
  rw [runFrom_bind] at failed ⊢
  cases ran : call.runFrom state with
  | mk result after =>
    rw [ran] at kept failed
    obtain rfl : after = state := kept
    cases result with
    | ok value => exact each value after fault failed
    | error reason => rfl

end Stateful

end Foundations
