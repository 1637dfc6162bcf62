import FusionGraph.Core.CircuitBreaker
import FusionGraph.Foundations.Runs
import Mathlib.Algebra.Group.Nat.Defs

/-!
# The circuit breaker refines its automaton

What the breaker is for is said by its history: the calls that were made and the
states they left. `BreakerHistory.answer` is the automaton: it says from the
history whether a call passes and which state it leaves. The failures that count
are those since the last success, closing or reset, the successes that count
those since the circuit became half-open, and the time that counts is that of
the failure that opened the circuit.

The counters of the code survive the states in which they mean something, so the
relation between the two (`BreakerRefines`) speaks of each counter in its own
state only; the bounds on the counters hold in every state. Every call keeps the
relation and answers as the automaton does (`BreakerRefines.follows`).
-/

set_option autoImplicit false

namespace FusionGraph

open Foundations

namespace BreakerCall

/-- Whether the call records a failure. -/
def isFailure : BreakerCall → Bool
  | recordFailure _ => true
  | _ => false

/-- The reading of the clock, for the calls that may take one. -/
def reading : BreakerCall → ℕ
  | check now => now.toNat
  | recordFailure now => now.toNat
  | _ => 0

end BreakerCall

/-- The calls made since the breaker was created, each with the state it left. -/
inductive BreakerHistory where
  | new
  | next (earlier : BreakerHistory) (call : BreakerCall) (after : CircuitState)

/-- The two thresholds and the timeout in milliseconds. -/
structure BreakerLimits where
  failures : ℕ
  successes : ℕ
  timeout : ℕ

/-- The limits of a configuration. -/
def CircuitBreakerConfig.limits (config : CircuitBreakerConfig) : BreakerLimits where
  failures := config.failureThreshold.toNat
  successes := config.successThreshold.toNat
  timeout := config.resetTimeout.asMillis

namespace BreakerHistory

/-- The number of calls. -/
def length : BreakerHistory → ℕ
  | new => 0
  | next earlier _ _ => earlier.length + 1

/-- The state that the last call left. -/
def state : BreakerHistory → CircuitState
  | new => .closed
  | next _ _ after => after

/-- The failures since the last success, closing or reset. -/
def failures : BreakerHistory → ℕ
  | new => 0
  | next earlier call after =>
    if call = .recordSuccess ∨ call = .reset ∨ (after = .closed ∧ earlier.state ≠ .closed) then 0
    else if call.isFailure then earlier.failures + 1
    else earlier.failures

/-- The successes since the circuit became half-open. -/
def successes : BreakerHistory → ℕ
  | new => 0
  | next earlier call after =>
    if after = .halfOpen ∧ earlier.state ≠ .halfOpen then 0
    else if call = .recordSuccess then earlier.successes + 1
    else earlier.successes

/-- The reading at the call that opened the circuit last. -/
def openedAt : BreakerHistory → ℕ
  | new => 0
  | next earlier call after =>
    if after = .opened ∧ earlier.state ≠ .opened then call.reading else earlier.openedAt

/-- The automaton: whether a call passes, and the state that it leaves. -/
def answer (limits : BreakerLimits) (history : BreakerHistory) (call : BreakerCall) :
    Bool × CircuitState :=
  match history.state, call with
  | _, .reset => (true, .closed)
  | .closed, .check _ => (true, .closed)
  | .closed, .recordSuccess => (true, .closed)
  | .closed, .recordFailure _ =>
    (true, if limits.failures ≤ history.failures + 1 then .opened else .closed)
  | .opened, .check now =>
    if now.toNat - history.openedAt < limits.timeout then (false, .opened) else (true, .halfOpen)
  | .opened, .recordSuccess => (true, .opened)
  | .opened, .recordFailure _ => (true, .opened)
  | .halfOpen, .check _ => (true, .halfOpen)
  | .halfOpen, .recordSuccess =>
    (true, if limits.successes ≤ history.successes + 1 then .closed else .halfOpen)
  | .halfOpen, .recordFailure _ => (true, .opened)

end BreakerHistory

/-- A breaker with the history of the calls that were made on it. -/
structure ObservedBreaker where
  breaker : CircuitBreaker
  history : BreakerHistory

namespace ObservedBreaker

/-- A new breaker. -/
def new (config : CircuitBreakerConfig) : ObservedBreaker := ⟨.new config, .new⟩

/-- The breaker after a call, with the state that the call left. -/
def after (self : ObservedBreaker) (call : BreakerCall) : ObservedBreaker where
  breaker := (self.breaker.call call).1
  history := self.history.next call (self.breaker.call call).1.state

/-- One call is one step. -/
def Step (self : ObservedBreaker) (call : BreakerCall) (next : ObservedBreaker) : Prop :=
  next = self.after call

end ObservedBreaker

/-- The counters of a breaker are those of its history, each in its own state. -/
structure BreakerRefines (config : CircuitBreakerConfig) (observed : ObservedBreaker) : Prop where
  config : observed.breaker.config = config
  state : observed.breaker.state = observed.history.state
  failures : observed.history.state = .closed →
    observed.breaker.failureCount.toNat = observed.history.failures
  successes : observed.history.state = .halfOpen →
    observed.breaker.successCount.toNat = observed.history.successes
  openedAt : observed.history.state = .opened →
    observed.breaker.lastFailureTime.toNat = observed.history.openedAt
  failureCount_le : observed.breaker.failureCount.toNat ≤ observed.history.length
  successCount_le : observed.breaker.successCount.toNat ≤ observed.history.length

/-- A call answers as the automaton does and keeps the relation. -/
structure BreakerFollows (config : CircuitBreakerConfig) (observed : ObservedBreaker)
    (call : BreakerCall) : Prop where
  outcome : (observed.breaker.call call).2 =
    if (observed.history.answer config.limits call).1 then .ok ⟨⟩ else Checked.fail .circuitOpen
  state : (observed.breaker.call call).1.state = (observed.history.answer config.limits call).2
  refines : BreakerRefines config (observed.after call)

namespace BreakerRefines

variable {config : CircuitBreakerConfig} {observed : ObservedBreaker}

theorem new (config : CircuitBreakerConfig) : BreakerRefines config (.new config) where
  config := rfl
  state := rfl
  failures _ := rfl
  successes _ := rfl
  openedAt _ := rfl
  failureCount_le := Nat.le_refl 0
  successCount_le := Nat.le_refl 0

/-- The relation after a call, from what the call did. -/
theorem of_effect (refines : BreakerRefines config observed) {call : BreakerCall}
    {after : CircuitBreaker} {state : CircuitState} {outcome : Outcome PUnit}
    (effect : observed.breaker.call call = (after, outcome))
    (sameConfig : after.config = observed.breaker.config) (left : after.state = state)
    (failures : state = .closed →
      after.failureCount.toNat = (observed.history.next call state).failures)
    (successes : state = .halfOpen →
      after.successCount.toNat = (observed.history.next call state).successes)
    (openedAt : state = .opened →
      after.lastFailureTime.toNat = (observed.history.next call state).openedAt)
    (failureCount_le : after.failureCount.toNat ≤ observed.breaker.failureCount.toNat + 1)
    (successCount_le : after.successCount.toNat ≤ observed.breaker.successCount.toNat + 1) :
    BreakerRefines config (observed.after call) := by
  have reached : observed.after call = ⟨after, observed.history.next call state⟩ := by
    rw [ObservedBreaker.after, effect, left]
  rw [reached]
  exact ⟨sameConfig.trans refines.config, left, failures, successes, openedAt,
    Nat.le_trans failureCount_le (Nat.succ_le_succ refines.failureCount_le),
    Nat.le_trans successCount_le (Nat.succ_le_succ refines.successCount_le)⟩

/-- A call that leaves the breaker alone, and that does not count in its state. -/
theorem unchanged (refines : BreakerRefines config observed) {call : BreakerCall}
    {outcome : Outcome PUnit} (effect : observed.breaker.call call = (observed.breaker, outcome))
    (noReset : call ≠ .reset)
    (inClosed : observed.history.state = .closed → call ≠ .recordSuccess ∧ call.isFailure = false)
    (inHalfOpen : observed.history.state = .halfOpen → call ≠ .recordSuccess) :
    BreakerRefines config (observed.after call) := by
  apply refines.of_effect effect rfl refines.state
  · intro isClosed
    obtain ⟨noSuccess, noFailure⟩ := inClosed isClosed
    simp [BreakerHistory.failures, isClosed, noReset, noSuccess, noFailure,
      refines.failures isClosed]
  · intro isHalfOpen
    simp [BreakerHistory.successes, isHalfOpen, inHalfOpen isHalfOpen,
      refines.successes isHalfOpen]
  · intro isOpen
    simp [BreakerHistory.openedAt, isOpen, refines.openedAt isOpen]
  · exact Nat.le_succ _
  · exact Nat.le_succ _

/-- A call that passes, where the automaton lets it pass. -/
theorem follows_of_passed {call : BreakerCall} {after : CircuitBreaker} {state : CircuitState}
    (effect : observed.breaker.call call = (after, .ok ⟨⟩)) (left : after.state = state)
    (answer : observed.history.answer config.limits call = (true, state))
    (refines : BreakerRefines config (observed.after call)) :
    BreakerFollows config observed call where
  outcome := by rw [effect, answer, if_pos rfl]
  state := by rw [effect, answer, left]
  refines := refines

/-- A check answers as the automaton does. -/
theorem follows_check (refines : BreakerRefines config observed)
    (timeout : config.resetTimeout.asMillis ≤ u64Max) (now : BitVec 64) :
    BreakerFollows config observed (.check now) := by
  have states := refines.state
  by_cases isOpen : observed.history.state = .opened
  · have limit : observed.breaker.resetTimeoutMillis.toNat = config.limits.timeout := by
      rw [CircuitBreaker.resetTimeoutMillis, refines.config, BitVec.toNat_ofNat]
      exact Nat.mod_eq_of_lt (Nat.lt_succ_of_le timeout)
    have effect : observed.breaker.call (.check now) = _ :=
      CircuitBreaker.check_of_opened (states.trans isOpen) now
    rw [refines.openedAt isOpen, limit] at effect
    by_cases early : now.toNat - observed.history.openedAt < config.limits.timeout
    · rw [if_pos early] at effect
      refine ⟨?_, ?_, refines.unchanged effect (by simp) (by simp [isOpen]) (by simp [isOpen])⟩
      · simp [effect, BreakerHistory.answer, isOpen, early]
      · simp [effect, BreakerHistory.answer, isOpen, early, states]
    · rw [if_neg early] at effect
      have left := CircuitBreaker.state_storeState observed.breaker .halfOpen
      refine follows_of_passed effect left ?_
        (refines.of_effect effect rfl left (by simp) ?_
          (by simp) (Nat.le_succ _) (Nat.zero_le _))
      · simp [BreakerHistory.answer, isOpen, early]
      · simp [BreakerHistory.successes, isOpen]
  · have effect : observed.breaker.call (.check now) = (observed.breaker, .ok ⟨⟩) :=
      CircuitBreaker.check_of_ne_opened (states ▸ isOpen) now
    refine follows_of_passed effect states ?_
      (refines.unchanged effect (by simp) (by simp [BreakerCall.isFailure]) (by simp))
    cases found : observed.history.state with
    | closed => simp [BreakerHistory.answer, found]
    | opened => exact absurd found isOpen
    | halfOpen => simp [BreakerHistory.answer, found]

/-- A success answers as the automaton does. -/
theorem follows_recordSuccess (refines : BreakerRefines config observed)
    (room : observed.history.length < u64Max) :
    BreakerFollows config observed .recordSuccess := by
  have states := refines.state
  cases found : observed.history.state with
  | closed =>
    have effect : observed.breaker.call .recordSuccess = _ :=
      CircuitBreaker.recordSuccess_of_closed (states.trans found)
    refine follows_of_passed effect (states.trans found) ?_
      (refines.of_effect effect rfl (states.trans found) ?_ (by simp) (by simp) (Nat.zero_le _)
        (Nat.le_succ _))
    · simp [BreakerHistory.answer, found]
    · simp [BreakerHistory.failures]
  | opened =>
    have effect : observed.breaker.call .recordSuccess = _ :=
      CircuitBreaker.recordSuccess_of_opened (states.trans found)
    refine follows_of_passed effect (states.trans found) ?_
      (refines.unchanged effect (by simp) (by simp [found]) (by simp [found]))
    simp [BreakerHistory.answer, found]
  | halfOpen =>
    have counts := refines.successes found
    have few : observed.breaker.successCount.toNat < u64Max :=
      Nat.lt_of_le_of_lt refines.successCount_le room
    have effect : observed.breaker.call .recordSuccess = _ :=
      CircuitBreaker.recordSuccess_of_halfOpen (states.trans found) few
    rw [counts, refines.config] at effect
    by_cases enough : config.successThreshold.toNat ≤ observed.history.successes + 1
    · rw [if_pos enough] at effect
      have left := CircuitBreaker.state_storeState observed.breaker .closed
      refine follows_of_passed effect left ?_
        (refines.of_effect effect rfl left ?_ (by simp)
          (by simp) (Nat.zero_le _) (CircuitBreaker.toNat_fetchAdd_le _))
      · simp [BreakerHistory.answer, found, CircuitBreakerConfig.limits, enough]
      · simp [BreakerHistory.failures]
    · rw [if_neg enough] at effect
      refine follows_of_passed effect (states.trans found) ?_
        (refines.of_effect effect refines.config.symm (states.trans found) (by simp) ?_ (by simp)
          (Nat.le_succ _) (CircuitBreaker.toNat_fetchAdd_le _))
      · simp [BreakerHistory.answer, found, CircuitBreakerConfig.limits, enough]
      · intro _
        show (observed.breaker.successCount + 1).toNat = _
        rw [CircuitBreaker.toNat_fetchAdd few, counts]
        simp [BreakerHistory.successes, found]

/-- A failure answers as the automaton does. -/
theorem follows_recordFailure (refines : BreakerRefines config observed)
    (room : observed.history.length < u64Max) (now : BitVec 64) :
    BreakerFollows config observed (.recordFailure now) := by
  have states := refines.state
  cases found : observed.history.state with
  | closed =>
    have counts := refines.failures found
    have few : observed.breaker.failureCount.toNat < u64Max :=
      Nat.lt_of_le_of_lt refines.failureCount_le room
    have effect : observed.breaker.call (.recordFailure now) = _ :=
      CircuitBreaker.recordFailure_of_closed (states.trans found) few now
    rw [counts, refines.config] at effect
    by_cases enough : config.failureThreshold.toNat ≤ observed.history.failures + 1
    · rw [if_pos enough] at effect
      have left := CircuitBreaker.state_storeState observed.breaker .opened
      refine follows_of_passed effect left ?_
        (refines.of_effect effect rfl left (by simp)
          (by simp) ?_ (CircuitBreaker.toNat_fetchAdd_le _) (Nat.le_succ _))
      · simp [BreakerHistory.answer, found, CircuitBreakerConfig.limits, enough]
      · simp [BreakerHistory.openedAt, found, BreakerCall.reading]
    · rw [if_neg enough] at effect
      refine follows_of_passed effect (states.trans found) ?_
        (refines.of_effect effect refines.config.symm (states.trans found) ?_ (by simp) (by simp)
          (CircuitBreaker.toNat_fetchAdd_le _) (Nat.le_succ _))
      · simp [BreakerHistory.answer, found, CircuitBreakerConfig.limits, enough]
      · intro _
        show (observed.breaker.failureCount + 1).toNat = _
        rw [CircuitBreaker.toNat_fetchAdd few, counts]
        simp [BreakerHistory.failures, found, BreakerCall.isFailure]
  | opened =>
    have effect : observed.breaker.call (.recordFailure now) = _ :=
      CircuitBreaker.recordFailure_of_opened (states.trans found) now
    refine follows_of_passed effect (states.trans found) ?_
      (refines.unchanged effect (by simp) (by simp [found]) (by simp [found]))
    simp [BreakerHistory.answer, found]
  | halfOpen =>
    have effect : observed.breaker.call (.recordFailure now) = _ :=
      CircuitBreaker.recordFailure_of_halfOpen (states.trans found) now
    have left := CircuitBreaker.state_storeState observed.breaker .opened
    refine follows_of_passed effect left ?_
      (refines.of_effect effect rfl left (by simp)
        (by simp) ?_ (CircuitBreaker.toNat_fetchAdd_le _) (Nat.zero_le _))
    · simp [BreakerHistory.answer, found]
    · simp [BreakerHistory.openedAt, found, BreakerCall.reading]

/-- A reset answers as the automaton does. -/
theorem follows_reset (refines : BreakerRefines config observed) :
    BreakerFollows config observed .reset := by
  have effect : observed.breaker.call .reset = (observed.breaker.reset, .ok ⟨⟩) := rfl
  have left := CircuitBreaker.state_storeState observed.breaker .closed
  refine follows_of_passed effect left ?_
    (refines.of_effect effect rfl left ?_ (by simp)
      (by simp) (Nat.zero_le _) (Nat.zero_le _))
  · simp only [BreakerHistory.answer]
  · simp [BreakerHistory.failures, CircuitBreaker.reset]

/-- **Every call answers as the automaton does and keeps the relation.** -/
theorem follows (refines : BreakerRefines config observed)
    (timeout : config.resetTimeout.asMillis ≤ u64Max) (room : observed.history.length < u64Max)
    (call : BreakerCall) : BreakerFollows config observed call := by
  cases call with
  | check now => exact refines.follows_check timeout now
  | recordSuccess => exact refines.follows_recordSuccess room
  | recordFailure now => exact refines.follows_recordFailure room now
  | reset => exact refines.follows_reset

/-- A run of fewer than `2 ^ 64` calls keeps the relation. -/
theorem of_run (timeout : config.resetTimeout.asMillis ≤ u64Max) {calls : List BreakerCall}
    (run : Run ObservedBreaker.Step (.new config) calls observed) (few : calls.length ≤ u64Max) :
    observed.history.length = calls.length ∧ BreakerRefines config observed := by
  suffices general : calls.length ≤ u64Max →
      observed.history.length = calls.length ∧ BreakerRefines config observed from general few
  refine run.invariant (fun calls observed => calls.length ≤ u64Max →
      observed.history.length = calls.length ∧ BreakerRefines config observed) ?_ ?_
  · intro _
    exact ⟨rfl, .new config⟩
  · intro calls before call next _ ih moved few
    rw [List.length_append, List.length_singleton] at few ⊢
    obtain ⟨length, refines⟩ := ih (Nat.le_of_succ_le few)
    subst moved
    exact ⟨congrArg Nat.succ length,
      (refines.follows timeout (length ▸ Nat.lt_of_succ_le few) call).refines⟩

end BreakerRefines

/-- **The circuit breaker refines its automaton.** A new breaker is closed. After
any run of calls with any readings of the clock, the next call passes or fails as
the automaton says from the history, and leaves the state that it says, as long
as there are fewer than `2 ^ 64` calls. While the circuit is open, the time that
the breaker remembers is the reading at the failure that opened it, and successes
and failures change nothing. A reset leaves both counts at zero. -/
theorem circuit_breaker_refines_automaton (config : CircuitBreakerConfig)
    (timeout : config.resetTimeout.asMillis < 2 ^ 64) {calls : List BreakerCall}
    {observed : ObservedBreaker} (run : Run ObservedBreaker.Step (.new config) calls observed)
    (call : BreakerCall) (few : (calls ++ [call]).length < 2 ^ 64) :
    (CircuitBreaker.new config).state = .closed ∧
      observed.breaker.state = observed.history.state ∧
      (observed.breaker.call call).2 =
        (if (observed.history.answer config.limits call).1 then .ok ⟨⟩
        else Checked.fail .circuitOpen) ∧
      (observed.breaker.call call).1.state = (observed.history.answer config.limits call).2 ∧
      (observed.breaker.state = .opened →
        observed.breaker.lastFailureTime.toNat = observed.history.openedAt ∧
          (call = .recordSuccess ∨ call.isFailure →
            (observed.breaker.call call).1 = observed.breaker)) ∧
      (call = .reset → (observed.breaker.call call).1.failureCount = 0 ∧
        (observed.breaker.call call).1.successCount = 0) := by
  have short : calls.length < u64Max := by
    rw [List.length_append, List.length_singleton] at few
    simp only [u64Max]
    omega
  have small : config.resetTimeout.asMillis ≤ u64Max := Nat.le_of_lt_succ timeout
  obtain ⟨length, refines⟩ := BreakerRefines.of_run small run (Nat.le_of_lt short)
  have follows := refines.follows small (length ▸ short) call
  refine ⟨rfl, refines.state, follows.outcome, follows.state, fun isOpen => ⟨?_, ?_⟩, ?_⟩
  · exact refines.openedAt (refines.state ▸ isOpen)
  · intro recorded
    cases call with
    | check now => simp [BreakerCall.isFailure] at recorded
    | recordSuccess =>
      rw [CircuitBreaker.call, CircuitBreaker.recordSuccess_of_opened isOpen]
    | recordFailure now =>
      rw [CircuitBreaker.call, CircuitBreaker.recordFailure_of_opened isOpen]
    | reset => simp [BreakerCall.isFailure] at recorded
  · rintro rfl
    exact ⟨rfl, rfl⟩

theorem circuit_breaker_refines_automaton_witness : ∃ observed : ObservedBreaker,
    Run ObservedBreaker.Step (.new ⟨1, .fromSecs 30, 2⟩)
      [.recordFailure 1000, .check 31000, .recordSuccess] observed ∧
      observed.breaker.state = .halfOpen ∧
      (observed.breaker.call .recordSuccess).2 = .ok ⟨⟩ ∧
      (observed.breaker.call .recordSuccess).1.state = .closed := by
  have run : Run ObservedBreaker.Step (.new ⟨1, .fromSecs 30, 2⟩)
      ([] ++ [.recordFailure 1000] ++ [.check 31000] ++ [.recordSuccess]) _ :=
    ((Run.start.step rfl).step rfl).step rfl
  obtain ⟨-, state, outcome, after, -⟩ := circuit_breaker_refines_automaton ⟨1, .fromSecs 30, 2⟩
    (by decide) run .recordSuccess (by decide)
  exact ⟨_, run, by decide, outcome, after⟩

end FusionGraph
