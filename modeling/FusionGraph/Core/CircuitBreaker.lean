import FusionGraph.Core.Types

/-!
# The circuit breaker

The breaker counts failures and successes of an external dependency in atomic
counters and keeps its state in an atomic byte. This file models the calls that
run one after the other: each takes the breaker to the next one and has an
outcome. A call that reads the clock takes the reading as an argument.

The counters have 64 bits and wrap; the addition that the code makes on the
value it has fetched is checked.
-/

set_option autoImplicit false

namespace FusionGraph

open Foundations

/-- Circuit breaker states. -/
inductive CircuitState where
  /-- Circuit is closed, requests flow normally. -/
  | closed
  /-- Circuit is open, requests fail immediately. -/
  | opened
  /-- Circuit is half-open, allowing test requests. -/
  | halfOpen
  deriving DecidableEq, Repr

namespace CircuitState

/-- The discriminant of a state. -/
def toByte : CircuitState → BitVec 8
  | closed => 0
  | opened => 1
  | halfOpen => 2

/-- `CircuitState::from`. -/
def ofByte (v : BitVec 8) : CircuitState :=
  if v = 1 then opened else if v = 2 then halfOpen else closed

@[simp] theorem ofByte_toByte (state : CircuitState) : ofByte state.toByte = state := by
  cases state <;> rfl

end CircuitState

/-- A span of time, in seconds and a part in nanoseconds. -/
structure Duration where
  secs : BitVec 64
  nanos : ℕ
  nanos_lt : nanos < 1000000000
  deriving DecidableEq, Repr

namespace Duration

/-- `Duration::from_secs`. -/
def fromSecs (secs : BitVec 64) : Duration := ⟨secs, 0, by decide⟩

/-- `Duration::as_millis`, which has 128 bits. -/
def asMillis (self : Duration) : ℕ := self.secs.toNat * 1000 + self.nanos / 1000000

end Duration

/-- Configuration of the circuit breaker. -/
structure CircuitBreakerConfig where
  /-- Number of failures before the circuit opens. -/
  failureThreshold : BitVec 64
  /-- How long the circuit stays open before it allows test requests. -/
  resetTimeout : Duration
  /-- Number of successes in the half-open state that close the circuit. -/
  successThreshold : BitVec 64
  deriving DecidableEq, Repr

/-- The configuration and the four atomic variables. -/
structure CircuitBreaker where
  config : CircuitBreakerConfig
  stateByte : BitVec 8
  failureCount : BitVec 64
  successCount : BitVec 64
  lastFailureTime : BitVec 64
  deriving DecidableEq, Repr

/-- `u64::saturating_sub`. -/
def saturatingSub (a b : BitVec 64) : BitVec 64 := if b ≤ a then a - b else 0

namespace CircuitBreaker

/-- Creates a new circuit breaker with the given configuration. -/
def new (config : CircuitBreakerConfig) : CircuitBreaker where
  config := config
  stateByte := CircuitState.closed.toByte
  failureCount := 0
  successCount := 0
  lastFailureTime := 0

/-- The reset timeout in milliseconds, cut to 64 bits. -/
def resetTimeoutMillis (self : CircuitBreaker) : BitVec 64 :=
  BitVec.ofNat 64 self.config.resetTimeout.asMillis

/-- The current state of the circuit. -/
def state (self : CircuitBreaker) : CircuitState := .ofByte self.stateByte

/-- Stores a state. -/
def storeState (self : CircuitBreaker) (state : CircuitState) : CircuitBreaker :=
  { self with stateByte := state.toByte }

/-- Replaces the state byte if it is the expected one, and returns the byte found:
as `ok` when it was replaced, as `error` otherwise. -/
def compareExchange (self : CircuitBreaker) (current new : CircuitState) :
    CircuitBreaker × Except (BitVec 8) (BitVec 8) :=
  if self.stateByte = current.toByte then (self.storeState new, .ok self.stateByte)
  else (self, .error self.stateByte)

/-- Checks if a request should be allowed. -/
def check (self : CircuitBreaker) (now : BitVec 64) : CircuitBreaker × Outcome PUnit :=
  match self.state with
  | .closed | .halfOpen => (self, .ok ⟨⟩)
  | .opened =>
    let elapsed := saturatingSub now self.lastFailureTime
    if self.resetTimeoutMillis ≤ elapsed then
      match self.compareExchange .opened .halfOpen with
      | (exchanged, .ok _) => ({ exchanged with successCount := 0 }, .ok ⟨⟩)
      | (unchanged, .error actual) =>
        match CircuitState.ofByte actual with
        | .closed | .halfOpen => (unchanged, .ok ⟨⟩)
        | .opened => (unchanged, Checked.fail .circuitOpen)
    else (self, Checked.fail .circuitOpen)

/-- Records a successful operation. -/
def recordSuccess (self : CircuitBreaker) : CircuitBreaker × Outcome PUnit :=
  match self.state with
  | .closed => ({ self with failureCount := 0 }, .ok ⟨⟩)
  | .halfOpen =>
    let counted := { self with successCount := self.successCount + 1 }
    match (Checked.add u64Max self.successCount.toNat 1 : Outcome ℕ) with
    | .error fault => (counted, .error fault)
    | .ok successes =>
      if self.config.successThreshold.toNat ≤ successes then
        ({ counted.storeState .closed with failureCount := 0 }, .ok ⟨⟩)
      else (counted, .ok ⟨⟩)
  | .opened => (self, .ok ⟨⟩)

/-- Records a failed operation. -/
def recordFailure (self : CircuitBreaker) (now : BitVec 64) : CircuitBreaker × Outcome PUnit :=
  match self.state with
  | .closed =>
    let counted := { self with failureCount := self.failureCount + 1 }
    match (Checked.add u64Max self.failureCount.toNat 1 : Outcome ℕ) with
    | .error fault => (counted, .error fault)
    | .ok failures =>
      let timed := { counted with lastFailureTime := now }
      if self.config.failureThreshold.toNat ≤ failures then (timed.storeState .opened, .ok ⟨⟩)
      else (timed, .ok ⟨⟩)
  | .halfOpen =>
    let counted := { self with successCount := 0, failureCount := self.failureCount + 1 }
    ({ counted with lastFailureTime := now }.storeState .opened, .ok ⟨⟩)
  | .opened => (self, .ok ⟨⟩)

/-- Resets the circuit breaker to the closed state. -/
def reset (self : CircuitBreaker) : CircuitBreaker :=
  { self.storeState .closed with failureCount := 0, successCount := 0 }

end CircuitBreaker

/-- A call, with the reading of the clock that it may take. -/
inductive BreakerCall where
  | check (now : BitVec 64)
  | recordSuccess
  | recordFailure (now : BitVec 64)
  | reset
  deriving DecidableEq, Repr

namespace CircuitBreaker

/-- The breaker after a call, and the outcome of the call. -/
def call (self : CircuitBreaker) : BreakerCall → CircuitBreaker × Outcome PUnit
  | .check now => self.check now
  | .recordSuccess => self.recordSuccess
  | .recordFailure now => self.recordFailure now
  | .reset => (self.reset, .ok ⟨⟩)

/-! ## What each call does in each state -/

@[simp] theorem state_storeState (self : CircuitBreaker) (state : CircuitState) :
    (self.storeState state).state = state := CircuitState.ofByte_toByte state

theorem toNat_saturatingSub (a b : BitVec 64) : (saturatingSub a b).toNat = a.toNat - b.toNat := by
  by_cases ordered : b ≤ a
  · rw [saturatingSub, if_pos ordered, BitVec.toNat_sub_of_le ordered]
  · have smaller : a.toNat < b.toNat := BitVec.lt_def.mp (BitVec.not_le.mp ordered)
    rw [saturatingSub, if_neg ordered, Nat.sub_eq_zero_of_le (Nat.le_of_lt smaller)]
    rfl

/-- A counter that has not reached its end counts one more. -/
theorem toNat_fetchAdd {count : BitVec 64} (room : count.toNat < u64Max) :
    (count + 1).toNat = count.toNat + 1 := by
  rw [BitVec.toNat_add_of_lt]
  · rfl
  · show count.toNat + 1 < 2 ^ 64
    simp only [u64Max] at room
    omega

theorem toNat_fetchAdd_le (count : BitVec 64) : (count + 1).toNat ≤ count.toNat + 1 := by
  rw [BitVec.toNat_add]
  exact Nat.mod_le _ _

variable {breaker : CircuitBreaker}

theorem stateByte_of_opened (isOpen : breaker.state = .opened) :
    breaker.stateByte = CircuitState.opened.toByte := by
  by_contra different
  have byte : breaker.stateByte ≠ 1 := different
  rw [state, CircuitState.ofByte, if_neg byte] at isOpen
  split at isOpen <;> cases isOpen

theorem check_of_ne_opened (notOpen : breaker.state ≠ .opened) (now : BitVec 64) :
    breaker.check now = (breaker, .ok ⟨⟩) := by
  cases found : breaker.state with
  | closed => simp only [check, found]
  | opened => exact absurd found notOpen
  | halfOpen => simp only [check, found]

/-- An open breaker refuses until the timeout has elapsed. -/
theorem check_of_opened (isOpen : breaker.state = .opened) (now : BitVec 64) :
    breaker.check now =
      if now.toNat - breaker.lastFailureTime.toNat < breaker.resetTimeoutMillis.toNat then
        (breaker, Checked.fail .circuitOpen)
      else ({ breaker.storeState .halfOpen with successCount := 0 }, .ok ⟨⟩) := by
  simp only [check, isOpen, compareExchange, stateByte_of_opened isOpen, if_true, BitVec.le_def,
    toNat_saturatingSub]
  by_cases early : now.toNat - breaker.lastFailureTime.toNat < breaker.resetTimeoutMillis.toNat
  · rw [if_pos early, if_neg (Nat.not_le_of_lt early)]
  · rw [if_neg early, if_pos (Nat.le_of_not_lt early)]

theorem recordSuccess_of_closed (isClosed : breaker.state = .closed) :
    breaker.recordSuccess = ({ breaker with failureCount := 0 }, .ok ⟨⟩) := by
  simp only [recordSuccess, isClosed]

theorem recordSuccess_of_opened (isOpen : breaker.state = .opened) :
    breaker.recordSuccess = (breaker, .ok ⟨⟩) := by
  simp only [recordSuccess, isOpen]

theorem recordSuccess_of_halfOpen (isHalfOpen : breaker.state = .halfOpen)
    (room : breaker.successCount.toNat < u64Max) :
    breaker.recordSuccess =
      (if breaker.config.successThreshold.toNat ≤ breaker.successCount.toNat + 1 then
        { breaker.storeState .closed with
          successCount := breaker.successCount + 1, failureCount := 0 }
      else { breaker with successCount := breaker.successCount + 1 }, .ok ⟨⟩) := by
  have fits : breaker.successCount.toNat + 1 ≤ u64Max := room
  simp only [recordSuccess, isHalfOpen, Checked.add_of_le fits]
  split <;> rfl

theorem recordFailure_of_closed (isClosed : breaker.state = .closed)
    (room : breaker.failureCount.toNat < u64Max) (now : BitVec 64) :
    breaker.recordFailure now =
      (if breaker.config.failureThreshold.toNat ≤ breaker.failureCount.toNat + 1 then
        { breaker.storeState .opened with
          failureCount := breaker.failureCount + 1, lastFailureTime := now }
      else { breaker with failureCount := breaker.failureCount + 1, lastFailureTime := now },
        .ok ⟨⟩) := by
  have fits : breaker.failureCount.toNat + 1 ≤ u64Max := room
  simp only [recordFailure, isClosed, Checked.add_of_le fits]
  split <;> rfl

theorem recordFailure_of_opened (isOpen : breaker.state = .opened) (now : BitVec 64) :
    breaker.recordFailure now = (breaker, .ok ⟨⟩) := by
  simp only [recordFailure, isOpen]

theorem recordFailure_of_halfOpen (isHalfOpen : breaker.state = .halfOpen) (now : BitVec 64) :
    breaker.recordFailure now =
      ({ breaker.storeState .opened with
        successCount := 0, failureCount := breaker.failureCount + 1, lastFailureTime := now },
        .ok ⟨⟩) := by
  simp only [recordFailure, isHalfOpen]
  rfl

end CircuitBreaker

end FusionGraph
