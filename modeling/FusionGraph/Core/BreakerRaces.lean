import FusionGraph.Core.CircuitBreaker
import FusionGraph.Foundations.Runs
import Mathlib.Data.Fintype.Basic
import Mathlib.Logic.Function.Iterate

/-!
# Racing calls on one circuit breaker

Any number of threads call `check`, `record_success` and `record_failure` on one
breaker. Every load, store, addition and exchange of an atomic variable is a step
of its own, and a call decides on the state that it loaded first.

The half-open circuit is meant to close on the successes counted since it became
half-open. The exchange that makes it half-open and the store that sets the
counter to zero are two steps, and the store that closes it does not look at the
state again. So it also closes on successes of an earlier time, when a success
is counted before the counter is cleared, or when the circuit is opened and made
half-open while a success is about to close it. These are the only ways
(`SharedBreaker.closes_on_fresh_successes`).
-/

set_option autoImplicit false

namespace FusionGraph

open Foundations

/-! ## Calls in steps -/

/-- The calls that are made by several threads. -/
inductive BreakerEntry where
  | check
  | recordSuccess
  | recordFailure
  deriving DecidableEq

/-- The call with the reading of the clock that it takes. -/
def BreakerEntry.toCall (now : BitVec 64) : BreakerEntry → BreakerCall
  | check => .check now
  | recordSuccess => .recordSuccess
  | recordFailure => .recordFailure now

/-- What a call does next, after it has loaded the state. -/
inductive BreakerPhase where
  /-- Between two calls. -/
  | idle
  /-- `check` has found the circuit open. -/
  | loadFailureTime
  /-- The timeout has elapsed. -/
  | exchange
  /-- The exchange was made. -/
  | clearSuccesses
  /-- `record_success` has found the circuit half-open. -/
  | countSuccess
  /-- The successes suffice. -/
  | close
  /-- The last step of `record_success`. -/
  | clearFailures
  /-- `record_failure` has found the circuit closed. -/
  | countFailure
  /-- `record_failure` has found the circuit half-open. -/
  | dropSuccesses
  | countOpening
  /-- Whether the circuit is opened after the time is stored. -/
  | storeFailureTime (opens : Bool)
  | trip
  deriving DecidableEq

namespace BreakerPhase

/-- The phase of a call that has loaded the state. -/
def start (found : CircuitState) : BreakerEntry → BreakerPhase
  | .check =>
    match found with
    | .closed | .halfOpen => idle
    | .opened => loadFailureTime
  | .recordSuccess =>
    match found with
    | .closed => clearFailures
    | .halfOpen => countSuccess
    | .opened => idle
  | .recordFailure =>
    match found with
    | .closed => countFailure
    | .halfOpen => dropSuccesses
    | .opened => idle

/-- One step of a call. A call whose addition overflows ends. -/
def step (self : CircuitBreaker) (now : BitVec 64) : BreakerPhase → CircuitBreaker × BreakerPhase
  | idle => (self, idle)
  | loadFailureTime =>
    if self.resetTimeoutMillis ≤ saturatingSub now self.lastFailureTime then (self, exchange)
    else (self, idle)
  | exchange =>
    match self.compareExchange .opened .halfOpen with
    | (exchanged, .ok _) => (exchanged, clearSuccesses)
    | (unchanged, .error _) => (unchanged, idle)
  | clearSuccesses => ({ self with successCount := 0 }, idle)
  | countSuccess =>
    let counted := { self with successCount := self.successCount + 1 }
    match (Checked.add u64Max self.successCount.toNat 1 : Outcome ℕ) with
    | .error _ => (counted, idle)
    | .ok successes =>
      if self.config.successThreshold.toNat ≤ successes then (counted, close) else (counted, idle)
  | close => (self.storeState .closed, clearFailures)
  | clearFailures => ({ self with failureCount := 0 }, idle)
  | countFailure =>
    let counted := { self with failureCount := self.failureCount + 1 }
    match (Checked.add u64Max self.failureCount.toNat 1 : Outcome ℕ) with
    | .error _ => (counted, idle)
    | .ok failures =>
      (counted, storeFailureTime (decide (self.config.failureThreshold.toNat ≤ failures)))
  | dropSuccesses => ({ self with successCount := 0 }, countOpening)
  | countOpening => ({ self with failureCount := self.failureCount + 1 }, storeFailureTime true)
  | storeFailureTime opens => ({ self with lastFailureTime := now }, if opens then trip else idle)
  | trip => (self.storeState .opened, idle)

/-- **A call whose steps are not interrupted is the sequential call.** -/
theorem alone (self : CircuitBreaker) (now : BitVec 64) (entry : BreakerEntry) :
    (fun (after : CircuitBreaker × BreakerPhase) => after.2.step after.1 now)^[4]
      (self, start self.state entry) = ((self.call (entry.toCall now)).1, idle) := by
  cases entry with
  | check =>
      simp only [BreakerEntry.toCall, CircuitBreaker.call, CircuitBreaker.check]
      cases found : self.state with
      | closed | halfOpen => simp [start, step]
      | opened =>
          have byte := CircuitBreaker.stateByte_of_opened found
          by_cases elapsed : self.resetTimeoutMillis ≤ saturatingSub now self.lastFailureTime
          · simp [start, step, CircuitBreaker.compareExchange, byte, elapsed]
          · simp [start, step, elapsed]
  | recordSuccess =>
      simp only [BreakerEntry.toCall, CircuitBreaker.call, CircuitBreaker.recordSuccess]
      cases found : self.state with
      | closed | opened => simp [start, step]
      | halfOpen =>
          cases added : (Checked.add u64Max self.successCount.toNat 1 : Outcome ℕ) with
          | error fault => simp [start, step, added]
          | ok successes =>
              by_cases enough : self.config.successThreshold.toNat ≤ successes
              · simp [start, step, added, enough]
              · simp [start, step, added, enough]
  | recordFailure =>
      simp only [BreakerEntry.toCall, CircuitBreaker.call, CircuitBreaker.recordFailure]
      cases found : self.state with
      | opened | halfOpen => simp [start, step]
      | closed =>
          cases added : (Checked.add u64Max self.failureCount.toNat 1 : Outcome ℕ) with
          | error fault => simp [start, step, added]
          | ok failures =>
              by_cases enough : self.config.failureThreshold.toNat ≤ failures
              · simp [start, step, added, enough]
              · simp [start, step, added, enough]

end BreakerPhase

/-! ## Threads -/

/-- The next success that is counted reaches the threshold. -/
def CircuitBreaker.ReachesThreshold (self : CircuitBreaker) : Prop :=
  self.successCount.toNat < u64Max ∧
    self.config.successThreshold.toNat ≤ self.successCount.toNat + 1

instance (self : CircuitBreaker) : Decidable self.ReachesThreshold :=
  inferInstanceAs (Decidable (_ ∧ _))

/-- What has been counted since the circuit last became half-open: the successes,
and those before it that the counter still holds. No call reads either. -/
structure BreakerCycle where
  fresh : ℕ
  stale : ℕ

/-- The cycle after a step of a call. -/
def BreakerPhase.cycle (self : CircuitBreaker) (cycle : BreakerCycle) : BreakerPhase → BreakerCycle
  | .exchange => if self.state = .opened then ⟨0, self.successCount.toNat⟩ else cycle
  | .clearSuccesses | .dropSuccesses => { cycle with stale := 0 }
  | .countSuccess =>
    { fresh := cycle.fresh + 1,
      stale := if self.successCount.toNat < u64Max then cycle.stale else 0 }
  | _ => cycle

/-- A breaker and the threads that call it. -/
structure SharedBreaker (Thread : Type) where
  breaker : CircuitBreaker
  phase : Thread → BreakerPhase
  cycle : BreakerCycle

/-- A thread starts a call or takes the next step of the one it is in. -/
inductive BreakerOp (Thread : Type) where
  | call (thread : Thread) (entry : BreakerEntry)
  | advance (thread : Thread) (now : BitVec 64)

namespace SharedBreaker

variable {Thread : Type}

/-- A new breaker that no thread has called. -/
def new (config : CircuitBreakerConfig) : SharedBreaker Thread where
  breaker := .new config
  phase _ := .idle
  cycle := ⟨0, 0⟩

/-- A step about to be taken does not let the circuit close on earlier successes:
no thread is about to close it when it becomes half-open, and a success with which
the counter reaches the threshold of a half-open circuit finds in it no success
from before. -/
structure Careful (state : SharedBreaker Thread) (thread : Thread) : Prop where
  exchange : state.phase thread = .exchange → state.breaker.state = .opened →
    1 ≤ state.breaker.config.successThreshold.toNat → ∀ other, state.phase other ≠ .close
  count : state.phase thread = .countSuccess → state.breaker.state = .halfOpen →
    2 ≤ state.breaker.config.successThreshold.toNat → state.breaker.ReachesThreshold →
    state.cycle.stale = 0

instance [Fintype Thread] (state : SharedBreaker Thread) (thread : Thread) :
    Decidable (state.Careful thread) :=
  decidable_of_iff
    ((state.phase thread = .exchange → state.breaker.state = .opened →
        1 ≤ state.breaker.config.successThreshold.toNat → ∀ other, state.phase other ≠ .close) ∧
      (state.phase thread = .countSuccess → state.breaker.state = .halfOpen →
        2 ≤ state.breaker.config.successThreshold.toNat → state.breaker.ReachesThreshold →
        state.cycle.stale = 0))
    ⟨fun both => ⟨both.1, both.2⟩, fun careful => ⟨careful.exchange, careful.count⟩⟩

/-- A thread that is about to close the half-open circuit does so on enough
successes since it became half-open. -/
def ClosesFresh (self : SharedBreaker Thread) : Prop :=
  ∀ thread, self.phase thread = .close → self.breaker.state = .halfOpen →
    self.breaker.config.successThreshold.toNat ≤ self.cycle.fresh

variable [DecidableEq Thread]

/-- The state after a step. -/
def next (self : SharedBreaker Thread) : BreakerOp Thread → SharedBreaker Thread
  | .call thread entry =>
    if self.phase thread = .idle then
      { self with phase :=
          Function.update self.phase thread (.start self.breaker.state entry) }
    else self
  | .advance thread now =>
    let (breaker, phase) := (self.phase thread).step self.breaker now
    { breaker := breaker, phase := Function.update self.phase thread phase,
      cycle := (self.phase thread).cycle self.breaker self.cycle }

def Step (self : SharedBreaker Thread) (op : BreakerOp Thread) (next : SharedBreaker Thread) :
    Prop :=
  next = self.next op

/-- A step that a careful thread takes. -/
def CarefulStep (self : SharedBreaker Thread) (op : BreakerOp Thread)
    (next : SharedBreaker Thread) : Prop :=
  Step self op next ∧ ∀ thread now, op = .advance thread now → self.Careful thread

end SharedBreaker

/-! ## What a step can do -/

/-- What a step of a call does to the state, to the counter of successes and to the
cycle, and whether the call closes the circuit next. -/
inductive BreakerEffect (self : CircuitBreaker) (cycle : BreakerCycle) :
    BreakerPhase → CircuitBreaker → BreakerPhase → BreakerCycle → Prop where
  | quiet {phase after left} (state : after.state = self.state)
      (count : after.successCount = self.successCount) (open_ : left ≠ .close) :
      BreakerEffect self cycle phase after left cycle
  | exchanged {after left} (found : self.state = .opened) (state : after.state = .halfOpen)
      (count : after.successCount = self.successCount) (open_ : left ≠ .close) :
      BreakerEffect self cycle .exchange after left ⟨0, self.successCount.toNat⟩
  | cleared {phase after left} (state : after.state = self.state) (count : after.successCount = 0)
      (open_ : left ≠ .close) :
      BreakerEffect self cycle phase after left { cycle with stale := 0 }
  | counted {after left} (state : after.state = self.state)
      (count : after.successCount = self.successCount + 1)
      (closes : left = .close ↔ self.ReachesThreshold) :
      BreakerEffect self cycle .countSuccess after left
        { fresh := cycle.fresh + 1,
          stale := if self.successCount.toNat < u64Max then cycle.stale else 0 }
  | left {phase after left} (state : after.state ≠ .halfOpen)
      (count : after.successCount = self.successCount) (open_ : left ≠ .close) :
      BreakerEffect self cycle phase after left cycle

namespace BreakerPhase

/-- The exchange is made exactly when the circuit is open. -/
theorem step_exchange (self : CircuitBreaker) (now : BitVec 64) :
    step self now exchange =
      if self.state = .opened then (self.storeState .halfOpen, clearSuccesses)
      else (self, idle) := by
  by_cases found : self.state = .opened
  · have byte := CircuitBreaker.stateByte_of_opened found
    simp [step, CircuitBreaker.compareExchange, byte, found]
  · have byte : self.stateByte ≠ CircuitState.opened.toByte := fun same =>
      found (by rw [CircuitBreaker.state, same, CircuitState.ofByte_toByte])
    simp [step, CircuitBreaker.compareExchange, byte, found]

/-- A success is counted, and closes the circuit when it reaches the threshold. -/
theorem step_countSuccess (self : CircuitBreaker) (now : BitVec 64) :
    step self now countSuccess = ({ self with successCount := self.successCount + 1 },
      if self.ReachesThreshold then close else idle) := by
  by_cases room : self.successCount.toNat < u64Max
  · have fits : self.successCount.toNat + 1 ≤ u64Max := room
    simp only [step, Checked.add_of_le fits, CircuitBreaker.ReachesThreshold, room, true_and]
    split <;> rfl
  · have full : ¬ self.successCount.toNat + 1 ≤ u64Max := room
    simp [step, Checked.add, Checked.abort, CircuitBreaker.ReachesThreshold, full, room]

theorem config_step (self : CircuitBreaker) (now : BitVec 64) (phase : BreakerPhase) :
    (phase.step self now).1.config = self.config := by
  cases phase with
  | loadFailureTime => simp only [step]; split <;> rfl
  | exchange => rw [step_exchange]; split <;> rfl
  | countSuccess => rw [step_countSuccess]
  | countFailure => simp only [step]; split <;> rfl
  | _ => rfl

/-- **The effect of a step.** -/
theorem effect (self : CircuitBreaker) (cycle : BreakerCycle) (now : BitVec 64)
    (phase : BreakerPhase) :
    BreakerEffect self cycle phase (phase.step self now).1 (phase.step self now).2
      (phase.cycle self cycle) := by
  cases phase with
  | idle => exact .quiet rfl rfl (by simp [step])
  | loadFailureTime =>
      simp only [step]
      split
      · exact .quiet rfl rfl (by simp)
      · exact .quiet rfl rfl (by simp)
  | exchange =>
      rw [step_exchange, BreakerPhase.cycle]
      by_cases found : self.state = .opened
      · rw [if_pos found, if_pos found]
        exact .exchanged found (self.state_storeState .halfOpen) rfl (by simp)
      · rw [if_neg found, if_neg found]
        exact .quiet rfl rfl (by simp)
  | clearSuccesses | dropSuccesses => exact .cleared rfl rfl (by simp [step])
  | countSuccess =>
      rw [step_countSuccess]
      exact .counted rfl rfl (by simp)
  | close => exact .left (by simp [step]) rfl (by simp [step])
  | clearFailures | countOpening => exact .quiet rfl rfl (by simp [step])
  | countFailure =>
      simp only [step]
      split
      · exact .quiet rfl rfl (by simp)
      · exact .quiet rfl rfl (by simp)
  | storeFailureTime opens => exact .quiet rfl rfl (by cases opens <;> simp [step])
  | trip => exact .left (by simp [step]) rfl (by simp [step])

end BreakerPhase

namespace SharedBreaker

variable {Thread : Type}

/-! ## Runs of careful steps -/

/-- What holds along careful steps: the counter has at most the stale and the fresh
successes, and as many in a half-open circuit that has stale ones. -/
structure Counts (config : CircuitBreakerConfig) (state : SharedBreaker Thread) : Prop where
  configured : state.breaker.config = config
  bound : state.breaker.successCount.toNat ≤ state.cycle.stale + state.cycle.fresh
  closes : state.ClosesFresh
  stale : state.breaker.state = .halfOpen → state.cycle.stale ≠ 0 →
    2 ≤ state.breaker.config.successThreshold.toNat →
    state.breaker.successCount.toNat = state.cycle.stale + state.cycle.fresh ∧
      (state.cycle.fresh = 0 ∨
        state.breaker.successCount.toNat < state.breaker.config.successThreshold.toNat)

theorem Counts.new (config : CircuitBreakerConfig) :
    Counts config (new config : SharedBreaker Thread) where
  configured := rfl
  bound := Nat.zero_le _
  closes thread closing := by cases closing
  stale _ old := absurd rfl old

variable [DecidableEq Thread] {config : CircuitBreakerConfig} {state next : SharedBreaker Thread}

/-- A thread that closes the circuit next did so before, unless it is the one that
has moved. -/
theorem closing_of_update {thread other : Thread} {left : BreakerPhase}
    (closing : Function.update state.phase thread left other = .close) :
    (other = thread ∧ left = .close) ∨ state.phase other = .close := by
  by_cases same : other = thread
  · rw [same, Function.update_self] at closing
    exact .inl ⟨same, closing⟩
  · rw [Function.update_of_ne same] at closing
    exact .inr closing

/-- A counter that is full wraps. -/
theorem toNat_fetchAdd_full {count : BitVec 64} (full : ¬ count.toNat < u64Max) :
    (count + 1).toNat = 0 := by
  have bound := count.isLt
  have last : count.toNat = u64Max := by
    simp only [u64Max] at full ⊢
    omega
  rw [BitVec.toNat_add, last]
  rfl

/-- A careful thread's step keeps the counts. -/
theorem Counts.advance (counts : Counts config state) {thread : Thread}
    (careful : state.Careful thread) {after : CircuitBreaker} {left : BreakerPhase}
    {cycle : BreakerCycle} (same : after.config = state.breaker.config)
    (effect : BreakerEffect state.breaker state.cycle (state.phase thread) after left cycle) :
    Counts config ⟨after, Function.update state.phase thread left, cycle⟩ := by
  have closesBefore : left ≠ .close → after.state = state.breaker.state →
      state.cycle.fresh ≤ cycle.fresh →
      ClosesFresh ⟨after, Function.update state.phase thread left, cycle⟩ := by
    intro notClosing sameState more other closing halfOpen
    rcases closing_of_update closing with ⟨-, closes⟩ | before
    · exact absurd closes notClosing
    · rw [same]
      exact Nat.le_trans (counts.closes other before (sameState.symm.trans halfOpen)) more
  have bound := counts.bound
  obtain ⟨phase, here⟩ : ∃ phase, state.phase thread = phase := ⟨_, rfl⟩
  rw [here] at effect
  cases effect with
  | quiet sameState count open_ =>
      refine ⟨same.trans counts.configured, ?_, closesBefore open_ sameState (Nat.le_refl _), ?_⟩
      · rwa [count]
      · rw [sameState, count, same]
        exact counts.stale
  | exchanged found halfOpen count open_ =>
      refine ⟨same.trans counts.configured, ?_, fun other closing _ => ?_, fun _ _ _ => ?_⟩
      · rw [count]
        exact Nat.le_add_right _ _
      · rcases closing_of_update closing with ⟨-, closes⟩ | before
        · exact absurd closes open_
        · -- a thread that would close the new cycle contradicts the care
          rw [same]
          refine Nat.le_of_not_lt fun positive => ?_
          exact careful.exchange here found positive other before
      · rw [count]
        exact ⟨rfl, .inl rfl⟩
  | cleared sameState count open_ =>
      refine ⟨same.trans counts.configured, ?_, closesBefore open_ sameState (Nat.le_refl _),
        fun _ old => absurd rfl old⟩
      rw [count]
      exact Nat.zero_le _
  | left notHalfOpen count open_ =>
      refine ⟨same.trans counts.configured, ?_, fun other _ halfOpen => absurd halfOpen notHalfOpen,
        fun halfOpen => absurd halfOpen notHalfOpen⟩
      rwa [count]
  | counted sameState count closes =>
      refine ⟨same.trans counts.configured, ?_, fun other closing halfOpen => ?_,
        fun halfOpen old many => ?_⟩
      · rw [count]
        by_cases room : state.breaker.successCount.toNat < u64Max
        · rw [CircuitBreaker.toNat_fetchAdd room, if_pos room]
          exact Nat.succ_le_succ bound
        · rw [toNat_fetchAdd_full room]
          exact Nat.zero_le _
      · have wasHalfOpen := sameState.symm.trans halfOpen
        rw [same]
        rcases closing_of_update closing with ⟨-, closed⟩ | before
        · have reached := closes.mp closed
          by_cases few : state.breaker.config.successThreshold.toNat ≤ 1
          · exact Nat.le_trans few (Nat.le_add_left 1 _)
          · have clear := careful.count here wasHalfOpen (Nat.lt_of_not_le few) reached
            have next := reached.2
            show _ ≤ state.cycle.fresh + 1
            omega
        · exact Nat.le_succ_of_le (counts.closes other before wasHalfOpen)
      · have wasHalfOpen := sameState.symm.trans halfOpen
        rw [same] at many ⊢
        by_cases room : state.breaker.successCount.toNat < u64Max
        · rw [if_pos room] at old ⊢
          have below : state.breaker.successCount.toNat + 1 <
              state.breaker.config.successThreshold.toNat :=
            Nat.lt_of_not_le fun reached =>
              old (careful.count here wasHalfOpen many ⟨room, reached⟩)
          obtain ⟨sum, -⟩ := counts.stale wasHalfOpen old many
          rw [count, CircuitBreaker.toNat_fetchAdd room, sum]
          exact ⟨rfl, .inr (sum ▸ below)⟩
        · rw [if_neg room] at old
          exact absurd rfl old

/-- **A careful step keeps the counts.** -/
theorem Counts.step {op : BreakerOp Thread} (counts : Counts config state)
    (moved : CarefulStep state op next) : Counts config next := by
  obtain ⟨rfl, careful⟩ := moved
  cases op with
  | call thread entry =>
      rw [SharedBreaker.next]
      split
      · refine ⟨counts.configured, counts.bound, fun other closing halfOpen => ?_, counts.stale⟩
        rcases closing_of_update closing with ⟨-, closes⟩ | before
        · cases entry <;> cases found : state.breaker.state <;>
            simp [BreakerPhase.start, found] at closes
        · exact counts.closes other before halfOpen
      · exact counts
  | advance thread now =>
      exact counts.advance (careful thread now rfl) (BreakerPhase.config_step ..)
        (BreakerPhase.effect ..)

/-! ## Closing -/

/-- A step without care leads to a thread that is about to close the circuit too
early. -/
theorem Counts.early (counts : Counts config state) {thread : Thread} (now : BitVec 64)
    (careless : ¬ state.Careful thread) :
    ∃ other, (state.next (.advance thread now)).phase other = .close ∧
      (state.next (.advance thread now)).breaker.state = .halfOpen ∧
      (state.next (.advance thread now)).cycle.fresh < config.successThreshold.toNat := by
  have missed : (state.phase thread = .exchange ∧ state.breaker.state = .opened ∧
        1 ≤ state.breaker.config.successThreshold.toNat ∧
        ∃ other, state.phase other = .close) ∨
      (state.phase thread = .countSuccess ∧ state.breaker.state = .halfOpen ∧
        2 ≤ state.breaker.config.successThreshold.toNat ∧ state.breaker.ReachesThreshold ∧
        state.cycle.stale ≠ 0) := by
    by_contra neither
    rw [not_or] at neither
    exact careless ⟨fun phase found positive other closing =>
        neither.1 ⟨phase, found, positive, other, closing⟩,
      fun phase found many reached => by
        by_contra old
        exact neither.2 ⟨phase, found, many, reached, old⟩⟩
  rw [← counts.configured]
  rcases missed with ⟨phase, found, positive, other, closing⟩ |
    ⟨phase, found, many, reached, old⟩
  · have different : other ≠ thread := by
      rintro rfl
      rw [phase] at closing
      cases closing
    refine ⟨other, ?_, ?_, ?_⟩
    · exact (Function.update_of_ne different ..).trans closing
    · simp [SharedBreaker.next, phase, BreakerPhase.step_exchange, found]
    · have enough : 0 < state.breaker.config.successThreshold.toNat := positive
      simpa [SharedBreaker.next, phase, BreakerPhase.cycle, found] using enough
  · obtain ⟨sum, few⟩ := counts.stale found old many
    refine ⟨thread, ?_, ?_, ?_⟩
    · simp [SharedBreaker.next, phase, BreakerPhase.step_countSuccess, reached]
    · simp only [SharedBreaker.next, phase, BreakerPhase.step_countSuccess]
      exact found
    · simp only [SharedBreaker.next, phase, BreakerPhase.cycle]
      omega

/-- **The half-open circuit closes on fresh successes when every step is careful**,
and a run with a step without care has a state in which a thread is about to close
it too early. -/
theorem closes_on_fresh_successes (config : CircuitBreakerConfig) :
    (∀ actions (state : SharedBreaker Thread), Run CarefulStep (new config) actions state →
      ∀ thread now, state.phase thread = .close → state.breaker.state = .halfOpen →
        (state.next (.advance thread now)).breaker.state = .closed ∧
          config.successThreshold.toNat ≤ state.cycle.fresh) ∧
      ∀ actions (state : SharedBreaker Thread), Run CarefulStep (new config) actions state →
        ∀ thread now, ¬ state.Careful thread →
          ∃ other, (state.next (.advance thread now)).phase other = .close ∧
            (state.next (.advance thread now)).breaker.state = .halfOpen ∧
            (state.next (.advance thread now)).cycle.fresh < config.successThreshold.toNat := by
  have kept : ∀ actions (state : SharedBreaker Thread),
      Run CarefulStep (new config) actions state → Counts config state := fun actions state run =>
    run.invariant (fun _ state => Counts config state) (.new config)
      fun _ before moved => before.step moved
  constructor
  · intro actions state run thread now closing halfOpen
    have counts := kept actions state run
    constructor
    · simp [SharedBreaker.next, closing, BreakerPhase.step]
    · rw [← counts.configured]
      exact counts.closes thread closing halfOpen
  · intro actions state run thread now careless
    exact (kept actions state run).early now careless

/-- Whether the step is careful. -/
def careful [Fintype Thread] (state : SharedBreaker Thread) : BreakerOp Thread → Bool
  | .call _ _ => true
  | .advance thread _ => decide (state.Careful thread)

theorem carefulStep_of_careful [Fintype Thread] (state : SharedBreaker Thread)
    (op : BreakerOp Thread) (passed : state.careful op = true) :
    CarefulStep state op (state.next op) := by
  refine ⟨rfl, fun thread now same => ?_⟩
  subst same
  exact of_decide_eq_true passed

/-- One thread fails, checks and succeeds twice. -/
def closingOps : List (BreakerOp Bool) :=
  .call false .recordFailure :: List.replicate 3 (.advance false 0) ++
    .call false .check :: List.replicate 3 (.advance false 0) ++
    [.call false .recordSuccess, .advance false 0, .call false .recordSuccess, .advance false 0]

/-- Then it closes the circuit, fails and checks again, and has made the exchange. -/
def reopeningOps : List (BreakerOp Bool) :=
  closingOps ++ List.replicate 2 (.advance false 0) ++
    .call false .recordFailure :: List.replicate 3 (.advance false 0) ++
    .call false .check :: List.replicate 2 (.advance false 0)

theorem closes_on_fresh_successes_witness :
    (∃ state : SharedBreaker Bool, Run CarefulStep (new ⟨1, .fromSecs 0, 2⟩) closingOps state ∧
        state.phase false = .close ∧ (2#64).toNat ≤ state.cycle.fresh) ∧
      ∃ (state : SharedBreaker Bool) (other : Bool),
        Run CarefulStep (new ⟨1, .fromSecs 0, 2⟩) (reopeningOps ++ [.call true .recordSuccess])
          state ∧
        (state.next (.advance true 0)).phase other = .close ∧
        (state.next (.advance true 0)).cycle.fresh < (2#64).toNat := by
  obtain ⟨closes, early⟩ := @closes_on_fresh_successes Bool _ ⟨1, .fromSecs 0, 2⟩
  constructor
  · have run := Run.of_plays carefulStep_of_careful
      (show plays careful SharedBreaker.next (new ⟨1, .fromSecs 0, 2⟩) closingOps = true by
        decide +kernel)
    exact ⟨_, run, by decide +kernel,
      (closes _ _ run false 0 (by decide +kernel) (by decide +kernel)).2⟩
  · have run := Run.of_plays carefulStep_of_careful
      (show plays careful SharedBreaker.next (new ⟨1, .fromSecs 0, 2⟩)
        (reopeningOps ++ [.call true .recordSuccess]) = true by decide +kernel)
    obtain ⟨other, closing, -, few⟩ := early _ _ run true 0 (by decide +kernel)
    exact ⟨_, other, run, closing, few⟩

/-- After the exchange of the second cycle and before the counter is cleared, another
thread counts one success: with the two of the first cycle it closes the circuit. -/
theorem second_cycle_closes_early : ∃ state : SharedBreaker Bool,
    Run Step (new ⟨1, .fromSecs 0, 2⟩)
      (reopeningOps ++ [.call true .recordSuccess, .advance true 0]) state ∧
    state.phase true = .close ∧ state.breaker.state = .halfOpen ∧
    (state.next (.advance true 0)).breaker.state = .closed ∧ state.cycle.fresh = 1 := by
  have sound : ∀ (state : SharedBreaker Bool) (op : BreakerOp Bool),
      Step state op (state.next op) := fun _ _ => rfl
  refine ⟨_, Run.of_foldl sound _ _, ?_, ?_, ?_, ?_⟩
  · decide +kernel
  · decide +kernel
  · decide +kernel
  · decide +kernel

end SharedBreaker

end FusionGraph
