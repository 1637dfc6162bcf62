import FusionGraph.Core.BreakerRaces
import Mathlib.Data.Finset.Card

/-!
# Failures that are recorded at the same time

While only failures are recorded, no failure is lost between the threads: the circuit is
open exactly from the one on that reaches the threshold
(`SharedBreaker.failures_open_at_threshold`). Requests may be checked meanwhile, as long as
none finds the timeout elapsed.

Until a thread is about to open the circuit, the calls that have started are those that have
counted and those that are about to. The counter is below the threshold then, so the
addition does not overflow.
-/

set_option autoImplicit false

namespace FusionGraph

open Foundations

/-- The calls that record a failure. -/
def BreakerOp.failures {Thread : Type} (ops : List (BreakerOp Thread)) : ℕ :=
  ops.countP fun
    | .call _ .recordFailure => true
    | _ => false

/-- The number of failures that opens the circuit. -/
def CircuitBreakerConfig.opensAt (self : CircuitBreakerConfig) : ℕ :=
  max 1 self.failureThreshold.toNat

namespace BreakerPhase

/-- The call opens the circuit. -/
def Opens (phase : BreakerPhase) : Prop := phase = storeFailureTime true ∨ phase = trip

/-- The phases of checks that do not find the timeout elapsed, and of failures in a circuit
that is not half-open. -/
def Fails : BreakerPhase → Prop
  | idle => True
  | loadFailureTime => True
  | countFailure => True
  | storeFailureTime _ => True
  | trip => True
  | _ => False

theorem fails_start (found : CircuitState) {entry : BreakerEntry} (open_ : found ≠ .halfOpen)
    (failing : entry ≠ .recordSuccess) : (start found entry).Fails := by
  cases entry with
  | recordSuccess => exact absurd rfl failing
  | check => cases found <;> trivial
  | recordFailure =>
    cases found with
    | halfOpen => exact absurd rfl open_
    | _ => trivial

/-- What such a step can do to the state, and to a call that opens the circuit. -/
theorem Fails.step {phase : BreakerPhase} (fails : phase.Fails) (self : CircuitBreaker)
    (now : BitVec 64) (early : phase = .loadFailureTime →
      ¬ self.resetTimeoutMillis ≤ saturatingSub now self.lastFailureTime) :
    (phase.step self now).2.Fails ∧
      ((phase.step self now).1.state = self.state ∧ (phase.Opens → (phase.step self now).2.Opens) ∨
        (phase.step self now).1.state = .opened) := by
  have neither : ∀ {phase : BreakerPhase}, phase ≠ storeFailureTime true → phase ≠ trip →
      ¬ phase.Opens := fun notStore notTrip opens => opens.elim notStore notTrip
  cases phase with
  | idle => exact ⟨trivial, .inl ⟨rfl, id⟩⟩
  | loadFailureTime =>
    rw [BreakerPhase.step, if_neg (early rfl)]
    exact ⟨trivial, .inl ⟨rfl, fun opens => absurd opens (neither (by simp) (by simp))⟩⟩
  | countFailure =>
    rw [BreakerPhase.step]
    split
    · exact ⟨trivial, .inl ⟨rfl, fun opens => absurd opens (neither (by simp) (by simp))⟩⟩
    · exact ⟨trivial, .inl ⟨rfl, fun opens => absurd opens (neither (by simp) (by simp))⟩⟩
  | storeFailureTime opens =>
    cases opens with
    | true => exact ⟨trivial, .inl ⟨rfl, fun _ => .inr rfl⟩⟩
    | false => exact ⟨trivial, .inl ⟨rfl, fun opens => absurd opens (neither (by simp) (by simp))⟩⟩
  | trip => exact ⟨trivial, .inr (self.state_storeState .opened)⟩
  | _ => exact fails.elim

end BreakerPhase

namespace SharedBreaker

variable {Thread : Type} [DecidableEq Thread]

/-- A thread between two calls starts one that is no success, or a thread takes a step that
does not find the timeout elapsed. -/
def FailingStep (self : SharedBreaker Thread) (op : BreakerOp Thread)
    (next : SharedBreaker Thread) : Prop :=
  Step self op next ∧
    match op with
    | .call thread entry => self.phase thread = .idle ∧ entry ≠ .recordSuccess
    | .advance thread now => self.phase thread = .loadFailureTime →
      ¬ self.breaker.resetTimeoutMillis ≤ saturatingSub now self.breaker.lastFailureTime

/-- No thread is about to open the circuit, and every failure was counted or is about to be. -/
structure Counting (calls : ℕ) (state : SharedBreaker Thread) : Prop where
  closed : state.breaker.state = .closed
  quiet : ∀ thread, ¬ (state.phase thread).Opens
  counted : ∃ waiting : Finset Thread, (∀ thread, thread ∈ waiting ↔
    state.phase thread = .countFailure) ∧ state.breaker.failureCount.toNat + waiting.card = calls
  few : state.breaker.failureCount.toNat < state.breaker.config.opensAt

/-- The circuit is open or about to be opened, after enough failures. -/
structure Reached (calls : ℕ) (state : SharedBreaker Thread) : Prop where
  opens : state.breaker.state = .opened ∨
    state.breaker.state = .closed ∧ ∃ thread, (state.phase thread).Opens
  many : state.breaker.config.opensAt ≤ calls

/-- What holds while only failures are recorded. -/
structure Failing (config : CircuitBreakerConfig) (calls : ℕ) (state : SharedBreaker Thread) :
    Prop where
  configured : state.breaker.config = config
  fails : ∀ thread, (state.phase thread).Fails
  cases : state.Counting calls ∨ state.Reached calls

variable {config : CircuitBreakerConfig} {state next : SharedBreaker Thread} {calls : ℕ}
  {op : BreakerOp Thread} {thread : Thread} {ops : List (BreakerOp Thread)}

omit [DecidableEq Thread] in
theorem Failing.new : Failing config 0 (SharedBreaker.new config : SharedBreaker Thread) where
  configured := rfl
  fails _ := trivial
  cases := by
    refine .inl ⟨rfl, fun thread => ?_, ⟨∅, by simp [SharedBreaker.new], rfl⟩, ?_⟩
    · rintro (opens | opens) <;> cases opens
    · exact Nat.lt_of_lt_of_le Nat.zero_lt_one (Nat.le_max_left ..)

/-- A call that starts. -/
theorem next_call {entry : BreakerEntry} (idle : state.phase thread = .idle) :
    state.next (.call thread entry) = { state with
      phase := Function.update state.phase thread (.start state.breaker.state entry) } :=
  if_pos idle

/-- Phases after a step that leaves a thread in a phase in which it counts no failure. -/
theorem mem_waiting_erase {waiting : Finset Thread}
    (exact_ : ∀ other, other ∈ waiting ↔ state.phase other = .countFailure) {left : BreakerPhase}
    (counted : left ≠ .countFailure) (other : Thread) :
    other ∈ waiting.erase thread ↔
      Function.update state.phase thread left other = .countFailure := by
  rw [Finset.mem_erase, exact_]
  by_cases same : other = thread
  · subst same
    simp [counted]
  · simp [same]

/-- A step of a call that is not about to count keeps the counts. -/
theorem Counting.skip (counting : state.Counting calls) {after : CircuitBreaker}
    {cycle : BreakerCycle} {left : BreakerPhase} (before : state.phase thread ≠ .countFailure)
    (stays : left ≠ .countFailure) (closed : ¬ left.Opens)
    (same : after.state = state.breaker.state)
    (count : after.failureCount = state.breaker.failureCount)
    (config : after.config = state.breaker.config) :
    Counting calls ⟨after, Function.update state.phase thread left, cycle⟩ := by
  obtain ⟨waiting, exact_, total⟩ := counting.counted
  refine ⟨same.trans counting.closed, fun other => ?_, ⟨waiting, fun other => ?_, ?_⟩, ?_⟩
  · by_cases here : other = thread
    · subst here
      simpa using closed
    · simpa [here] using counting.quiet other
  · rw [← mem_waiting_erase exact_ stays other, Finset.erase_eq_of_notMem]
    exact fun member => before ((exact_ thread).mp member)
  · rw [count]
    exact total
  · rw [count, config]
    exact counting.few

/-- The step that counts a failure. -/
theorem Counting.count (counting : state.Counting calls) (now : BitVec 64)
    (phase : state.phase thread = .countFailure) :
    Counting calls (state.next (.advance thread now)) ∨
      Reached calls (state.next (.advance thread now)) := by
  obtain ⟨waiting, exact_, total⟩ := counting.counted
  have member : thread ∈ waiting := (exact_ thread).mpr phase
  have few := counting.few
  have room : state.breaker.failureCount.toNat + 1 ≤ u64Max := by
    have bound := state.breaker.config.failureThreshold.isLt
    simp only [CircuitBreakerConfig.opensAt] at few
    simp only [u64Max]
    omega
  have size := Finset.card_pos.mpr ⟨thread, member⟩
  have stepped : state.next (.advance thread now) =
      ⟨{ state.breaker with failureCount := state.breaker.failureCount + 1 },
        Function.update state.phase thread (.storeFailureTime (decide
          (state.breaker.config.failureThreshold.toNat ≤
            state.breaker.failureCount.toNat + 1))), state.cycle⟩ := by
    simp only [SharedBreaker.next, phase, BreakerPhase.step, BreakerPhase.cycle,
      Checked.add_of_le room]
  rw [stepped]
  by_cases enough : state.breaker.config.failureThreshold.toNat ≤
      state.breaker.failureCount.toNat + 1
  · refine .inr ⟨.inr ⟨counting.closed, thread, .inl ?_⟩, ?_⟩
    · exact (Function.update_self ..).trans (by rw [decide_eq_true enough])
    · simp only [CircuitBreakerConfig.opensAt]
      omega
  · have counted : (state.breaker.failureCount + 1).toNat =
        state.breaker.failureCount.toNat + 1 := CircuitBreaker.toNat_fetchAdd room
    refine .inl ⟨counting.closed, fun other => ?_, ⟨waiting.erase thread, fun other => ?_, ?_⟩, ?_⟩
    · dsimp only
      by_cases here : other = thread
      · subst here
        rw [Function.update_self, decide_eq_false enough]
        rintro (opens | opens) <;> cases opens
      · rw [Function.update_of_ne here]
        exact counting.quiet other
    · exact mem_waiting_erase exact_ (by simp) other
    · rw [counted, Finset.card_erase_of_mem member]
      omega
    · rw [counted]
      simp only [CircuitBreakerConfig.opensAt]
      omega

/-- A step of a call in the circuit that was not opened yet. -/
theorem Counting.advance (counting : state.Counting calls) (now : BitVec 64)
    (fails : (state.phase thread).Fails) (early : state.phase thread = .loadFailureTime →
      ¬ state.breaker.resetTimeoutMillis ≤ saturatingSub now state.breaker.lastFailureTime) :
    Counting calls (state.next (.advance thread now)) ∨
      Reached calls (state.next (.advance thread now)) := by
  have idle : ¬ BreakerPhase.idle.Opens := by rintro (opens | opens) <;> cases opens
  cases phase : state.phase thread with
  | idle =>
    refine .inl ?_
    simp only [SharedBreaker.next, phase, BreakerPhase.step]
    exact counting.skip (by simp [phase]) (by simp) idle rfl rfl rfl
  | loadFailureTime =>
    refine .inl ?_
    simp only [SharedBreaker.next, phase, BreakerPhase.step, if_neg (early phase)]
    exact counting.skip (by simp [phase]) (by simp) idle rfl rfl rfl
  | countFailure => exact counting.count now phase
  | storeFailureTime opens =>
    cases opens with
    | true => exact absurd (.inl phase) (counting.quiet thread)
    | false =>
      refine .inl ?_
      simp only [SharedBreaker.next, phase, BreakerPhase.step]
      exact counting.skip (by simp [phase]) (by simp) idle rfl rfl rfl
  | trip => exact absurd (.inr phase) (counting.quiet thread)
  | _ =>
    rw [phase] at fails
    exact fails.elim

/-- A circuit that is opened stays so, and one about to be opened is opened. -/
theorem Reached.advance (reached : state.Reached calls) (now : BitVec 64)
    (fails : (state.phase thread).Fails) (early : state.phase thread = .loadFailureTime →
      ¬ state.breaker.resetTimeoutMillis ≤ saturatingSub now state.breaker.lastFailureTime) :
    Reached calls (state.next (.advance thread now)) := by
  obtain ⟨-, ⟨same, carries⟩ | opened⟩ := fails.step state.breaker now early
  · refine ⟨?_, ?_⟩
    · rcases reached.opens with opened | ⟨closed, other, opens⟩
      · exact .inl (same.trans opened)
      · refine .inr ⟨same.trans closed, other, ?_⟩
        by_cases here : other = thread
        · subst here
          simpa [SharedBreaker.next] using carries opens
        · simpa [SharedBreaker.next, here] using opens
    · exact (congrArg _ (BreakerPhase.config_step ..)).trans_le reached.many
  · refine ⟨.inl opened, ?_⟩
    exact (congrArg _ (BreakerPhase.config_step ..)).trans_le reached.many

/-- A call that starts is one that is about to count, when the circuit is closed. -/
theorem Counting.call (counting : state.Counting calls) {entry : BreakerEntry}
    (idle : state.phase thread = .idle) (failing : entry ≠ .recordSuccess) :
    Counting (calls + BreakerOp.failures [.call thread entry])
      (state.next (.call thread entry)) := by
  obtain ⟨waiting, exact_, total⟩ := counting.counted
  have fresh : thread ∉ waiting := fun member => by
    have counts := (exact_ thread).mp member
    rw [idle] at counts
    cases counts
  rw [next_call idle, counting.closed]
  cases entry with
  | recordSuccess => exact absurd rfl failing
  | check =>
    refine counting.skip (by simp [idle]) (by simp [BreakerPhase.start]) ?_ rfl rfl rfl
    rintro (opens | opens) <;> cases opens
  | recordFailure =>
    refine ⟨counting.closed, fun other => ?_, ⟨insert thread waiting, fun other => ?_, ?_⟩,
      counting.few⟩
    · dsimp only
      by_cases here : other = thread
      · subst here
        rw [Function.update_self]
        rintro (opens | opens) <;> cases opens
      · rw [Function.update_of_ne here]
        exact counting.quiet other
    · dsimp only
      rw [Finset.mem_insert, exact_]
      by_cases here : other = thread
      · subst here
        simp [BreakerPhase.start]
      · simp [here]
    · rw [Finset.card_insert_of_notMem fresh, ← Nat.add_assoc, total]
      rfl

/-- **A step keeps the counts of failures.** -/
theorem Failing.step (failing : Failing config calls state) (moved : FailingStep state op next) :
    Failing config (calls + BreakerOp.failures [op]) next := by
  obtain ⟨rfl, allowed⟩ := moved
  cases op with
  | call thread entry =>
    obtain ⟨idle, noSuccess⟩ := allowed
    have closedOrOpen : state.breaker.state ≠ .halfOpen := by
      intro halfOpen
      rcases failing.cases with counting | reached
      · cases counting.closed.symm.trans halfOpen
      · rcases reached.opens with opened | ⟨closed, -⟩
        · cases opened.symm.trans halfOpen
        · cases closed.symm.trans halfOpen
    refine ⟨?_, fun other => ?_, ?_⟩
    · rw [next_call idle]
      exact failing.configured
    · rw [next_call idle]
      by_cases here : other = thread
      · subst here
        simpa using BreakerPhase.fails_start _ closedOrOpen noSuccess
      · simpa [here] using failing.fails other
    · refine failing.cases.imp (fun counting => counting.call idle noSuccess) fun reached => ?_
      rw [next_call idle]
      refine ⟨reached.opens.imp_right fun ⟨closed, other, opens⟩ => ⟨closed, other, ?_⟩,
        reached.many.trans (Nat.le_add_right ..)⟩
      have different : other ≠ thread := by
        rintro rfl
        rw [idle] at opens
        rcases opens with opens | opens <;> cases opens
      simpa [different] using opens
  | advance thread now =>
    have fails := failing.fails thread
    refine ⟨(BreakerPhase.config_step ..).trans failing.configured, fun other => ?_, ?_⟩
    · by_cases here : other = thread
      · subst here
        simpa [SharedBreaker.next] using (fails.step state.breaker now allowed).1
      · simpa [SharedBreaker.next, here] using failing.fails other
    · rcases failing.cases with counting | reached
      · exact counting.advance now fails allowed
      · exact .inr (reached.advance now fails allowed)

/-- **Concurrent failures open the circuit exactly at the threshold.** In every interleaving
of calls that record failures with checks that do not find the timeout elapsed: the circuit
opens only when enough of these calls have started, and once no call is in progress it is
open if there were enough of them, and otherwise closed with a counter that has them all. -/
theorem failures_open_at_threshold (config : CircuitBreakerConfig)
    (run : Run FailingStep (SharedBreaker.new config) ops state) :
    (state.breaker.state = .opened → config.opensAt ≤ BreakerOp.failures ops) ∧
    ((∀ thread, state.phase thread = .idle) →
      (state.breaker.state = .opened ↔ config.opensAt ≤ BreakerOp.failures ops) ∧
      (BreakerOp.failures ops < config.opensAt → state.breaker.state = .closed ∧
        state.breaker.failureCount.toNat = BreakerOp.failures ops)) := by
  have failing := run.invariant
    (fun ops (state : SharedBreaker Thread) => Failing config (BreakerOp.failures ops) state)
    .new fun _ failing moved => by
      rw [BreakerOp.failures, List.countP_append]
      exact failing.step moved
  have many : state.Reached (BreakerOp.failures ops) →
      config.opensAt ≤ BreakerOp.failures ops := fun reached => failing.configured ▸ reached.many
  constructor
  · intro opened
    rcases failing.cases with counting | reached
    · cases counting.closed.symm.trans opened
    · exact many reached
  · intro idle
    rcases failing.cases with counting | reached
    · obtain ⟨waiting, exact_, total⟩ := counting.counted
      have none : waiting = ∅ := Finset.eq_empty_of_forall_notMem fun thread member => by
        have counts := (exact_ thread).mp member
        rw [idle thread] at counts
        cases counts
      rw [none, Finset.card_empty, Nat.add_zero] at total
      have few := counting.few
      rw [failing.configured, total] at few
      refine ⟨⟨fun opened => ?_, fun enough => absurd enough (Nat.not_le_of_lt few)⟩,
        fun _ => ⟨counting.closed, total⟩⟩
      cases counting.closed.symm.trans opened
    · have opened : state.breaker.state = .opened := by
        refine reached.opens.resolve_right ?_
        rintro ⟨-, thread, opens⟩
        rw [idle thread] at opens
        rcases opens with opens | opens <;> cases opens
      exact ⟨⟨fun _ => many reached, fun _ => opened⟩,
        fun few => absurd (many reached) (Nat.not_le_of_lt few)⟩

/-- Two threads record a failure each, and both count before either opens the circuit. -/
def doubleFailure : List (BreakerOp Bool) :=
  [.call false .recordFailure, .call true .recordFailure, .advance true 0, .advance false 0,
    .advance true 0, .advance false 0, .advance false 0]

/-- Whether the step is one that records failures. -/
def failing (state : SharedBreaker Bool) : BreakerOp Bool → Bool
  | .call thread entry => decide (state.phase thread = .idle ∧ entry ≠ .recordSuccess)
  | .advance thread now => decide (state.phase thread = .loadFailureTime →
      ¬ state.breaker.resetTimeoutMillis ≤ saturatingSub now state.breaker.lastFailureTime)

theorem failingStep_of_failing (state : SharedBreaker Bool) (op : BreakerOp Bool)
    (passed : failing state op = true) : FailingStep state op (state.next op) := by
  refine ⟨rfl, ?_⟩
  cases op with
  | call thread entry => exact of_decide_eq_true passed
  | advance thread now => exact of_decide_eq_true passed

theorem failures_open_at_threshold_witness : ∃ state : SharedBreaker Bool,
    Run FailingStep (new ⟨2, .fromSecs 30, 2⟩) doubleFailure state ∧
      state.breaker.state = .opened := by
  have run := Run.of_plays failingStep_of_failing
    (show plays failing SharedBreaker.next (new ⟨2, .fromSecs 30, 2⟩) doubleFailure = true by
      decide +kernel)
  exact ⟨_, run, ((failures_open_at_threshold ⟨2, .fromSecs 30, 2⟩ run).2 (by decide +kernel)).1.mpr
    (by decide)⟩

end SharedBreaker

end FusionGraph
