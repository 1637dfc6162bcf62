import FusionGraph.Core.BreakerAutomaton

/-!
# The timeout of the circuit breaker in milliseconds

The breaker compares a number of milliseconds with the time that has passed. It
takes the number from the configured duration, without the part below a
millisecond, and cuts it to 64 bits. So the circuit becomes half-open before its
timeout has passed exactly when the duration has such a part or does not fit.
-/

set_option autoImplicit false

namespace FusionGraph

open Foundations

namespace Duration

/-- The length of a duration in nanoseconds. -/
def toNanos (self : Duration) : ℕ := self.secs.toNat * 1000000000 + self.nanos

/-- The duration is a whole number of milliseconds, and the number has 64 bits. -/
def IsMillis (self : Duration) : Prop := self.nanos % 1000000 = 0 ∧ self.asMillis ≤ u64Max

/-- A duration is its milliseconds and a part of less than one. -/
theorem toNanos_eq (self : Duration) :
    self.toNanos = self.asMillis * 1000000 + self.nanos % 1000000 := by
  rw [toNanos, asMillis]
  omega

/-- The milliseconds cut to 64 bits are as long as the duration exactly when nothing
is cut off. -/
theorem toNanos_le_iff (self : Duration) :
    self.toNanos ≤ (BitVec.ofNat 64 self.asMillis).toNat * 1000000 ↔ self.IsMillis := by
  rw [toNanos_eq, BitVec.toNat_ofNat, IsMillis]
  have cut := Nat.mod_le self.asMillis (2 ^ 64)
  constructor
  · intro long
    have whole : self.asMillis % 2 ^ 64 = self.asMillis := by omega
    have below := Nat.mod_lt self.asMillis (show 0 < 2 ^ 64 by decide)
    simp only [u64Max]
    omega
  · rintro ⟨whole, fits⟩
    refine Nat.le_of_eq ?_
    rw [whole, Nat.mod_eq_of_lt (Nat.lt_succ_of_le fits), Nat.add_zero]

end Duration

/-- In every run, a check that passes while the circuit is open comes at least the
reset timeout after the failure that opened it. -/
def CircuitBreakerConfig.NeverEarly (config : CircuitBreakerConfig) : Prop :=
  ∀ calls observed, Run ObservedBreaker.Step (.new config) calls observed → ∀ now,
    observed.breaker.state = .opened → (observed.breaker.call (.check now)).2 = .ok ⟨⟩ →
    config.resetTimeout.toNanos ≤ (now.toNat - observed.history.openedAt) * 1000000

/-! ## The time that an open breaker remembers -/

/-- A call that leaves the circuit open has found it open and left everything as it
was, or has opened it and stored its reading of the clock. -/
theorem CircuitBreaker.call_opened {breaker : CircuitBreaker} {call : BreakerCall}
    (isOpen : (breaker.call call).1.state = .opened) :
    (breaker.state = .opened ∧ (breaker.call call).1 = breaker) ∨
      breaker.state ≠ .opened ∧ (breaker.call call).1.lastFailureTime.toNat = call.reading := by
  cases call with
  | check now =>
      rw [CircuitBreaker.call] at isOpen ⊢
      by_cases found : breaker.state = .opened
      · rw [check_of_opened found] at isOpen ⊢
        split at isOpen
        · next early =>
          rw [if_pos early]
          exact .inl ⟨found, rfl⟩
        · have half := (breaker.state_storeState .halfOpen).symm.trans isOpen
          cases half
      · rw [check_of_ne_opened found] at isOpen
        exact absurd isOpen found
  | recordSuccess =>
      rw [CircuitBreaker.call] at isOpen ⊢
      cases found : breaker.state with
      | closed =>
          rw [recordSuccess_of_closed found] at isOpen
          cases found.symm.trans isOpen
      | opened =>
          rw [recordSuccess_of_opened found]
          exact .inl ⟨rfl, rfl⟩
      | halfOpen =>
          simp only [recordSuccess, found] at isOpen
          split at isOpen
          · cases found.symm.trans isOpen
          · split at isOpen
            · cases (breaker.state_storeState .closed).symm.trans isOpen
            · cases found.symm.trans isOpen
  | recordFailure now =>
      rw [CircuitBreaker.call] at isOpen ⊢
      cases found : breaker.state with
      | closed =>
          simp only [recordFailure, found] at isOpen ⊢
          split at isOpen
          · cases found.symm.trans isOpen
          · split at isOpen
            · next enough =>
              rw [if_pos enough]
              exact .inr ⟨by simp, rfl⟩
            · cases found.symm.trans isOpen
      | opened =>
          rw [recordFailure_of_opened found]
          exact .inl ⟨rfl, rfl⟩
      | halfOpen =>
          rw [recordFailure_of_halfOpen found]
          exact .inr ⟨by simp, rfl⟩
  | reset => cases (breaker.state_storeState .closed).symm.trans isOpen

theorem CircuitBreaker.config_call (breaker : CircuitBreaker) (call : BreakerCall) :
    (breaker.call call).1.config = breaker.config := by
  cases call with
  | check now =>
      rw [CircuitBreaker.call]
      by_cases found : breaker.state = .opened
      · rw [check_of_opened found]
        split <;> rfl
      · rw [check_of_ne_opened found]
  | recordSuccess =>
      simp only [CircuitBreaker.call, recordSuccess]
      split
      · rfl
      · split
        · rfl
        · split <;> rfl
      · rfl
  | recordFailure now =>
      simp only [CircuitBreaker.call, recordFailure]
      split
      · split
        · rfl
        · split <;> rfl
      · rfl
      · rfl
  | reset => rfl

/-- The breaker has its configuration, and an open one remembers when it was opened. -/
structure RemembersOpening (config : CircuitBreakerConfig) (observed : ObservedBreaker) : Prop where
  configured : observed.breaker.config = config
  state : observed.breaker.state = observed.history.state
  openedAt : observed.breaker.state = .opened →
    observed.breaker.lastFailureTime.toNat = observed.history.openedAt

namespace RemembersOpening

variable {config : CircuitBreakerConfig} {observed : ObservedBreaker}

theorem new (config : CircuitBreakerConfig) : RemembersOpening config (.new config) where
  configured := rfl
  state := rfl
  openedAt isOpen := by cases isOpen

/-- **Every call keeps what an open breaker remembers.** -/
theorem after (remembers : RemembersOpening config observed) (call : BreakerCall) :
    RemembersOpening config (observed.after call) where
  configured := (observed.breaker.config_call call).trans remembers.configured
  state := rfl
  openedAt isOpen := by
    have left : (observed.breaker.call call).1.state = .opened := isOpen
    rw [ObservedBreaker.after, BreakerHistory.openedAt, left, ← remembers.state]
    rcases CircuitBreaker.call_opened left with ⟨was, same⟩ | ⟨notOpen, stored⟩
    · rw [if_neg fun fresh => fresh.2 was, same]
      exact remembers.openedAt was
    · rw [if_pos ⟨rfl, notOpen⟩]
      exact stored

theorem of_run {calls : List BreakerCall}
    (run : Run ObservedBreaker.Step (.new config) calls observed) :
    RemembersOpening config observed :=
  run.invariant (fun _ observed => RemembersOpening config observed) (.new config)
    fun _ before moved => moved ▸ before.after _

end RemembersOpening

/-! ## Opening the circuit -/

/-- A failure of a closed circuit is counted, and opens the circuit when it reaches
the threshold. -/
theorem failure_counted {config : CircuitBreakerConfig} {calls : List BreakerCall}
    {observed : ObservedBreaker} (run : Run ObservedBreaker.Step (.new config) calls observed)
    (isClosed : observed.breaker.state = .closed)
    (few : observed.breaker.failureCount.toNat = 0 ∨
      observed.breaker.failureCount.toNat < config.failureThreshold.toNat) :
    observed.breaker.failureCount.toNat < u64Max ∧
      observed.breaker.call (.recordFailure 0) =
        (if config.failureThreshold.toNat ≤ observed.breaker.failureCount.toNat + 1 then
          { observed.breaker.storeState .opened with
            failureCount := observed.breaker.failureCount + 1, lastFailureTime := 0 }
        else { observed.breaker with
          failureCount := observed.breaker.failureCount + 1, lastFailureTime := 0 }, .ok ⟨⟩) := by
  have bound := config.failureThreshold.isLt
  have room : observed.breaker.failureCount.toNat < u64Max := by
    simp only [u64Max]
    omega
  refine ⟨room, ?_⟩
  rw [← (RemembersOpening.of_run run).configured]
  exact CircuitBreaker.recordFailure_of_closed isClosed room 0

/-- Fewer failures than the threshold are counted and leave the circuit closed. -/
theorem exists_closed {config : CircuitBreakerConfig} {count : ℕ}
    (few : count = 0 ∨ count < config.failureThreshold.toNat) :
    ∃ observed, Run ObservedBreaker.Step (.new config) (List.replicate count (.recordFailure 0))
      observed ∧ observed.breaker.state = .closed ∧ observed.breaker.failureCount.toNat = count := by
  induction count with
  | zero => exact ⟨.new config, .start, rfl, rfl⟩
  | succ count ih =>
      have fewer : count + 1 < config.failureThreshold.toNat :=
        few.resolve_left (Nat.succ_ne_zero count)
      obtain ⟨observed, run, isClosed, counted⟩ := ih (.inr (Nat.lt_of_succ_lt fewer))
      obtain ⟨room, effect⟩ := failure_counted run isClosed
        (.inr (by rw [counted]; exact Nat.lt_of_succ_lt fewer))
      rw [counted, if_neg (Nat.not_le_of_lt fewer)] at effect
      refine ⟨observed.after (.recordFailure 0), ?_, ?_, ?_⟩
      · rw [List.replicate_succ']
        exact run.step rfl
      · rw [ObservedBreaker.after, effect]
        exact isClosed
      · rw [ObservedBreaker.after, effect]
        exact (CircuitBreaker.toNat_fetchAdd room).trans (congrArg Nat.succ counted)

/-- As many failures as the threshold, at least one, open the circuit. -/
theorem exists_opened (config : CircuitBreakerConfig) :
    ∃ calls observed, Run ObservedBreaker.Step (.new config) calls observed ∧
      observed.breaker.state = .opened ∧ observed.breaker.lastFailureTime.toNat = 0 := by
  obtain ⟨observed, run, isClosed, counted⟩ :=
    @exists_closed config (config.failureThreshold.toNat - 1) (by omega)
  obtain ⟨-, effect⟩ := failure_counted run isClosed (by omega)
  rw [counted, if_pos (by omega)] at effect
  refine ⟨_, observed.after (.recordFailure 0), run.step rfl, ?_, ?_⟩
  · rw [ObservedBreaker.after, effect]
    exact observed.breaker.state_storeState .opened
  · rw [ObservedBreaker.after, effect]
    rfl

/-- **The breaker is never early exactly when its timeout is a whole number of
milliseconds that has 64 bits.** -/
theorem neverEarly_iff_isMillis (config : CircuitBreakerConfig) :
    config.NeverEarly ↔ config.resetTimeout.IsMillis := by
  rw [← Duration.toNanos_le_iff]
  constructor
  · intro never
    -- the shortest time after which a check passes
    obtain ⟨calls, observed, run, isOpen, stored⟩ := exists_opened config
    have remembers := RemembersOpening.of_run run
    have openedAt := remembers.openedAt isOpen
    have timeout : observed.breaker.resetTimeoutMillis =
        BitVec.ofNat 64 config.resetTimeout.asMillis := by
      rw [CircuitBreaker.resetTimeoutMillis, remembers.configured]
    rw [stored] at openedAt
    have long := never calls observed run (BitVec.ofNat 64 config.resetTimeout.asMillis) isOpen <| by
      rw [CircuitBreaker.call, CircuitBreaker.check_of_opened isOpen, timeout, stored,
        Nat.sub_zero, if_neg (Nat.lt_irrefl _)]
    rwa [← openedAt] at long
  · intro long calls observed run now isOpen passed
    have remembers := RemembersOpening.of_run run
    rw [CircuitBreaker.call, CircuitBreaker.check_of_opened isOpen, remembers.openedAt isOpen,
      CircuitBreaker.resetTimeoutMillis, remembers.configured] at passed
    split at passed
    · cases passed
    · next late =>
      exact Nat.le_trans long (Nat.mul_le_mul_right _ (Nat.le_of_not_lt late))

/-- A timeout of half a millisecond does not keep the circuit open at all. -/
theorem half_millisecond_is_early : ∃ observed,
    Run ObservedBreaker.Step (.new ⟨1, ⟨0, 500000, by decide⟩, 2⟩) [.recordFailure 1000] observed ∧
      observed.breaker.state = .opened ∧ observed.history.openedAt = 1000 ∧
      (observed.breaker.call (.check 1000)).2 = .ok ⟨⟩ ∧
      ¬ (CircuitBreakerConfig.mk 1 ⟨0, 500000, by decide⟩ 2).NeverEarly := by
  have run : Run ObservedBreaker.Step (.new ⟨1, ⟨0, 500000, by decide⟩, 2⟩) [.recordFailure 1000] _ :=
    .cons rfl .start
  refine ⟨_, run, by decide, by decide, by decide, fun never => ?_⟩
  have long := never _ _ run 1000 (by decide) (by decide)
  exact absurd long (by decide)

end FusionGraph
