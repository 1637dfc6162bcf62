import Mathlib.Data.Nat.Notation

/-!
# Streams that are polled

A stream is a state and a step: a poll returns an item, the end of the stream or
nothing yet, and leaves the next state. What a poll learns from outside, such as
a reading of the clock, is an input of the step.

The streams of interest here are pending for a while, yield one item, and are at
their end for ever (`YieldsOnce`). Two rules build that from the steps: a pending
poll in front of such a stream, and the poll that yields the item and leaves a
state that has ended.
-/

set_option autoImplicit false

namespace Foundations

universe u v w

/-- What a poll returns. -/
inductive Poll (α : Type u) where
  | ready (value : α)
  | pending
  deriving DecidableEq, Repr

namespace PolledStream

variable {σ : Type u} {ε : Type v} {α : Type w} (next : σ → ε → Poll (Option α) × σ)

/-- The state after a number of polls. -/
def stateAfter (env : ℕ → ε) (start : σ) : ℕ → σ
  | 0 => start
  | n + 1 => (next (stateAfter env start n) (env n)).2

/-- What the `n`-th poll returns. -/
def polled (env : ℕ → ε) (start : σ) (n : ℕ) : Poll (Option α) :=
  (next (stateAfter next env start n) (env n)).1

/-- The polls are pending up to the `last`, which returns the item; all later polls
return the end, and leave the same state. -/
structure YieldsOnce (env : ℕ → ε) (start : σ) (last : ℕ) (item : α) (final : σ) : Prop where
  before : ∀ i < last, polled next env start i = .pending
  yields : polled next env start last = .ready (some item)
  after : ∀ i, last < i → polled next env start i = .ready none
  stays : ∀ i, last < i → stateAfter next env start i = final

/-- A state that has ended. -/
def Ended (state : σ) : Prop := ∀ input, next state input = (.ready none, state)

variable {next} {env : ℕ → ε} {start later final : σ} {last : ℕ} {item : α}

/-- The polls after the first one are the polls of the state it leaves. -/
theorem stateAfter_succ (n : ℕ) :
    stateAfter next env start (n + 1) =
      stateAfter next (fun i => env (i + 1)) (next start (env 0)).2 n := by
  induction n with
  | zero => rfl
  | succ n ih => rw [stateAfter, ih, stateAfter]

theorem polled_succ (n : ℕ) :
    polled next env start (n + 1) =
      polled next (fun i => env (i + 1)) (next start (env 0)).2 n := by
  rw [polled, stateAfter_succ, polled]

/-- A state that has ended stays as it is. -/
theorem Ended.stateAfter_eq (ended : Ended next start) (n : ℕ) :
    stateAfter next env start n = start := by
  induction n with
  | zero => rfl
  | succ n ih => rw [stateAfter, ih, ended]

/-- The poll that returns the item and leaves a state that has ended. -/
theorem YieldsOnce.of_ready (step : next start (env 0) = (.ready (some item), final))
    (ended : Ended next final) : YieldsOnce next env start 0 item final where
  before i early := absurd early (Nat.not_lt_zero i)
  yields := by rw [polled, stateAfter, step]
  after i late := by
    obtain ⟨n, rfl⟩ := Nat.exists_eq_succ_of_ne_zero (Nat.ne_of_gt late)
    rw [Nat.succ_eq_add_one, polled_succ, step, polled, ended.stateAfter_eq, ended]
  stays i late := by
    obtain ⟨n, rfl⟩ := Nat.exists_eq_succ_of_ne_zero (Nat.ne_of_gt late)
    rw [Nat.succ_eq_add_one, stateAfter_succ, step, ended.stateAfter_eq]

/-- A pending poll in front. -/
theorem YieldsOnce.of_pending (step : next start (env 0) = (.pending, later))
    (rest : YieldsOnce next (fun i => env (i + 1)) later last item final) :
    YieldsOnce next env start (last + 1) item final where
  before i early := by
    cases i with
    | zero => rw [polled, stateAfter, step]
    | succ i =>
      rw [polled_succ, step]
      exact rest.before i (Nat.lt_of_succ_lt_succ early)
  yields := by
    rw [polled_succ, step]
    exact rest.yields
  after i late := by
    obtain ⟨n, rfl⟩ := Nat.exists_eq_succ_of_ne_zero (Nat.ne_of_gt (Nat.zero_lt_of_lt late))
    rw [Nat.succ_eq_add_one, polled_succ, step]
    exact rest.after n (Nat.lt_of_succ_lt_succ late)
  stays i late := by
    obtain ⟨n, rfl⟩ := Nat.exists_eq_succ_of_ne_zero (Nat.ne_of_gt (Nat.zero_lt_of_lt late))
    rw [Nat.succ_eq_add_one, stateAfter_succ, step]
    exact rest.stays n (Nat.lt_of_succ_lt_succ late)

/-- What a pending poll keeps is as at the start until the item has been returned. -/
theorem YieldsOnce.kept_before {β : Type w} (yields : YieldsOnce next env start last item final)
    (kept : σ → β)
    (keeps : ∀ state input, (next state input).1 = .pending →
      kept (next state input).2 = kept state) {i : ℕ} (early : i ≤ last) :
    kept (stateAfter next env start i) = kept start := by
  induction i with
  | zero => rfl
  | succ i ih =>
    rw [stateAfter, keeps _ _ (yields.before i early), ih (Nat.le_of_succ_le early)]

/-! ## Collecting the items -/

/-- Behind a pending poll, the stream yields its item one poll earlier. -/
theorem YieldsOnce.of_succ (yields : YieldsOnce next env start (last + 1) item final) :
    next start (env 0) = (.pending, (next start (env 0)).2) ∧
      YieldsOnce next (fun i => env (i + 1)) (next start (env 0)).2 last item final where
  left := Prod.ext (yields.before 0 (Nat.succ_pos last)) rfl
  right :=
    { before := fun i early => by
        rw [← polled_succ]
        exact yields.before (i + 1) (Nat.succ_lt_succ early)
      yields := by rw [← polled_succ, yields.yields]
      after := fun i late => by
        rw [← polled_succ]
        exact yields.after (i + 1) (Nat.succ_lt_succ late)
      stays := fun i late => by
        rw [← stateAfter_succ]
        exact yields.stays (i + 1) (Nat.succ_lt_succ late) }

variable {φ : Type w}

/-- Polls a stream of results up to its end or to its first error: the items, and the
last state. There is no result when `fuel` polls are not enough. -/
def tryCollect (next : σ → ε → Poll (Option (Except φ α)) × σ) :
    ℕ → (ℕ → ε) → σ → Option (Except φ (List α) × σ)
  | 0, _, _ => none
  | fuel + 1, env, state =>
    match next state (env 0) with
    | (.pending, later) => tryCollect next fuel (fun i => env (i + 1)) later
    | (.ready none, later) => some (.ok [], later)
    | (.ready (some (.error fault)), later) => some (.error fault, later)
    | (.ready (some (.ok item)), later) =>
      (tryCollect next fuel (fun i => env (i + 1)) later).map fun (items, last) =>
        (items.map (item :: ·), last)

/-- **A stream that yields one result is collected to that result**, in two polls more
than it is pending. -/
theorem YieldsOnce.tryCollect_eq {next : σ → ε → Poll (Option (Except φ α)) × σ}
    {item : Except φ α} {fuel : ℕ} (yields : YieldsOnce next env start last item final)
    (enough : last + 2 ≤ fuel) :
    tryCollect next fuel env start = some (item.map ([·]), final) := by
  induction last generalizing env start fuel with
  | zero =>
    obtain ⟨fuel, rfl⟩ := Nat.exists_eq_add_of_le enough
    have first : next start (env 0) = (.ready (some item), final) :=
      Prod.ext yields.yields (yields.stays 1 Nat.zero_lt_one)
    have second : next final (env 1) = (.ready none, final) := by
      have value := yields.after 1 Nat.zero_lt_one
      have state := yields.stays 2 Nat.zero_lt_two
      rw [polled, yields.stays 1 Nat.zero_lt_one] at value
      rw [stateAfter, yields.stays 1 Nat.zero_lt_one] at state
      exact Prod.ext value state
    rw [show 0 + 2 + fuel = fuel + 1 + 1 by omega, tryCollect, first]
    cases item with
    | error fault => rfl
    | ok item =>
      simp only [tryCollect, second]
      rfl
  | succ last ih =>
    obtain ⟨fuel, rfl⟩ := Nat.exists_eq_add_of_le enough
    obtain ⟨pending, rest⟩ := yields.of_succ
    rw [show last + 1 + 2 + fuel = last + 2 + fuel + 1 by omega, tryCollect, pending]
    exact ih rest (Nat.le_add_right _ _)

end PolledStream

end Foundations
