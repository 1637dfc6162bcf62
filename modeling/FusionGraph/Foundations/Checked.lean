import Mathlib.Data.List.Basic

/-!
# Computations that return, fail or abort

A call can return a value, return an error to its caller, or abort: an index
outside a sequence, a slice whose bounds do not fit, an arithmetic result that
does not fit its type, a division by zero, a shift by the width of the word, a
loop that has used up its bound, an optional value that is absent. The three
outcomes are kept apart, because an error may be caught where an abort may not.

The accessors of this file check their side condition. Each has one equation
that applies under that condition, so a proof that a computation returns a
value discharges every condition on the way.
-/

set_option autoImplicit false

namespace Foundations

universe u v

/-- The ways in which a run aborts. -/
inductive Abort where
  | indexOutOfBounds
  | sliceOutOfRange
  | arithmeticOverflow
  | divisionByZero
  | shiftOverflow
  | loopBoundExhausted
  | valueMissing
  deriving DecidableEq, Repr

/-- Why a computation has no value: the error it returned, or the abort that
stopped it. -/
inductive Fault (ε : Type u) where
  | error (reason : ε)
  | abort (cause : Abort)
  deriving DecidableEq, Repr

/-- A computation that returns a value, returns an error or aborts. -/
abbrev Checked (ε : Type u) (α : Type v) := Except (Fault ε) α

namespace Checked

variable {ε : Type u} {α β : Type v}

/-- The computation stops with the error `reason`. -/
def fail (reason : ε) : Checked ε α := .error (.error reason)

/-- The computation aborts. -/
def abort (cause : Abort) : Checked ε α := .error (.abort cause)

/-- The value of an optional result, or the error that stands for its absence. -/
def okOr (value : Option α) (reason : ε) : Checked ε α :=
  match value with
  | some result => .ok result
  | none => fail reason

/-- The value of an optional result that the code takes to be there. -/
def expect (value : Option α) : Checked ε α :=
  match value with
  | some result => .ok result
  | none => abort .valueMissing

/-- The computation, or another one when it returns an error. An abort is not
caught. -/
def orElse (computation other : Checked ε α) : Checked ε α :=
  match computation with
  | .error (.error _) => other
  | outcome => outcome

/-- The computation with its errors in another type. -/
def mapError {ε' : Type u} (f : ε → ε') (computation : Checked ε α) : Checked ε' α :=
  match computation with
  | .ok value => .ok value
  | .error (.error reason) => fail (f reason)
  | .error (.abort cause) => abort cause

/-- The `i`-th entry of a sequence. -/
def index (xs : List α) (i : ℕ) : Checked ε α :=
  match xs[i]? with
  | some x => .ok x
  | none => abort .indexOutOfBounds

/-- The sequence with its `i`-th entry replaced. -/
def store (xs : List α) (i : ℕ) (x : α) : Checked ε (List α) :=
  if i < xs.length then .ok (xs.set i x) else abort .indexOutOfBounds

/-- The entries at positions `lo` up to and excluding `hi`. -/
def slice (xs : List α) (lo hi : ℕ) : Checked ε (List α) :=
  if lo ≤ hi ∧ hi ≤ xs.length then .ok (xs.extract lo hi) else abort .sliceOutOfRange

/-- Addition in an unsigned type whose largest value is `limit`. -/
def add (limit a b : ℕ) : Checked ε ℕ :=
  if a + b ≤ limit then .ok (a + b) else abort .arithmeticOverflow

/-- Multiplication in an unsigned type whose largest value is `limit`. -/
def mul (limit a b : ℕ) : Checked ε ℕ :=
  if a * b ≤ limit then .ok (a * b) else abort .arithmeticOverflow

/-- Subtraction in an unsigned type. -/
def sub (a b : ℕ) : Checked ε ℕ :=
  if b ≤ a then .ok (a - b) else abort .arithmeticOverflow

/-- Division rounding up. -/
def divCeil (a b : ℕ) : Checked ε ℕ :=
  if b = 0 then abort .divisionByZero else .ok ((a + b - 1) / b)

/-- The amount of a shift in a word of the given width. -/
def shift (width amount : ℕ) : Checked ε ℕ :=
  if amount < width then .ok amount else abort .shiftOverflow

/-- Whether the computation returns a value that passes a test. -/
def passes (computation : Checked ε α) (test : α → Bool) : Bool :=
  match computation with
  | .ok value => test value
  | .error _ => false

/-- The value is there. -/
def Returns (computation : Checked ε α) : Prop := ∃ value, computation = .ok value

@[simp] theorem ok_bind (value : α) (f : α → Checked ε β) :
    (Except.ok value >>= f) = f value := rfl

@[simp] theorem error_bind (fault : Fault ε) (f : α → Checked ε β) :
    ((Except.error fault : Checked ε α) >>= f) = .error fault := rfl

@[simp] theorem pure_eq_ok (value : α) : (pure value : Checked ε α) = .ok value := rfl

@[simp] theorem okOr_some (value : α) (reason : ε) :
    (okOr (some value) reason : Checked ε α) = .ok value := rfl

@[simp] theorem orElse_ok (value : α) (other : Checked ε α) :
    (orElse (.ok value) other : Checked ε α) = .ok value := rfl

@[simp] theorem orElse_fail (reason : ε) (other : Checked ε α) :
    orElse (fail reason) other = other := rfl

theorem exists_of_passes {computation : Checked ε α} {test : α → Bool}
    (passed : computation.passes test = true) :
    ∃ value, computation = .ok value ∧ test value = true := by
  cases computation with
  | ok value => exact ⟨value, rfl, passed⟩
  | error fault => cases passed

/-- A computation that passes a test returns. -/
theorem returns_of_passes (computation : Checked ε α)
    (passed : computation.passes (fun _ => true) = true) : computation.Returns := by
  obtain ⟨value, returned, -⟩ := exists_of_passes passed
  exact ⟨value, returned⟩

/-- A sequence of two computations returns exactly when both do. -/
theorem bind_eq_ok {computation : Checked ε α} {f : α → Checked ε β} {result : β} :
    (computation >>= f) = .ok result ↔ ∃ value, computation = .ok value ∧ f value = .ok result := by
  cases computation with
  | ok value => simp
  | error fault => simp

/-- The type of the errors does not change what is returned. -/
theorem mapError_eq_ok {ε' : Type u} {f : ε → ε'} {computation : Checked ε α} {result : α} :
    mapError f computation = .ok result ↔ computation = .ok result := by
  cases computation with
  | ok value => simp [mapError]
  | error fault =>
    cases fault with
    | error reason => simp [mapError, fail]
    | abort cause => simp [mapError, abort]

theorem index_eq_ok {xs : List α} {i : ℕ} {x : α} (found : xs[i]? = some x) :
    (index xs i : Checked ε α) = .ok x := by
  simp only [index, found]

theorem index_of_lt {xs : List α} {i : ℕ} (bound : i < xs.length) :
    (index xs i : Checked ε α) = .ok xs[i] :=
  index_eq_ok (List.getElem?_eq_getElem bound)

theorem store_of_lt {xs : List α} {i : ℕ} (x : α) (bound : i < xs.length) :
    (store xs i x : Checked ε (List α)) = .ok (xs.set i x) := by
  simp only [store, bound, if_true]

theorem slice_of_le {xs : List α} {lo hi : ℕ} (ordered : lo ≤ hi) (bound : hi ≤ xs.length) :
    (slice xs lo hi : Checked ε (List α)) = .ok (xs.extract lo hi) := by
  simp only [slice, ordered, bound, and_self, if_true]

theorem add_of_le {limit a b : ℕ} (fits : a + b ≤ limit) :
    (add limit a b : Checked ε ℕ) = .ok (a + b) := by
  simp only [add, fits, if_true]

theorem mul_of_le {limit a b : ℕ} (fits : a * b ≤ limit) :
    (mul limit a b : Checked ε ℕ) = .ok (a * b) := by
  simp only [mul, fits, if_true]

theorem sub_of_le {a b : ℕ} (ordered : b ≤ a) : (sub a b : Checked ε ℕ) = .ok (a - b) := by
  simp only [sub, ordered, if_true]

theorem divCeil_of_pos {a b : ℕ} (positive : 0 < b) :
    (divCeil a b : Checked ε ℕ) = .ok ((a + b - 1) / b) := by
  simp only [divCeil, Nat.pos_iff_ne_zero.mp positive, if_false]

theorem shift_of_lt {width amount : ℕ} (small : amount < width) :
    (shift width amount : Checked ε ℕ) = .ok amount := by
  simp only [shift, small, if_true]

/-! ## Loops -/

/-- A loop body that returns on every entry gives a loop that returns. -/
theorem mapM_eq_ok {f : α → Checked ε β} {g : α → β} {xs : List α}
    (each : ∀ x ∈ xs, f x = .ok (g x)) : xs.mapM f = .ok (xs.map g) := by
  induction xs with
  | nil => rfl
  | cons x rest ih =>
      rw [List.mapM_cons, each x List.mem_cons_self, ok_bind,
        ih fun y member => each y (List.mem_cons_of_mem x member)]
      rfl

/-- **The invariant rule for a loop over a list**: when the invariant holds
before the first entry, and the body returns a state with the invariant at each
entry, the loop returns and the invariant holds of its result. -/
theorem foldlM_of_invariant {f : β → α → Checked ε β} (invariant : List α → β → Prop)
    (xs : List α) {init : β} (start : invariant [] init)
    (step : ∀ done x rest state, done ++ x :: rest = xs → invariant done state →
      ∃ next, f state x = .ok next ∧ invariant (done ++ [x]) next) :
    ∃ final, xs.foldlM f init = .ok final ∧ invariant xs final := by
  suffices general : ∀ rest done state, done ++ rest = xs → invariant done state →
      ∃ final, rest.foldlM f state = .ok final ∧ invariant xs final from
    general xs [] init rfl start
  intro rest
  induction rest with
  | nil =>
      intro done state whole holds
      rw [List.append_nil] at whole
      exact ⟨state, rfl, whole ▸ holds⟩
  | cons x rest ih =>
      intro done state whole holds
      obtain ⟨next, moved, kept⟩ := step done x rest state whole holds
      obtain ⟨final, finished, last⟩ := ih (done ++ [x]) next (by simp [whole]) kept
      exact ⟨final, by rw [List.foldlM_cons, moved, ok_bind, finished], last⟩

/-- A loop over the positions of a list is a loop over its entries. -/
theorem foldlM_range {f : β → ℕ → Checked ε β} {g : β → α → Checked ε β} {xs : List α}
    (each : ∀ state i x, xs[i]? = some x → f state i = g state x) (init : β) :
    (List.range xs.length).foldlM f init = xs.foldlM g init := by
  induction xs generalizing f init with
  | nil => rfl
  | cons x rest ih =>
      rw [List.length_cons, List.range_succ_eq_map, List.foldlM_cons, List.foldlM_cons,
        each init 0 x rfl]
      refine congrArg (g init x >>= ·) (funext fun next => ?_)
      rw [List.foldlM_map]
      exact ih (fun state i y found => each state (i + 1) y found) next

/-- A loop whose body returns at each entry is a fold. -/
theorem foldlM_eq_ok {f : β → α → Checked ε β} {g : β → α → β} {xs : List α}
    (each : ∀ state, ∀ x ∈ xs, f state x = .ok (g state x)) (init : β) :
    xs.foldlM f init = .ok (xs.foldl g init) := by
  induction xs generalizing init with
  | nil => rfl
  | cons x rest ih =>
      rw [List.foldlM_cons, each init x List.mem_cons_self, ok_bind,
        ih fun state y member => each state y (List.mem_cons_of_mem x member)]
      rfl

/-- A loop that only checks its entries returns when every entry passes. -/
theorem forM_eq_ok {f : α → Checked ε PUnit} {xs : List α} (each : ∀ x ∈ xs, f x = .ok ⟨⟩) :
    forM xs f = .ok ⟨⟩ := by
  induction xs with
  | nil => rfl
  | cons x rest ih =>
      rw [List.forM_cons, each x List.mem_cons_self, ok_bind,
        ih fun y member => each y (List.mem_cons_of_mem x member)]

/-- A loop that only checks its entries stops at the first that does not pass. -/
theorem forM_eq_error {f : α → Checked ε PUnit} {passed rest : List α} {x : α} {fault : Fault ε}
    (before : ∀ y ∈ passed, f y = .ok ⟨⟩) (stopped : f x = .error fault) :
    forM (passed ++ x :: rest) f = .error fault := by
  induction passed with
  | nil => rw [List.nil_append, List.forM_cons, stopped, error_bind]
  | cons y passed ih =>
      rw [List.cons_append, List.forM_cons, before y List.mem_cons_self, ok_bind,
        ih fun z member => before z (List.mem_cons_of_mem y member)]

end Checked

end Foundations
