import FusionGraph.Core.Types
import FusionGraph.Foundations.AtomicCalls
import FusionGraph.Foundations.Bitset
import Mathlib.Data.Finset.Card

/-!
# The shared bitset

A bitset holds the indices below its capacity in 64-bit words that threads share. A call
checks its index against the capacity and then loads one word, or sets one bit of it, in
one atomic step.

Under any interleaving of calls the bitset is a set of indices (`linearizable_set`). The
calls, in the order of their atomic steps, are a run of the set alone: an update of one
bit keeps the other bits of its word. So an index is in the set exactly when it is below
the capacity and a call that sets it has acted, and of the calls that test and set an
index at most one answers that it was new. No bit at the capacity or beyond is ever set,
so counting the bits of all words counts the indices.
-/

set_option autoImplicit false

namespace FusionGraph

open Foundations Foundations.AtomicCalls Foundations.Bitset

/-- A bitset for graph traversals. -/
structure AtomicBitset where
  bits : List (BitVec 64)
  /-- The number of bits. -/
  capacity : Usize

namespace AtomicBitset

/-- A bitset for `n` bits, none of them set. -/
def new (n : Usize) : AtomicBitset where
  bits := List.replicate ((n.val + 63) / 64) 0#64
  capacity := n

/-- Tests a bit. -/
def test (self : AtomicBitset) (i : ℕ) : Outcome Bool :=
  if self.capacity.val ≤ i then .ok false
  else do
    let word ← Checked.index self.bits (i / 64)
    pure (decide (word &&& mask (i % 64) ≠ 0#64))

/-- `fetch_or` on a word: its old value, and the bitset after it. -/
def fetchOr (self : AtomicBitset) (word : ℕ) (value : BitVec 64) :
    Outcome (BitVec 64 × AtomicBitset) := do
  let old ← Checked.index self.bits word
  let bits ← Checked.store self.bits word (old ||| value)
  pure (old, { self with bits := bits })

/-- Sets a bit; returns whether it was not set before. -/
def testAndSet (self : AtomicBitset) (i : ℕ) : Outcome (Bool × AtomicBitset) :=
  if self.capacity.val ≤ i then .ok (false, self)
  else do
    let (old, next) ← self.fetchOr (i / 64) (mask (i % 64))
    pure (decide (old &&& mask (i % 64) = 0#64), next)

/-- Sets a bit. -/
def set (self : AtomicBitset) (i : ℕ) : Outcome AtomicBitset :=
  if self.capacity.val ≤ i then .ok self
  else do
    let (_, next) ← self.fetchOr (i / 64) (mask (i % 64))
    pure next

/-- The number of set bits. -/
def countOnes (self : AtomicBitset) : Outcome ℕ :=
  self.bits.foldlM (fun count word => Checked.add usizeMax count (setBits word).length) 0

end AtomicBitset

/-- A call on a bitset. -/
inductive BitsetCall where
  | test (i : ℕ)
  | testAndSet (i : ℕ)
  | set (i : ℕ)
  deriving DecidableEq, Repr

/-- The answer of a call. -/
inductive BitsetAnswer where
  | unit
  | bool (value : Bool)
  deriving DecidableEq, Repr

namespace BitsetCall

/-- The index of a call. -/
def index : BitsetCall → ℕ
  | test i => i
  | testAndSet i => i
  | set i => i

/-- Whether the call sets its bit. -/
def sets : BitsetCall → Bool
  | test _ => false
  | testAndSet _ => true
  | set _ => true

/-- The answer of a call that touches no bit. -/
def refused : BitsetCall → BitsetAnswer
  | test _ => .bool false
  | testAndSet _ => .bool false
  | set _ => .unit

/-- The atomic step of a call. -/
def run (self : AtomicBitset) : BitsetCall → Outcome (BitsetAnswer × AtomicBitset)
  | test i => do
    let found ← self.test i
    pure (.bool found, self)
  | testAndSet i => do
    let (fresh, next) ← self.testAndSet i
    pure (.bool fresh, next)
  | set i => do
    let next ← self.set i
    pure (.unit, next)

end BitsetCall

namespace AtomicBitset

/-- The bitset as a shared object. -/
def object : Object AtomicBitset BitsetCall BitsetAnswer := fun self effect next =>
  effect.1.run self = .ok (effect.2, next)

end AtomicBitset

/-! ## A set of indices -/

namespace IndexSet

variable (size : ℕ)

/-- What a call answers on a set of indices below a bound. -/
def Answers (held : Finset ℕ) : BitsetCall → BitsetAnswer → Prop
  | .test i, answer => ∃ value, answer = .bool value ∧ (value = true ↔ i < size ∧ i ∈ held)
  | .testAndSet i, answer => ∃ value, answer = .bool value ∧ (value = true ↔ i < size ∧ i ∉ held)
  | .set _, answer => answer = .unit

/-- The set after a call. -/
def after (held : Finset ℕ) (call : BitsetCall) : Finset ℕ :=
  if call.sets ∧ call.index < size then insert call.index held else held

/-- A set of indices below a bound as a shared object. -/
def object : Object (Finset ℕ) BitsetCall BitsetAnswer := fun held effect next =>
  Answers size held effect.1 effect.2 ∧ next = after size held effect.1

/-- The indices below a bound that calls set. -/
def setIndices (effects : List (BitsetCall × BitsetAnswer)) : Finset ℕ :=
  ((effects.filter fun effect => effect.1.sets ∧ effect.1.index < size).map
    fun effect => effect.1.index).toFinset

variable {size} {held next : Finset ℕ} {i : ℕ} {effects : List (BitsetCall × BitsetAnswer)}
  {effect : BitsetCall × BitsetAnswer}

theorem mem_after {call : BitsetCall} :
    i ∈ after size held call ↔ i ∈ held ∨ call.sets ∧ call.index = i ∧ i < size := by
  rw [after]
  split
  next both =>
    rw [Finset.mem_insert, or_comm]
    exact or_congr_right ⟨fun same => ⟨both.1, same.symm, same ▸ both.2⟩, fun all => all.2.1.symm⟩
  next neither =>
    exact ⟨.inl, fun either => either.resolve_right fun all => neither ⟨all.1, all.2.1 ▸ all.2.2⟩⟩

theorem mem_setIndices :
    i ∈ setIndices size effects ↔ i < size ∧ ∃ effect ∈ effects, effect.1.sets ∧
      effect.1.index = i := by
  simp only [setIndices, List.mem_toFinset, List.mem_map, List.mem_filter, decide_eq_true_eq]
  constructor
  · rintro ⟨effect, ⟨member, sets, bound⟩, rfl⟩
    exact ⟨bound, effect, member, sets, rfl⟩
  · rintro ⟨bound, effect, member, sets, rfl⟩
    exact ⟨effect, ⟨member, sets, bound⟩, rfl⟩

theorem setIndices_snoc :
    setIndices size (effects ++ [effect]) = after size (setIndices size effects) effect.1 := by
  ext i
  simp only [mem_after, mem_setIndices, List.mem_append, List.mem_singleton]
  grind

/-- **The set holds the indices that the calls set.** -/
theorem eq_setIndices (run : Run (object size) ∅ effects held) :
    held = setIndices size effects := by
  refine run.invariant (fun effects held => held = setIndices size effects) rfl ?_
  rintro effects held effect next - same ⟨-, rfl⟩
  rw [setIndices_snoc, same]

/-! ### Unique winners -/

/-- The calls on an index that answer that it is new to the set. -/
structure Winners (i : ℕ) (effects : List (BitsetCall × BitsetAnswer)) (held : Finset ℕ) :
    Prop where
  absent : i ∉ held → effects.count (.testAndSet i, .bool true) = 0
  unique : effects.count (.testAndSet i, .bool true) ≤ 1
  present : i ∈ held → (∀ effect ∈ effects, effect.1 ≠ .set i) →
    effects.count (.testAndSet i, .bool true) = 1

/-- A call that adds an index tests it and answers that it is new, or just sets it. -/
theorem adds_index (does : object size held effect next) (absent : i ∉ held) (member : i ∈ next) :
    effect = (.testAndSet i, .bool true) ∨ effect.1 = .set i := by
  obtain ⟨call, answer⟩ := effect
  obtain ⟨answers, rfl⟩ := does
  obtain ⟨sets, same, bound⟩ := (mem_after.mp member).resolve_left absent
  cases call with
  | test j => exact absurd sets Bool.false_ne_true
  | testAndSet j =>
    obtain ⟨value, rfl, fresh⟩ := answers
    obtain rfl : j = i := same
    rw [fresh.mpr ⟨bound, absent⟩]
    exact .inl rfl
  | set j => exact .inr (congrArg BitsetCall.set same)

/-- **Of the calls that test and set an index at most one wins**, and one does unless the
index is set otherwise. -/
theorem winners (run : Run (object size) ∅ effects held) (i : ℕ) : Winners i effects held := by
  refine run.invariant (Winners i) ⟨fun _ => rfl, Nat.zero_le 1, by simp⟩ ?_
  intro effects held effect next _ holds does
  have grows : ∀ j ∈ held, j ∈ next := by
    obtain ⟨-, rfl⟩ := does
    exact fun j member => mem_after.mpr (.inl member)
  by_cases wins : effect = (.testAndSet i, .bool true)
  · -- the winner found the index absent, so it is the first one
    obtain ⟨bound, absent⟩ : i < size ∧ i ∉ held := by
      subst wins
      obtain ⟨⟨value, same, fresh⟩, -⟩ := does
      exact fresh.mp (BitsetAnswer.bool.inj same).symm
    have member : i ∈ next := by
      subst wins
      obtain ⟨-, rfl⟩ := does
      exact mem_after.mpr (.inr ⟨rfl, rfl, bound⟩)
    have one : (effects ++ [effect]).count (.testAndSet i, .bool true) = 1 := by
      rw [List.count_append, holds.absent absent, wins, List.count_singleton_self]
    exact ⟨fun gone => absurd member gone, one.le, fun _ _ => one⟩
  · have same : (effects ++ [effect]).count (.testAndSet i, .bool true) =
        effects.count (.testAndSet i, .bool true) := by
      rw [List.count_append, List.count_singleton, if_neg (by simpa using wins), Nat.add_zero]
    refine ⟨fun absent => ?_, same ▸ holds.unique, fun member others => ?_⟩
    · rw [same]
      exact holds.absent fun member => absent (grows i member)
    · rw [same]
      refine holds.present ?_ fun earlier found =>
        others earlier (List.mem_append_left [effect] found)
      by_contra absent
      rcases adds_index does absent member with first | sets
      · exact wins first
      · exact others effect (by simp) sets

end IndexSet

/-! ## The bitset stores a set -/

/-- The bitset stores the set, which is below its capacity. -/
structure AtomicBitset.Holds (bitset : AtomicBitset) (size : ℕ) (held : Finset ℕ) : Prop where
  capacity : bitset.capacity.val = size
  represents : Represents bitset.bits size (· ∈ held)
  high : ∀ j, size ≤ j → hasBit bitset.bits j = false
  below : ∀ i ∈ held, i < size

namespace AtomicBitset.Holds

variable {bitset : AtomicBitset} {size : ℕ} {held : Finset ℕ}

theorem new (n : Usize) : (AtomicBitset.new n).Holds n.val ∅ where
  capacity := rfl
  represents := (Represents.zero n.val).congr (by simp)
  high j _ := by
    simp only [AtomicBitset.new, hasBit, List.getElem?_replicate]
    split <;> simp
  below := by simp

/-- An atomic step on the word of an index below the capacity. -/
theorem fetchOr (holds : bitset.Holds size held) {i : ℕ} (inside : i < size) :
    ∃ old next, bitset.fetchOr (i / 64) (mask (i % 64)) = .ok (old, next) ∧
      (old &&& mask (i % 64) = 0#64 ↔ i ∉ held) ∧ next.Holds size (insert i held) := by
  obtain ⟨word, read, found, clear⟩ := holds.represents.index_eq (ε := GraphError) inside
  have bound := holds.represents.word_lt inside
  refine ⟨word, { bitset with bits := bitset.bits.set (i / 64) (word ||| mask (i % 64)) }, ?_,
    clear, holds.capacity, ?_, fun j beyond => ?_, ?_⟩
  · simp only [AtomicBitset.fetchOr, read, Checked.ok_bind, Checked.store_of_lt _ bound,
      Checked.pure_eq_ok]
  · exact (holds.represents.insert found).congr fun j _ => by simp [or_comm]
  · have before := holds.high j beyond
    rw [hasBit_set bound]
    split
    · rename_i same
      have different : j % 64 ≠ i % 64 := by omega
      rw [hasBit, ← same, found, Option.getD_some] at before
      rw [BitVec.getLsbD_or, before, getLsbD_mask (Nat.mod_lt i (by omega))]
      simp [different]
    · exact before
  · intro j member
    rcases Finset.mem_insert.mp member with rfl | old
    · exact inside
    · exact holds.below j old

theorem test (holds : bitset.Holds size held) (i : ℕ) :
    ∃ found, bitset.test i = .ok found ∧ (found = true ↔ i < size ∧ i ∈ held) := by
  by_cases inside : i < size
  · obtain ⟨word, read, found, clear⟩ := holds.represents.index_eq (ε := GraphError) inside
    refine ⟨decide (word &&& mask (i % 64) ≠ 0#64), ?_, ?_⟩
    · rw [AtomicBitset.test, holds.capacity, if_neg (Nat.not_le_of_lt inside), read]
      rfl
    · rw [decide_eq_true_eq, Ne, clear, not_not]
      exact ⟨fun member => ⟨inside, member⟩, And.right⟩
  · refine ⟨false, ?_, nofun, fun both => absurd both.1 inside⟩
    rw [AtomicBitset.test, holds.capacity, if_pos (Nat.le_of_not_lt inside)]

theorem testAndSet (holds : bitset.Holds size held) (i : ℕ) :
    ∃ fresh next, bitset.testAndSet i = .ok (fresh, next) ∧
      (fresh = true ↔ i < size ∧ i ∉ held) ∧
      next.Holds size (IndexSet.after size held (.testAndSet i)) := by
  by_cases inside : i < size
  · obtain ⟨old, next, stored, clear, kept⟩ := holds.fetchOr inside
    refine ⟨decide (old &&& mask (i % 64) = 0#64), next, ?_, ?_, ?_⟩
    · rw [AtomicBitset.testAndSet, holds.capacity, if_neg (Nat.not_le_of_lt inside), stored]
      rfl
    · rw [decide_eq_true_eq, clear]
      exact ⟨fun absent => ⟨inside, absent⟩, And.right⟩
    · rw [IndexSet.after, if_pos ⟨rfl, inside⟩]
      exact kept
  · refine ⟨false, bitset, ?_, ⟨nofun, fun both => absurd both.1 inside⟩, ?_⟩
    · rw [AtomicBitset.testAndSet, holds.capacity, if_pos (Nat.le_of_not_lt inside)]
    · rwa [IndexSet.after, if_neg fun both => inside both.2]

theorem set (holds : bitset.Holds size held) (i : ℕ) :
    ∃ next, bitset.set i = .ok next ∧ next.Holds size (IndexSet.after size held (.set i)) := by
  by_cases inside : i < size
  · obtain ⟨old, next, stored, -, kept⟩ := holds.fetchOr inside
    refine ⟨next, ?_, ?_⟩
    · rw [AtomicBitset.set, holds.capacity, if_neg (Nat.not_le_of_lt inside), stored]
      rfl
    · rw [IndexSet.after, if_pos ⟨rfl, inside⟩]
      exact kept
  · refine ⟨bitset, ?_, ?_⟩
    · rw [AtomicBitset.set, holds.capacity, if_pos (Nat.le_of_not_lt inside)]
    · rwa [IndexSet.after, if_neg fun both => inside both.2]

/-- **A call returns, answers as on the set and leaves the set after it.** -/
theorem run (holds : bitset.Holds size held) (call : BitsetCall) :
    ∃ answer next, call.run bitset = .ok (answer, next) ∧
      IndexSet.Answers size held call answer ∧ next.Holds size (IndexSet.after size held call) := by
  cases call with
  | test i =>
    obtain ⟨found, ran, answers⟩ := holds.test i
    exact ⟨.bool found, bitset, by rw [BitsetCall.run, ran]; rfl, ⟨found, rfl, answers⟩, holds⟩
  | testAndSet i =>
    obtain ⟨fresh, next, ran, answers, kept⟩ := holds.testAndSet i
    exact ⟨.bool fresh, next, by rw [BitsetCall.run, ran]; rfl, ⟨fresh, rfl, answers⟩, kept⟩
  | set i =>
    obtain ⟨next, ran, kept⟩ := holds.set i
    exact ⟨.unit, next, by rw [BitsetCall.run, ran]; rfl, rfl, kept⟩

/-- **The bitset does what the set does**, and nothing else. -/
theorem object (holds : bitset.Holds size held) {effect : BitsetCall × BitsetAnswer}
    {next : AtomicBitset} (does : AtomicBitset.object bitset effect next) :
    ∃ kept, IndexSet.object size held effect kept ∧ next.Holds size kept := by
  obtain ⟨answer, stored, ran, answers, kept⟩ := holds.run effect.1
  obtain ⟨rfl, rfl⟩ := Prod.mk.inj (Except.ok.inj (does.symm.trans ran))
  exact ⟨_, ⟨answers, rfl⟩, kept⟩

/-- A call beyond the capacity changes nothing. -/
theorem run_of_le (holds : bitset.Holds size held) {call : BitsetCall}
    (beyond : size ≤ call.index) : call.run bitset = .ok (call.refused, bitset) := by
  rw [← holds.capacity] at beyond
  cases call with
  | test i =>
    rw [BitsetCall.run, AtomicBitset.test, if_pos (show bitset.capacity.val ≤ i from beyond)]
    rfl
  | testAndSet i =>
    rw [BitsetCall.run, AtomicBitset.testAndSet, if_pos (show bitset.capacity.val ≤ i from beyond)]
    rfl
  | set i =>
    rw [BitsetCall.run, AtomicBitset.set, if_pos (show bitset.capacity.val ≤ i from beyond)]
    rfl

/-- The bits of all words are the indices of the set. -/
theorem sum_setBits (holds : bitset.Holds size held) :
    (bitset.bits.map fun word => (setBits word).length).sum = held.card := by
  have bound : size ≤ 64 * bitset.bits.length := by
    rw [holds.represents.length]
    omega
  have same : ((List.range (64 * bitset.bits.length)).filter (hasBit bitset.bits)).toFinset =
      held := by
    ext i
    rw [List.mem_toFinset, List.mem_filter, List.mem_range]
    constructor
    · rintro ⟨-, found⟩
      by_cases inside : i < size
      · exact (holds.represents.bit i inside).mp found
      · rw [holds.high i (Nat.le_of_not_lt inside)] at found
        exact absurd found Bool.false_ne_true
    · intro member
      have inside := holds.below i member
      exact ⟨inside.trans_le bound, (holds.represents.bit i inside).mpr member⟩
  rw [Bitset.sum_setBits, List.countP_eq_length_filter, ← same,
    List.toFinset_card_of_nodup (List.nodup_range.filter _)]

/-- **Counting the bits of all words counts the set.** -/
theorem countOnes (holds : bitset.Holds size held) : bitset.countOnes = .ok held.card := by
  have inside : held ⊆ Finset.range size := fun i member =>
    Finset.mem_range.mpr (holds.below i member)
  have fits : held.card ≤ usizeMax := by
    have fewer := Finset.card_le_card inside
    rw [Finset.card_range, ← holds.capacity] at fewer
    exact fewer.trans bitset.capacity.property
  have counts : ∀ done word rest count, done ++ word :: rest = bitset.bits →
      count = (done.map fun word => (setBits word).length).sum →
      ∃ next, (Checked.add usizeMax count (setBits word).length : Outcome ℕ) = .ok next ∧
        next = ((done ++ [word]).map fun word => (setBits word).length).sum := by
    rintro done word rest count whole rfl
    have room : ((done ++ word :: rest).map fun word => (setBits word).length).sum ≤ usizeMax := by
      rw [whole, holds.sum_setBits]
      exact fits
    rw [List.map_append, List.sum_append, List.map_cons, List.sum_cons] at room
    exact ⟨_, Checked.add_of_le (by omega), by simp⟩
  obtain ⟨count, counted, total⟩ := Checked.foldlM_of_invariant
    (fun done count => count = (done.map fun word => (setBits word).length).sum) bitset.bits
    (show 0 = _ from rfl) counts
  rw [AtomicBitset.countOnes, counted, total, holds.sum_setBits]

end AtomicBitset.Holds

/-! ## Threads that share the bitset -/

section Shared

variable {Thread : Type} [DecidableEq Thread] {n : Usize}
  {actions : List (Action Thread BitsetCall BitsetAnswer)}
  {system : System AtomicBitset BitsetCall BitsetAnswer Thread}

/-- What threads see of a bitset that they share: the steps taken so far and the system
they lead to. -/
structure LinearizableSet (n : Usize) (actions : List (Action Thread BitsetCall BitsetAnswer))
    (system : System AtomicBitset BitsetCall BitsetAnswer Thread) : Prop where
  /-- The calls, in the order of their atomic steps, are a run of the set alone. -/
  sequential : Run (IndexSet.object n.val) ∅ (effects actions)
    (IndexSet.setIndices n.val (effects actions))
  /-- A call takes its atomic step between its start and its return, and returns the
  answer of that step. -/
  books : KeepsBooks actions system
  /-- A started call can take its atomic step. -/
  responsive : ∀ thread call, system.phase thread = .called call →
    ∃ answer next, Step AtomicBitset.object system (.act thread call answer) next
  /-- A test answers whether a call before it has set the index. -/
  tests : ∀ before thread i answer rest, actions = before ++ .act thread (.test i) answer :: rest →
    ∃ value, answer = .bool value ∧ (value = true ↔
      i < n.val ∧ ∃ effect ∈ effects before, effect.1.sets ∧ effect.1.index = i)
  /-- At most one call returns that an index was new. -/
  unique : ∀ i, (answers actions).count (.testAndSet i, .bool true) ≤ 1
  /-- Once a call has tested and set an index that nothing else sets, one has won. -/
  winner : ∀ i < n.val, (∃ answer, (.testAndSet i, answer) ∈ effects actions) →
    (∀ thread, (thread, .set i) ∉ started actions) →
    (effects actions).count (.testAndSet i, .bool true) = 1
  /-- When no call is in progress, the winner has returned. -/
  winner_returned : system.Idle → ∀ i < n.val,
    (∃ thread, (thread, .testAndSet i) ∈ started actions) →
    (∀ thread, (thread, .set i) ∉ started actions) →
    (answers actions).count (.testAndSet i, .bool true) = 1
  /-- A call beyond the capacity changes nothing. -/
  outside : ∀ thread call answer next,
    Step AtomicBitset.object system (.act thread call answer) next → n.val ≤ call.index →
    answer = call.refused ∧ next.state = system.state
  /-- No bit at the capacity or beyond is set. -/
  high : ∀ j, n.val ≤ j → hasBit system.state.bits j = false
  /-- When no call is in progress, the set bits are the indices that calls set. -/
  count : system.Idle →
    system.state.countOnes = .ok (IndexSet.setIndices n.val (answers actions)).card

/-- The bitset stores the indices that the calls set, and they are a run of that set. -/
theorem holds_of_run (run : Run (Step AtomicBitset.object) (.start (.new n)) actions system) :
    Run (IndexSet.object n.val) ∅ (effects actions) (IndexSet.setIndices n.val (effects actions)) ∧
      system.state.Holds n.val (IndexSet.setIndices n.val (effects actions)) := by
  obtain ⟨held, ran, holds⟩ := (AtomicCalls.sequential run).simulate
    (fun bitset held => bitset.Holds n.val held) (.new n) fun holds does => holds.object does
  exact IndexSet.eq_setIndices ran ▸ ⟨ran, holds⟩

/-- A call that tests an index finds it when an earlier call has set it. -/
theorem test_of_run (run : Run (Step AtomicBitset.object) (.start (.new n)) actions system)
    {thread : Thread} {i : ℕ} {answer : BitsetAnswer}
    {next : System AtomicBitset BitsetCall BitsetAnswer Thread}
    (moved : Step AtomicBitset.object system (.act thread (.test i) answer) next) :
    ∃ value, answer = .bool value ∧ (value = true ↔
      i < n.val ∧ ∃ effect ∈ effects actions, effect.1.sets ∧ effect.1.index = i) := by
  obtain ⟨-, ⟨⟨value, same, found⟩, -⟩, -⟩ := (holds_of_run run).2.object moved.does
  refine ⟨value, same, found.trans ?_⟩
  rw [IndexSet.mem_setIndices]
  exact ⟨And.right, fun both => ⟨both.1, both⟩⟩

/-- Once a call has tested and set an index that nothing else sets, one has won. -/
theorem winner_of_run (run : Run (Step AtomicBitset.object) (.start (.new n)) actions system)
    {i : ℕ} (inside : i < n.val) (tried : ∃ answer, (.testAndSet i, answer) ∈ effects actions)
    (others : ∀ thread, (thread, .set i) ∉ started actions) :
    (effects actions).count (.testAndSet i, .bool true) = 1 := by
  obtain ⟨answer, acted⟩ := tried
  refine (IndexSet.winners (holds_of_run run).1 i).present
    (IndexSet.mem_setIndices.mpr ⟨inside, _, acted, rfl, rfl⟩) ?_
  rintro ⟨call, reply⟩ member rfl
  obtain ⟨thread, called⟩ := (keepsBooks run).started_of_mem_effects member
  exact others thread called

/-- **A shared bitset is a set with unique winners**, for every capacity and every
interleaving of the threads' calls. -/
theorem linearizable_set
    (run : Run (Step AtomicBitset.object) (.start (.new n)) actions system) :
    LinearizableSet n actions system := by
  obtain ⟨ran, holds⟩ := holds_of_run run
  have books := keepsBooks run
  refine ⟨ran, books, ?_, ?_, ?_, ?_, ?_, ?_, holds.high, ?_⟩
  · intro thread call called
    obtain ⟨answer, next, acted, -⟩ := holds.run call
    exact ⟨answer, _, .act called acted⟩
  · rintro before thread i answer rest rfl
    obtain ⟨middle, after, early, moved, -⟩ := run.split
    exact test_of_run early moved
  · intro i
    exact (books.answers_subperm.count_le _).trans (IndexSet.winners ran i).unique
  · intro i inside tried others
    exact winner_of_run run inside tried others
  · rintro idle i inside ⟨thread, called⟩ others
    rw [(books.answers_perm idle).count_eq]
    exact winner_of_run run inside (books.effect_of_started idle called) others
  · intro thread call answer next moved beyond
    have acted : call.run system.state = .ok (answer, next.state) := moved.does
    rw [holds.run_of_le beyond] at acted
    obtain ⟨rfl, same⟩ := Prod.mk.inj (Except.ok.inj acted)
    exact ⟨rfl, same.symm⟩
  · intro idle
    have same : IndexSet.setIndices n.val (answers actions) =
        IndexSet.setIndices n.val (effects actions) := by
      ext i
      simp only [IndexSet.mem_setIndices, (books.answers_perm idle).mem_iff]
    rw [same]
    exact holds.countOnes

/-- Two threads race for one index of the second word. -/
theorem linearizable_set_witness : ∃ system : System AtomicBitset BitsetCall BitsetAnswer Bool,
    LinearizableSet ⟨70, by decide⟩
      [.call true (.testAndSet 65), .call false (.testAndSet 65),
        .act false (.testAndSet 65) (.bool true), .act true (.testAndSet 65) (.bool false),
        .ret true (.testAndSet 65) (.bool false), .ret false (.testAndSet 65) (.bool true)]
      system :=
  ⟨_, linearizable_set <|
    .cons (.call _ rfl) <| .cons (.call _ rfl) <| .cons (.act rfl rfl) <| .cons (.act rfl rfl) <|
    .cons (.ret rfl) <| .cons (.ret rfl) .start⟩

end Shared

end FusionGraph
