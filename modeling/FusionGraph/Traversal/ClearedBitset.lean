import FusionGraph.Traversal.AtomicBitset

/-!
# Clearing and counting a shared bitset

A call that clears a bitset stores zero in one word after the other, and a call that
counts loads one word after the other. Between two of these steps other threads set bits
and clear words, so neither call sees the bitset at one moment.

A bit is what the last step on it made it (`last_write_decides`): set when a call has set
the index and no step has cleared its word since. Between two such steps at most one call
wins the index. A count without a clear beside it lies between the sizes of the set at
its start and at its end (`count_between`), and what a clear leaves behind was set while
it ran (`clear_leaves_later_sets`).
-/

set_option autoImplicit false

namespace FusionGraph

open Foundations Foundations.Bitset

namespace AtomicBitset

/-- Stores zero in a word. -/
def clearWord (self : AtomicBitset) (word : ℕ) : Outcome AtomicBitset := do
  let bits ← Checked.store self.bits word 0#64
  pure { self with bits := bits }

/-- Clears all bits. -/
def clear (self : AtomicBitset) : Outcome AtomicBitset :=
  (List.range self.bits.length).foldlM clearWord self

/-- Adds the set bits of a word to a count. -/
def countWord (self : AtomicBitset) (count word : ℕ) : Outcome ℕ := do
  let bits ← Checked.index self.bits word
  Checked.add usizeMax count (setBits bits).length

/-- Counting the bits is counting those of one word after the other. -/
theorem countOnes_eq (self : AtomicBitset) :
    self.countOnes = (List.range self.bits.length).foldlM self.countWord 0 := by
  rw [countOnes, Checked.foldlM_range]
  intro count i word found
  rw [countWord, Checked.index_eq_ok found, Checked.ok_bind]

end AtomicBitset

/-! ## Threads -/

/-- What a thread does with the bitset. -/
inductive BitsetTask where
  | idle
  /-- It clears the words from the given one on. -/
  | clearing (next : ℕ)
  /-- It has counted the bits of the words before the given one. -/
  | counting (next count : ℕ)

/-- A bitset and the threads that share it. -/
structure SharedBitset (Thread : Type) where
  bitset : AtomicBitset
  task : Thread → BitsetTask

/-- A step of a thread. -/
inductive BitsetAction (Thread : Type) where
  | act (thread : Thread) (call : BitsetCall) (answer : BitsetAnswer)
  | beginClear (thread : Thread)
  | clearWord (thread : Thread) (word : ℕ)
  | endClear (thread : Thread)
  | beginCount (thread : Thread)
  | countWord (thread : Thread) (word : ℕ)
  | endCount (thread : Thread) (count : ℕ)

namespace BitsetAction

variable {Thread : Type}

/-- The set of indices after a step. -/
def onSet (size : ℕ) (held : Finset ℕ) : BitsetAction Thread → Finset ℕ
  | act _ call _ => IndexSet.after size held call
  | clearWord _ word => held.filter fun i => i / 64 ≠ word
  | _ => held

/-- The step sets the bit of an index below the bound. -/
def Sets (size i : ℕ) : BitsetAction Thread → Prop
  | act _ call _ => call.sets = true ∧ call.index = i ∧ i < size
  | _ => False

/-- The step clears the word of an index. -/
def Clears (i : ℕ) : BitsetAction Thread → Prop
  | clearWord _ word => word = i / 64
  | _ => False

/-- The step answers that an index was new. -/
def Wins (i : ℕ) : BitsetAction Thread → Prop
  | act _ call answer => call = .testAndSet i ∧ answer = .bool true
  | _ => False

instance (i : ℕ) : DecidablePred (Wins i : BitsetAction Thread → Prop) := fun action =>
  match action with
  | act _ call answer => inferInstanceAs (Decidable (call = .testAndSet i ∧ answer = .bool true))
  | beginClear _ => isFalse id
  | clearWord _ _ => isFalse id
  | endClear _ => isFalse id
  | beginCount _ => isFalse id
  | countWord _ _ => isFalse id
  | endCount _ _ => isFalse id

end BitsetAction

/-- The set of indices after steps. -/
def heldFrom {Thread : Type} (size : ℕ) (held : Finset ℕ) (actions : List (BitsetAction Thread)) :
    Finset ℕ :=
  actions.foldl (BitsetAction.onSet size) held

section Steps

variable {Thread : Type} [DecidableEq Thread]

/-- The steps of the threads. -/
inductive BitsetStep : SharedBitset Thread → BitsetAction Thread → SharedBitset Thread → Prop
  | act {shared : SharedBitset Thread} {thread : Thread} {call : BitsetCall}
      {answer : BitsetAnswer} {next : AtomicBitset} (idle : shared.task thread = .idle)
      (does : call.run shared.bitset = .ok (answer, next)) :
      BitsetStep shared (.act thread call answer) { shared with bitset := next }
  | beginClear {shared : SharedBitset Thread} {thread : Thread}
      (idle : shared.task thread = .idle) :
      BitsetStep shared (.beginClear thread)
        { shared with task := Function.update shared.task thread (.clearing 0) }
  | clearWord {shared : SharedBitset Thread} {thread : Thread} {word : ℕ} {next : AtomicBitset}
      (clearing : shared.task thread = .clearing word) (inside : word < shared.bitset.bits.length)
      (does : shared.bitset.clearWord word = .ok next) :
      BitsetStep shared (.clearWord thread word)
        { bitset := next, task := Function.update shared.task thread (.clearing (word + 1)) }
  | endClear {shared : SharedBitset Thread} {thread : Thread}
      (clearing : shared.task thread = .clearing shared.bitset.bits.length) :
      BitsetStep shared (.endClear thread)
        { shared with task := Function.update shared.task thread .idle }
  | beginCount {shared : SharedBitset Thread} {thread : Thread}
      (idle : shared.task thread = .idle) :
      BitsetStep shared (.beginCount thread)
        { shared with task := Function.update shared.task thread (.counting 0 0) }
  | countWord {shared : SharedBitset Thread} {thread : Thread} {word count more : ℕ}
      (counting : shared.task thread = .counting word count)
      (inside : word < shared.bitset.bits.length)
      (does : shared.bitset.countWord count word = .ok more) :
      BitsetStep shared (.countWord thread word)
        { shared with task := Function.update shared.task thread (.counting (word + 1) more) }
  | endCount {shared : SharedBitset Thread} {thread : Thread} {count : ℕ}
      (counting : shared.task thread = .counting shared.bitset.bits.length count) :
      BitsetStep shared (.endCount thread count)
        { shared with task := Function.update shared.task thread .idle }

/-- Threads before any step, with a new bitset. -/
def SharedBitset.start (n : Usize) : SharedBitset Thread where
  bitset := .new n
  task _ := .idle

end Steps

/-! ## One word -/

namespace AtomicBitset.Holds

variable {bitset : AtomicBitset} {size : ℕ} {held : Finset ℕ}

theorem length_eq (holds : bitset.Holds size held) : bitset.bits.length = (size + 63) / 64 :=
  holds.represents.length

theorem hasBit_iff (holds : bitset.Holds size held) {i : ℕ} :
    hasBit bitset.bits i = true ↔ i ∈ held := by
  by_cases inside : i < size
  · exact holds.represents.bit i inside
  · rw [holds.high i (Nat.le_of_not_lt inside)]
    exact iff_of_false Bool.false_ne_true fun member => inside (holds.below i member)

/-- Every index of the set has a word. -/
theorem word_lt (holds : bitset.Holds size held) {i : ℕ} (member : i ∈ held) :
    i / 64 < bitset.bits.length :=
  holds.represents.word_lt (holds.below i member)

/-- The indices with a word are all of them. -/
theorem filter_words (holds : bitset.Holds size held) {indices : Finset ℕ}
    (sub : indices ⊆ held) :
    (indices.filter fun i => i / 64 < bitset.bits.length) = indices :=
  Finset.filter_true_of_mem fun _ member => holds.word_lt (sub member)

/-- Clearing a word takes its indices away. -/
theorem clearWord (holds : bitset.Holds size held) {word : ℕ}
    (inside : word < bitset.bits.length) :
    ∃ next, bitset.clearWord word = .ok next ∧
      next.Holds size (held.filter fun i => i / 64 ≠ word) := by
  refine ⟨{ bitset with bits := bitset.bits.set word 0#64 }, ?_, ?_⟩
  · simp only [AtomicBitset.clearWord, Checked.store_of_lt _ inside, Checked.ok_bind,
      Checked.pure_eq_ok]
  have bits : ∀ j, hasBit (bitset.bits.set word 0#64) j = true ↔
      hasBit bitset.bits j = true ∧ j / 64 ≠ word := by
    intro j
    by_cases same : j / 64 = word
    · subst same
      simp [hasBit, inside]
    · rw [hasBit, List.getElem?_set_ne (Ne.symm same), ← hasBit]
      exact ⟨fun found => ⟨found, same⟩, And.left⟩
  refine ⟨holds.capacity, ⟨?_, fun j bound => ?_⟩, fun j beyond => ?_, fun i member => ?_⟩
  · rw [List.length_set, holds.represents.length]
  · rw [bits, holds.represents.bit j bound, Finset.mem_filter]
  · rw [← Bool.not_eq_true, bits, holds.high j beyond]
    exact fun both => Bool.false_ne_true both.1
  · exact holds.below i (Finset.mem_filter.mp member).1

/-- **Clearing one word after the other, alone, empties the set.** -/
theorem clear (holds : bitset.Holds size held) :
    ∃ next, bitset.clear = .ok next ∧ next.Holds size ∅ := by
  obtain ⟨next, cleared, kept⟩ := Checked.foldlM_of_invariant
    (fun done (next : AtomicBitset) => next.Holds size (held.filter fun i => i / 64 ∉ done))
    (List.range bitset.bits.length) (show bitset.Holds size _ by simpa using holds) (by
      intro done word rest next whole holdsNow
      have inside : word < next.bits.length := by
        rw [holdsNow.length_eq, ← holds.length_eq, ← List.mem_range, ← whole]
        exact List.mem_append_right _ List.mem_cons_self
      obtain ⟨after, ran, kept⟩ := holdsNow.clearWord inside
      refine ⟨after, ran, ?_⟩
      rw [Finset.filter_filter] at kept
      simpa only [List.mem_append, List.mem_singleton, not_or] using kept)
  refine ⟨next, cleared, ?_⟩
  have none : (held.filter fun i => i / 64 ∉ List.range bitset.bits.length) = ∅ :=
    Finset.filter_false_of_mem fun i member gone =>
      gone (List.mem_range.mpr (holds.word_lt member))
  exact none ▸ kept

/-- The set bits of a word are its indices. -/
theorem length_setBits (holds : bitset.Holds size held) {word : ℕ}
    (inside : word < bitset.bits.length) :
    (setBits bitset.bits[word]).length = (held.filter fun i => i / 64 = word).card := by
  have same : (held.filter fun i => i / 64 = word) =
      ((setBits bitset.bits[word]).map fun bit => 64 * word + bit).toFinset := by
    ext i
    simp only [Finset.mem_filter, List.mem_map, List.mem_toFinset, setBits, List.mem_filter,
      List.mem_range]
    have found : ∀ j, j / 64 = word → (hasBit bitset.bits j = true ↔
        bitset.bits[word].getLsbD (j % 64) = true) := by
      rintro j rfl
      rw [hasBit, List.getElem?_eq_getElem inside, Option.getD_some]
    constructor
    · rintro ⟨member, rfl⟩
      refine ⟨i % 64, ⟨Nat.mod_lt i (by omega), ?_⟩, Nat.div_add_mod i 64⟩
      exact (found i rfl).mp ((holds.represents.bit i (holds.below i member)).mpr member)
    · rintro ⟨bit, ⟨small, set⟩, rfl⟩
      have word_eq : (64 * word + bit) / 64 = word := by omega
      have bit_eq : (64 * word + bit) % 64 = bit := by omega
      have set : hasBit bitset.bits (64 * word + bit) = true := by
        rw [found _ word_eq, bit_eq]
        exact set
      refine ⟨?_, word_eq⟩
      by_contra absent
      by_cases bound : 64 * word + bit < size
      · exact absent ((holds.represents.bit _ bound).mp set)
      · rw [holds.high _ (Nat.le_of_not_lt bound)] at set
        cases set
  have once : ((setBits bitset.bits[word]).map fun bit => 64 * word + bit).Nodup :=
    (List.nodup_range.filter _).map fun first second equal => Nat.add_left_cancel equal
  rw [same, List.toFinset_card_of_nodup once, List.length_map]

/-- Counting a word adds its indices, when the sum fits. -/
theorem countWord (holds : bitset.Holds size held) {count word : ℕ}
    (inside : word < bitset.bits.length)
    (fits : count + (held.filter fun i => i / 64 = word).card ≤ usizeMax) :
    bitset.countWord count word = .ok (count + (held.filter fun i => i / 64 = word).card) := by
  rw [← holds.length_setBits inside] at fits ⊢
  rw [AtomicBitset.countWord, Checked.index_of_lt inside, Checked.ok_bind,
    Checked.add_of_le fits]

/-- A word that was counted has added its indices. -/
theorem eq_of_countWord (holds : bitset.Holds size held) {count word more : ℕ}
    (inside : word < bitset.bits.length) (does : bitset.countWord count word = .ok more) :
    more = count + (held.filter fun i => i / 64 = word).card := by
  rw [AtomicBitset.countWord, Checked.index_of_lt inside, Checked.ok_bind, Checked.add] at does
  split at does
  · rw [← holds.length_setBits inside]
    exact (Except.ok.inj does).symm
  · cases does

end AtomicBitset.Holds

/-! ## What one step does -/

section Held

variable {Thread : Type} {size i : ℕ} {held : Finset ℕ} {action : BitsetAction Thread}
  {actions : List (BitsetAction Thread)}

theorem heldFrom_snoc : heldFrom size held (actions ++ [action]) =
    action.onSet size (heldFrom size held actions) := by
  rw [heldFrom, List.foldl_append]
  rfl

theorem heldFrom_append (more : List (BitsetAction Thread)) :
    heldFrom size held (actions ++ more) = heldFrom size (heldFrom size held actions) more :=
  List.foldl_append ..

/-- After a step an index is in the set when the step sets it, or it was there and the step
does not clear its word. -/
theorem BitsetAction.mem_onSet :
    i ∈ action.onSet size held ↔ action.Sets size i ∨ i ∈ held ∧ ¬ action.Clears i := by
  cases action with
  | act thread call answer =>
    simp only [onSet, IndexSet.mem_after, Sets, Clears]
    tauto
  | clearWord thread word =>
    simp only [onSet, Finset.mem_filter, Sets, Clears, false_or, ne_comm]
  | _ => simp [onSet, Sets, Clears]

/-- **The last step on a bit decides it**: an index is in the set when a step has set it, or
it was there before, and no step has cleared its word since. -/
theorem mem_heldFrom : i ∈ heldFrom size held actions ↔
    (i ∈ held ∧ ∀ action ∈ actions, ¬ action.Clears i) ∨
      ∃ before action after, actions = before ++ action :: after ∧ action.Sets size i ∧
        ∀ later ∈ after, ¬ later.Clears i := by
  induction actions using List.reverseRecOn with
  | nil => simp [heldFrom]
  | append_singleton actions last ih =>
    rw [heldFrom_snoc, BitsetAction.mem_onSet, ih]
    constructor
    · rintro (sets | ⟨⟨old, kept⟩ | ⟨before, action, after, rfl, sets, kept⟩, stays⟩)
      · exact .inr ⟨actions, last, [], rfl, sets, by simp⟩
      · refine .inl ⟨old, fun action member => ?_⟩
        rcases List.mem_append.mp member with earlier | here
        · exact kept action earlier
        · exact List.mem_singleton.mp here ▸ stays
      · refine .inr ⟨before, action, after ++ [last], by simp, sets, fun later member => ?_⟩
        rcases List.mem_append.mp member with earlier | here
        · exact kept later earlier
        · exact List.mem_singleton.mp here ▸ stays
    · rintro (⟨old, kept⟩ | ⟨before, action, after, whole, sets, kept⟩)
      · refine .inr ⟨.inl ⟨old, fun action member => ?_⟩, ?_⟩
        · exact kept action (List.mem_append_left _ member)
        · exact kept last (List.mem_append_right _ List.mem_cons_self)
      · rcases List.eq_nil_or_concat after with rfl | ⟨front, back, rfl⟩
        · obtain ⟨-, same⟩ := List.append_inj' whole rfl
          obtain rfl := (List.cons.inj same).1
          exact .inl sets
        · rw [List.concat_eq_append, ← List.cons_append, ← List.append_assoc] at whole
          obtain ⟨rfl, same⟩ := List.append_inj' whole rfl
          obtain rfl := (List.cons.inj same).1
          refine .inr ⟨.inr ⟨before, action, front, rfl, sets, fun later member => ?_⟩, ?_⟩
          · exact kept later (by simp [member])
          · exact kept last (by simp)

/-- Without a clear the set only grows. -/
theorem heldFrom_mono (kept : ∀ action ∈ actions, ∀ i, ¬ action.Clears i) :
    held ⊆ heldFrom size held actions := fun i member =>
  mem_heldFrom.mpr (.inl ⟨member, fun action listed => kept action listed i⟩)

end Held

section Shared

variable {Thread : Type} [DecidableEq Thread] {size i : ℕ} {held : Finset ℕ}
  {shared next : SharedBitset Thread} {action : BitsetAction Thread}
  {actions : List (BitsetAction Thread)}

/-- **A step does to the bitset what it does to the set**, and a call answers as on the
set. -/
theorem BitsetStep.holds (moved : BitsetStep shared action next)
    (holds : shared.bitset.Holds size held) :
    next.bitset.Holds size (action.onSet size held) ∧
      ∀ thread call answer, action = .act thread call answer →
        IndexSet.Answers size held call answer := by
  cases moved with
  | act idle does =>
    rename_i call answer after
    obtain ⟨found, stored, ran, answers, kept⟩ := holds.run call
    obtain ⟨rfl, rfl⟩ := Prod.mk.inj (Except.ok.inj (does.symm.trans ran))
    refine ⟨kept, ?_⟩
    rintro _ _ _ same
    obtain ⟨-, rfl, rfl⟩ := BitsetAction.act.inj same
    exact answers
  | clearWord clearing inside does =>
    obtain ⟨after, ran, kept⟩ := holds.clearWord inside
    obtain rfl := Except.ok.inj (does.symm.trans ran)
    exact ⟨kept, nofun⟩
  | beginClear idle => exact ⟨holds, nofun⟩
  | endClear clearing => exact ⟨holds, nofun⟩
  | beginCount idle => exact ⟨holds, nofun⟩
  | countWord counting inside does => exact ⟨holds, nofun⟩
  | endCount counting => exact ⟨holds, nofun⟩

theorem holds_of_steps (run : Run BitsetStep shared actions next)
    (holds : shared.bitset.Holds size held) :
    next.bitset.Holds size (heldFrom size held actions) :=
  run.invariant (fun actions shared => shared.bitset.Holds size (heldFrom size held actions)) holds
    fun _ kept moved => heldFrom_snoc ▸ (moved.holds kept).1

/-! ## Winners between two clears -/

/-- How often an index is won in steps that do not clear its word. -/
structure WinsBetween (i : ℕ) (before after : Finset ℕ) (actions : List (BitsetAction Thread)) :
    Prop where
  unique : actions.countP (BitsetAction.Wins i ·) ≤ 1
  held : i ∈ before → actions.countP (BitsetAction.Wins i ·) = 0
  absent : i ∉ after → actions.countP (BitsetAction.Wins i ·) = 0
  present : i ∉ before → i ∈ after →
    (∀ action ∈ actions, ∀ thread answer, action ≠ .act thread (.set i) answer) →
    actions.countP (BitsetAction.Wins i ·) = 1

/-- A step that sets an index that is not in the set wins it, or just sets it. -/
theorem BitsetStep.wins_of_sets (moved : BitsetStep shared action next)
    (holds : shared.bitset.Holds size held) (absent : i ∉ held) (sets : action.Sets size i) :
    action.Wins i ∨ ∃ thread answer, action = .act thread (.set i) answer := by
  have answers := (moved.holds holds).2
  cases action with
  | act thread call answer =>
    obtain ⟨isSet, same, inside⟩ := sets
    have answered := answers thread call answer rfl
    cases call with
    | test j => cases isSet
    | testAndSet j =>
      obtain rfl : j = i := same
      obtain ⟨value, rfl, fresh⟩ := answered
      exact .inl ⟨rfl, congrArg BitsetAnswer.bool (fresh.mpr ⟨inside, absent⟩)⟩
    | set j =>
      obtain rfl : j = i := same
      exact .inr ⟨thread, answer, rfl⟩
  | _ => exact sets.elim

/-- A step that wins an index finds it absent and sets it. -/
theorem BitsetStep.sets_of_wins (moved : BitsetStep shared action next)
    (holds : shared.bitset.Holds size held) (wins : action.Wins i) :
    i ∉ held ∧ action.Sets size i := by
  have answers := (moved.holds holds).2
  cases action with
  | act thread call answer =>
    obtain ⟨rfl, rfl⟩ := wins
    obtain ⟨value, same, fresh⟩ := answers thread _ _ rfl
    obtain ⟨inside, absent⟩ := fresh.mp (BitsetAnswer.bool.inj same).symm
    exact ⟨absent, rfl, rfl, inside⟩
  | _ => exact wins.elim

/-- **Between two clears of its word an index is won at most once.** -/
theorem winsBetween (run : Run BitsetStep shared actions next)
    (holds : shared.bitset.Holds size held) (kept : ∀ action ∈ actions, ¬ action.Clears i) :
    WinsBetween i held (heldFrom size held actions) actions := by
  refine run.invariant (fun actions shared => (∀ action ∈ actions, ¬ action.Clears i) →
    shared.bitset.Holds size (heldFrom size held actions) ∧
      WinsBetween i held (heldFrom size held actions) actions) ?_ ?_ kept |>.2
  · intro _
    exact ⟨holds, Nat.zero_le 1, fun _ => rfl, fun _ => rfl, fun absent member =>
      absurd member absent⟩
  · intro actions shared action next _ before moved kept
    obtain ⟨holdsNow, wins⟩ := before fun earlier member =>
      kept earlier (List.mem_append_left _ member)
    have stays : ¬ action.Clears i := kept action (List.mem_append_right _ List.mem_cons_self)
    refine ⟨heldFrom_snoc ▸ (moved.holds holdsNow).1, ?_⟩
    have grows : i ∈ heldFrom size held actions → i ∈ action.onSet size (heldFrom size held actions) :=
      fun member => BitsetAction.mem_onSet.mpr (.inr ⟨member, stays⟩)
    have old : i ∈ held → i ∈ heldFrom size held actions := fun member =>
      mem_heldFrom.mpr (.inl ⟨member, fun earlier listed =>
        kept earlier (List.mem_append_left _ listed)⟩)
    rw [heldFrom_snoc]
    by_cases won : action.Wins i
    · -- the winner found the index absent, so nobody has won before
      obtain ⟨absent, sets⟩ := moved.sets_of_wins holdsNow won
      have one : (actions ++ [action]).countP (BitsetAction.Wins i ·) = 1 := by
        rw [List.countP_append, wins.absent absent, List.countP_singleton,
          if_pos (decide_eq_true won)]
      refine ⟨one.le, fun member => absurd (old member) absent, fun gone => ?_, fun _ _ _ => one⟩
      exact absurd (BitsetAction.mem_onSet.mpr (.inl sets)) gone
    · have same : (actions ++ [action]).countP (BitsetAction.Wins i ·) =
          actions.countP (BitsetAction.Wins i ·) := by
        rw [List.countP_append, List.countP_singleton, if_neg (by simpa using won), Nat.add_zero]
      refine ⟨same ▸ wins.unique, fun member => same ▸ wins.held member, fun gone => ?_,
        fun new member others => ?_⟩
      · rw [same]
        exact wins.absent fun member => gone (grows member)
      · rw [same]
        refine wins.present new ?_ fun earlier listed =>
          others earlier (List.mem_append_left _ listed)
        by_contra absent
        have sets := (BitsetAction.mem_onSet.mp member).resolve_right fun both => absent both.1
        rcases moved.wins_of_sets holdsNow absent sets with first | ⟨thread, answer, rfl⟩
        · exact won first
        · exact others _ (List.mem_append_right _ List.mem_cons_self) thread answer rfl

/-! ## The progress of a thread -/

/-- The thread that takes the step. -/
def BitsetAction.thread {Thread : Type} : BitsetAction Thread → Thread
  | act thread _ _ => thread
  | beginClear thread => thread
  | clearWord thread _ => thread
  | endClear thread => thread
  | beginCount thread => thread
  | countWord thread _ => thread
  | endCount thread _ => thread

/-- A step of another thread leaves the task of this one. -/
theorem BitsetStep.task_of_ne (moved : BitsetStep shared action next) {thread : Thread}
    (different : action.thread ≠ thread) : next.task thread = shared.task thread := by
  cases moved with
  | act idle does => rfl
  | _ => exact Function.update_of_ne different.symm ..

theorem BitsetStep.length_eq (moved : BitsetStep shared action next)
    (holds : shared.bitset.Holds size held) :
    next.bitset.bits.length = shared.bitset.bits.length := by
  rw [(moved.holds holds).1.length_eq, holds.length_eq]

/-- How far a count has got: it is between what the words before held at its start and what
they hold now. -/
def CountedSoFar (before now : Finset ℕ) (words : ℕ) : BitsetTask → Prop
  | .counting next count => next ≤ words ∧
    (before.filter fun i => i / 64 < next).card ≤ count ∧
      count ≤ (now.filter fun i => i / 64 < next).card
  | _ => False

/-- One more word splits the indices before it. -/
theorem card_filter_succ (indices : Finset ℕ) (word : ℕ) :
    (indices.filter fun i => i / 64 < word + 1).card =
      (indices.filter fun i => i / 64 < word).card +
        (indices.filter fun i => i / 64 = word).card := by
  have apart : Disjoint (indices.filter fun i => i / 64 < word)
      (indices.filter fun i => i / 64 = word) := by
    refine Finset.disjoint_filter.mpr fun i _ small same => ?_
    omega
  have union : (indices.filter fun i => i / 64 < word + 1) =
      (indices.filter fun i => i / 64 < word) ∪ indices.filter fun i => i / 64 = word := by
    ext i
    simp only [Finset.mem_union, Finset.mem_filter, Nat.lt_succ_iff_lt_or_eq]
    tauto
  rw [union, Finset.card_union_of_disjoint apart]

/-- **A step keeps a count between the bounds**, while the set only grows. -/
theorem BitsetStep.countedSoFar (moved : BitsetStep shared action next) {before : Finset ℕ}
    (holds : shared.bitset.Holds size held) (grows : before ⊆ held) {thread : Thread}
    (counts : CountedSoFar before held shared.bitset.bits.length (shared.task thread))
    (kept : ∀ i, ¬ action.Clears i) (returns : ∀ count, action ≠ .endCount thread count) :
    CountedSoFar before (action.onSet size held) next.bitset.bits.length (next.task thread) := by
  have more : held ⊆ action.onSet size held := fun i member =>
    BitsetAction.mem_onSet.mpr (.inr ⟨member, kept i⟩)
  rw [moved.length_eq holds]
  by_cases same : action.thread = thread
  · subst same
    cases moved with
    | act idle does =>
      rw [BitsetAction.thread, idle] at counts
      exact counts.elim
    | beginClear idle =>
      rw [BitsetAction.thread, idle] at counts
      exact counts.elim
    | clearWord clearing inside does =>
      rw [BitsetAction.thread, clearing] at counts
      exact counts.elim
    | endClear clearing =>
      rw [BitsetAction.thread, clearing] at counts
      exact counts.elim
    | beginCount idle =>
      rw [BitsetAction.thread, idle] at counts
      exact counts.elim
    | countWord counting inside does =>
      rename_i _ word count _
      rw [BitsetAction.thread, counting] at counts
      obtain ⟨-, lower, upper⟩ := counts
      obtain rfl := holds.eq_of_countWord inside does
      have loaded : (before.filter fun i => i / 64 = word).card ≤
          (held.filter fun i => i / 64 = word).card :=
        Finset.card_le_card (Finset.filter_subset_filter _ grows)
      simp only [BitsetAction.thread, Function.update_self, CountedSoFar, BitsetAction.onSet,
        card_filter_succ]
      exact ⟨inside, Nat.add_le_add lower loaded, Nat.add_le_add_right upper _⟩
    | endCount counting => exact absurd rfl (returns _)
  · rw [moved.task_of_ne same]
    cases task : shared.task thread with
    | counting next count =>
      rw [task] at counts
      obtain ⟨bound, lower, upper⟩ := counts
      exact ⟨bound, lower, upper.trans (Finset.card_le_card (Finset.filter_subset_filter _ more))⟩
    | idle =>
      rw [task] at counts
      exact counts.elim
    | clearing next =>
      rw [task] at counts
      exact counts.elim

/-- How far a clear has got: the indices that it has passed were set by the given steps. -/
def ClearedSoFar (size : ℕ) (now : Finset ℕ) (words : ℕ) (actions : List (BitsetAction Thread)) :
    BitsetTask → Prop
  | .clearing next => next ≤ words ∧
    ∀ i ∈ now, i / 64 < next → ∃ action ∈ actions, action.Sets size i
  | _ => False

/-- **A step keeps what a clear has passed to indices that were set since.** -/
theorem BitsetStep.clearedSoFar (moved : BitsetStep shared action next)
    (holds : shared.bitset.Holds size held) {thread : Thread}
    (clears : ClearedSoFar size held shared.bitset.bits.length actions (shared.task thread))
    (returns : action ≠ .endClear thread) :
    ClearedSoFar size (action.onSet size held) next.bitset.bits.length (actions ++ [action])
      (next.task thread) := by
  rw [moved.length_eq holds]
  have later : ∀ word, (∀ i ∈ held, i / 64 < word → ∃ action ∈ actions, action.Sets size i) →
      ∀ i ∈ action.onSet size held, i / 64 < word →
        ∃ step ∈ actions ++ [action], step.Sets size i := by
    intro word before i member passed
    rcases BitsetAction.mem_onSet.mp member with sets | ⟨old, -⟩
    · exact ⟨action, List.mem_append_right _ List.mem_cons_self, sets⟩
    · obtain ⟨step, listed, sets⟩ := before i old passed
      exact ⟨step, List.mem_append_left _ listed, sets⟩
  by_cases same : action.thread = thread
  · subst same
    cases moved with
    | act idle does =>
      rw [BitsetAction.thread, idle] at clears
      exact clears.elim
    | beginClear idle =>
      rw [BitsetAction.thread, idle] at clears
      exact clears.elim
    | clearWord clearing inside does =>
      rename_i _ word _
      rw [BitsetAction.thread, clearing] at clears
      simp only [BitsetAction.thread, Function.update_self, ClearedSoFar]
      refine ⟨inside, fun i member passed => ?_⟩
      have other : i / 64 ≠ word := (Finset.mem_filter.mp member).2
      exact later word clears.2 i member (by omega)
    | endClear clearing => exact absurd rfl returns
    | beginCount idle =>
      rw [BitsetAction.thread, idle] at clears
      exact clears.elim
    | countWord counting inside does =>
      rw [BitsetAction.thread, counting] at clears
      exact clears.elim
    | endCount counting =>
      rw [BitsetAction.thread, counting] at clears
      exact clears.elim
  · rw [moved.task_of_ne same]
    cases task : shared.task thread with
    | clearing next =>
      rw [task] at clears
      exact ⟨clears.1, later next clears.2⟩
    | idle =>
      rw [task] at clears
      exact clears.elim
    | counting next count =>
      rw [task] at clears
      exact clears.elim

/-- A count stays between the bounds while it runs. -/
theorem countedSoFar_of_run {thread : Thread} (run : Run BitsetStep shared actions next)
    (holds : shared.bitset.Holds size held)
    (counts : CountedSoFar held held shared.bitset.bits.length (shared.task thread))
    (running : ∀ count, .endCount thread count ∉ actions)
    (kept : ∀ action ∈ actions, ∀ i, ¬ action.Clears i) :
    CountedSoFar held (heldFrom size held actions) next.bitset.bits.length (next.task thread) := by
  refine run.invariant (fun actions (shared : SharedBitset Thread) =>
    (∀ count, .endCount thread count ∉ actions) → (∀ action ∈ actions, ∀ i, ¬ action.Clears i) →
      CountedSoFar held (heldFrom size held actions) shared.bitset.bits.length
        (shared.task thread)) (fun _ _ => counts) ?_ running kept
  intro actions shared action next earlier before moved running kept
  have here := List.mem_append_right actions (List.mem_singleton.mpr (Eq.refl action))
  rw [heldFrom_snoc]
  refine moved.countedSoFar (holds_of_steps earlier holds) ?_ (before ?_ ?_) (kept action here) ?_
  · exact heldFrom_mono fun action listed => kept action (List.mem_append_left _ listed)
  · exact fun count listed => running count (List.mem_append_left _ listed)
  · exact fun action listed => kept action (List.mem_append_left _ listed)
  · rintro count rfl
    exact running count here

/-- What a clear has passed stays clear, but for what was set since, while it runs. -/
theorem clearedSoFar_of_run {thread : Thread} (run : Run BitsetStep shared actions next)
    (holds : shared.bitset.Holds size held)
    (clears : ClearedSoFar size held shared.bitset.bits.length ([] : List (BitsetAction Thread))
      (shared.task thread))
    (running : .endClear thread ∉ actions) :
    ClearedSoFar size (heldFrom size held actions) next.bitset.bits.length actions
      (next.task thread) := by
  refine run.invariant (fun actions (shared : SharedBitset Thread) => .endClear thread ∉ actions →
    ClearedSoFar size (heldFrom size held actions) shared.bitset.bits.length actions
      (shared.task thread)) (fun _ => clears) ?_ running
  intro actions shared action next earlier before moved running
  rw [heldFrom_snoc]
  refine moved.clearedSoFar (holds_of_steps earlier holds) (before ?_) ?_
  · exact fun listed => running (List.mem_append_left _ listed)
  · rintro rfl
    exact running (List.mem_append_right _ List.mem_cons_self)

/-! ## Whole runs -/

/-- How far a busy thread can have got: it is at a word or past the last, and a count is no
more than the indices before the word. -/
def BitsetTask.Within (size words : ℕ) : BitsetTask → Prop
  | .idle => True
  | .clearing next => next ≤ words
  | .counting next count => next ≤ words ∧
    count ≤ ((Finset.range size).filter fun i => i / 64 < next).card

theorem BitsetStep.within (moved : BitsetStep shared action next)
    (holds : shared.bitset.Holds size held)
    (within : ∀ thread, (shared.task thread).Within size shared.bitset.bits.length)
    (thread : Thread) : (next.task thread).Within size next.bitset.bits.length := by
  rw [moved.length_eq holds]
  by_cases same : action.thread = thread
  · subst same
    cases moved with
    | act idle does => exact within _
    | beginClear idle =>
      simp only [BitsetAction.thread, Function.update_self]
      exact Nat.zero_le _
    | clearWord clearing inside does =>
      simp only [BitsetAction.thread, Function.update_self]
      exact inside
    | endClear clearing =>
      simp only [BitsetAction.thread, Function.update_self]
      trivial
    | beginCount idle =>
      simp only [BitsetAction.thread, Function.update_self]
      exact ⟨Nat.zero_le _, Nat.zero_le _⟩
    | countWord counting inside does =>
      rename_i own word count more
      have sofar := within own
      rw [counting] at sofar
      obtain rfl := holds.eq_of_countWord inside does
      have below : held ⊆ Finset.range size := fun i member =>
        Finset.mem_range.mpr (holds.below i member)
      have loaded : (held.filter fun i => i / 64 = word).card ≤
          ((Finset.range size).filter fun i => i / 64 = word).card :=
        Finset.card_le_card (Finset.filter_subset_filter _ below)
      simp only [BitsetAction.thread, Function.update_self, BitsetTask.Within, card_filter_succ]
      exact ⟨inside, Nat.add_le_add sofar.2 loaded⟩
    | endCount counting =>
      simp only [BitsetAction.thread, Function.update_self]
      trivial
  · rw [moved.task_of_ne same]
    exact within thread

section Reachable

variable {n : Usize}

/-- The bitset stores the set that the steps leave, and no thread is lost. -/
theorem reachable (run : Run BitsetStep (.start n) actions shared) :
    shared.bitset.Holds n.val (heldFrom n.val ∅ actions) ∧
      ∀ thread, (shared.task thread).Within n.val shared.bitset.bits.length := by
  refine run.invariant (fun actions shared =>
    shared.bitset.Holds n.val (heldFrom n.val ∅ actions) ∧
      ∀ thread, (shared.task thread).Within n.val shared.bitset.bits.length) ?_ ?_
  · exact ⟨.new n, fun _ => trivial⟩
  · intro actions shared action next _ before moved
    exact ⟨heldFrom_snoc ▸ (moved.holds before.1).1, moved.within before.1 before.2⟩

/-- A thread in a clear or in a count can take its next step. -/
theorem busy_step (run : Run BitsetStep (.start n) actions shared) {thread : Thread}
    (busy : shared.task thread ≠ .idle) :
    ∃ action next, action.thread = thread ∧ BitsetStep shared action next := by
  obtain ⟨holds, within⟩ := reachable run
  have sofar := within thread
  cases task : shared.task thread with
  | idle => exact absurd task busy
  | clearing word =>
    rw [task] at sofar
    rcases Nat.eq_or_lt_of_le (show word ≤ _ from sofar) with rfl | inside
    · exact ⟨_, _, rfl, .endClear task⟩
    · obtain ⟨after, does, -⟩ := holds.clearWord inside
      exact ⟨_, _, rfl, .clearWord task inside does⟩
  | counting word count =>
    rw [task] at sofar
    obtain ⟨bound, counted⟩ := sofar
    rcases Nat.eq_or_lt_of_le bound with rfl | inside
    · exact ⟨_, _, rfl, .endCount task⟩
    · have below : heldFrom n.val ∅ actions ⊆ Finset.range n.val := fun i member =>
        Finset.mem_range.mpr (holds.below i member)
      have loaded : ((heldFrom n.val ∅ actions).filter fun i => i / 64 = word).card ≤
          ((Finset.range n.val).filter fun i => i / 64 = word).card :=
        Finset.card_le_card (Finset.filter_subset_filter _ below)
      have total : ((Finset.range n.val).filter fun i => i / 64 < word + 1).card ≤ n.val := by
        refine (Finset.card_filter_le ..).trans ?_
        rw [Finset.card_range]
      rw [card_filter_succ] at total
      refine ⟨_, _, rfl, .countWord task inside (holds.countWord inside ?_)⟩
      have fits := n.property
      omega

/-- What threads see of a bitset that some of them clear and count: the steps taken so far
and the state they lead to. -/
structure ClearableSet (n : Usize) (actions : List (BitsetAction Thread))
    (shared : SharedBitset Thread) : Prop where
  /-- A bit is set when a step has set its index and none has cleared its word since. -/
  last : ∀ i, hasBit shared.bitset.bits i = true ↔
    ∃ before action after, actions = before ++ action :: after ∧ action.Sets n.val i ∧
      ∀ later ∈ after, ¬ later.Clears i
  /-- A call answers as on the set that the steps before it leave. -/
  answers : ∀ before thread call answer after,
    actions = before ++ .act thread call answer :: after →
      IndexSet.Answers n.val (heldFrom n.val ∅ before) call answer
  /-- Between two clears of its word an index is won at most once. -/
  unique : ∀ i before during after, actions = before ++ during ++ after →
    (∀ action ∈ during, ¬ action.Clears i) → during.countP (BitsetAction.Wins i ·) ≤ 1
  /-- It is won once when it was missing, a call has tested and set it and none has just set
  it. -/
  winner : ∀ i < n.val, ∀ before during after, actions = before ++ during ++ after →
    (∀ action ∈ during, ¬ action.Clears i) → i ∉ heldFrom n.val ∅ before →
    (∃ thread answer, .act thread (.testAndSet i) answer ∈ during) →
    (∀ thread answer, .act thread (.set i) answer ∉ during) →
    during.countP (BitsetAction.Wins i ·) = 1
  /-- No thread is stuck in a clear or in a count. -/
  responsive : ∀ thread, shared.task thread ≠ .idle →
    ∃ action next, action.thread = thread ∧ BitsetStep shared action next

/-- **The last write of a bit decides it**, and winners are unique between two clears, for
every capacity and every interleaving of calls, clears and counts. -/
theorem last_write_decides (run : Run BitsetStep (.start n) actions shared) :
    ClearableSet n actions shared := by
  obtain ⟨holds, -⟩ := reachable run
  refine ⟨fun i => ?_, ?_, ?_, ?_, fun thread busy => busy_step run busy⟩
  · rw [holds.hasBit_iff, mem_heldFrom]
    exact or_iff_right fun old => absurd old.1 (Finset.notMem_empty i)
  · rintro before thread call answer after rfl
    obtain ⟨middle, next, early, moved, -⟩ := run.split
    exact (moved.holds (reachable early).1).2 thread call answer rfl
  · rintro i before during after rfl kept
    obtain ⟨last, early, -⟩ := run.split_append
    obtain ⟨first, begun, inner⟩ := early.split_append
    exact (winsBetween inner (reachable begun).1 kept).unique
  · rintro i inside before during after rfl kept missing ⟨thread, answer, tried⟩ others
    obtain ⟨last, early, -⟩ := run.split_append
    obtain ⟨first, begun, inner⟩ := early.split_append
    refine (winsBetween inner (reachable begun).1 kept).present missing ?_ ?_
    · obtain ⟨front, back, rfl⟩ := List.append_of_mem tried
      refine mem_heldFrom.mpr (.inr ⟨front, _, back, rfl, ⟨rfl, rfl, inside⟩, fun later listed => ?_⟩)
      exact kept later (List.mem_append_right _ (List.mem_cons_of_mem _ listed))
    · rintro action listed thread answer rfl
      exact others thread answer listed

/-- A thread tests and sets an index again after another has cleared its word. -/
theorem last_write_decides_witness : ∃ shared : SharedBitset Bool,
    ClearableSet ⟨70, by decide⟩
      [.act true (.testAndSet 65) (.bool true), .beginClear false, .clearWord false 0,
        .act true (.testAndSet 65) (.bool false), .clearWord false 1,
        .act true (.testAndSet 65) (.bool true), .endClear false] shared :=
  ⟨_, last_write_decides <|
    .cons (.act rfl rfl) <| .cons (.beginClear rfl) <| .cons (.clearWord rfl (by decide) rfl) <|
    .cons (.act rfl rfl) <| .cons (.clearWord rfl (by decide) rfl) <| .cons (.act rfl rfl) <|
    .cons (.endClear rfl) .start⟩

/-- **A count is between the sizes of the set at its start and at its end**, whatever bits
other threads set meanwhile, when none clears a word. -/
theorem count_between (before during : List (BitsetAction Thread)) (thread : Thread) {count : ℕ}
    (run : Run BitsetStep (.start n)
      (before ++ .beginCount thread :: during ++ [.endCount thread count]) shared)
    (running : ∀ count, .endCount thread count ∉ during)
    (kept : ∀ action ∈ during, ∀ i, ¬ action.Clears i) :
    (heldFrom n.val ∅ before).card ≤ count ∧
      count ≤ (heldFrom n.val ∅ (before ++ .beginCount thread :: during)).card := by
  obtain ⟨last, done, early, ended, -⟩ := run.split
  obtain ⟨first, after, begun, started, inner⟩ := early.split
  have holds := (started.holds (reachable begun).1).1
  have began : CountedSoFar (heldFrom n.val ∅ before) (heldFrom n.val ∅ before)
      after.bitset.bits.length (after.task thread) := by
    cases started with
    | beginCount idle =>
      simp only [Function.update_self]
      exact ⟨Nat.zero_le _, by simp, by simp⟩
  have counts := countedSoFar_of_run inner holds began running kept
  have holdsLast := holds_of_steps inner holds
  have whole : heldFrom n.val ∅ (before ++ .beginCount thread :: during) =
      heldFrom n.val (heldFrom n.val ∅ before) during := heldFrom_append _
  cases ended with
  | endCount counting =>
    rw [counting] at counts
    obtain ⟨-, lower, upper⟩ := counts
    rw [holdsLast.filter_words (heldFrom_mono kept)] at lower
    rw [holdsLast.filter_words (Finset.Subset.refl _)] at upper
    exact ⟨lower, whole ▸ upper⟩

/-- A count of the second word finds a bit that was set after the count of the first. -/
theorem count_between_witness :
    (heldFrom 70 ∅ [.act true (.set 3) .unit]).card ≤ 2 ∧
      2 ≤ (heldFrom 70 ∅ [.act true (.set 3) .unit, .beginCount false, .countWord false 0,
        .act true (.set 65) .unit, .act true (.set 4) .unit, .countWord false 1]).card :=
  count_between (n := ⟨70, by decide⟩) [.act true (.set 3) .unit]
    [.countWord false 0, .act true (.set 65) .unit, .act true (.set 4) .unit, .countWord false 1]
    false
    (.cons (.act rfl rfl) <| .cons (.beginCount rfl) <| .cons (.countWord rfl (by decide) rfl) <|
      .cons (.act rfl rfl) <| .cons (.act rfl rfl) <| .cons (.countWord rfl (by decide) rfl) <|
      .cons (.endCount rfl) .start) (by simp) (by simp [BitsetAction.Clears])

/-- **What a clear leaves behind was set while it ran**, whatever other threads set, clear
and count meanwhile. -/
theorem clear_leaves_later_sets (before during : List (BitsetAction Thread)) (thread : Thread)
    (run : Run BitsetStep (.start n)
      (before ++ .beginClear thread :: during ++ [.endClear thread]) shared)
    (running : .endClear thread ∉ during) {i : ℕ} (set : hasBit shared.bitset.bits i = true) :
    ∃ action ∈ during, action.Sets n.val i := by
  have member := (reachable run).1.hasBit_iff.mp set
  obtain ⟨last, done, early, ended, -⟩ := run.split
  obtain ⟨first, after, begun, started, inner⟩ := early.split
  have holds := (started.holds (reachable begun).1).1
  have began : ClearedSoFar n.val (heldFrom n.val ∅ before) after.bitset.bits.length
      ([] : List (BitsetAction Thread)) (after.task thread) := by
    cases started with
    | beginClear idle =>
      simp only [Function.update_self]
      exact ⟨Nat.zero_le _, fun i _ passed => absurd passed (Nat.not_lt_zero _)⟩
  have clears := clearedSoFar_of_run inner holds began running
  have holdsLast := holds_of_steps inner holds
  rw [heldFrom_snoc, heldFrom_append] at member
  cases ended with
  | endClear clearing =>
    rw [clearing] at clears
    exact clears.2 i member (holdsLast.word_lt member)

/-- A bit of the first word is set after the clear has passed it. -/
theorem clear_leaves_later_sets_witness :
    ∃ action ∈ ([.clearWord false 0, .act true (.set 3) .unit, .clearWord false 1] :
      List (BitsetAction Bool)), action.Sets 70 3 :=
  clear_leaves_later_sets (n := ⟨70, by decide⟩) [.act true (.set 65) .unit]
    [.clearWord false 0, .act true (.set 3) .unit, .clearWord false 1] false
    (.cons (.act rfl rfl) <| .cons (.beginClear rfl) <| .cons (.clearWord rfl (by decide) rfl) <|
      .cons (.act rfl rfl) <| .cons (.clearWord rfl (by decide) rfl) <|
      .cons (.endClear rfl) (.start : Run _ _ [] _)) (by simp) rfl

end Reachable

end Shared

end FusionGraph
