import FusionGraph.Foundations.Checked
import Mathlib.Algebra.GroupWithZero.Nat

/-!
# Sets of numbers as bits of words

A set of numbers below a bound is stored in 64-bit words: the number `i` is bit
`i % 64` of word `i / 64`. `Represents` says that words store a set; reading,
setting and clearing a bit through checked accesses return, and act on the set
(`Represents.index_eq`, `Represents.insert`, `Represents.erase`).
-/

set_option autoImplicit false

namespace Foundations

namespace Bitset

universe u

/-- The word with the given bit set. -/
def mask (bit : ℕ) : BitVec 64 := 1#64 <<< bit

/-- Whether the words have the given bit. -/
def hasBit (words : List (BitVec 64)) (i : ℕ) : Bool :=
  (words[i / 64]?.getD 0#64).getLsbD (i % 64)

/-- The words store the members below the bound. -/
structure Represents (words : List (BitVec 64)) (size : ℕ) (member : ℕ → Prop) : Prop where
  length : words.length = (size + 63) / 64
  bit : ∀ i < size, hasBit words i = true ↔ member i

/-- Testing a word against a single bit reads that bit. -/
theorem and_shiftLeft_eq_zero_iff {w : ℕ} {word : BitVec w} {bit : ℕ} (small : bit < w) :
    word &&& 1#w <<< bit = 0#w ↔ word.getLsbD bit = false := by
  rw [← BitVec.twoPow_eq]
  constructor
  · intro zero
    have same := congrArg (fun value => value.getLsbD bit) zero
    simpa [BitVec.getLsbD_twoPow, small] using same
  · intro clear
    refine BitVec.eq_of_getLsbD_eq fun i _ => ?_
    by_cases here : bit = i
    · simp [← here, clear]
    · simp [BitVec.getLsbD_twoPow, here]

theorem getLsbD_mask {bit i : ℕ} (small : bit < 64) : (mask bit).getLsbD i = decide (i = bit) := by
  rw [mask, ← BitVec.twoPow_eq, BitVec.getLsbD_twoPow]
  simp [small, eq_comm]

/-- Testing a word against a mask reads the bit. -/
theorem and_mask_eq_zero_iff {word : BitVec 64} {bit : ℕ} (small : bit < 64) :
    word &&& mask bit = 0#64 ↔ word.getLsbD bit = false :=
  and_shiftLeft_eq_zero_iff small

variable {words : List (BitVec 64)} {size i : ℕ} {member : ℕ → Prop}

/-- Writing the word of `i` changes the bits of that word only. -/
theorem hasBit_set {word : BitVec 64} {j : ℕ} (bound : i / 64 < words.length) :
    hasBit (words.set (i / 64) word) j =
      if i / 64 = j / 64 then word.getLsbD (j % 64) else hasBit words j := by
  by_cases same : i / 64 = j / 64
  · rw [if_pos same, hasBit, ← same, List.getElem?_set_self bound, Option.getD_some]
  · rw [if_neg same, hasBit, List.getElem?_set_ne same, hasBit]

namespace Represents

/-- A number below the bound has a word. -/
theorem word_lt (represents : Represents words size member) (bound : i < size) :
    i / 64 < words.length := by
  rw [represents.length]
  omega

/-- Reading the word of a number below the bound. -/
theorem index_eq {ε : Type u} (represents : Represents words size member) (bound : i < size) :
    ∃ word, (Checked.index words (i / 64) : Checked ε (BitVec 64)) = .ok word ∧
      words[i / 64]? = some word ∧
      (word &&& mask (i % 64) = 0#64 ↔ ¬ member i) := by
  have inside := represents.word_lt bound
  refine ⟨words[i / 64], Checked.index_of_lt inside, List.getElem?_eq_getElem inside, ?_⟩
  have bit := represents.bit i bound
  rw [hasBit, List.getElem?_eq_getElem inside, Option.getD_some] at bit
  rw [and_mask_eq_zero_iff (Nat.mod_lt i (by omega)), ← bit, Bool.not_eq_true]

/-- All words zero store the empty set. -/
theorem zero (size : ℕ) : Represents (List.replicate ((size + 63) / 64) 0#64) size fun _ => False where
  length := by simp
  bit i bound := by
    have inside : i / 64 < (size + 63) / 64 := by omega
    simp [hasBit, inside]

theorem congr {other : ℕ → Prop} (represents : Represents words size member)
    (same : ∀ i < size, member i ↔ other i) : Represents words size other where
  length := represents.length
  bit i bound := (represents.bit i bound).trans (same i bound)

/-- Replacing the word of a number changes only the numbers of that word. -/
theorem set (represents : Represents words size member) {word changed : BitVec 64}
    {other : ℕ → Prop} (found : words[i / 64]? = some word)
    (here : ∀ j, i / 64 = j / 64 → (word.getLsbD (j % 64) = true ↔ member j) →
      (changed.getLsbD (j % 64) = true ↔ other j))
    (elsewhere : ∀ j, j ≠ i → (member j ↔ other j)) :
    Represents (words.set (i / 64) changed) size other where
  length := by rw [List.length_set, represents.length]
  bit j bound := by
    obtain ⟨inside, -⟩ := List.getElem?_eq_some_iff.mp found
    have bit := represents.bit j bound
    rw [hasBit_set inside]
    by_cases same : i / 64 = j / 64
    · rw [hasBit, ← same, found, Option.getD_some] at bit
      rw [if_pos same]
      exact here j same bit
    · rw [if_neg same, bit]
      exact elsewhere j fun equal => same (by rw [equal])

/-- Setting a bit adds the number. -/
theorem insert (represents : Represents words size member) {word : BitVec 64}
    (found : words[i / 64]? = some word) :
    Represents (words.set (i / 64) (word ||| mask (i % 64))) size fun j => member j ∨ j = i := by
  refine represents.set found (fun j same bit => ?_) fun j different => by simp [different]
  have number : j % 64 = i % 64 ↔ j = i := by omega
  rw [BitVec.getLsbD_or, getLsbD_mask (Nat.mod_lt i (by omega)), Bool.or_eq_true, bit,
    decide_eq_true_eq, number]

/-- Clearing a bit removes the number. -/
theorem erase (represents : Represents words size member) {word : BitVec 64}
    (found : words[i / 64]? = some word) :
    Represents (words.set (i / 64) (word &&& ~~~mask (i % 64))) size fun j => member j ∧ j ≠ i := by
  refine represents.set found (fun j same bit => ?_) fun j different => by simp [different]
  have number : j % 64 = i % 64 ↔ j = i := by omega
  rw [BitVec.getLsbD_and, BitVec.getLsbD_not, getLsbD_mask (Nat.mod_lt i (by omega)),
    Bool.and_eq_true, bit]
  simp [number, Nat.mod_lt j]

end Represents

/-! ## Scanning the bits of a word -/

/-- The positions of the set bits, in ascending order. -/
def setBits (word : BitVec 64) : List ℕ := (List.range 64).filter fun bit => word.getLsbD bit

theorem setBits_zero : setBits 0#64 = [] := by simp [setBits]

theorem hasBit_cons (word : BitVec 64) (words : List (BitVec 64)) (i : ℕ) :
    hasBit (word :: words) i = if i < 64 then word.getLsbD i else hasBit words (i - 64) := by
  split
  next small => simp [hasBit, Nat.div_eq_of_lt small, Nat.mod_eq_of_lt small]
  next large =>
    obtain ⟨j, rfl⟩ := Nat.exists_eq_add_of_le (Nat.le_of_not_lt large)
    rw [Nat.add_sub_cancel_left, hasBit, hasBit, Nat.add_div_left j (by omega),
      List.getElem?_cons_succ, Nat.add_mod_left]

/-- Counting the set bits word by word counts the numbers. -/
theorem sum_setBits (words : List (BitVec 64)) :
    (words.map fun word => (setBits word).length).sum =
      (List.range (64 * words.length)).countP (hasBit words) := by
  induction words with
  | nil => rfl
  | cons word rest ih =>
      have first : (List.range 64).countP (hasBit (word :: rest)) = (setBits word).length := by
        rw [setBits, ← List.countP_eq_length_filter]
        refine List.countP_congr fun i small => ?_
        rw [hasBit_cons, if_pos (List.mem_range.mp small)]
      have others : (hasBit (word :: rest) ∘ fun i => 64 + i) = hasBit rest := by
        funext i
        rw [Function.comp_apply, hasBit_cons, if_neg (by omega), Nat.add_sub_cancel_left]
      rw [List.map_cons, List.sum_cons, ih, List.length_cons, Nat.mul_succ, Nat.add_comm _ 64,
        List.range_add, List.countP_append, List.countP_map, first, others]

/-- The bits of a number below its lowest set bit are clear, and taking one from
it does not change the bits above. -/
theorem testBit_and_sub_one {value low : ℕ} (lowest : value.testBit low = true)
    (clear : ∀ i < low, value.testBit i = false) (i : ℕ) :
    (value &&& (value - 1)).testBit i = (value.testBit i && decide (i ≠ low)) := by
  have below : value % 2 ^ low = 0 := by
    refine Nat.eq_of_testBit_eq fun i => ?_
    rw [Nat.testBit_mod_two_pow, Nat.zero_testBit]
    by_cases small : i < low
    · rw [clear i small, Bool.and_false]
    · rw [decide_eq_false small, Bool.false_and]
  have rest : value % 2 ^ (low + 1) = 2 ^ low := by
    have bit : value / 2 ^ low % 2 = 1 := by simpa [Nat.testBit_eq_decide_div_mod_eq] using lowest
    rw [Nat.mod_pow_succ, below, bit, Nat.zero_add, Nat.mul_one]
  have shape : value = 2 ^ (low + 1) * (value / 2 ^ (low + 1)) + 2 ^ low := by
    have whole := Nat.div_add_mod value (2 ^ (low + 1))
    rw [rest] at whole
    exact whole.symm
  have positive := Nat.two_pow_pos low
  have small : 2 ^ low - 1 < 2 ^ (low + 1) := by
    rw [Nat.pow_succ]
    omega
  have before : value - 1 = 2 ^ (low + 1) * (value / 2 ^ (low + 1)) + (2 ^ low - 1) := by omega
  rw [Nat.testBit_and, before, Nat.testBit_two_pow_mul_add _ small, Nat.testBit_two_pow_sub_one]
  by_cases above : i < low + 1
  · rw [if_pos above]
    by_cases here : i = low
    · simp [here]
    · have under : i < low := by omega
      simp [clear i under]
  · have different : i ≠ low := by omega
    have high : value.testBit i = (value / 2 ^ (low + 1)).testBit (i - (low + 1)) := by
      rw [Nat.testBit_div_two_pow]
      congr 1
      omega
    rw [if_neg above, ← high, Bool.and_self]
    simp [different]

/-- Clearing the lowest set bit of a word. -/
theorem getLsbD_and_sub_one {word : BitVec 64} (nonzero : word ≠ 0#64) (i : ℕ) :
    (word &&& (word - 1#64)).getLsbD i = (word.getLsbD i && decide (i ≠ word.ctz.toNat)) := by
  have positive : 1 ≤ word.toNat := by
    rw [Nat.one_le_iff_ne_zero]
    exact fun zero => nonzero (BitVec.eq_of_toNat_eq zero)
  have less : (word - 1#64).toNat = word.toNat - 1 :=
    BitVec.toNat_sub_of_le (BitVec.le_def.mpr positive)
  have cleared : (word.toNat &&& (word.toNat - 1)).testBit i =
      (word.toNat.testBit i && decide (i ≠ word.ctz.toNat)) := testBit_and_sub_one
    (BitVec.getLsbD_true_ctz_of_ne_zero nonzero)
    (fun i small => BitVec.getLsbD_false_of_lt_ctz small) i
  rw [BitVec.getLsbD, BitVec.toNat_and, less, cleared]
  rfl

/-- The first number that passes comes first, and the others follow. -/
theorem filter_range_eq_cons {test : ℕ → Bool} {n first : ℕ} (bound : first < n)
    (passes : test first = true) (none : ∀ i < first, test i = false) :
    (List.range n).filter test =
      first :: (List.range n).filter fun i => test i && decide (i ≠ first) := by
  obtain ⟨rest, rfl⟩ : ∃ rest, n = first + 1 + rest := ⟨n - (first + 1), by omega⟩
  have before : ∀ other : ℕ → Bool, (∀ i < first, other i = false) →
      (List.range first).filter other = [] := fun other no => by
    refine List.filter_eq_nil_iff.mpr fun i member => ?_
    rw [no i (List.mem_range.mp member)]
    exact Bool.false_ne_true
  have after : (List.map (fun i => first + 1 + i) (List.range rest)).filter test =
      (List.map (fun i => first + 1 + i) (List.range rest)).filter fun i =>
        test i && decide (i ≠ first) := by
    refine List.filter_congr fun i member => ?_
    obtain ⟨j, -, rfl⟩ := List.mem_map.mp member
    have different : first + 1 + j ≠ first := by omega
    simp [different]
  rw [List.range_add, List.filter_append, List.filter_append, after, List.range_succ,
    List.filter_append, List.filter_append, before test none,
    before _ fun i small => by rw [none i small, Bool.false_and]]
  simp [passes]

/-- **A scan takes the lowest set bit and goes on with the others.** -/
theorem setBits_of_ne_zero {word : BitVec 64} (nonzero : word ≠ 0#64) :
    setBits word = word.ctz.toNat :: setBits (word &&& (word - 1#64)) := by
  have bound : word.ctz.toNat < 64 := by
    have small := BitVec.ctz_lt_iff_ne_zero.mpr nonzero
    simpa [BitVec.lt_def] using small
  rw [setBits, filter_range_eq_cons bound (BitVec.getLsbD_true_ctz_of_ne_zero nonzero)
    fun i small => BitVec.getLsbD_false_of_lt_ctz small]
  congr 1
  exact List.filter_congr fun i _ => (getLsbD_and_sub_one nonzero i).symm

/-- The word with the lowest bits set. -/
theorem getLsbD_shiftLeft_sub_one {count i : ℕ} (small : count < 64) :
    (1#64 <<< count - 1#64).getLsbD i = decide (i < count) := by
  have power : (1#64 <<< count).toNat = 2 ^ count := by
    rw [BitVec.toNat_shiftLeft, BitVec.toNat_ofNat, Nat.shiftLeft_eq]
    have below := Nat.pow_lt_pow_right (a := 2) (by omega) small
    rw [Nat.mod_eq_of_lt (by omega : 1 < 2 ^ 64), Nat.one_mul, Nat.mod_eq_of_lt below]
  have positive := Nat.two_pow_pos count
  have less : (1#64 <<< count - 1#64).toNat = 2 ^ count - 1 := by
    rw [BitVec.toNat_sub_of_le (BitVec.le_def.mpr (by rw [power]; exact positive)), power]
    rfl
  rw [BitVec.getLsbD, less, Nat.testBit_two_pow_sub_one]

end Bitset

end Foundations
