import FusionGraph.Core.Types
import FusionGraph.Foundations.Bitset

/-!
# SIMD backends

A backend keeps, of a list of dense node indices, those whose bit is clear in
the visited words. The scalar backend tests one index after another. The vector
backends test a chunk of indices at once, each in a lane of its own, unless an
index of the chunk has no word; that chunk, and the indices that do not fill a
chunk, go through the scalar test. A vector load outside the words is an abort.

Every backend returns what the scalar test keeps
(`SimdBackend.filterUnvisitedInto_eq`).
-/

set_option autoImplicit false

namespace FusionGraph

open Foundations Foundations.Bitset

namespace Simd

/-- Whether the word of the index is in range and its bit is clear. -/
def unvisited (visited : List (BitVec 64)) (n : BitVec 32) : Bool :=
  match visited[n.toNat / 64]? with
  | none => false
  | some word => decide (word &&& mask (n.toNat % 64) = 0#64)

/-- Scalar filter that appends without clearing `out`. -/
def scalarFilterIntoNoClear (neighbors : List (BitVec 32)) (visited : List (BitVec 64))
    (out : List (BitVec 32)) : List (BitVec 32) :=
  neighbors.foldl (fun out n => if unvisited visited n then out ++ [n] else out) out

/-- The scalar filter, which clears `out` first. -/
def scalarFilterInto (neighbors : List (BitVec 32)) (visited : List (BitVec 64))
    (_out : List (BitVec 32)) : List (BitVec 32) :=
  scalarFilterIntoNoClear neighbors visited []

theorem scalarFilterIntoNoClear_eq (neighbors : List (BitVec 32)) (visited : List (BitVec 64))
    (out : List (BitVec 32)) :
    scalarFilterIntoNoClear neighbors visited out = out ++ neighbors.filter (unvisited visited) := by
  rw [scalarFilterIntoNoClear]
  induction neighbors generalizing out with
  | nil => simp
  | cons n rest ih =>
      rw [List.foldl_cons, ih, List.filter_cons]
      by_cases keep : unvisited visited n = true <;> simp [keep]

/-! ## NEON -/

/-- `USHL`: shifts left by the signed low byte of the count, right when it is
negative. -/
def ushl (value count : BitVec 64) : BitVec 64 :=
  let amount := (count.setWidth 8).toInt
  if 0 ≤ amount then value <<< amount.toNat else value >>> (-amount).toNat

/-- The tested bit of one lane: the word shifted by the negated bit position. -/
def neonLane (word : BitVec 64) (n : BitVec 32) : BitVec 64 :=
  let bit := n.setWidth 64 &&& 63#64
  ushl word (-bit) &&& 1#64

/-- One chunk of four indices. -/
def neonChunk (visited : List (BitVec 64)) (c0 c1 c2 c3 : BitVec 32) (out : List (BitVec 32)) :
    Outcome (List (BitVec 32)) :=
  let wordsLen := BitVec.ofNat 32 visited.length
  let w0 := c0 >>> 6
  let w1 := c1 >>> 6
  let w2 := c2 >>> 6
  let w3 := c3 >>> 6
  if wordsLen ≤ w0 ∨ wordsLen ≤ w1 ∨ wordsLen ≤ w2 ∨ wordsLen ≤ w3 then
    pure (scalarFilterIntoNoClear [c0, c1, c2, c3] visited out)
  else do
    let lo0 ← Checked.index visited w0.toNat
    let lo1 ← Checked.index visited w1.toNat
    let hi0 ← Checked.index visited w2.toNat
    let hi1 ← Checked.index visited w3.toNat
    let out := if neonLane lo0 c0 = 0#64 then out ++ [c0] else out
    let out := if neonLane lo1 c1 = 0#64 then out ++ [c1] else out
    let out := if neonLane hi0 c2 = 0#64 then out ++ [c2] else out
    let out := if neonLane hi1 c3 = 0#64 then out ++ [c3] else out
    pure out

/-- The chunks of four and the remainder. -/
def neonFilter (visited : List (BitVec 64)) :
    List (BitVec 32) → List (BitVec 32) → Outcome (List (BitVec 32))
  | c0 :: c1 :: c2 :: c3 :: rest, out => do
    let out ← neonChunk visited c0 c1 c2 c3 out
    neonFilter visited rest out
  | remainder, out => pure (scalarFilterIntoNoClear remainder visited out)

/-! ## AVX2 -/

/-- One lane of a gather: the index is signed. -/
def gatherLane (visited : List (BitVec 64)) (idx : BitVec 32) : Outcome (BitVec 64) :=
  if idx.toInt < 0 then Checked.abort .indexOutOfBounds else Checked.index visited idx.toInt.toNat

/-- The tested bit of each lane: the word shifted right by the bit position. -/
def avx2Lanes (words : List (BitVec 64)) (bits : List (BitVec 32)) : List (BitVec 64) :=
  List.zipWith (fun word bit => word >>> (bit.setWidth 64).toNat &&& 1#64) words bits

/-- The sign bits of the lanes, lane 0 lowest. -/
def movemask (lanes : List (BitVec 64)) : BitVec 32 :=
  (BitVec.ofBoolListLE (lanes.map BitVec.msb)).setWidth 32

/-- One chunk of eight indices. -/
def avx2Chunk (visited : List (BitVec 64)) (chunk : List (BitVec 32)) (out : List (BitVec 32)) :
    Outcome (List (BitVec 32)) :=
  let wordsLen := BitVec.ofNat 32 visited.length
  if chunk.any fun n : BitVec 32 => decide (wordsLen ≤ n >>> 6) then
    pure (scalarFilterIntoNoClear chunk visited out)
  else do
    let wordIdx := chunk.map fun n : BitVec 32 => n >>> 6
    let bitIdx := chunk.map fun n : BitVec 32 => n &&& 63#32
    let wordsLo ← (wordIdx.take 4).mapM (gatherLane visited)
    let wordsHi ← (wordIdx.drop 4).mapM (gatherLane visited)
    let testedLo := avx2Lanes wordsLo (bitIdx.take 4)
    let testedHi := avx2Lanes wordsHi (bitIdx.drop 4)
    let maskLo := movemask (testedLo.map fun tested => tested - 1#64)
    let maskHi := movemask (testedHi.map fun tested => tested - 1#64)
    let kept := maskLo ||| maskHi <<< 4
    pure (chunk.zipIdx.foldl
      (fun out (n, lane) => if kept &&& (1#32 <<< lane) ≠ 0#32 then out ++ [n] else out) out)

/-- The chunks of eight and the remainder. -/
def avx2Filter (visited : List (BitVec 64)) :
    List (BitVec 32) → List (BitVec 32) → Outcome (List (BitVec 32))
  | c0 :: c1 :: c2 :: c3 :: c4 :: c5 :: c6 :: c7 :: rest, out => do
    let out ← avx2Chunk visited [c0, c1, c2, c3, c4, c5, c6, c7] out
    avx2Filter visited rest out
  | remainder, out => pure (scalarFilterIntoNoClear remainder visited out)

end Simd

/-- The features that the processor reports. -/
structure CpuFeatures where
  avx2 : Bool
  avx512f : Bool

/-- The platform the program runs on. -/
inductive Target where
  | x86_64 (cpu : CpuFeatures)
  | aarch64
  | other

/-- The backends for batch neighbor evaluation. -/
inductive SimdBackend where
  | scalar
  | neon
  | avx2 (cpu : CpuFeatures)
  | avx512 (cpu : CpuFeatures)

/-- Selects the best available backend for the platform. -/
def selectBackend : Target → SimdBackend
  | .x86_64 cpu =>
    if cpu.avx512f then .avx512 cpu else if cpu.avx2 then .avx2 cpu else .scalar
  | .aarch64 => .scalar
  | .other => .scalar

namespace SimdBackend

open Simd

/-- Clears `out` and appends the unvisited indices. -/
def filterUnvisitedInto (self : SimdBackend) (neighbors : List (BitVec 32))
    (visited : List (BitVec 64)) (out : List (BitVec 32)) : Outcome (List (BitVec 32)) :=
  match self with
  | scalar => pure (scalarFilterInto neighbors visited out)
  | neon => neonFilter visited neighbors []
  | avx2 cpu | avx512 cpu =>
    if cpu.avx2 then avx2Filter visited neighbors []
    else pure (scalarFilterIntoNoClear neighbors visited [])

end SimdBackend

/-! ## Every backend computes the scalar filter -/

namespace Simd

variable {visited : List (BitVec 64)} {n : BitVec 32}

theorem toNat_shift_word (n : BitVec 32) : (n >>> 6).toNat = n.toNat / 64 := by
  rw [BitVec.toNat_ushiftRight, Nat.shiftRight_eq_div_pow]

theorem toNat_bit (n : BitVec 32) : (n &&& 63#32).toNat = n.toNat % 64 := by
  rw [BitVec.toNat_and]
  exact Nat.and_two_pow_sub_one_eq_mod n.toNat 6

/-- An index that passes the guard has a word. -/
theorem word_lt_of_guard (guard : ¬ BitVec.ofNat 32 visited.length ≤ n >>> 6) :
    n.toNat / 64 < visited.length := by
  rw [BitVec.le_def, toNat_shift_word, BitVec.toNat_ofNat] at guard
  have small := Nat.mod_le visited.length (2 ^ 32)
  omega

/-- The scalar test of an index with a word reads its bit. -/
theorem unvisited_of_lt (bound : n.toNat / 64 < visited.length) :
    unvisited visited n = !(visited[n.toNat / 64]).getLsbD (n.toNat % 64) := by
  rw [unvisited, List.getElem?_eq_getElem bound, Bool.eq_iff_iff, decide_eq_true_eq,
    and_mask_eq_zero_iff (Nat.mod_lt _ (by omega)), Bool.not_eq_true']

/-- The lowest bit of a word shifted right. -/
theorem shift_and_one_eq_zero_iff (word : BitVec 64) (bit : ℕ) :
    word >>> bit &&& 1#64 = 0#64 ↔ word.getLsbD bit = false := by
  have lowest : word >>> bit &&& 1#64 <<< 0 = 0#64 ↔ (word >>> bit).getLsbD 0 = false :=
    and_shiftLeft_eq_zero_iff (by decide)
  rwa [BitVec.shiftLeft_zero, BitVec.getLsbD_ushiftRight, Nat.add_zero] at lowest

/-- A shift by a negated bit position is a shift right. -/
theorem ushl_neg (value : BitVec 64) {bit : ℕ} (small : bit < 64) :
    ushl value (-BitVec.ofNat 64 bit) = value >>> bit := by
  have amount : ∀ b : Fin 64, ((-BitVec.ofNat 64 b).setWidth 8).toInt = -(b : Int) := by decide
  have here := amount ⟨bit, small⟩
  simp only [ushl, here]
  rcases Nat.eq_zero_or_pos bit with rfl | positive
  · simp
  · rw [if_neg (by omega), Int.neg_neg, Int.toNat_natCast]

theorem neonLane_eq_zero_iff (bound : n.toNat / 64 < visited.length) :
    neonLane visited[n.toNat / 64] n = 0#64 ↔ unvisited visited n = true := by
  have bit : n.setWidth 64 &&& 63#64 = BitVec.ofNat 64 (n.toNat % 64) := by
    refine BitVec.eq_of_toNat_eq ?_
    have small : n.toNat < 2 ^ 64 := by have := n.isLt; omega
    rw [BitVec.toNat_and, BitVec.toNat_setWidth, Nat.mod_eq_of_lt small]
    refine (Nat.and_two_pow_sub_one_eq_mod n.toNat 6).trans ?_
    rw [BitVec.toNat_ofNat]
    omega
  rw [neonLane, bit, ushl_neg _ (Nat.mod_lt _ (by omega)), shift_and_one_eq_zero_iff,
    unvisited_of_lt bound, Bool.not_eq_true']

theorem neonChunk_eq (c0 c1 c2 c3 : BitVec 32) (out : List (BitVec 32)) :
    neonChunk visited c0 c1 c2 c3 out =
      .ok (scalarFilterIntoNoClear [c0, c1, c2, c3] visited out) := by
  unfold neonChunk
  by_cases guard : BitVec.ofNat 32 visited.length ≤ c0 >>> 6 ∨
      BitVec.ofNat 32 visited.length ≤ c1 >>> 6 ∨ BitVec.ofNat 32 visited.length ≤ c2 >>> 6 ∨
      BitVec.ofNat 32 visited.length ≤ c3 >>> 6
  · simp only [guard, if_true, Checked.pure_eq_ok]
  · have inside := not_or.mp guard
    have b0 := word_lt_of_guard inside.1
    have b1 := word_lt_of_guard (not_or.mp inside.2).1
    have b2 := word_lt_of_guard (not_or.mp (not_or.mp inside.2).2).1
    have b3 := word_lt_of_guard (not_or.mp (not_or.mp inside.2).2).2
    simp only [guard, if_false, toNat_shift_word, Checked.index_of_lt b0, Checked.index_of_lt b1,
      Checked.index_of_lt b2, Checked.index_of_lt b3, Checked.ok_bind, Checked.pure_eq_ok,
      neonLane_eq_zero_iff, scalarFilterIntoNoClear, List.foldl_cons, List.foldl_nil]

/-- **The NEON kernel computes the scalar filter.** -/
theorem neonFilter_eq (neighbors out : List (BitVec 32)) :
    neonFilter visited neighbors out = .ok (scalarFilterIntoNoClear neighbors visited out) := by
  fun_induction neonFilter visited neighbors out with
  | case1 c0 c1 c2 c3 rest out ih =>
      rw [neonChunk_eq, Checked.ok_bind, ih]
      rfl
  | case2 => rfl

/-- A gather of indices with words reads them. -/
theorem gatherLane_eq (bound : n.toNat / 64 < visited.length) :
    gatherLane visited (n >>> 6) = .ok visited[n.toNat / 64] := by
  have small : (n >>> 6).toNat < 2 ^ 31 := by
    have fits := n.isLt
    rw [toNat_shift_word]
    omega
  have signed : (n >>> 6).toInt = (n >>> 6).toNat :=
    BitVec.toInt_eq_toNat_of_lt (by omega)
  rw [gatherLane, signed, if_neg (by omega), Int.toNat_natCast, toNat_shift_word,
    Checked.index_of_lt bound]

/-- The sign of a tested lane minus one is set exactly for an unvisited index. -/
theorem msb_tested (bound : n.toNat / 64 < visited.length) :
    ((visited[n.toNat / 64] >>> ((n &&& 63#32).setWidth 64).toNat &&& 1#64) - 1#64).msb =
      unvisited visited n := by
  have bit : ((n &&& 63#32).setWidth 64).toNat = n.toNat % 64 := by
    rw [BitVec.toNat_setWidth, toNat_bit, Nat.mod_eq_of_lt (by omega)]
  have lowest := shift_and_one_eq_zero_iff visited[n.toNat / 64] (n.toNat % 64)
  have single : ∀ word : BitVec 64, word &&& 1#64 = 0#64 ∨ word &&& 1#64 = 1#64 := fun word => by
    rw [BitVec.and_one_eq_setWidth_ofBool_getLsbD]
    cases word.getLsbD 0
    · exact .inl rfl
    · exact .inr rfl
  rw [bit, unvisited_of_lt bound]
  rcases single (visited[n.toNat / 64] >>> (n.toNat % 64)) with zero | one
  · rw [zero, lowest.mp zero]
    rfl
  · have set : (visited[n.toNat / 64]).getLsbD (n.toNat % 64) = true := by
      by_contra clear
      rw [lowest.mpr (Bool.eq_false_iff.mpr clear)] at one
      cases one
    rw [one, set]
    rfl

/-- The mask of a gather has the bit set exactly for unvisited indices. -/
theorem movemask_eq {ns : List (BitVec 32)} (bounds : ∀ n ∈ ns, n.toNat / 64 < visited.length) :
    ∃ words, (ns.map fun n : BitVec 32 => n >>> 6).mapM (gatherLane visited) = .ok words ∧
      movemask ((avx2Lanes words (ns.map fun n : BitVec 32 => n &&& 63#32)).map
        fun tested => tested - 1#64) =
        (BitVec.ofBoolListLE (ns.map (unvisited visited))).setWidth 32 := by
  have each : ∀ idx ∈ ns.map fun n : BitVec 32 => n >>> 6,
      gatherLane visited idx = .ok (visited[idx.toNat]?.getD 0#64) := by
    intro idx member
    obtain ⟨n, inChunk, rfl⟩ := List.mem_map.mp member
    rw [gatherLane_eq (bounds n inChunk), toNat_shift_word,
      List.getElem?_eq_getElem (bounds n inChunk), Option.getD_some]
  refine ⟨_, Checked.mapM_eq_ok each, ?_⟩
  refine congrArg (fun flags => (BitVec.ofBoolListLE flags).setWidth 32) ?_
  rw [avx2Lanes, List.zipWith_map, List.zipWith_map_left, List.zipWith_self, List.map_map,
    List.map_map]
  refine List.map_congr_left fun n member => ?_
  have sign := msb_tested (bounds n member)
  simp only [Function.comp_apply, toNat_shift_word, List.getElem?_eq_getElem (bounds n member),
    Option.getD_some]
  exact sign

/-- The two masks together have one bit for each flag of the chunk. -/
theorem getLsbD_masks {flags : List Bool} {lane : ℕ} (small : lane < 32) :
    ((BitVec.ofBoolListLE (flags.take 4)).setWidth 32 |||
      (BitVec.ofBoolListLE (flags.drop 4)).setWidth 32 <<< 4).getLsbD lane =
      flags.getD lane false := by
  rw [BitVec.getLsbD_or, BitVec.getLsbD_setWidth, BitVec.getLsbD_ofBoolListLE,
    BitVec.getLsbD_shiftLeft, BitVec.getLsbD_setWidth, BitVec.getLsbD_ofBoolListLE]
  by_cases low : lane < 4
  · simp [small, low, List.getD_eq_getElem?_getD]
  · have next : 4 + (lane - 4) = lane := by omega
    have inRange : lane - 4 < 32 := by omega
    have beyond : (flags.take 4).getD lane false = false := by
      rw [List.getD_eq_getElem?_getD, List.getElem?_take, if_neg low, Option.getD_none]
    rw [beyond]
    simp [small, low, List.getD_eq_getElem?_getD, next, inRange]

/-- Pushing the lanes whose bit is set filters the chunk. -/
theorem foldl_zipIdx_eq {kept : BitVec 32} {keep : BitVec 32 → Bool} {chunk : List (BitVec 32)}
    {first : ℕ} (few : first + chunk.length ≤ 32) (out : List (BitVec 32))
    (bits : ∀ i (bound : i < chunk.length), kept.getLsbD (first + i) = keep chunk[i]) :
    (chunk.zipIdx first).foldl
      (fun out (n, lane) => if kept &&& (1#32 <<< lane) ≠ 0#32 then out ++ [n] else out) out =
      chunk.foldl (fun out n => if keep n then out ++ [n] else out) out := by
  induction chunk generalizing first out with
  | nil => rfl
  | cons n rest ih =>
      rw [List.length_cons] at few
      have here : kept &&& (1#32 <<< first) ≠ 0#32 ↔ keep n = true := by
        rw [ne_eq, and_shiftLeft_eq_zero_iff (by omega), Bool.not_eq_false]
        have bit := bits 0 (Nat.succ_pos _)
        rw [Nat.add_zero, List.getElem_cons_zero] at bit
        rw [bit]
      rw [List.zipIdx_cons, List.foldl_cons, List.foldl_cons]
      simp only [here]
      refine ih (by omega) _ fun i bound => ?_
      have bit := bits (i + 1) (Nat.succ_lt_succ bound)
      rwa [List.getElem_cons_succ, ← Nat.add_assoc, Nat.add_right_comm] at bit

theorem avx2Chunk_eq {chunk : List (BitVec 32)} (few : chunk.length ≤ 32)
    (out : List (BitVec 32)) :
    avx2Chunk visited chunk out = .ok (scalarFilterIntoNoClear chunk visited out) := by
  unfold avx2Chunk
  by_cases guard : (chunk.any fun n : BitVec 32 =>
      decide (BitVec.ofNat 32 visited.length ≤ n >>> 6)) = true
  · simp only [guard, if_true, Checked.pure_eq_ok]
  · have bounds : ∀ n ∈ chunk, n.toNat / 64 < visited.length := fun n member =>
      word_lt_of_guard fun beyond => guard (List.any_eq_true.mpr ⟨n, member, decide_eq_true beyond⟩)
    obtain ⟨wordsLo, loadLo, maskLo⟩ := movemask_eq
      fun n (member : n ∈ chunk.take 4) => bounds n (List.mem_of_mem_take member)
    obtain ⟨wordsHi, loadHi, maskHi⟩ := movemask_eq
      fun n (member : n ∈ chunk.drop 4) => bounds n (List.mem_of_mem_drop member)
    simp only [guard, Bool.false_eq_true, if_false, ← List.map_take, ← List.map_drop, loadLo,
      loadHi, Checked.ok_bind, Checked.pure_eq_ok, maskLo, maskHi]
    rw [List.map_take, List.map_drop]
    refine congrArg _ (foldl_zipIdx_eq (by omega) out fun i bound => ?_)
    rw [getLsbD_masks (by omega), Nat.zero_add, List.getD_eq_getElem?_getD, List.getElem?_map,
      List.getElem?_eq_getElem bound, Option.map_some, Option.getD_some]

/-- **The AVX2 kernel computes the scalar filter.** -/
theorem avx2Filter_eq (neighbors out : List (BitVec 32)) :
    avx2Filter visited neighbors out = .ok (scalarFilterIntoNoClear neighbors visited out) := by
  fun_induction avx2Filter visited neighbors out with
  | case1 c0 c1 c2 c3 c4 c5 c6 c7 rest out ih =>
      rw [avx2Chunk_eq (by simp), Checked.ok_bind, ih]
      rfl
  | case2 => rfl

end Simd

namespace SimdBackend

open Simd

/-- **Every backend returns the indices whose word is in range and whose bit is
clear**, in order, whatever was in `out`. -/
theorem filterUnvisitedInto_eq (self : SimdBackend) (neighbors : List (BitVec 32))
    (visited : List (BitVec 64)) (out : List (BitVec 32)) :
    self.filterUnvisitedInto neighbors visited out =
      .ok (neighbors.filter (unvisited visited)) := by
  have scalarEq := scalarFilterIntoNoClear_eq neighbors visited []
  rw [List.nil_append] at scalarEq
  cases self with
  | scalar => exact congrArg Except.ok scalarEq
  | neon => rw [filterUnvisitedInto, neonFilter_eq, scalarEq]
  | avx2 cpu =>
      rw [filterUnvisitedInto, avx2Filter_eq, scalarEq]
      split <;> rfl
  | avx512 cpu =>
      rw [filterUnvisitedInto, avx2Filter_eq, scalarEq]
      split <;> rfl

/-- Filters a slice of dense indices. -/
def filterSlice (self : SimdBackend) (neighbors : List ℕ) (visited : List (BitVec 64)) :
    Outcome (List ℕ) := do
  let kept ← self.filterUnvisitedInto (neighbors.map (BitVec.ofNat 32)) visited []
  pure (kept.map BitVec.toNat)

/-- **A slice of nodes is filtered by the set that the words store.** -/
theorem filterSlice_eq (self : SimdBackend) {neighbors : List ℕ} {visited : List (BitVec 64)}
    {size : ℕ} {member : ℕ → Prop} [DecidablePred member]
    (represents : Represents visited size member) (small : size ≤ u32Max + 1)
    (nodes : ∀ n ∈ neighbors, n < size) :
    self.filterSlice neighbors visited = .ok (neighbors.filter fun n => decide ¬ member n) := by
  rw [filterSlice, filterUnvisitedInto_eq, Checked.ok_bind, Checked.pure_eq_ok, List.filter_map,
    List.map_map]
  congr 1
  have value : ∀ n ∈ neighbors, (BitVec.ofNat 32 n).toNat = n := fun n inside => by
    have bound := nodes n inside
    simp only [u32Max] at small
    rw [BitVec.toNat_ofNat, Nat.mod_eq_of_lt (by omega)]
  have same : neighbors.filter (unvisited visited ∘ BitVec.ofNat 32) =
      neighbors.filter fun n => decide ¬ member n := by
    refine List.filter_congr fun n inside => ?_
    have bound := represents.word_lt (nodes n inside)
    have bit := represents.bit n (nodes n inside)
    rw [hasBit, List.getElem?_eq_getElem bound, Option.getD_some] at bit
    rw [Function.comp_apply, Bool.eq_iff_iff, unvisited_of_lt (by rwa [value n inside]),
      decide_eq_true_eq, ← bit, Bool.not_eq_true', Bool.not_eq_true]
    simp only [value n inside]
  rw [same]
  refine (List.map_congr_left fun n kept => ?_).trans (List.map_id' _)
  exact value n (List.mem_filter.mp kept).1

end SimdBackend

end FusionGraph
