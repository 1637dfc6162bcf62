import FusionGraph.Traversal.Simd
import Mathlib.Data.Fin.VecNotation

/-!
# The vector kernels, instruction by instruction

`Simd` models what a chunk computes in each of its lanes. Here a register is the
tuple of its lanes, every instruction has the lane-wise meaning of its vendor's
documentation, and the kernels are the sequences of instructions of the source:
the widening of a half register, the lanes of a gather, the shift by a count of
its own in each lane, the mask of sign bits.

Both levels agree chunk by chunk (`neonKernelChunk_eq`, `avx2KernelChunk_eq`), so
each kernel computes the scalar filter
(`simd_kernels_compute_scalar_filter`).
-/

set_option autoImplicit false

namespace FusionGraph

open Foundations Foundations.Bitset

namespace Simd

/-! ## Registers and memory -/

/-- A register of lanes of one width. -/
abbrev Register (lanes width : ℕ) := Fin lanes → BitVec width

/-- Loads the first lanes of a slice. -/
def load (lanes : ℕ) {width : ℕ} (slice : List (BitVec width)) : Outcome (Register lanes width) :=
  if enough : lanes ≤ slice.length then
    .ok fun lane => slice.get ⟨lane, Nat.lt_of_lt_of_le lane.isLt enough⟩
  else Checked.abort .sliceOutOfRange

/-- `chunks_exact`: the chunks of `size` entries, and the entries behind them. -/
def chunksExact {α : Type} (size : ℕ) (xs : List α) : List (List α) × List α :=
  ((List.range (xs.length / size)).map fun i => xs.extract (i * size) (i * size + size),
    xs.drop (xs.length / size * size))

/-! ## The NEON instructions -/

def vdupq_n_u64 (value : BitVec 64) : Register 2 64 := fun _ => value

def vget_low_u32 (v : Register 4 32) : Register 2 32 := ![v 0, v 1]

def vmovl_u32 (v : Register 2 32) : Register 2 64 := fun lane => (v lane).setWidth 64

def vmovl_high_u32 (v : Register 4 32) : Register 2 64 := vmovl_u32 ![v 2, v 3]

def vandq_u64 (a b : Register 2 64) : Register 2 64 := fun lane => a lane &&& b lane

def vsetq_lane_u64 (value : BitVec 64) (v : Register 2 64) (lane : Fin 2) : Register 2 64 :=
  Function.update v lane value

def vnegq_s64 (v : Register 2 64) : Register 2 64 := fun lane => -v lane

/-- Shifts each lane by the signed low byte of the count in the same lane. -/
def vshlq_u64 (v counts : Register 2 64) : Register 2 64 := fun lane => ushl (v lane) (counts lane)

def vgetq_lane_u64 (v : Register 2 64) (lane : Fin 2) : BitVec 64 := v lane

/-- One chunk of the NEON kernel. -/
def neonKernelChunk (visited : List (BitVec 64)) (chunk out : List (BitVec 32)) :
    Outcome (List (BitVec 32)) := do
  let wordsLen := BitVec.ofNat 32 visited.length
  let c0 ← Checked.index chunk 0
  let c1 ← Checked.index chunk 1
  let c2 ← Checked.index chunk 2
  let c3 ← Checked.index chunk 3
  let w0 := c0 >>> 6
  let w1 := c1 >>> 6
  let w2 := c2 >>> 6
  let w3 := c3 >>> 6
  if wordsLen ≤ w0 ∨ wordsLen ≤ w1 ∨ wordsLen ≤ w2 ∨ wordsLen ≤ w3 then
    pure (scalarFilterIntoNoClear chunk visited out)
  else
    let idx ← load 4 chunk
    let bitMask := vdupq_n_u64 63
    let bitsLo := vandq_u64 (vmovl_u32 (vget_low_u32 idx)) bitMask
    let bitsHi := vandq_u64 (vmovl_high_u32 idx) bitMask
    let word0 ← Checked.index visited w0.toNat
    let word1 ← Checked.index visited w1.toNat
    let wLo := vsetq_lane_u64 word1 (vdupq_n_u64 word0) 1
    let word2 ← Checked.index visited w2.toNat
    let word3 ← Checked.index visited w3.toNat
    let wHi := vsetq_lane_u64 word3 (vdupq_n_u64 word2) 1
    let shLo := vnegq_s64 bitsLo
    let shHi := vnegq_s64 bitsHi
    let one := vdupq_n_u64 1
    let tLo := vandq_u64 (vshlq_u64 wLo shLo) one
    let tHi := vandq_u64 (vshlq_u64 wHi shHi) one
    let out := if vgetq_lane_u64 tLo 0 = 0#64 then out ++ [c0] else out
    let out := if vgetq_lane_u64 tLo 1 = 0#64 then out ++ [c1] else out
    let out := if vgetq_lane_u64 tHi 0 = 0#64 then out ++ [c2] else out
    let out := if vgetq_lane_u64 tHi 1 = 0#64 then out ++ [c3] else out
    pure out

/-- The NEON kernel: the chunks of four, then the remainder. -/
def neonKernel (neighbors : List (BitVec 32)) (visited : List (BitVec 64))
    (_out : List (BitVec 32)) : Outcome (List (BitVec 32)) := do
  let chunks := chunksExact 4 neighbors
  let out ← chunks.1.foldlM (fun out chunk => neonKernelChunk visited chunk out) []
  pure (scalarFilterIntoNoClear chunks.2 visited out)

/-! ## The AVX2 instructions -/

def mm256_set1_epi32 (value : BitVec 32) : Register 8 32 := fun _ => value

def mm256_set1_epi64x (value : BitVec 64) : Register 4 64 := fun _ => value

def mm256_srli_epi32 (count : ℕ) (v : Register 8 32) : Register 8 32 := fun lane => v lane >>> count

/-- The bitwise conjunction, on registers of any lanes. -/
def mm256_and_si256 {lanes width : ℕ} (a b : Register lanes width) : Register lanes width :=
  fun lane => a lane &&& b lane

/-- The low half of a register. -/
def mm256_castsi256_si128 (v : Register 8 32) : Register 4 32 := ![v 0, v 1, v 2, v 3]

/-- The high half of a register. -/
def mm256_extracti128_si256_1 (v : Register 8 32) : Register 4 32 := ![v 4, v 5, v 6, v 7]

/-- Loads a word for each lane; the indices are signed and count words. -/
def mm256_i32gather_epi64 (base : List (BitVec 64)) (vindex : Register 4 32) :
    Outcome (Register 4 64) := do
  let word0 ← gatherLane base (vindex 0)
  let word1 ← gatherLane base (vindex 1)
  let word2 ← gatherLane base (vindex 2)
  let word3 ← gatherLane base (vindex 3)
  pure ![word0, word1, word2, word3]

/-- Widens each lane with zeros. -/
def mm256_cvtepu32_epi64 (v : Register 4 32) : Register 4 64 := fun lane => (v lane).setWidth 64

/-- Shifts each lane right by the count in the same lane. -/
def mm256_srlv_epi64 (v counts : Register 4 64) : Register 4 64 :=
  fun lane => v lane >>> (counts lane).toNat

def mm256_sub_epi64 (a b : Register 4 64) : Register 4 64 := fun lane => a lane - b lane

/-- The sign bits of the lanes, lane 0 lowest. -/
def mm256_movemask_pd (v : Register 4 64) : BitVec 32 := movemask (List.ofFn v)

/-- One chunk of the AVX2 kernel. -/
def avx2KernelChunk (visited : List (BitVec 64)) (chunk out : List (BitVec 32)) :
    Outcome (List (BitVec 32)) :=
  let wordsLen := BitVec.ofNat 32 visited.length
  if chunk.any fun n : BitVec 32 => decide (wordsLen ≤ n >>> 6) then
    pure (scalarFilterIntoNoClear chunk visited out)
  else do
    let idx ← load 8 chunk
    let wordIdx := mm256_srli_epi32 6 idx
    let bitIdx := mm256_and_si256 idx (mm256_set1_epi32 63)
    let wiLo := mm256_castsi256_si128 wordIdx
    let wiHi := mm256_extracti128_si256_1 wordIdx
    let wordsLo ← mm256_i32gather_epi64 visited wiLo
    let wordsHi ← mm256_i32gather_epi64 visited wiHi
    let biLo := mm256_cvtepu32_epi64 (mm256_castsi256_si128 bitIdx)
    let biHi := mm256_cvtepu32_epi64 (mm256_extracti128_si256_1 bitIdx)
    let one := mm256_set1_epi64x 1
    let tLo := mm256_and_si256 (mm256_srlv_epi64 wordsLo biLo) one
    let tHi := mm256_and_si256 (mm256_srlv_epi64 wordsHi biHi) one
    let mLo := mm256_movemask_pd (mm256_sub_epi64 tLo one)
    let mHi := mm256_movemask_pd (mm256_sub_epi64 tHi one)
    let unvisited := mLo ||| mHi <<< 4
    pure (chunk.zipIdx.foldl
      (fun out (n, lane) => if unvisited &&& (1#32 <<< lane) ≠ 0#32 then out ++ [n] else out) out)

/-- The AVX2 kernel: the chunks of eight, then the remainder. -/
def avx2Kernel (neighbors : List (BitVec 32)) (visited : List (BitVec 64))
    (out : List (BitVec 32)) : Outcome (List (BitVec 32)) := do
  let chunks := chunksExact 8 neighbors
  let out ← chunks.1.foldlM (fun out chunk => avx2KernelChunk visited chunk out) out
  pure (scalarFilterIntoNoClear chunks.2 visited out)

/-- `Avx2Backend::filter_unvisited_into`: the kernel when the processor has the
instructions, and the scalar test otherwise. -/
def avx2FilterUnvisitedInto (cpu : CpuFeatures) (neighbors : List (BitVec 32))
    (visited : List (BitVec 64)) (_out : List (BitVec 32)) : Outcome (List (BitVec 32)) :=
  if cpu.avx2 then avx2Kernel neighbors visited []
  else pure (scalarFilterIntoNoClear neighbors visited [])

/-! ## Chunks -/

section Chunks

variable {α : Type} {size : ℕ}

/-- Consecutive extracts of one length are a prefix. -/
theorem flatten_map_extract (size count : ℕ) (xs : List α) :
    ((List.range count).map fun i => xs.extract (i * size) (i * size + size)).flatten =
      xs.take (count * size) := by
  induction count with
  | zero => simp
  | succ count ih =>
      have join := List.take_add (l := xs) (i := count * size) (j := size)
      rw [List.range_succ, List.map_append, List.flatten_append, ih, Nat.succ_mul, join,
        List.map_singleton, List.flatten_singleton, List.extract_eq_take_drop, Nat.add_sub_cancel_left]

/-- **The chunks and the remainder are the whole list.** -/
theorem chunksExact_append (size : ℕ) (xs : List α) :
    (chunksExact size xs).1.flatten ++ (chunksExact size xs).2 = xs := by
  rw [chunksExact, flatten_map_extract, List.take_append_drop]

theorem length_of_mem_chunksExact {xs chunk : List α} (member : chunk ∈ (chunksExact size xs).1) :
    chunk.length = size := by
  obtain ⟨i, inRange, rfl⟩ := List.mem_map.mp member
  have room : (i + 1) * size ≤ xs.length :=
    (Nat.mul_le_mul_right size (List.mem_range.mp inRange)).trans (Nat.div_mul_le_self _ _)
  rw [Nat.succ_mul] at room
  rw [List.extract_eq_take_drop, List.length_take, List.length_drop]
  omega

/-- A loop whose body filters its chunk filters all chunks. -/
theorem foldlM_filterChunk {visited : List (BitVec 64)} {chunks : List (List (BitVec 32))}
    {body : List (BitVec 32) → List (BitVec 32) → Outcome (List (BitVec 32))}
    (filters : ∀ chunk ∈ chunks, ∀ out, body out chunk =
      .ok (scalarFilterIntoNoClear chunk visited out)) (out : List (BitVec 32)) :
    chunks.foldlM body out = .ok (scalarFilterIntoNoClear chunks.flatten visited out) := by
  induction chunks generalizing out with
  | nil => rfl
  | cons chunk rest ih =>
      rw [List.foldlM_cons, filters chunk List.mem_cons_self, Checked.ok_bind,
        ih fun chunk member => filters chunk (List.mem_cons_of_mem _ member),
        List.flatten_cons, scalarFilterIntoNoClear, scalarFilterIntoNoClear,
        scalarFilterIntoNoClear, List.foldl_append]

end Chunks

/-! ## The kernels compute the scalar filter -/

variable (visited : List (BitVec 64)) (out : List (BitVec 32))

/-- A chunk of the NEON kernel computes its four lanes. -/
theorem neonKernelChunk_eq (c0 c1 c2 c3 : BitVec 32) :
    neonKernelChunk visited [c0, c1, c2, c3] out = neonChunk visited c0 c1 c2 c3 out := by
  rfl

/-- A chunk of the AVX2 kernel computes its eight lanes. -/
theorem avx2KernelChunk_eq (c0 c1 c2 c3 c4 c5 c6 c7 : BitVec 32) :
    avx2KernelChunk visited [c0, c1, c2, c3, c4, c5, c6, c7] out =
      avx2Chunk visited [c0, c1, c2, c3, c4, c5, c6, c7] out := by
  have loaded : load 8 [c0, c1, c2, c3, c4, c5, c6, c7] =
      .ok fun lane => [c0, c1, c2, c3, c4, c5, c6, c7].get lane := rfl
  rw [avx2KernelChunk, avx2Chunk]
  refine if_congr Iff.rfl rfl ?_
  simp only [loaded, Checked.ok_bind, mm256_i32gather_epi64, List.map_cons, List.map_nil,
    List.take_succ_cons, List.take_zero, List.drop_succ_cons, List.drop_zero, List.mapM_cons,
    List.mapM_nil, bind_assoc, pure_bind]
  rfl

/-- **The NEON kernel computes the scalar filter.** -/
theorem neonKernel_eq (neighbors : List (BitVec 32)) :
    neonKernel neighbors visited out = .ok (scalarFilterInto neighbors visited out) := by
  have filters : ∀ chunk ∈ (chunksExact 4 neighbors).1, ∀ out,
      neonKernelChunk visited chunk out = .ok (scalarFilterIntoNoClear chunk visited out) := by
    intro chunk member out
    have four := length_of_mem_chunksExact member
    obtain ⟨c0, c1, c2, c3, rfl⟩ := List.length_eq_four.mp four
    rw [neonKernelChunk_eq, neonChunk_eq]
  rw [neonKernel, foldlM_filterChunk filters, Checked.ok_bind, Checked.pure_eq_ok]
  refine congrArg Except.ok ?_
  rw [scalarFilterIntoNoClear_eq, scalarFilterIntoNoClear_eq, List.nil_append, ← List.filter_append,
    chunksExact_append, scalarFilterInto, scalarFilterIntoNoClear_eq, List.nil_append]

/-- **The AVX2 kernel appends what the scalar filter keeps.** -/
theorem avx2Kernel_eq (neighbors : List (BitVec 32)) :
    avx2Kernel neighbors visited out = .ok (scalarFilterIntoNoClear neighbors visited out) := by
  have filters : ∀ chunk ∈ (chunksExact 8 neighbors).1, ∀ out,
      avx2KernelChunk visited chunk out = .ok (scalarFilterIntoNoClear chunk visited out) := by
    intro chunk member out
    have eight := length_of_mem_chunksExact member
    match chunk, eight with
    | [c0, c1, c2, c3, c4, c5, c6, c7], eight =>
      rw [avx2KernelChunk_eq, avx2Chunk_eq (eight.trans_le (show 8 ≤ 32 by decide))]
  rw [avx2Kernel, foldlM_filterChunk filters, Checked.ok_bind, Checked.pure_eq_ok]
  refine congrArg Except.ok ?_
  rw [scalarFilterIntoNoClear_eq, scalarFilterIntoNoClear_eq, List.append_assoc, ← List.filter_append,
    chunksExact_append, scalarFilterIntoNoClear_eq]

end Simd

open Simd

/-- **Every kernel computes the scalar filter**: on every list of indices, every
list of words and every earlier content of `out`, the vector kernels leave in
`out` what the scalar backend leaves there, the indices with a word whose bit is
clear. -/
theorem simd_kernels_compute_scalar_filter (neighbors : List (BitVec 32))
    (visited : List (BitVec 64)) (out : List (BitVec 32)) :
    neonKernel neighbors visited out = .ok (scalarFilterInto neighbors visited out) ∧
    (∀ cpu, avx2FilterUnvisitedInto cpu neighbors visited out =
      .ok (scalarFilterInto neighbors visited out)) ∧
    (∀ backend : SimdBackend, backend.filterUnvisitedInto neighbors visited out =
      .ok (scalarFilterInto neighbors visited out)) ∧
    scalarFilterInto neighbors visited out = neighbors.filter fun n =>
      (visited[n.toNat / 64]?).any fun word => !word.getLsbD (n.toNat % 64) := by
  have scalar : scalarFilterInto neighbors visited out = neighbors.filter (unvisited visited) := by
    rw [scalarFilterInto, scalarFilterIntoNoClear_eq, List.nil_append]
  refine ⟨neonKernel_eq visited out neighbors, fun cpu => ?_, fun backend => ?_, ?_⟩
  · rw [avx2FilterUnvisitedInto, avx2Kernel_eq, ← scalarFilterInto.eq_def neighbors visited out]
    split <;> rfl
  · rw [backend.filterUnvisitedInto_eq, scalar]
  · rw [scalar]
    refine List.filter_congr fun n _ => ?_
    by_cases bound : n.toNat / 64 < visited.length
    · rw [unvisited_of_lt bound, List.getElem?_eq_getElem bound, Option.any_some]
    · rw [unvisited, List.getElem?_eq_none (Nat.le_of_not_lt bound), Option.any_none]

end FusionGraph
