import FusionGraph.Core.BuilderArrays
import FusionGraph.Core.BaseLayer

/-!
# The sharding loop cuts rows into runs

`Cuts` is what the sharding loop may do to a list of rows: it takes a non-empty
run off the front, which fits the shard size unless it is a single row, and
which is as long as the target allows unless one more row would not fit. The
loop follows it for every shard size (`partitionIntoShards_eq`), without an
overflow, a division by zero or an index out of range, and each of its shards
stores one run.

The loop fails only when the number of shards leaves the `u32` range. Runs of
single rows are short of that when the shard size leaves room for a few edges
(`Cuts.length_lt_of_roomy`).
-/

set_option autoImplicit false

namespace FusionGraph

open Foundations Foundations.PackedRows Foundations.StableBuckets

/-- The bytes a shard needs for a run of rows. -/
def runMemory (bytesPerEdge : ℕ) (run : List (List RowEntry)) : ℕ :=
  (run.length + 1) * 4 + run.flatten.length * bytesPerEdge

/-- The runs that the sharding loop may cut a list of rows into. -/
inductive Cuts (shardSize bytesPerEdge target : ℕ) :
    List (List RowEntry) → List (List (List RowEntry)) → Prop where
  | nil : Cuts shardSize bytesPerEdge target [] []
  | cons {run rest : List (List RowEntry)} {runs : List (List (List RowEntry))}
      (nonempty : run ≠ [])
      (fits : run.length = 1 ∨ runMemory bytesPerEdge run ≤ shardSize)
      (greedy : run.length = min target (run ++ rest).length ∨
        ∃ next more, rest = next :: more ∧ shardSize < runMemory bytesPerEdge (run ++ [next]))
      (tail : Cuts shardSize bytesPerEdge target rest runs) :
      Cuts shardSize bytesPerEdge target (run ++ rest) (run :: runs)

namespace Cuts

variable {shardSize bytesPerEdge target : ℕ} {rows : List (List RowEntry)}
  {runs : List (List (List RowEntry))}

theorem flatten_eq (cuts : Cuts shardSize bytesPerEdge target rows runs) :
    runs.flatten = rows := by
  induction cuts with
  | nil => rfl
  | cons _ _ _ _ ih => rw [List.flatten_cons, ih]

theorem ne_nil (cuts : Cuts shardSize bytesPerEdge target rows runs) : ∀ run ∈ runs, run ≠ [] := by
  induction cuts with
  | nil => simp
  | cons nonempty _ _ _ ih => exact List.forall_mem_cons.mpr ⟨nonempty, ih⟩

theorem length_le (cuts : Cuts shardSize bytesPerEdge target rows runs) :
    runs.length ≤ rows.length := by
  induction cuts with
  | nil => exact Nat.le_refl 0
  | cons nonempty _ _ _ ih =>
      have positive := List.length_pos_iff.mpr nonempty
      rw [List.length_cons, List.length_append]
      omega

/-- Single-row runs need rows that are too heavy to go in pairs, so that the
rows together have many edges. -/
theorem edges_of_length_eq (cuts : Cuts shardSize bytesPerEdge target rows runs)
    (several : 2 ≤ target) (roomy : 12 + 2 * bytesPerEdge ≤ shardSize)
    (single : runs.length = rows.length) :
    ∀ row ∈ rows.head?, row.length + 3 * (rows.length - 1) ≤ 2 * rows.flatten.length := by
  induction cuts with
  | nil => simp
  | @cons run rest runs nonempty fits greedy tail ih =>
      have positive := List.length_pos_iff.mpr nonempty
      have short := tail.length_le
      rw [List.length_cons, List.length_append] at single
      obtain ⟨row, rfl⟩ := List.length_eq_one_iff.mp (show run.length = 1 by omega)
      simp only [List.length_singleton] at single
      have ih := ih (by omega)
      intro head found
      simp only [List.singleton_append, List.head?_cons, Option.mem_some_iff] at found
      subst found
      cases rest with
      | nil =>
        simp only [List.singleton_append, List.length_singleton, Nat.sub_self, Nat.mul_zero,
          Nat.add_zero, List.flatten_singleton]
        omega
      | cons next more =>
        have heavy : shardSize < runMemory bytesPerEdge ([row] ++ [next]) := by
          rcases greedy with full | ⟨other, others, same, heavy⟩
          · simp only [List.singleton_append, List.length_cons, List.length_nil] at full
            omega
          · obtain ⟨rfl, rfl⟩ := List.cons.inj same
            exact heavy
        have pair : 3 ≤ row.length + next.length := by
          by_contra light
          simp only [runMemory, List.singleton_append, List.length_cons, List.length_nil,
            List.flatten_cons, List.flatten_nil, List.append_nil, List.length_append] at heavy
          have bytes : (row.length + next.length) * bytesPerEdge ≤ 2 * bytesPerEdge :=
            Nat.mul_le_mul_right _ (by omega)
          omega
        have later := ih next rfl
        simp only [List.singleton_append, List.length_cons, List.flatten_cons,
          List.length_append] at later ⊢
        omega

/-- **A shard size with room for two rows and two edges keeps the number of
shards in the `u32` range.** -/
theorem length_lt_of_roomy (cuts : Cuts shardSize bytesPerEdge target rows runs)
    (several : 2 ≤ target) (roomy : 12 + 2 * bytesPerEdge ≤ shardSize)
    (nodes : rows.length ≤ u32Max + 1) (edges : rows.flatten.length ≤ u32Max) :
    runs.length ≤ u32Max := by
  have short := cuts.length_le
  by_contra many
  have single : runs.length = rows.length := by omega
  have heavy := cuts.edges_of_length_eq several roomy single
  cases rows with
  | nil => simp only [List.length_nil] at short; omega
  | cons row rest =>
    have weight := heavy row rfl
    simp only [u32Max] at *
    omega

end Cuts

namespace CsrBuilder

variable {rows : List (List RowEntry)}

/-! ## The memory of a run -/

theorem length_extract {α : Type} (xs : List α) {start stop : ℕ} (bound : stop ≤ xs.length) :
    (xs.extract start stop).length = stop - start := by
  rw [List.extract_eq_take_drop, List.length_take, List.length_drop]
  omega

theorem length_flatten_extract {start stop : ℕ} (ordered : start ≤ stop)
    (bound : stop ≤ rows.length) :
    (rows.extract start stop).flatten.length = offset rows stop - offset rows start := by
  have last := offset_extract rows ordered (Nat.le_refl stop)
  rw [← length_extract rows bound, offset_length] at last
  exact last

/-- The limits under which shard arithmetic stays in range. -/
structure Limits (rows : List (List RowEntry)) (bytesPerEdge : ℕ) : Prop where
  nodes : rows.length ≤ u32Max + 1
  edges : rows.flatten.length ≤ u32Max
  bytes : bytesPerEdge ≤ 8

theorem calculateShardMemory_eq {bytesPerEdge start stop : ℕ} (limits : Limits rows bytesPerEdge)
    (ordered : start ≤ stop) (bound : stop ≤ rows.length) :
    calculateShardMemory start stop (offsets rows) bytesPerEdge =
      .ok (runMemory bytesPerEdge (rows.extract start stop)) := by
  have edges := length_flatten_extract ordered bound
  have few : offset rows stop - offset rows start ≤ u32Max := by
    have last := offset_le rows stop
    have total := limits.edges
    omega
  have bytes : (offset rows stop - offset rows start) * bytesPerEdge ≤ u32Max * 8 :=
    Nat.mul_le_mul few limits.bytes
  have nodes := limits.nodes
  have firstPtr := Checked.index_eq_ok (ε := GraphError)
    (getElem?_offsets rows (Nat.le_trans ordered bound))
  have lastPtr := Checked.index_eq_ok (ε := GraphError) (getElem?_offsets rows bound)
  simp only [u32Max] at bytes nodes
  simp only [calculateShardMemory, Checked.sub_of_le ordered, Checked.ok_bind, firstPtr, lastPtr,
    Checked.sub_of_le (offset_mono rows ordered)]
  rw [Checked.mul_of_le (by simp only [usizeMax]; omega), Checked.ok_bind,
    Checked.mul_of_le (by simp only [usizeMax]; omega), Checked.ok_bind,
    Checked.add_of_le (by simp only [usizeMax]; omega), runMemory, edges,
    length_extract rows bound]

/-- The shrinking loop stops at the first shard that fits or has one node. -/
theorem shrinkShard_eq (shardSize start : ℕ) {bytesPerEdge : ℕ} (limits : Limits rows bytesPerEdge) :
    ∀ width : ℕ, start + 1 + width ≤ rows.length →
      ∃ stop, shrinkShard shardSize start (offsets rows) bytesPerEdge width
          (runMemory bytesPerEdge (rows.extract start (start + 1 + width))) = .ok stop ∧
        start + 1 ≤ stop ∧ stop ≤ start + 1 + width ∧
        (stop = start + 1 ∨ runMemory bytesPerEdge (rows.extract start stop) ≤ shardSize) ∧
        (stop = start + 1 + width ∨
          shardSize < runMemory bytesPerEdge (rows.extract start (stop + 1)))
  | 0, _ => ⟨start + 1, rfl, Nat.le_refl _, Nat.le_refl _, .inl rfl, .inl rfl⟩
  | width + 1, bound => by
      by_cases large : shardSize < runMemory bytesPerEdge
          (rows.extract start (start + 1 + (width + 1)))
      · obtain ⟨stop, found, least, most, fits, greedy⟩ :=
          shrinkShard_eq shardSize start limits width (by omega)
        refine ⟨stop, ?_, least, by omega, fits, .inr ?_⟩
        · simp only [shrinkShard, large, if_true,
            calculateShardMemory_eq limits (show start ≤ start + 1 + width by omega)
              (by omega), Checked.ok_bind, found]
        · rcases greedy with rfl | greedy
          · exact large
          · exact greedy
      · refine ⟨start + 1 + (width + 1), ?_, by omega, Nat.le_refl _,
          .inr (Nat.le_of_not_lt large), .inl rfl⟩
        simp only [shrinkShard, large, if_false, Checked.pure_eq_ok]

/-! ## Cutting one shard -/

theorem relativeRowPtrs_eq {start stop : ℕ} (ordered : start ≤ stop)
    (bound : stop ≤ rows.length) :
    relativeRowPtrs (offsets rows) start stop = .ok (offsets (rows.extract start stop)) := by
  have firstPtr := Checked.index_eq_ok (ε := GraphError)
    (getElem?_offsets rows (Nat.le_trans ordered bound))
  rw [relativeRowPtrs, Checked.mapM_eq_ok (g := fun i => offset rows i - offset rows start)]
  · rw [offsets, length_extract rows bound, List.range'_eq_map_range, List.map_map]
    congr 1
    have width : stop + 1 - start = stop - start + 1 := by omega
    rw [width]
    refine List.map_congr_left fun i member => ?_
    have inside := List.mem_range.mp member
    have relative := offset_extract rows (i := start) (j := stop) (k := start + i) (by omega)
      (by omega)
    rw [Nat.add_sub_cancel_left] at relative
    rw [Function.comp_apply, relative]
  · intro i member
    obtain ⟨first, last⟩ := List.mem_range'_1.mp member
    simp only [Checked.index_eq_ok (ε := GraphError) (getElem?_offsets rows
      (show i ≤ rows.length by omega)), firstPtr, Checked.ok_bind,
      Checked.sub_of_le (offset_mono rows first)]

/-- The arrays that the builder cuts: row offsets, targets and weights. -/
structure Arrays (rows : List (List RowEntry)) (weighted : Bool) (rowPtrs colIndices : List ℕ)
    (weights : Option (List Float32)) : Prop where
  rowPtrs : rowPtrs = offsets rows
  colIndices : colIndices = rows.flatten.map Prod.fst
  weights : weights = if weighted then some (rows.flatten.map fun entry => entry.2.getD 0) else none

/-- **A shard stores the run of rows it covers.** -/
theorem extractShard_eq {weighted : Bool} {rowPtrs colIndices : List ℕ}
    {weights : Option (List Float32)} (shardId : ℕ) {start stop : ℕ}
    (arrays : Arrays rows weighted rowPtrs colIndices weights) (ordered : start ≤ stop)
    (bound : stop ≤ rows.length) :
    extractShard rowPtrs colIndices weights shardId start stop =
      .ok (.ofRows weighted shardId start (rows.extract start stop)) := by
  obtain ⟨rfl, rfl, rfl⟩ := arrays
  have firstPtr := Checked.index_eq_ok (ε := GraphError)
    (getElem?_offsets rows (Nat.le_trans ordered bound))
  have lastPtr := Checked.index_eq_ok (ε := GraphError) (getElem?_offsets rows bound)
  have mono := offset_mono rows ordered
  have cut : ∀ {β : Type} (f : RowEntry → β),
      (Checked.slice (rows.flatten.map f) (offset rows start) (offset rows stop) :
        Outcome (List β)) = .ok ((rows.extract start stop).flatten.map f) := by
    intro β f
    rw [Checked.slice_of_le mono (by simpa only [List.length_map] using offset_le rows stop),
      ← extract_flatten_rows rows ordered]
    simp only [List.extract_eq_take_drop, List.map_take, List.map_drop]
  have range : start + (rows.extract start stop).length = stop := by
    rw [length_extract rows bound]
    omega
  simp only [extractShard, firstPtr, lastPtr, Checked.ok_bind, relativeRowPtrs_eq ordered bound,
    cut, Checked.pure_eq_ok]
  cases weighted with
  | true => simp only [if_true, cut, Checked.ok_bind, CsrShard.ofRows, range]
  | false => simp only [Bool.false_eq_true, if_false, CsrShard.ofRows, range]

/-! ## The loop -/

/-- The rows behind a run. -/
theorem drop_eq_extract_append {start stop : ℕ} (ordered : start ≤ stop) :
    rows.drop start = rows.extract start stop ++ rows.drop stop := by
  have split := List.take_append_drop (stop - start) (rows.drop start)
  rw [List.drop_drop, Nat.add_sub_cancel' ordered] at split
  rw [List.extract_eq_take_drop, split]

theorem extract_succ_eq_append {start stop : ℕ} (ordered : start ≤ stop)
    (bound : stop < rows.length) :
    rows.extract start (stop + 1) = rows.extract start stop ++ [rows[stop]] := by
  rw [List.extract_eq_take_drop, List.extract_eq_take_drop, Nat.sub_add_comm ordered,
    List.take_succ_eq_append_getElem (by rw [List.length_drop]; omega), List.getElem_drop]
  congr 3
  omega

/-- The result of the sharding loop for the given runs. -/
def shardsOrFail (weighted : Bool) (shardId start : ℕ) (shards : List CsrShard)
    (runs : List (List (List RowEntry))) : Outcome (List CsrShard) :=
  if shardId + runs.length ≤ u32Max then .ok (shards ++ shardsOfRuns weighted shardId start runs)
  else Checked.fail (.unsupportedGraphSize "shard count exceeds u32::MAX")

/-- The shard that a round cuts off, in front of the cuts of the rows behind it. -/
theorem cuts_extract {shardSize bytesPerEdge target start stop : ℕ}
    {runs : List (List (List RowEntry))}
    (tail : Cuts shardSize bytesPerEdge target (rows.drop stop) runs) (least : start + 1 ≤ stop)
    (most : stop ≤ min (start + target) rows.length)
    (fits : stop = start + 1 ∨ runMemory bytesPerEdge (rows.extract start stop) ≤ shardSize)
    (greedy : stop = min (start + target) rows.length ∨
      shardSize < runMemory bytesPerEdge (rows.extract start (stop + 1))) :
    Cuts shardSize bytesPerEdge target (rows.drop start) (rows.extract start stop :: runs) := by
  have bound : stop ≤ rows.length := by omega
  have ordered : start ≤ stop := by omega
  have length : (rows.extract start stop).length = stop - start := length_extract rows bound
  have whole : (rows.extract start stop ++ rows.drop stop).length = rows.length - start := by
    rw [← drop_eq_extract_append ordered, List.length_drop]
  rw [drop_eq_extract_append ordered]
  refine .cons (List.length_pos_iff.mp (by omega)) ?_ ?_ tail
  · exact fits.imp_left fun single => by omega
  · rcases greedy with full | greedy
    · exact .inl (by omega)
    · by_cases last : stop = rows.length
      · exact .inl (by omega)
      · have inRows : stop < rows.length := by omega
        refine .inr ⟨rows[stop], rows.drop (stop + 1), List.drop_eq_getElem_cons inRows, ?_⟩
        rwa [extract_succ_eq_append ordered inRows] at greedy

/-- One round of the sharding loop cuts a shard off and goes on behind it. -/
theorem partitionLoop_succ {weighted : Bool} {rowPtrs colIndices : List ℕ}
    {weights : Option (List Float32)} {bytesPerEdge target : ℕ} (shardSize : ℕ)
    (arrays : Arrays rows weighted rowPtrs colIndices weights) (limits : Limits rows bytesPerEdge)
    (positive : 1 ≤ target) (inRange : rows.length + target ≤ usizeMax) (fuel shardId : ℕ)
    (shards : List CsrShard) {start : ℕ} (more : start < rows.length) :
    ∃ stop, start + 1 ≤ stop ∧ stop ≤ rows.length ∧
      (∀ runs, Cuts shardSize bytesPerEdge target (rows.drop stop) runs →
        Cuts shardSize bytesPerEdge target (rows.drop start) (rows.extract start stop :: runs)) ∧
      partitionLoop shardSize rows.length rowPtrs colIndices weights bytesPerEdge target (fuel + 1)
          start shardId shards =
        (checkedAddU32 shardId 1 "shard count exceeds u32::MAX" >>= fun nextId =>
          partitionLoop shardSize rows.length rowPtrs colIndices weights bytesPerEdge target fuel
            stop nextId (shards ++ [.ofRows weighted shardId start (rows.extract start stop)])) := by
  have guess : start + target ≤ usizeMax := by omega
  obtain ⟨width, widthEq⟩ : ∃ width, min (start + target) rows.length = start + 1 + width :=
    ⟨min (start + target) rows.length - (start + 1), by omega⟩
  have wide : start + 1 + width ≤ rows.length := by omega
  obtain ⟨stop, shrunk, least, most, fits, greedy⟩ := shrinkShard_eq shardSize start limits width wide
  have bound : stop ≤ rows.length := by omega
  have cut := extractShard_eq shardId arrays (show start ≤ stop by omega) bound
  refine ⟨stop, least, bound, fun runs tail => ?_, ?_⟩
  · rw [← widthEq] at most greedy
    exact cuts_extract tail least most fits greedy
  · obtain ⟨rfl, -, -⟩ := arrays
    simp only [partitionLoop, more, if_true, Checked.add_of_le guess, Checked.ok_bind, widthEq,
      calculateShardMemory_eq limits (show start ≤ start + 1 + width by omega) wide,
      Nat.add_sub_cancel_left, shrunk, cut]

/-- **The sharding loop follows `Cuts`.** -/
theorem partitionLoop_eq {weighted : Bool} {rowPtrs colIndices : List ℕ}
    {weights : Option (List Float32)} {bytesPerEdge target : ℕ} (shardSize : ℕ)
    (arrays : Arrays rows weighted rowPtrs colIndices weights) (limits : Limits rows bytesPerEdge)
    (positive : 1 ≤ target) (inRange : rows.length + target ≤ usizeMax) :
    ∀ (fuel start shardId : ℕ) (shards : List CsrShard), start ≤ rows.length →
      rows.length - start ≤ fuel → shardId ≤ u32Max →
      ∃ runs, Cuts shardSize bytesPerEdge target (rows.drop start) runs ∧
        partitionLoop shardSize rows.length rowPtrs colIndices weights bytesPerEdge target fuel
          start shardId shards = shardsOrFail weighted shardId start shards runs := by
  have finished : ∀ (start shardId : ℕ) (shards : List CsrShard), rows.length ≤ start →
      shardId ≤ u32Max →
      Cuts shardSize bytesPerEdge target (rows.drop start) [] ∧
        (Except.ok shards : Outcome (List CsrShard)) =
          shardsOrFail weighted shardId start shards [] := by
    intro start shardId shards beyond few
    rw [List.drop_eq_nil_of_le beyond]
    exact ⟨.nil, by simp [shardsOrFail, shardsOfRuns, few]⟩
  intro fuel
  induction fuel with
  | zero =>
    intro start shardId shards inside enough few
    have beyond : rows.length ≤ start := by omega
    obtain ⟨cuts, result⟩ := finished start shardId shards beyond few
    exact ⟨[], cuts, by simp only [partitionLoop, Nat.not_lt_of_le beyond, if_false,
      Checked.pure_eq_ok, result]⟩
  | succ fuel ih =>
    intro start shardId shards inside enough few
    by_cases more : start < rows.length
    · obtain ⟨stop, least, bound, cutRun, step⟩ :=
        partitionLoop_succ shardSize arrays limits positive inRange fuel shardId shards more
      by_cases room : shardId + 1 ≤ u32Max
      · obtain ⟨runs, cuts, result⟩ := ih stop (shardId + 1)
          (shards ++ [.ofRows weighted shardId start (rows.extract start stop)]) bound (by omega)
          room
        refine ⟨_, cutRun runs cuts, ?_⟩
        rw [step, checkedAddU32_of_le room, Checked.ok_bind, result, shardsOrFail, shardsOrFail,
          shardsOfRuns, List.length_cons, List.append_assoc, List.singleton_append]
        have next : start + (rows.extract start stop).length = stop := by
          rw [length_extract rows bound]
          omega
        rw [next, Nat.add_assoc, Nat.add_comm 1]
      · obtain ⟨runs, cuts, -⟩ := ih stop 0 [] bound (by omega) (Nat.zero_le _)
        refine ⟨_, cutRun runs cuts, ?_⟩
        have full : ¬ shardId + (runs.length + 1) ≤ u32Max := by omega
        simp only [step, checkedAddU32, u32TryFrom, room, if_false, Checked.okOr, Checked.fail,
          Checked.error_bind, shardsOrFail, List.length_cons, full]
    · obtain ⟨cuts, result⟩ := finished start shardId shards (Nat.le_of_not_lt more) few
      exact ⟨[], cuts, by simp only [partitionLoop, more, if_false, Checked.pure_eq_ok, result]⟩

end CsrBuilder

end FusionGraph
