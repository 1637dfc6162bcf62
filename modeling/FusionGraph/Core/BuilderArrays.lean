import FusionGraph.Core.Builder

/-!
# What the counting, summing and scattering passes compute

The three passes of `CsrBuilder.buildCsrArrays` run on edges sorted by source.
The first leaves the degree of each node (`countDegrees_eq`), the second the
start of each row (`sumDegrees_eq`). The third writes every edge at the cursor
of its row. Since the edges are sorted, that cursor is the position of the edge
itself, so the arrays are the targets and the weights in edge order
(`buildCsrArrays_eq`).
-/

set_option autoImplicit false

namespace FusionGraph

open Foundations Foundations.PackedRows Foundations.StableBuckets

namespace CsrBuilder

/-- The number of edges with each source below `nodeCount`. -/
def degreesOf (nodeCount : ℕ) (edges : List (ℕ × ℕ)) : List ℕ :=
  (List.range nodeCount).map fun k => edges.countP fun edge => decide (edge.1 = k)

theorem edgeSrcIndex_of_lt {src nodeCount : ℕ} (bound : src < nodeCount)
    (fits : nodeCount ≤ u32Max + 1) : edgeSrcIndex src nodeCount = .ok src := by
  have small : src ≤ usizeMax := by
    simp only [u32Max, usizeMax] at fits ⊢
    omega
  simp only [edgeSrcIndex, usizeTryFrom_of_le small, Nat.not_le_of_lt bound, if_false]

theorem checkedAddU32_of_le {a b : ℕ} {reason : String} (fits : a + b ≤ u32Max) :
    checkedAddU32 a b reason = .ok (a + b) := by
  simp only [checkedAddU32, u32TryFrom_of_le fits, Checked.okOr_some]

/-- A table indexed by the nodes, with one entry changed. -/
theorem set_map_range {nodeCount k : ℕ} (f g : ℕ → ℕ) (value : ℕ) (at_k : g k = value)
    (elsewhere : ∀ j, j ≠ k → g j = f j) :
    ((List.range nodeCount).map f).set k value = (List.range nodeCount).map g := by
  refine List.ext_getElem? fun j => ?_
  rw [List.getElem?_set]
  by_cases same : k = j
  · subst same
    by_cases inside : k < nodeCount
    · simp [inside, at_k]
    · simp [inside]
  · by_cases inside : j < nodeCount
    · simp [same, inside, elsewhere j (Ne.symm same)]
    · simp [same, inside]

/-- Counting one more edge changes the entry of its source. -/
theorem degreesOf_append (nodeCount : ℕ) (done : List (ℕ × ℕ)) (src dst : ℕ) :
    (degreesOf nodeCount done).set src (done.countP (fun edge => decide (edge.1 = src)) + 1) =
      degreesOf nodeCount (done ++ [(src, dst)]) := by
  refine set_map_range _ _ _ ?_ fun j other => ?_
  · simp [List.countP_append]
  · simp [List.countP_append, Ne.symm other]

/-- **The counting pass leaves the degree of each node.** -/
theorem countDegrees_eq {nodeCount : ℕ} {edges : List (ℕ × ℕ)}
    (sources : ∀ edge ∈ edges, edge.1 < nodeCount) (nodes : nodeCount ≤ u32Max + 1)
    (count : edges.length ≤ u32Max) :
    edges.foldlM (countEdge nodeCount) (List.replicate nodeCount 0) =
      .ok (degreesOf nodeCount edges) := by
  obtain ⟨final, finished, counted⟩ := Checked.foldlM_of_invariant
    (fun done state => state = degreesOf nodeCount done) edges
    (show List.replicate nodeCount 0 = degreesOf nodeCount [] by
      simp only [degreesOf, List.countP_nil, List.map_const', List.length_range])
    (show ∀ done edge rest state, done ++ edge :: rest = edges → state = degreesOf nodeCount done →
        ∃ next, countEdge nodeCount state edge = .ok next ∧
          next = degreesOf nodeCount (done ++ [edge]) by
      rintro done ⟨src, dst⟩ rest state whole rfl
      have member : (src, dst) ∈ edges := whole ▸ List.mem_append_right done List.mem_cons_self
      have inside : src < nodeCount := sources _ member
      have current : (degreesOf nodeCount done)[src]? =
          some (done.countP fun edge => decide (edge.1 = src)) := by
        simp [degreesOf, inside]
      have fits : (done.countP fun edge => decide (edge.1 = src)) + 1 ≤ u32Max := by
        have bound := List.countP_le_length (l := done) (p := fun edge => decide (edge.1 = src))
        have split := congrArg List.length whole
        simp only [List.length_append, List.length_cons] at split
        omega
      refine ⟨degreesOf nodeCount (done ++ [(src, dst)]), ?_, rfl⟩
      simp only [countEdge, edgeSrcIndex_of_lt inside nodes, current, Checked.okOr_some,
        checkedAddU32_of_le fits, Checked.ok_bind]
      rw [Checked.store_of_lt _ (by simpa [degreesOf] using inside), degreesOf_append])
  rw [finished, counted]

/-! ## Row pointers -/

/-- The sums of the initial segments of a list. -/
def partialSums (degrees : List ℕ) : List ℕ :=
  (List.range (degrees.length + 1)).map fun i => (degrees.take i).sum

theorem partialSums_append (done : List ℕ) (degree : ℕ) :
    partialSums (done ++ [degree]) = partialSums done ++ [done.sum + degree] := by
  simp only [partialSums, List.length_append, List.length_singleton]
  rw [List.range_succ, List.map_append]
  congr 1
  · refine List.map_congr_left fun i member => ?_
    rw [List.take_append_of_le_length (Nat.le_of_lt_succ (List.mem_range.mp member))]
  · simp [List.take_of_length_le]

/-- **The summing pass leaves the start of each row.** -/
theorem sumDegrees_eq {degrees : List ℕ} (total : degrees.sum ≤ u32Max) :
    degrees.foldlM pushRowPtr ([0], 0) = .ok (partialSums degrees, degrees.sum) := by
  obtain ⟨final, finished, summed⟩ := Checked.foldlM_of_invariant
    (fun done state => state = (partialSums done, done.sum)) degrees
    (show ([0], 0) = (partialSums [], [].sum) from rfl)
    (show ∀ done degree rest state, done ++ degree :: rest = degrees →
        state = (partialSums done, done.sum) → ∃ next, pushRowPtr state degree = .ok next ∧
          next = (partialSums (done ++ [degree]), (done ++ [degree]).sum) by
      rintro done degree rest state whole rfl
      have fits : done.sum + degree ≤ u32Max := by
        have split := congrArg List.sum whole
        simp only [List.sum_append, List.sum_cons] at split
        omega
      refine ⟨_, ?_, rfl⟩
      simp only [pushRowPtr, checkedAddU32_of_le fits, Checked.ok_bind, Checked.pure_eq_ok,
        partialSums_append, List.sum_append, List.sum_singleton])
  rw [finished, summed]

/-- The degrees are the lengths of the buckets, so their sums are the row offsets. -/
theorem partialSums_degreesOf (nodeCount : ℕ) (edges : List (ℕ × ℕ)) :
    partialSums (degreesOf nodeCount edges) = offsets (buckets Prod.fst nodeCount edges) := by
  have lengths : degreesOf nodeCount edges =
      (buckets Prod.fst nodeCount edges).map List.length := by
    simp only [degreesOf, buckets, List.map_map]
    exact List.map_congr_left fun k _ => List.countP_eq_length_filter
  simp only [partialSums, offsets, lengths, List.length_map]
  refine List.map_congr_left fun i _ => ?_
  rw [offset, List.length_flatten, List.map_take]

/-! ## Scattering -/

/-- The cursors after some edges have been written. -/
def cursorsOf (nodeCount : ℕ) (edges done : List (ℕ × ℕ)) : List ℕ :=
  (List.range nodeCount).map fun k =>
    edges.countP (fun edge => decide (edge.1 < k)) + done.countP fun edge => decide (edge.1 = k)

theorem cursorsOf_append (nodeCount : ℕ) (edges done : List (ℕ × ℕ)) (src dst : ℕ) :
    (cursorsOf nodeCount edges done).set src
        (edges.countP (fun edge => decide (edge.1 < src)) +
          done.countP (fun edge => decide (edge.1 = src)) + 1) =
      cursorsOf nodeCount edges (done ++ [(src, dst)]) := by
  refine set_map_range _ _ _ ?_ fun j other => ?_
  · simp [List.countP_append, Nat.add_assoc]
  · simp [List.countP_append, Ne.symm other]

/-- A prefix of a list, with the rest of its positions still holding `fill`. -/
def filledPrefix {α : Type} (xs : List α) (fill : α) (written : ℕ) : List α :=
  xs.take written ++ List.replicate (xs.length - written) fill

theorem length_filledPrefix {α : Type} {xs : List α} {fill : α} {written : ℕ} :
    (filledPrefix xs fill written).length = xs.length := by
  simp only [filledPrefix, List.length_append, List.length_take, List.length_replicate]
  omega

/-- Writing the next entry extends the prefix. -/
theorem set_filledPrefix {α : Type} {xs : List α} {fill : α} {written : ℕ}
    (bound : written < xs.length) :
    (filledPrefix xs fill written).set written xs[written] =
      filledPrefix xs fill (written + 1) := by
  have width : xs.length - written = xs.length - (written + 1) + 1 := by omega
  have start : (xs.take written).length = written := by simp; omega
  rw [filledPrefix, filledPrefix, width, List.replicate_succ,
    List.set_append_right _ _ (Nat.le_of_eq start), start, Nat.sub_self, List.set_cons_zero,
    List.take_succ_eq_append_getElem bound, List.append_assoc, List.singleton_append]

/-- The arrays after some edges have been written, in edge order. -/
def scattered (self : CsrBuilder) (nodeCount : ℕ) (done : List (ℕ × ℕ)) : ScatterState where
  colIndices := filledPrefix (self.edges.map Prod.snd) 0 done.length
  weights := if self.config.includeWeights then
    some (filledPrefix self.weights 0.0 done.length) else none
  currentPos := cursorsOf nodeCount self.edges done

/-- **One edge of a sorted list is written at its own position.** -/
theorem scatterEdge_eq {self : CsrBuilder} {nodeCount : ℕ} {done rest : List (ℕ × ℕ)}
    {src dst : ℕ} (whole : done ++ (src, dst) :: rest = self.edges)
    (sorted : SortedByKey Prod.fst self.edges) (inside : src < nodeCount)
    (target : dst ≤ u32Max) (nodes : nodeCount ≤ u32Max + 1) (count : self.edges.length ≤ u32Max)
    (aligned : self.config.includeWeights = true → self.weights.length = self.edges.length) :
    self.scatterEdge nodeCount (self.scattered nodeCount done) ((src, dst), done.length) =
      .ok (self.scattered nodeCount (done ++ [(src, dst)])) := by
  have position : self.edges.countP (fun edge => decide (edge.1 < src)) +
      done.countP (fun edge => decide (edge.1 = src)) = done.length := by
    rw [← whole] at sorted ⊢
    exact position_of_sorted Prod.fst sorted
  have bound : done.length < self.edges.length := by
    rw [← whole, List.length_append, List.length_cons]
    omega
  have cursor : (cursorsOf nodeCount self.edges done)[src]? = some done.length := by
    simp only [cursorsOf, List.getElem?_map, List.getElem?_range inside, Option.map_some, position]
  have inside' : done.length < (self.edges.map Prod.snd).length := by simpa using bound
  have here : (self.edges.map Prod.snd)[done.length] = dst := by
    simp [← whole]
  have column : (filledPrefix (self.edges.map Prod.snd) 0 done.length).set done.length dst =
      filledPrefix (self.edges.map Prod.snd) 0 (done.length + 1) := by
    rw [← set_filledPrefix inside', here]
  have moved := cursorsOf_append nodeCount self.edges done src dst
  rw [position] at moved
  have storeColumn : (Checked.store (filledPrefix (self.edges.map Prod.snd) 0 done.length)
      done.length dst : Outcome (List ℕ)) =
        .ok (filledPrefix (self.edges.map Prod.snd) 0 (done.length + 1)) := by
    rw [Checked.store_of_lt _ (by rw [length_filledPrefix, List.length_map]; exact bound), column]
  have storeCursor : (Checked.store (cursorsOf nodeCount self.edges done) src (done.length + 1) :
      Outcome (List ℕ)) = .ok (cursorsOf nodeCount self.edges (done ++ [(src, dst)])) := by
    rw [Checked.store_of_lt _ (by simpa [cursorsOf] using inside), moved]
  have capacity : done.length + 1 ≤ u32Max := by omega
  simp only [scatterEdge, scattered, edgeSrcIndex_of_lt inside nodes, Checked.index_eq_ok cursor,
    u32TryFrom_of_le target, Checked.okOr_some, storeColumn, Checked.ok_bind,
    checkedAddU32_of_le capacity, storeCursor, Checked.pure_eq_ok, List.length_append,
    List.length_singleton]
  cases weighted : self.config.includeWeights with
  | false => simp
  | true =>
    have width : done.length < self.weights.length := by rw [aligned weighted]; exact bound
    simp only [if_true, Checked.index_of_lt width, Checked.ok_bind,
      Checked.store_of_lt _ (Nat.lt_of_lt_of_eq width length_filledPrefix.symm),
      set_filledPrefix width]

theorem sum_degreesOf {nodeCount : ℕ} {edges : List (ℕ × ℕ)} (sorted : SortedByKey Prod.fst edges)
    (sources : ∀ edge ∈ edges, edge.1 < nodeCount) :
    (degreesOf nodeCount edges).sum = edges.length := by
  have lengths : degreesOf nodeCount edges = (buckets Prod.fst nodeCount edges).map List.length := by
    simp only [degreesOf, buckets, List.map_map]
    exact List.map_congr_left fun k _ => List.countP_eq_length_filter
  rw [lengths, ← List.length_flatten, flatten_buckets Prod.fst sorted sources]

/-- The cursors start at the row offsets. -/
theorem extract_offsets_buckets {nodeCount : ℕ} {edges : List (ℕ × ℕ)}
    (sorted : SortedByKey Prod.fst edges) :
    (offsets (buckets Prod.fst nodeCount edges)).extract 0 nodeCount =
      cursorsOf nodeCount edges [] := by
  refine List.ext_getElem? fun k => ?_
  rw [List.extract_eq_take_drop, List.drop_zero, Nat.sub_zero, List.getElem?_take]
  by_cases inside : k < nodeCount
  · rw [if_pos inside, getElem?_offsets _ (by simpa using Nat.le_of_lt inside),
      offset_buckets Prod.fst sorted (Nat.le_of_lt inside)]
    simp [cursorsOf, inside]
  · simp [cursorsOf, inside]

/-- Nothing is written at the start. -/
theorem scattered_nil {self : CsrBuilder} {nodeCount : ℕ}
    (aligned : self.config.includeWeights = true → self.weights.length = self.edges.length) :
    self.scattered nodeCount [] =
      { colIndices := List.replicate self.edges.length 0
        weights := if self.config.includeWeights then
          some (List.replicate self.edges.length 0.0) else none
        currentPos := cursorsOf nodeCount self.edges [] } := by
  cases weighted : self.config.includeWeights with
  | false => simp [scattered, filledPrefix, weighted]
  | true => simp [scattered, filledPrefix, weighted, aligned weighted]

/-- **Every edge of a sorted list is written at its own position.** -/
theorem scatterEdges_eq {self : CsrBuilder} {nodeCount : ℕ}
    (sorted : SortedByKey Prod.fst self.edges)
    (sources : ∀ edge ∈ self.edges, edge.1 < nodeCount)
    (targets : ∀ edge ∈ self.edges, edge.2 ≤ u32Max) (nodes : nodeCount ≤ u32Max + 1)
    (count : self.edges.length ≤ u32Max)
    (aligned : self.config.includeWeights = true → self.weights.length = self.edges.length) :
    self.edges.zipIdx.foldlM (self.scatterEdge nodeCount) (self.scattered nodeCount []) =
      .ok (self.scattered nodeCount self.edges) := by
  obtain ⟨final, finished, written⟩ := Checked.foldlM_of_invariant
    (fun done state => state = self.scattered nodeCount (done.map Prod.fst)) self.edges.zipIdx
    (show self.scattered nodeCount [] = self.scattered nodeCount ([].map Prod.fst) from rfl)
    (show ∀ done entry rest state, done ++ entry :: rest = self.edges.zipIdx →
        state = self.scattered nodeCount (done.map Prod.fst) →
        ∃ next, self.scatterEdge nodeCount state entry = .ok next ∧
          next = self.scattered nodeCount ((done ++ [entry]).map Prod.fst) by
      rintro done ⟨⟨src, dst⟩, i⟩ rest state whole rfl
      have edges : done.map Prod.fst ++ (src, dst) :: rest.map Prod.fst = self.edges := by
        have keys := congrArg (List.map Prod.fst) whole
        simpa using keys
      have index : i = (done.map Prod.fst).length := by
        have entry := congrArg (fun list => list[done.length]?) whole
        simp only [List.getElem?_append_right (Nat.le_refl _), Nat.sub_self,
          List.getElem?_cons_zero, List.getElem?_zipIdx] at entry
        cases found : self.edges[done.length]? with
        | none => simp [found] at entry
        | some edge =>
          simp only [found, Option.map_some, Option.some.injEq, Prod.mk.injEq] at entry
          simpa using entry.2
      have member : (src, dst) ∈ self.edges := edges ▸ List.mem_append_right _ List.mem_cons_self
      refine ⟨_, ?_, rfl⟩
      rw [index, scatterEdge_eq edges sorted (sources _ member) (targets _ member) nodes count
        aligned, List.map_append]
      rfl)
  rw [finished, written, List.zipIdx_map_fst]

/-- **The arrays of sorted edges are the row offsets, the targets and the weights
in edge order.** -/
theorem buildCsrArrays_eq {self : CsrBuilder} {nodeCount : ℕ}
    (sorted : SortedByKey Prod.fst self.edges)
    (sources : ∀ edge ∈ self.edges, edge.1 < nodeCount)
    (targets : ∀ edge ∈ self.edges, edge.2 ≤ u32Max) (nodes : nodeCount ≤ u32Max + 1)
    (count : self.edges.length ≤ u32Max)
    (aligned : self.config.includeWeights = true → self.weights.length = self.edges.length) :
    self.buildCsrArrays nodeCount =
      .ok (offsets (buckets Prod.fst nodeCount self.edges), self.edges.map Prod.snd,
        if self.config.includeWeights then some self.weights else none) := by
  have total : (degreesOf nodeCount self.edges).sum ≤ u32Max :=
    (sum_degreesOf sorted sources).trans_le count
  have slots : nodeCount ≤ (offsets (buckets Prod.fst nodeCount self.edges)).length := by
    simp
  have written := scatterEdges_eq sorted sources targets nodes count aligned
  have arrays : self.buildCsrArrays nodeCount =
      .ok (offsets (buckets Prod.fst nodeCount self.edges),
        (self.scattered nodeCount self.edges).colIndices,
        (self.scattered nodeCount self.edges).weights) := by
    simp only [buildCsrArrays, countDegrees_eq sources nodes count, Checked.ok_bind,
      sumDegrees_eq total, partialSums_degreesOf, Checked.slice_of_le (Nat.zero_le _) slots,
      extract_offsets_buckets sorted, ← scattered_nil aligned, written, Checked.pure_eq_ok]
  rw [arrays]
  cases weighted : self.config.includeWeights with
  | false => simp [scattered, weighted, filledPrefix, List.take_of_length_le]
  | true => simp [scattered, weighted, filledPrefix, aligned weighted, List.take_of_length_le]

end CsrBuilder

end FusionGraph
