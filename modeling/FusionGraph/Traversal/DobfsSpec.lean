import FusionGraph.Foundations.LevelSearch
import FusionGraph.Traversal.Dobfs
import FusionGraph.Traversal.ShortestPaths

/-!
# Both directions find the next level

On a forward graph and its transpose, both of them without mutations, each way to
expand a level returns the new successors of the frontier
(`DobfsState.Shows.expandTopDown_eq`, `DobfsState.Shows.expandBottomUp_eq`). So the
search finds shortest paths, whichever directions are chosen
(`Stores.bfsDirectionOptimizedBy_eq`).
-/

set_option autoImplicit false

namespace FusionGraph

open Foundations Foundations.Bitset Foundations.BreadthFirst

/-! ## Bits -/

section Bits

variable {words : List (BitVec 64)} {size : ℕ} {member : ℕ → Prop}

theorem testBit_eq [DecidablePred member] (represents : Represents words size member) {i : ℕ}
    (bound : i < size) : testBit words i = .ok (decide (member i)) := by
  obtain ⟨word, read, -, clear⟩ := represents.index_eq (ε := GraphError) bound
  simp only [testBit, read, Checked.ok_bind, Checked.pure_eq_ok, Except.ok.injEq, decide_eq_decide]
  rw [ne_eq, clear, not_not]

theorem setBit_eq (represents : Represents words size member) {i : ℕ} (bound : i < size) :
    ∃ after, setBit words i = .ok after ∧ Represents after size fun j => member j ∨ j = i := by
  obtain ⟨word, read, found, -⟩ := represents.index_eq (ε := GraphError) bound
  refine ⟨_, ?_, represents.insert found⟩
  rw [setBit, read, Checked.ok_bind, Checked.store_of_lt _ (represents.word_lt bound)]

theorem clearBit_eq (represents : Represents words size member) {i : ℕ} (bound : i < size) :
    ∃ after, clearBit words i = .ok after ∧ Represents after size fun j => member j ∧ j ≠ i := by
  obtain ⟨word, read, found, -⟩ := represents.index_eq (ε := GraphError) bound
  refine ⟨_, ?_, represents.erase found⟩
  rw [clearBit, read, Checked.ok_bind, Checked.store_of_lt _ (represents.word_lt bound)]

theorem foldlM_setBit_eq (represents : Represents words size member) {nodes : List ℕ}
    (bounds : ∀ i ∈ nodes, i < size) :
    ∃ after, nodes.foldlM setBit words = .ok after ∧
      Represents after size fun j => member j ∨ j ∈ nodes := by
  refine Checked.foldlM_of_invariant (fun done after => Represents after size fun j =>
    member j ∨ j ∈ done) nodes (represents.congr (by simp)) fun done i rest before whole kept => ?_
  obtain ⟨after, set, holds⟩ := setBit_eq kept (bounds i (whole ▸ by simp))
  exact ⟨after, set, holds.congr fun j _ => by simp [or_assoc]⟩

theorem foldlM_clearBit_eq (represents : Represents words size member) {nodes : List ℕ}
    (bounds : ∀ i ∈ nodes, i < size) :
    ∃ after, nodes.foldlM clearBit words = .ok after ∧
      Represents after size fun j => member j ∧ j ∉ nodes := by
  refine Checked.foldlM_of_invariant (fun done after => Represents after size fun j =>
    member j ∧ j ∉ done) nodes (represents.congr (by simp)) fun done i rest before whole kept => ?_
  obtain ⟨after, cleared, holds⟩ := clearBit_eq kept (bounds i (whole ▸ by simp))
  exact ⟨after, cleared, holds.congr fun j _ => by simp [and_assoc]⟩

end Bits

/-! ## Top-down -/

section TopDown

variable {visitedBits : List (BitVec 64)} {size : ℕ} {seen : List ℕ}

/-- A batch appends its new nodes. -/
theorem markNext_eq (represents : Represents visitedBits size fun n => n ∈ seen) {nodes : List ℕ}
    (bounds : ∀ n ∈ nodes, n < size) (next : List ℕ) :
    ∃ after, markNext nodes visitedBits next = .ok (after, next ++ newNodes seen nodes) ∧
      Represents after size fun n => n ∈ seen ++ newNodes seen nodes := by
  induction nodes generalizing visitedBits seen next with
  | nil => exact ⟨visitedBits, by simp [markNext, newNodes], represents.congr (by simp [newNodes])⟩
  | cons m rest ih =>
      have inside := bounds m List.mem_cons_self
      have later : ∀ n ∈ rest, n < size := fun n member => bounds n (List.mem_cons_of_mem m member)
      by_cases known : m ∈ seen
      · obtain ⟨after, marked, kept⟩ := ih represents later next
        refine ⟨after, ?_, ?_⟩
        · rw [markNext, testBit_eq represents inside, Checked.ok_bind, decide_eq_true known,
            if_pos rfl, marked, newNodes, if_pos known]
        · rw [newNodes, if_pos known]
          exact kept
      · obtain ⟨middle, set, holds⟩ := setBit_eq represents inside
        obtain ⟨after, marked, kept⟩ := ih
          (show Represents middle size fun n => n ∈ m :: seen from
            holds.congr fun n _ => by rw [List.mem_cons, or_comm]) later (next ++ [m])
        refine ⟨after, ?_, ?_⟩
        · rw [markNext, testBit_eq represents inside, Checked.ok_bind, decide_eq_false known,
            if_neg Bool.false_ne_true, set, Checked.ok_bind, marked, newNodes, if_neg known,
            List.append_assoc, List.singleton_append]
        · rw [newNodes, if_neg known]
          refine kept.congr fun n _ => ?_
          simp only [List.cons_append, List.mem_cons, List.mem_append]
          tauto

/-- **The out-edges of the frontier lead to its new successors.** -/
theorem CsrGraph.Stores.topDown_eq {forward : CsrGraph} {base : BaseLayer}
    (stores : forward.Stores base) (backend : SimdBackend)
    (represents : Bitset.Represents visitedBits base.rows.length fun n => n ∈ seen)
    (frontier next : List ℕ) (edgesExamined : ℕ) :
    ∃ after examined, topDown forward backend frontier visitedBits next edgesExamined =
        .ok (after, next ++ newNodes seen (frontier.flatMap base.targets), examined) ∧
      Bitset.Represents after base.rows.length fun n =>
        n ∈ seen ++ newNodes seen (frontier.flatMap base.targets) := by
  induction frontier generalizing visitedBits seen next edgesExamined with
  | nil =>
      exact ⟨visitedBits, edgesExamined, by simp [topDown, newNodes],
        represents.congr (by simp [newNodes])⟩
  | cons n rest ih =>
      have filtered := backend.filterSlice_eq represents base.nodes_le
        fun m (member : m ∈ base.targets n) => BaseLayer.target_lt member
      obtain ⟨middle, marked, holds⟩ := markNext_eq represents
        (fun m (member : m ∈ (base.targets n).filter fun m => decide (m ∉ seen)) =>
          BaseLayer.target_lt (List.mem_filter.mp member).1) next
      rw [newNodes_filter fun _ member => member] at marked holds
      obtain ⟨after, examined, scanned, kept⟩ :=
        ih holds (next ++ newNodes seen (base.targets n)) (edgesExamined + (base.targets n).length)
      refine ⟨after, examined, ?_, ?_⟩
      · simp only [topDown, stores.baseNeighborSlice_eq, Checked.ok_bind, filtered, marked, scanned,
          List.flatMap_cons, newNodes_append, List.append_assoc]
      · rw [List.flatMap_cons, newNodes_append, ← List.append_assoc]
        exact kept

end TopDown

/-! ## Bottom-up -/

section BottomUp

variable {frontierBits : List (BitVec 64)} {size : ℕ} {frontier : List ℕ}

/-- The search for a parent stops at the first one in the frontier. -/
theorem findParent_eq (represents : Represents frontierBits size fun n => n ∈ frontier)
    {parents : List ℕ} (bounds : ∀ p ∈ parents, p < size) :
    ∃ examined, findParent frontierBits parents =
      .ok (parents.any fun p => decide (p ∈ frontier), examined) := by
  induction parents with
  | nil => exact ⟨0, rfl⟩
  | cons p rest ih =>
      obtain ⟨examined, searched⟩ := ih fun q member => bounds q (List.mem_cons_of_mem p member)
      rw [findParent, testBit_eq represents (bounds p List.mem_cons_self), Checked.ok_bind,
        List.any_cons]
      by_cases found : p ∈ frontier
      · exact ⟨1, by simp [found]⟩
      · exact ⟨examined + 1, by simp [found, searched]⟩

/-- The word of unvisited nodes has the bits of the nodes that are not marked. -/
theorem unvisitedWord_eq {nodeCount wordIdx : ℕ} (inside : wordIdx * 64 < nodeCount)
    (word : BitVec 64) :
    ∃ unvisited, unvisitedWord nodeCount wordIdx word = .ok unvisited ∧ ∀ bit < 64,
      unvisited.getLsbD bit = (!word.getLsbD bit && decide (wordIdx * 64 + bit < nodeCount)) := by
  by_cases last : nodeCount < (wordIdx + 1) * 64
  · have small : nodeCount - wordIdx * 64 < 64 := by omega
    refine ⟨~~~word &&& (1#64 <<< (nodeCount - wordIdx * 64) - 1#64), ?_, fun bit bound => ?_⟩
    · rw [unvisitedWord, if_pos last, Checked.sub_of_le inside.le, Checked.ok_bind,
        Checked.shift_of_lt small, Checked.ok_bind, Checked.pure_eq_ok]
    · rw [BitVec.getLsbD_and, getLsbD_shiftLeft_sub_one small, BitVec.getLsbD_not]
      have same : bit < nodeCount - wordIdx * 64 ↔ wordIdx * 64 + bit < nodeCount := by omega
      simp [bound, same]
  · refine ⟨~~~word, by rw [unvisitedWord, if_neg last, Checked.pure_eq_ok], fun bit bound => ?_⟩
    · have below : wordIdx * 64 + bit < nodeCount := by omega
      simp [bound, below]

/-- Whether a node has a parent in the frontier. -/
def hasParent (reversed : BaseLayer) (frontier : List ℕ) (u : ℕ) : Bool :=
  (reversed.targets u).any fun p => decide (p ∈ frontier)

variable {reverse : CsrGraph} {reversed : BaseLayer}

/-- A word yields the nodes of its set bits that have a parent in the frontier. -/
theorem CsrGraph.Stores.scanWord_eq (stores : reverse.Stores reversed)
    (represents : Bitset.Represents frontierBits reversed.rows.length fun n => n ∈ frontier)
    {wordIdx : ℕ} (small : wordIdx * 64 < u32Max + 1) {fuel : ℕ} {unvisited : BitVec 64}
    (enough : (setBits unvisited).length ≤ fuel) (next : List ℕ) (edgesExamined : ℕ) :
    ∃ examined, scanWord reverse frontierBits wordIdx fuel unvisited next edgesExamined =
      .ok (next ++ ((setBits unvisited).map fun bit => wordIdx * 64 + bit).filter
        (hasParent reversed frontier), examined) := by
  induction fuel generalizing unvisited next edgesExamined with
  | zero =>
      by_cases zero : unvisited = 0#64
      · exact ⟨edgesExamined, by simp [scanWord, zero, setBits_zero]⟩
      · rw [setBits_of_ne_zero zero] at enough
        exact absurd enough (Nat.not_succ_le_zero _)
  | succ fuel ih =>
      by_cases zero : unvisited = 0#64
      · exact ⟨edgesExamined, by simp [scanWord, zero, setBits_zero]⟩
      · rw [setBits_of_ne_zero zero, List.length_cons] at enough
        have bound : unvisited.ctz.toNat < 64 := by
          have less := BitVec.ctz_lt_iff_ne_zero.mpr zero
          simpa [BitVec.lt_def] using less
        have index : wordIdx % (u32Max + 1) = wordIdx := Nat.mod_eq_of_lt (by omega)
        have first : wordIdx * 64 ≤ u32Max := by omega
        have number : wordIdx * 64 + unvisited.ctz.toNat ≤ u32Max := by
          simp only [u32Max] at small ⊢
          omega
        obtain ⟨read, searched⟩ : ∃ read, findParent frontierBits
            (reversed.targets (wordIdx * 64 + unvisited.ctz.toNat)) =
              .ok (hasParent reversed frontier (wordIdx * 64 + unvisited.ctz.toNat), read) :=
          findParent_eq represents fun p member => BaseLayer.target_lt member
        obtain ⟨examined, scanned⟩ := ih (Nat.le_of_succ_le_succ enough)
          (if hasParent reversed frontier (wordIdx * 64 + unvisited.ctz.toNat) then
            next ++ [wordIdx * 64 + unvisited.ctz.toNat] else next) (edgesExamined + read)
        refine ⟨examined, ?_⟩
        rw [scanWord, if_neg zero]
        simp only [index, Checked.mul_of_le first, Checked.add_of_le number, Checked.ok_bind,
          stores.baseNeighborSlice_eq, searched]
        rw [scanned, setBits_of_ne_zero zero, List.map_cons]
        by_cases found : hasParent reversed frontier (wordIdx * 64 + unvisited.ctz.toNat) = true
        · rw [if_pos found, List.filter_cons_of_pos found, List.append_assoc, List.singleton_append]
        · rw [if_neg found, List.filter_cons_of_neg found]

/-- The nodes of a run of words that are not marked, in ascending order. -/
def unvisitedFrom (size : ℕ) (seen : List ℕ) (wordIdx count : ℕ) : List ℕ :=
  (List.range' (wordIdx * 64) (count * 64)).filter fun u => decide (u < size ∧ u ∉ seen)

/-- **The words yield the unvisited nodes with a parent in the frontier.** -/
theorem CsrGraph.Stores.scanWords_eq (stores : reverse.Stores reversed)
    (represents : Bitset.Represents frontierBits reversed.rows.length fun n => n ∈ frontier)
    {visitedBits : List (BitVec 64)} {seen : List ℕ}
    (visited : Bitset.Represents visitedBits reversed.rows.length fun n => n ∈ seen)
    {words : List (BitVec 64)} {wordIdx : ℕ} (here : visitedBits.drop wordIdx = words)
    (next : List ℕ) (edgesExamined : ℕ) :
    ∃ examined, scanWords reverse frontierBits reversed.rows.length wordIdx words next edgesExamined =
      .ok (next ++ (unvisitedFrom reversed.rows.length seen wordIdx words.length).filter
        (hasParent reversed frontier), examined) := by
  induction words generalizing wordIdx next edgesExamined with
  | nil => exact ⟨edgesExamined, by simp [scanWords, unvisitedFrom]⟩
  | cons word words ih =>
      have index : visitedBits[wordIdx]? = some word := by
        rw [← List.head?_drop, here, List.head?_cons]
      have few := (List.getElem?_eq_some_iff.mp index).1
      rw [visited.length] at few
      have inside : wordIdx * 64 < reversed.rows.length := by omega
      have nodes := reversed.nodes_le
      obtain ⟨unvisited, computed, bits⟩ := unvisitedWord_eq inside word
      have chosen : (setBits unvisited).map (fun bit => wordIdx * 64 + bit) =
          unvisitedFrom reversed.rows.length seen wordIdx 1 := by
        rw [setBits, unvisitedFrom, Nat.one_mul, List.range'_eq_map_range, List.filter_map]
        congr 1
        refine List.filter_congr fun bit member => ?_
        have bound := List.mem_range.mp member
        rw [bits bit bound, Function.comp_apply, Bool.decide_and, Bool.and_comm]
        by_cases below : wordIdx * 64 + bit < reversed.rows.length
        · have stored := visited.bit _ below
          have word' : (wordIdx * 64 + bit) / 64 = wordIdx := by omega
          have offset : (wordIdx * 64 + bit) % 64 = bit := by omega
          rw [hasBit, word', offset, index, Option.getD_some] at stored
          rw [decide_eq_true below, Bool.true_and, Bool.true_and, Bool.eq_iff_iff,
            decide_eq_true_iff, ← stored, Bool.not_eq_true', Bool.not_eq_true]
        · rw [decide_eq_false below, Bool.false_and, Bool.false_and]
      have fuel : (setBits unvisited).length ≤ 64 :=
        (List.length_filter_le _ _).trans (List.length_range).le
      obtain ⟨middle, scanned⟩ :=
        stores.scanWord_eq represents (by omega : wordIdx * 64 < u32Max + 1) fuel next edgesExamined
      obtain ⟨examined, later⟩ := ih
        (show visitedBits.drop (wordIdx + 1) = words by
          rw [← List.drop_drop, here, List.drop_one, List.tail_cons]) (next ++
          (unvisitedFrom reversed.rows.length seen wordIdx 1).filter (hasParent reversed frontier))
        middle
      have run : unvisitedFrom reversed.rows.length seen wordIdx (words.length + 1) =
          unvisitedFrom reversed.rows.length seen wordIdx 1 ++
            unvisitedFrom reversed.rows.length seen (wordIdx + 1) words.length := by
        rw [unvisitedFrom, unvisitedFrom, unvisitedFrom, ← List.filter_append,
          Nat.add_mul wordIdx 1 64, List.range'_append_1, Nat.add_comm words.length,
          Nat.add_mul 1 words.length 64]
      refine ⟨examined, ?_⟩
      rw [scanWords, computed, Checked.ok_bind, scanned, chosen, Checked.ok_bind]
      simp only [later]
      rw [List.length_cons, run, List.filter_append, List.append_assoc]

end BottomUp

/-! ## One level -/

/-- The bits of a state at the start of a level: the nodes seen so far, and no
frontier. -/
structure DobfsState.Shows (state : DobfsState) (size : ℕ) (seen : List ℕ) : Prop where
  visited : Represents state.visitedBits size fun n => n ∈ seen
  frontier : Represents state.frontierBits size fun _ => False

/-- Two graphs whose base rows are the out-edges and the in-edges of the same
nodes. -/
structure Transposed (base reversed : BaseLayer) : Prop where
  nodes : reversed.rows.length = base.rows.length
  converse : ∀ source target, source ∈ reversed.targets target ↔ target ∈ base.targets source

/-- What an expansion returns: the new successors of the frontier, marked. -/
structure DobfsState.Expands (after before : DobfsState) (base : BaseLayer) (seen next : List ℕ) :
    Prop where
  shows : after.Shows base.rows.length (seen ++ next)
  nodup : next.Nodup
  exact : ∀ w, w ∈ next ↔ (∃ v ∈ before.frontier, w ∈ base.targets v) ∧ w ∉ seen
  recorded : after.visited = before.visited ∧ after.depths = before.depths ∧
    after.levels = before.levels ∧ after.depth = before.depth

namespace DobfsState.Shows

variable {state : DobfsState} {forward reverse : CsrGraph} {base reversed : BaseLayer}
  {seen : List ℕ}

/-- **Top-down expansion returns the new successors of the frontier.** -/
theorem expandTopDown_eq (shows : state.Shows base.rows.length seen)
    (stores : forward.Stores base) (backend : SimdBackend) :
    ∃ after next, state.expandTopDown forward backend = .ok (after, next) ∧
      after.Expands state base seen next := by
  obtain ⟨bits, examined, scanned, kept⟩ :=
    stores.topDown_eq backend shows.visited state.frontier [] state.edgesExamined
  refine ⟨{ state with visitedBits := bits, edgesExamined := examined },
    newNodes seen (state.frontier.flatMap base.targets), ?_,
    ⟨kept, shows.frontier⟩, newNodes_nodup _ _, fun w => ?_, rfl, rfl, rfl, rfl⟩
  · simp only [expandTopDown, scanned, Checked.ok_bind, Checked.pure_eq_ok, List.nil_append]
  · rw [mem_newNodes, List.mem_flatMap]

/-- **Bottom-up expansion returns the new successors of the frontier as well.** -/
theorem expandBottomUp_eq (shows : state.Shows base.rows.length seen)
    (stores : reverse.Stores reversed) (transposed : Transposed base reversed)
    (inside : ∀ v ∈ state.frontier, v < base.rows.length) :
    ∃ after next, state.expandBottomUp reverse base.rows.length = .ok (after, next) ∧
      after.Expands state base seen next := by
  obtain ⟨marked, marks, holds⟩ := foldlM_setBit_eq shows.frontier inside
  obtain ⟨examined, scanned⟩ := stores.scanWords_eq
    (show Represents marked reversed.rows.length fun n => n ∈ state.frontier from
      transposed.nodes ▸ holds.congr fun n _ => by simp)
    (transposed.nodes ▸ shows.visited)
    (show state.visitedBits.drop 0 = state.visitedBits from List.drop_zero) [] state.edgesExamined
  have exact : ∀ w, w ∈ (unvisitedFrom reversed.rows.length seen 0 state.visitedBits.length).filter
      (hasParent reversed state.frontier) ↔
        (∃ v ∈ state.frontier, w ∈ base.targets v) ∧ w ∉ seen := fun w => by
    rw [List.mem_filter, unvisitedFrom, List.mem_filter, decide_eq_true_iff, List.mem_range'_1,
      hasParent, List.any_eq_true]
    simp only [transposed.converse, decide_eq_true_iff]
    constructor
    · rintro ⟨⟨-, -, new⟩, v, step, inFrontier⟩
      exact ⟨⟨v, inFrontier, step⟩, new⟩
    · rintro ⟨⟨v, inFrontier, step⟩, new⟩
      have bound := BaseLayer.target_lt step
      have length := shows.visited.length
      exact ⟨⟨⟨by omega, by omega⟩, by rw [transposed.nodes]; exact bound, new⟩, v, step, inFrontier⟩
  have nextInside : ∀ w ∈ (unvisitedFrom reversed.rows.length seen 0
      state.visitedBits.length).filter (hasParent reversed state.frontier), w < base.rows.length :=
    fun w member => by
      obtain ⟨⟨v, -, step⟩, -⟩ := (exact w).mp member
      exact BaseLayer.target_lt step
  obtain ⟨visited, sets, kept⟩ := foldlM_setBit_eq shows.visited nextInside
  obtain ⟨cleared, clears, reset⟩ := foldlM_clearBit_eq holds inside
  refine ⟨{ state with
    visitedBits := visited, frontierBits := cleared, edgesExamined := examined }, _, ?_,
    ⟨?_, ?_⟩, ?_, exact, rfl, rfl, rfl, rfl⟩
  · simp only [expandBottomUp, marks, Checked.ok_bind, ← transposed.nodes, scanned, List.nil_append,
      sets, clears, Checked.pure_eq_ok]
  · exact kept.congr fun n _ => by rw [List.mem_append]
  · exact reset.congr fun n _ => by simp
  · exact ((List.nodup_range' 1).filter _).filter _

/-- **Either direction returns the new successors of the frontier.** -/
theorem expand_eq (shows : state.Shows base.rows.length seen) (stores : forward.Stores base)
    (storesReverse : reverse.Stores reversed) (transposed : Transposed base reversed)
    (inside : ∀ v ∈ state.frontier, v < base.rows.length) (backend : SimdBackend)
    (bottomUp : Bool) :
    ∃ after next, state.expand bottomUp forward reverse backend = .ok (after, next) ∧
      after.Expands state base seen next := by
  cases bottomUp with
  | false => exact shows.expandTopDown_eq stores backend
  | true =>
      rw [expand, if_pos rfl, stores.nodeCount]
      exact shows.expandBottomUp_eq storesReverse transposed inside

end DobfsState.Shows

end FusionGraph
