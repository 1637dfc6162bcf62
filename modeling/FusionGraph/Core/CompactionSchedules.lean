import FusionGraph.Core.StoreRun
import FusionGraph.Core.Transpose
import FusionGraph.Foundations.Runs

/-!
# When a store is compacted

One pair of nodes of a store is a small automaton: how often the base layer has
the edge, and which write the delta layer holds for it. An insertion replaces a
pending deletion instead of shadowing it, so the copies that the deletion hid
come back, unless a compaction has dropped them in between.

`PairState` is that automaton. Every move of a store is a step of it, for every
pair (`CsrGraph.StoreMove.pairState`), and its runs have a closed form
(`PairState.live_run`): what counts is the last write, and whether the store was
ever compacted while the last write was a deletion. Two stores with the same
writes and different compactions are compared by it
(`compaction_schedules_agree_iff`).
-/

set_option autoImplicit false

namespace FusionGraph

open Foundations

namespace StoreStep

/-- The write of a step on one edge: `true` for an insertion. -/
def onKey (key : EdgeKey) : StoreStep → Option Bool
  | insert source target _ => if (source, target) = key then some true else none
  | delete source target => if (source, target) = key then some false else none
  | compact => none

/-- Whether the step is a write. -/
def isWrite : StoreStep → Bool
  | compact => false
  | _ => true

end StoreStep

/-- The last write on an edge. -/
def lastWrite (key : EdgeKey) (steps : List StoreStep) : Option Bool :=
  (steps.filterMap (StoreStep.onKey key)).getLast?

/-- The writes among the steps. -/
def writes (steps : List StoreStep) : List StoreStep := steps.filter StoreStep.isWrite

/-- There is a compaction before which the last write on the edge is a deletion. -/
def CompactsWhileDeleted (key : EdgeKey) (steps : List StoreStep) : Prop :=
  ∃ before after, steps = before ++ .compact :: after ∧ lastWrite key before = some false

section Steps

variable {key : EdgeKey} {steps other : List StoreStep} {step : StoreStep}

theorem lastWrite_append_of_some {write : Bool} (own : step.onKey key = some write) :
    lastWrite key (steps ++ [step]) = some write := by
  rw [lastWrite, List.filterMap_append, List.filterMap_cons_some own, List.filterMap_nil,
    List.getLast?_concat]

theorem lastWrite_append_of_none (free : step.onKey key = none) :
    lastWrite key (steps ++ [step]) = lastWrite key steps := by
  rw [lastWrite, List.filterMap_append, List.filterMap_cons_none free, List.filterMap_nil,
    List.append_nil, lastWrite]

/-- The last write depends on the writes only. -/
theorem lastWrite_writes : lastWrite key (writes steps) = lastWrite key steps := by
  rw [lastWrite, writes, List.filterMap_filter, lastWrite]
  congr 2
  funext step
  cases step <;> rfl

theorem lastWrite_congr (same : writes steps = writes other) :
    lastWrite key steps = lastWrite key other := by
  rw [← lastWrite_writes, same, lastWrite_writes]

theorem compactsWhileDeleted_append :
    CompactsWhileDeleted key (steps ++ [step]) ↔
      CompactsWhileDeleted key steps ∨ step = .compact ∧ lastWrite key steps = some false := by
  constructor
  · rintro ⟨before, after, split, deleted⟩
    cases after using List.reverseRecOn with
    | nil =>
      obtain ⟨rfl, last⟩ := List.append_inj' split rfl
      exact .inr ⟨List.singleton_inj.mp last, deleted⟩
    | append_singleton after final =>
      rw [← List.cons_append, ← List.append_assoc] at split
      obtain ⟨rfl, -⟩ := List.append_inj' split rfl
      exact .inl ⟨before, after, rfl, deleted⟩
  · rintro (⟨before, after, rfl, deleted⟩ | ⟨rfl, deleted⟩)
    · exact ⟨before, after ++ [step], by simp, deleted⟩
    · exact ⟨steps, [], rfl, deleted⟩

theorem not_compactsWhileDeleted_nil : ¬ CompactsWhileDeleted key [] := by
  rintro ⟨before, after, split, -⟩
  simp at split

end Steps

/-! ## The automaton of a pair -/

/-- How often the base layer has an edge, and the write that the delta layer
holds for it. -/
structure PairState where
  copies : ℕ
  pending : Option Bool

namespace PairState

/-- How often the edge is a neighbor. -/
def live (state : PairState) : ℕ :=
  match state.pending with
  | none => state.copies
  | some false => 0
  | some true => max state.copies 1

/-- One step. -/
def next (key : EdgeKey) (state : PairState) (step : StoreStep) : PairState :=
  match step with
  | .compact => ⟨state.live, none⟩
  | write => ⟨state.copies, (write.onKey key).or state.pending⟩

/-- The state after a sequence of steps on a store that had the edge `count` times. -/
def run (key : EdgeKey) (count : ℕ) (steps : List StoreStep) : PairState :=
  steps.foldl (next key) ⟨count, none⟩

theorem live_le (state : PairState) : state.live ≤ max state.copies 1 := by
  rcases state with ⟨copies, _ | _ | _⟩
  · exact le_max_left copies 1
  · exact Nat.zero_le _
  · exact le_refl _

/-- What a run has done to a pair, in terms of its last write. -/
structure Explained (key : EdgeKey) (count : ℕ) (steps : List StoreStep) (state : PairState) :
    Prop where
  untouched : lastWrite key steps = none → state = ⟨count, none⟩
  deleted : lastWrite key steps = some false → state.live = 0
  inserted : lastWrite key steps = some true → state.live = max state.copies 1
  kept : ¬ CompactsWhileDeleted key steps → count ≠ 0 → state.copies = count
  buried : CompactsWhileDeleted key steps ∨ count = 0 → state.copies ≤ 1

variable {key : EdgeKey} {count : ℕ} {steps : List StoreStep} {state : PairState}

theorem Explained.start (key : EdgeKey) (count : ℕ) : Explained key count [] ⟨count, none⟩ where
  untouched _ := rfl
  deleted impossible := by cases impossible
  inserted impossible := by cases impossible
  kept _ _ := rfl
  buried small := by
    rcases small with impossible | zero
    · exact absurd impossible not_compactsWhileDeleted_nil
    · rw [zero]
      exact Nat.zero_le 1

theorem next_of_isWrite {step : StoreStep} (write : step.isWrite = true) :
    state.next key step = ⟨state.copies, (step.onKey key).or state.pending⟩ := by
  cases step with
  | insert source target data => rfl
  | delete source target => rfl
  | compact => cases write

/-- A write keeps the explanation. -/
theorem Explained.write (explained : Explained key count steps state) {step : StoreStep}
    (write : step.isWrite = true) :
    Explained key count (steps ++ [step]) (state.next key step) := by
  have noCompaction : step ≠ .compact := by
    rintro rfl
    cases write
  have same : CompactsWhileDeleted key (steps ++ [step]) ↔ CompactsWhileDeleted key steps := by
    rw [compactsWhileDeleted_append]
    exact or_iff_left fun compaction => noCompaction compaction.1
  rw [next_of_isWrite write]
  cases own : step.onKey key with
  | none =>
    have final : lastWrite key (steps ++ [step]) = lastWrite key steps :=
      lastWrite_append_of_none own
    constructor
    · rw [final]
      exact explained.untouched
    · rw [final]
      exact explained.deleted
    · rw [final]
      exact explained.inserted
    · rw [same]
      exact explained.kept
    · rw [same]
      exact explained.buried
  | some inserted =>
    have final : lastWrite key (steps ++ [step]) = some inserted := lastWrite_append_of_some own
    constructor
    · intro impossible
      rw [final] at impossible
      cases impossible
    · intro deleted
      rw [final] at deleted
      obtain rfl := Option.some.inj deleted
      rfl
    · intro insertion
      rw [final] at insertion
      obtain rfl := Option.some.inj insertion
      rfl
    · rw [same]
      exact explained.kept
    · rw [same]
      exact explained.buried

/-- A compaction keeps the explanation. -/
theorem Explained.compact (explained : Explained key count steps state) :
    Explained key count (steps ++ [.compact]) (state.next key .compact) := by
  have final : lastWrite key (steps ++ [.compact]) = lastWrite key steps :=
    lastWrite_append_of_none rfl
  constructor
  · intro untouched
    rw [final] at untouched
    rw [explained.untouched untouched]
    rfl
  · intro deleted
    rw [final] at deleted
    exact explained.deleted deleted
  · intro inserted
    rw [final] at inserted
    show state.live = max state.live 1
    rw [explained.inserted inserted, max_assoc, max_self]
  · intro visible present
    rw [compactsWhileDeleted_append, not_or] at visible
    have copies := explained.kept visible.1 present
    show state.live = count
    cases last : lastWrite key steps with
    | none => rw [explained.untouched last]; rfl
    | some inserted =>
      cases inserted with
      | false => exact absurd ⟨rfl, last⟩ visible.2
      | true =>
        rw [explained.inserted last, copies]
        exact max_eq_left (Nat.one_le_iff_ne_zero.mpr present)
  · intro hidden
    show state.live ≤ 1
    rw [compactsWhileDeleted_append, or_assoc] at hidden
    rcases hidden with before | ⟨-, deleted⟩ | absent
    · exact state.live_le.trans (max_le (explained.buried (.inl before)) (Nat.le_refl 1))
    · rw [explained.deleted deleted]
      exact Nat.zero_le 1
    · exact state.live_le.trans (max_le (explained.buried (.inr absent)) (Nat.le_refl 1))

/-- Every run is explained by its last write and its compactions. -/
theorem explained_run (key : EdgeKey) (count : ℕ) (steps : List StoreStep) :
    Explained key count steps (run key count steps) := by
  induction steps using List.reverseRecOn with
  | nil => exact .start key count
  | append_singleton steps step ih =>
    have last : run key count (steps ++ [step]) = (run key count steps).next key step := by
      rw [run, List.foldl_append, List.foldl_cons, List.foldl_nil, run]
    rw [last]
    cases step with
    | insert source target data => exact ih.write rfl
    | delete source target => exact ih.write rfl
    | compact => exact ih.compact

/-- **How often an edge is a neighbor after a run.** -/
theorem live_run (key : EdgeKey) (count : ℕ) (steps : List StoreStep) :
    (lastWrite key steps = none → (run key count steps).live = count) ∧
      (lastWrite key steps = some false → (run key count steps).live = 0) ∧
      (lastWrite key steps = some true →
        (CompactsWhileDeleted key steps ∨ count = 0 → (run key count steps).live = 1) ∧
        (¬ CompactsWhileDeleted key steps → count ≠ 0 → (run key count steps).live = count)) := by
  have explained := explained_run key count steps
  refine ⟨?_, explained.deleted, ?_⟩
  · intro untouched
    rw [explained.untouched untouched]
    rfl
  · intro inserted
    rw [explained.inserted inserted]
    constructor
    · intro hidden
      exact max_eq_right (explained.buried hidden)
    · intro visible present
      rw [explained.kept visible present]
      exact max_eq_left (Nat.one_le_iff_ne_zero.mpr present)

/-- **Two runs with the same last write end with the edge equally often exactly
when a pending insertion found the same copies.** -/
theorem live_run_eq_iff {other : List StoreStep}
    (same : lastWrite key steps = lastWrite key other) :
    (run key count steps).live = (run key count other).live ↔
      (2 ≤ count → lastWrite key steps = some true →
        (CompactsWhileDeleted key steps ↔ CompactsWhileDeleted key other)) := by
  obtain ⟨untouched, deleted, inserted⟩ := live_run key count steps
  obtain ⟨untouched', deleted', inserted'⟩ := live_run key count other
  rw [← same] at untouched' deleted' inserted'
  cases last : lastWrite key steps with
  | none =>
    rw [untouched last, untouched' last]
    simp
  | some write =>
    cases write with
    | false =>
      rw [deleted last, deleted' last]
      simp
    | true =>
      obtain ⟨hidden, visible⟩ := inserted last
      obtain ⟨hidden', visible'⟩ := inserted' last
      by_cases absent : count = 0
      · rw [hidden (.inr absent), hidden' (.inr absent)]
        simp [absent]
      · by_cases first : CompactsWhileDeleted key steps <;>
          by_cases second : CompactsWhileDeleted key other
        · rw [hidden (.inl first), hidden' (.inl second)]
          simp [first, second]
        · rw [hidden (.inl first), visible' second absent]
          constructor
          · intro one many
            omega
          · intro agree
            by_contra different
            exact second ((agree (by omega) rfl).mp first)
        · rw [visible first absent, hidden' (.inl second)]
          constructor
          · intro one many
            omega
          · intro agree
            by_contra different
            exact first ((agree (by omega) rfl).mpr second)
        · rw [visible first absent, visible' second absent]
          simp [first, second]

end PairState

/-! ## A store is such an automaton for every pair -/

/-- The write that a delta layer holds for an edge. -/
def DeltaLayer.pending (self : DeltaLayer) (key : EdgeKey) : Option Bool :=
  if key ∈ self.insertions then some true else if key ∈ self.deletions then some false else none

/-- The state of a pair in a base layer under a delta layer. -/
def BaseLayer.pairState (base : BaseLayer) (delta : DeltaLayer) (key : EdgeKey) : PairState where
  copies := (base.targets key.1).count key.2
  pending := delta.pending key

/-- A target without tombstone stays as often as it is a base target. -/
theorem BaseLayer.count_liveTargets (base : BaseLayer) {delta : DeltaLayer} {source target : ℕ}
    (kept : (source, target) ∉ delta.deletions) :
    (base.liveTargets delta source).count target = (base.targets source).count target := by
  have passes : (fun target => !delta.isDeleted source target) target = true := by
    simp [DeltaLayer.isDeleted, kept]
  rw [liveTargets]
  exact List.count_filter passes

/-- A target occurs among the merged neighbors as often as its pair is live. -/
theorem BaseLayer.count_merged (base : BaseLayer) {delta : DeltaLayer} (disjoint : delta.Disjoint)
    (source target : ℕ) :
    (base.merged delta source).count target = (base.pairState delta (source, target)).live := by
  rw [merged, List.count_append, pairState, DeltaLayer.pending]
  by_cases inserted : (source, target) ∈ delta.insertions
  · have kept := disjoint (source, target) inserted
    have present := (delta.mem_neighbors source target).mpr inserted
    rw [if_pos inserted, base.count_liveTargets kept]
    by_cases known : target ∈ base.targets source
    · have again : target ∉ (delta.neighbors source).filter fun target =>
          decide (target ∉ base.liveTargets delta source) := by
        simp [known, kept]
      rw [List.count_eq_zero_of_not_mem again]
      exact (max_eq_left (List.count_pos_iff.mpr known)).symm
    · have fresh : target ∉ base.liveTargets delta source := by simp [known]
      have once : ((delta.neighbors source).filter fun target =>
          decide (target ∉ base.liveTargets delta source)).count target = 1 :=
        List.count_eq_one_of_mem ((delta.neighbors_nodup source).filter _)
          (List.mem_filter.mpr ⟨present, decide_eq_true fresh⟩)
      rw [once]
      simp only [PairState.live, List.count_eq_zero_of_not_mem known]
      rfl
  · have absent : target ∉ (delta.neighbors source).filter fun target =>
        decide (target ∉ base.liveTargets delta source) := by
      intro member
      exact inserted ((delta.mem_neighbors source target).mp (List.mem_filter.mp member).1)
    rw [List.count_eq_zero_of_not_mem absent, Nat.add_zero, if_neg inserted]
    by_cases deleted : (source, target) ∈ delta.deletions
    · rw [if_pos deleted]
      exact List.count_eq_zero_of_not_mem fun member => (mem_liveTargets.mp member).2 deleted
    · rw [if_neg deleted, base.count_liveTargets deleted]
      rfl

namespace CsrGraph

/-- A step of a store whose outcome replaces the graph. The hash maps may be found
in any order afterwards. -/
def StoreMove (graph : CsrGraph) (step : StoreStep) (next : CsrGraph) : Prop :=
  ∃ result order, step.run graph = .ok result ∧ result.delta.SameEntries order ∧
    next = result.withDelta order

/-- The layers of a graph are in the given state at every pair. -/
def PairStates (graph : CsrGraph) (states : EdgeKey → PairState) : Prop :=
  ∃ base, graph.Stores base ∧ graph.delta.Disjoint ∧
    ∀ key, base.pairState graph.delta key = states key

variable {graph next : CsrGraph} {states : EdgeKey → PairState}

/-- A write on the delta layer is a step of every pair. -/
theorem pending_apply (delta : DeltaLayer) (key : EdgeKey) (source target : ℕ) (data : EdgeData) :
    (delta.insert source target data).pending key =
        (StoreStep.onKey key (.insert source target data)).or (delta.pending key) ∧
      (delta.delete source target).pending key =
        (StoreStep.onKey key (.delete source target)).or (delta.pending key) := by
  by_cases own : (source, target) = key
  · simp [DeltaLayer.pending, StoreStep.onKey, own]
  · have other : key ≠ (source, target) := Ne.symm own
    simp [DeltaLayer.pending, StoreStep.onKey, own, other]

/-- The iteration order does not matter. -/
theorem PairStates.reorder (pairs : graph.PairStates states) {order : DeltaLayer}
    (same : graph.delta.SameEntries order) : (graph.withDelta order).PairStates states := by
  obtain ⟨base, stores, disjoint, each⟩ := pairs
  refine ⟨base, stores.withDelta order, same.disjoint disjoint, ?_⟩
  intro key
  rw [← each key]
  have pending : order.pending key = graph.delta.pending key :=
    if_congr (AList.mem_of_perm same.insertions).symm rfl
      (if_congr (AList.mem_of_perm same.deletions).symm rfl rfl)
  exact congrArg (PairState.mk _) pending

/-- **Every move of a store is a step of every pair.** -/
theorem PairStates.step (pairs : graph.PairStates states) {step : StoreStep}
    (moved : graph.StoreMove step next) :
    next.PairStates fun key => (states key).next key step := by
  obtain ⟨result, order, outcome, same, rfl⟩ := moved
  refine PairStates.reorder ?_ same
  obtain ⟨base, stores, disjoint, each⟩ := pairs
  cases step with
  | insert source target data =>
    obtain rfl := Except.ok.inj outcome
    refine ⟨base, stores.withDelta _, disjoint.apply (.insert source target data), ?_⟩
    intro key
    show _ = (states key).next key (.insert source target data)
    rw [← each key, PairState.next_of_isWrite rfl]
    exact congrArg (PairState.mk _) (pending_apply graph.delta key source target data).1
  | delete source target =>
    obtain rfl := Except.ok.inj outcome
    refine ⟨base, stores.withDelta _, disjoint.apply (.delete source target), ?_⟩
    intro key
    show _ = (states key).next key (.delete source target)
    rw [← each key, PairState.next_of_isWrite rfl]
    exact congrArg (PairState.mk _) (pending_apply graph.delta key source target .default).2
  | compact =>
    obtain ⟨clean, layer, merged, records⟩ := stores.compact_records outcome
    refine ⟨layer, merged, clean ▸ .new, ?_⟩
    intro key
    have copies : (layer.targets key.1).count key.2 = (states key).live := by
      rw [records.targets_merge, mergedSlice_eq_merged disjoint, base.count_merged disjoint, ← each]
    have nothing : result.delta.pending key = none := by
      rw [clean, DeltaLayer.pending, if_neg (DeltaLayer.notMem_insertions_new key),
        if_neg (DeltaLayer.notMem_deletions_new key)]
    rw [BaseLayer.pairState, copies, nothing]
    rfl

/-- A run of a store is a run of every pair. -/
theorem PairStates.of_run {edges : List (ℕ × ℕ)} {start : CsrGraph} {steps : List StoreStep}
    (built : fromEdges edges = .ok start) (run : Run StoreMove start steps graph) :
    graph.PairStates fun key => PairState.run key (edges.count key) steps := by
  refine run.invariant
    (fun steps graph => graph.PairStates fun key => PairState.run key (edges.count key) steps) ?_ ?_
  · obtain ⟨clean, base, stores, records⟩ :=
      (CsrBuilder.Holds.withEdges edges).records_of_build (defaultShardSize_roomy rfl) built
    refine ⟨base, stores, clean ▸ .new, ?_⟩
    intro key
    have copies : (base.targets key.1).count key.2 = edges.count key := by
      rw [BaseLayer.targets, records.row, count_entriesFrom, List.countP_map,
        List.count_eq_countP]
      refine List.countP_congr fun edge _ => ?_
      simp [Prod.ext_iff]
    rw [BaseLayer.pairState, copies, clean]
    rfl
  · intro steps before step next _ pairs moved
    have after := pairs.step moved
    simp only [PairState.run, List.foldl_append, List.foldl_cons, List.foldl_nil] at after ⊢
    exact after

/-- What the readers see of a pair. -/
theorem PairStates.count_neighbors (pairs : graph.PairStates states) (source : ℕ) :
    ∃ neighbors, graph.neighbors source = .ok neighbors ∧
      ∀ target, neighbors.count target = (states (source, target)).live := by
  obtain ⟨base, stores, disjoint, each⟩ := pairs
  refine ⟨_, stores.neighbors_eq source, ?_⟩
  intro target
  rw [base.count_merged disjoint, each]

/-- A step whose outcome is found in the order of the model. -/
theorem StoreMove.of_run {step : StoreStep} (outcome : step.run graph = .ok next) :
    graph.StoreMove step next :=
  ⟨next, next.delta, outcome, ⟨List.Perm.refl _, List.Perm.refl _⟩, rfl⟩

end CsrGraph

open CsrGraph in
/-- **Two stores with the same writes have the same neighbors, and the same
out-degrees, exactly when they agree, for every pair that occurs twice among the
initial edges and was inserted last, on whether a compaction found it deleted.** -/
theorem compaction_schedules_agree_iff {edges : List (ℕ × ℕ)} {start first second : CsrGraph}
    (built : fromEdges edges = .ok start) {steps other : List StoreStep}
    (run : Run StoreMove start steps first) (otherRun : Run StoreMove start other second)
    (same : writes steps = writes other) :
    (∀ source, (∃ neighbors otherNeighbors, first.neighbors source = .ok neighbors ∧
        second.neighbors source = .ok otherNeighbors ∧ neighbors.Perm otherNeighbors) ∧
      first.outDegree source = second.outDegree source) ↔
      ∀ key, 2 ≤ edges.count key → lastWrite key steps = some true →
        (CompactsWhileDeleted key steps ↔ CompactsWhileDeleted key other) := by
  have pairs := PairStates.of_run built run
  have otherPairs := PairStates.of_run built otherRun
  constructor
  · intro agree key
    obtain ⟨⟨neighbors, otherNeighbors, listed, otherListed, perm⟩, -⟩ := agree key.1
    obtain ⟨found, returned, counts⟩ := pairs.count_neighbors key.1
    obtain ⟨otherFound, otherReturned, otherCounts⟩ := otherPairs.count_neighbors key.1
    obtain rfl := Except.ok.inj (listed.symm.trans returned)
    obtain rfl := Except.ok.inj (otherListed.symm.trans otherReturned)
    refine (PairState.live_run_eq_iff (lastWrite_congr same)).mp ?_
    have equal := perm.count_eq key.2
    rwa [counts, otherCounts] at equal
  · intro agree source
    obtain ⟨neighbors, listed, counts⟩ := pairs.count_neighbors source
    obtain ⟨otherNeighbors, otherListed, otherCounts⟩ := otherPairs.count_neighbors source
    have perm : neighbors.Perm otherNeighbors := by
      rw [List.perm_iff_count]
      intro target
      rw [counts, otherCounts]
      exact (PairState.live_run_eq_iff (lastWrite_congr same)).mpr (agree (source, target))
    refine ⟨⟨neighbors, otherNeighbors, listed, otherListed, perm⟩, ?_⟩
    simp only [outDegree, listed, otherListed, Checked.ok_bind, perm.length_eq]

open CsrGraph in
theorem compaction_schedules_agree_iff_witness : ∃ start first second : CsrGraph,
    fromEdges [(0, 1)] = .ok start ∧
      Run StoreMove start [.delete 0 1, .insert 0 1 .default] first ∧
      Run StoreMove start [.delete 0 1, .compact, .insert 0 1 .default] second ∧
      ∃ neighbors otherNeighbors, first.neighbors 0 = .ok neighbors ∧
        second.neighbors 0 = .ok otherNeighbors ∧ neighbors.Perm otherNeighbors := by
  obtain ⟨start, built, passed⟩ := Checked.exists_of_passes
    (show (fromEdges [(0, 1)]).passes (fun start =>
      (start.mutate (.delete 0 1)).compact.2.passes fun _ => true) = true by decide +kernel)
  obtain ⟨compacted, outcome, -⟩ := Checked.exists_of_passes passed
  have deleted : start.StoreMove (.delete 0 1) (start.mutate (.delete 0 1)) := .of_run rfl
  have merged : (start.mutate (.delete 0 1)).StoreMove .compact compacted := .of_run outcome
  have run : Run StoreMove start ([] ++ [.delete 0 1] ++ [.insert 0 1 .default]) _ :=
    (Run.start.step deleted).step (.of_run rfl)
  have otherRun : Run StoreMove start
      ([] ++ [.delete 0 1] ++ [.compact] ++ [.insert 0 1 .default]) _ :=
    ((Run.start.step deleted).step merged).step (.of_run rfl)
  have agree := (compaction_schedules_agree_iff built run otherRun rfl).mpr (by
    intro key twice
    have once : List.count key [(0, 1)] ≤ 1 := List.count_le_length
    omega)
  exact ⟨start, _, _, built, run, otherRun, (agree 0).1⟩

open CsrGraph in
/-- With the edge `(0, 1)` twice among the initial edges, a deletion and an insertion
of it bring both copies back, unless the store is compacted in between. -/
theorem compaction_schedule_observed : ∃ start first second : CsrGraph,
    fromEdges [(0, 1), (0, 1)] = .ok start ∧
      Run StoreMove start [.delete 0 1, .insert 0 1 .default] first ∧
      Run StoreMove start [.delete 0 1, .compact, .insert 0 1 .default] second ∧
      writes [.delete 0 1, .insert 0 1 .default] =
        writes [.delete 0 1, .compact, .insert 0 1 .default] ∧
      first.neighbors 0 = .ok [1, 1] ∧ second.neighbors 0 = .ok [1] ∧
      first.outDegree 0 ≠ second.outDegree 0 := by
  obtain ⟨start, built, passed⟩ := Checked.exists_of_passes
    (show (fromEdges [(0, 1), (0, 1)]).passes (fun start =>
      decide (((start.mutate (.delete 0 1)).mutate (.insert 0 1 .default)).neighbors 0 =
        .ok [1, 1]) &&
      (start.mutate (.delete 0 1)).compact.2.passes fun compacted =>
        decide ((compacted.mutate (.insert 0 1 .default)).neighbors 0 = .ok [1])) = true by
      decide +kernel)
  obtain ⟨both, passed⟩ := Bool.and_eq_true_iff.mp passed
  obtain ⟨compacted, outcome, one⟩ := Checked.exists_of_passes passed
  have deleted : start.StoreMove (.delete 0 1) (start.mutate (.delete 0 1)) := .of_run rfl
  have merged : (start.mutate (.delete 0 1)).StoreMove .compact compacted := .of_run outcome
  have run : Run StoreMove start ([] ++ [.delete 0 1] ++ [.insert 0 1 .default]) _ :=
    (Run.start.step deleted).step (.of_run rfl)
  have otherRun : Run StoreMove start
      ([] ++ [.delete 0 1] ++ [.compact] ++ [.insert 0 1 .default]) _ :=
    ((Run.start.step deleted).step merged).step (.of_run rfl)
  have listed := of_decide_eq_true both
  have otherListed := of_decide_eq_true one
  refine ⟨start, _, _, built, run, otherRun, rfl, listed, otherListed, ?_⟩
  simp [outDegree, listed, otherListed]

end FusionGraph
