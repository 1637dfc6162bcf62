import FusionGraph.Core.Transpose
import FusionGraph.Traversal.DobfsSpec

/-!
# Direction-optimizing search agrees with breadth-first search

The level loop keeps the level invariant of `LevelSearch`, because both
expansions return the next frontier. So its result is a breadth-first result, and
two breadth-first results of the same search have the same levels as sets, the
same depths and the same number of levels.
-/

set_option autoImplicit false

namespace FusionGraph

open Foundations Foundations.Bitset Foundations.BreadthFirst Foundations.StableBuckets

/-! ## The level loop -/

/-- What the loop has recorded of the completed levels. -/
structure DobfsState.Recorded (state : DobfsState) (done : List (ℕ × ℕ)) : Prop where
  visited : state.visited = done.map Prod.fst
  depths : state.depths = done.map Prod.snd
  levels : state.levels = (List.range state.depth).map (levelAt done)

variable {forward reverse : CsrGraph} {base reversed : BaseLayer} {start : ℕ → Prop}
  {depth maxDepth : ℕ} {done : List (ℕ × ℕ)} {frontier : List ℕ}

theorem levelAt_recordLevel
    (invariant : LevelInvariant forward.Edge start depth done frontier) (k : ℕ) :
    levelAt (BreadthFirst.recordLevel done frontier depth) k =
      if k = depth then frontier else levelAt done k := by
  have frontierLevel : levelAt (frontier.map fun v => (v, depth)) k =
      if k = depth then frontier else [] := by
    by_cases same : k = depth
    · subst same
      rw [levelAt, if_pos rfl, bucket, List.filter_eq_self.mpr (by simp), List.map_map]
      exact List.map_id _
    · rw [if_neg same]
      refine levelAt_eq_nil fun entry member => ?_
      obtain ⟨v, -, rfl⟩ := List.mem_map.mp member
      exact Ne.symm same
  have split : levelAt (BreadthFirst.recordLevel done frontier depth) k =
      levelAt done k ++ levelAt (frontier.map fun v => (v, depth)) k := by
    rw [BreadthFirst.recordLevel, levelAt, bucket_append, List.map_append]
    rfl
  rw [split, frontierLevel]
  by_cases same : k = depth
  · have none : levelAt done k = [] := levelAt_eq_nil fun entry member equal => by
      have small := ((invariant.mem_done entry.1 entry.2).mp member).1
      omega
    rw [if_pos same, if_pos same, none, List.nil_append]
  · rw [if_neg same, if_neg same, List.append_nil]

/-- Recording a level extends the log by the frontier. -/
theorem DobfsState.Recorded.recordLevel {state : DobfsState} (recorded : state.Recorded done)
    (invariant : LevelInvariant forward.Edge start state.depth done state.frontier) :
    state.recordLevel.visited =
        (BreadthFirst.recordLevel done state.frontier state.depth).map Prod.fst ∧
      state.recordLevel.depths =
        (BreadthFirst.recordLevel done state.frontier state.depth).map Prod.snd ∧
      state.recordLevel.levels = (List.range (state.depth + 1)).map
        (levelAt (BreadthFirst.recordLevel done state.frontier state.depth)) := by
  refine ⟨?_, ?_, ?_⟩
  · simp [DobfsState.recordLevel, BreadthFirst.recordLevel, recorded.visited, Function.comp_def]
  · simp [DobfsState.recordLevel, BreadthFirst.recordLevel, recorded.depths, Function.comp_def]
  · have earlier : (List.range state.depth).map (levelAt done) = (List.range state.depth).map
        (levelAt (BreadthFirst.recordLevel done state.frontier state.depth)) :=
      List.map_congr_left fun k member => by
        have small := List.mem_range.mp member
        rw [levelAt_recordLevel invariant, if_neg small.ne]
    rw [List.range_succ, List.map_append, List.map_singleton, levelAt_recordLevel invariant,
      if_pos rfl, ← earlier, ← recorded.levels]
    rfl

/-- The result after the last level lists the whole log. -/
theorem DobfsState.Recorded.lists {state : DobfsState} (recorded : state.Recorded done)
    (invariant : LevelInvariant forward.Edge start state.depth done state.frontier)
    (nonempty : state.frontier ≠ []) (final : BfsResult)
    (visited : final.visited = state.recordLevel.visited)
    (depths : final.depths = state.recordLevel.depths)
    (levels : final.levels = state.recordLevel.levels)
    (reached : final.maxDepthReached = state.depth) :
    final.Lists (BreadthFirst.recordLevel done state.frontier state.depth) := by
  obtain ⟨allVisited, allDepths, allLevels⟩ := recorded.recordLevel invariant
  have some : BreadthFirst.recordLevel done state.frontier state.depth ≠ [] := by
    simp [BreadthFirst.recordLevel, nonempty]
  have last := (invariant.finish (Nat.le_refl state.depth) nonempty (.inl (Nat.le_refl _))).last
  exact ⟨visited.trans allVisited, depths.trans allDepths, reached.trans last.symm, by
    rw [if_neg some, levels, allLevels, reached]⟩

/-- What is recorded when the loop moves on to the next frontier. -/
theorem DobfsState.Recorded.next {state after : DobfsState} {seen next : List ℕ}
    (recorded : state.Recorded done)
    (invariant : LevelInvariant forward.Edge start state.depth done state.frontier)
    (expands : after.Expands state.recordLevel base seen next) :
    ({ after with frontier := next, depth := after.depth + 1 } : DobfsState).Recorded
      (BreadthFirst.recordLevel done state.frontier state.depth) := by
  obtain ⟨allVisited, allDepths, allLevels⟩ := recorded.recordLevel invariant
  obtain ⟨sameVisited, sameDepths, sameLevels, sameDepth⟩ := expands.recorded
  refine ⟨sameVisited.trans allVisited, sameDepths.trans allDepths, ?_⟩
  rw [sameDepth]
  exact sameLevels.trans allLevels

/-- One round of the level loop below the bound on the depth: it ends with an empty next
frontier or goes on with the next one. -/
theorem CsrGraph.Stores.dobfsLoop_succ (choose : Heuristic) (stores : forward.Stores base)
    (storesReverse : reverse.Stores reversed) (transposed : Transposed base reversed)
    (backend : SimdBackend) (fuel : ℕ) {state : DobfsState} {seen : List ℕ}
    (shows : state.Shows base.rows.length seen)
    (inside : ∀ v ∈ state.frontier, v < base.rows.length) (shallow : ¬ maxDepth ≤ state.depth) :
    ∃ (after : DobfsState) (next : List ℕ), after.Expands state.recordLevel base seen next ∧
      dobfsLoop choose forward reverse backend maxDepth (fuel + 1) state =
        if next.isEmpty then .ok after.result
        else dobfsLoop choose forward reverse backend maxDepth fuel
          { after with frontier := next, depth := after.depth + 1 } := by
  have shallow : ¬ maxDepth ≤ state.recordLevel.depth := shallow
  have degrees : state.recordLevel.frontier.mapM (degree forward) =
      .ok (state.recordLevel.frontier.map fun n => (base.targets n).length) :=
    Checked.mapM_eq_ok fun n _ => by
      rw [degree, stores.baseNeighborSlice_eq, Checked.ok_bind, Checked.pure_eq_ok]
  generalize (state.recordLevel.frontier.map fun n => (base.targets n).length) = counts at degrees
  have showsCounted : (state.recordLevel.account counts.sum).Shows base.rows.length seen :=
    ⟨shows.visited, shows.frontier⟩
  obtain ⟨after, next, expanded, expands⟩ := showsCounted.expand_eq stores storesReverse
    transposed inside backend (choose counts.sum
      (forward.edgeCount - (state.recordLevel.account counts.sum).visitedOutEdges)
      (state.recordLevel.account counts.sum).frontier.length forward.nodeCount)
  refine ⟨after, next, ⟨expands.shows, expands.nodup, expands.exact, expands.recorded⟩, ?_⟩
  rw [dobfsLoop, if_neg shallow, degrees, Checked.ok_bind]
  dsimp only
  rw [expanded, Checked.ok_bind, Checked.pure_eq_ok]

/-- **The level loop returns the log of a search in the order of discovery,
whatever directions it takes.** -/
theorem CsrGraph.Stores.dobfsLoop_eq (choose : Heuristic) (stores : forward.Stores base)
    (clean : forward.delta = DeltaLayer.new) (storesReverse : reverse.Stores reversed)
    (transposed : Transposed base reversed) (backend : SimdBackend) (fuel : ℕ)
    {state : DobfsState} (recorded : state.Recorded done)
    (invariant : LevelInvariant forward.Edge start state.depth done state.frontier)
    (shows : state.Shows base.rows.length
      ((BreadthFirst.recordLevel done state.frontier state.depth).map Prod.fst))
    (inside : ∀ v ∈ (BreadthFirst.recordLevel done state.frontier state.depth).map Prod.fst,
      v < base.rows.length)
    (nonempty : state.frontier ≠ []) (within : state.depth ≤ maxDepth)
    (enough : base.rows.length ≤ fuel + done.length) :
    ∃ result log last, dobfsLoop choose forward reverse backend maxDepth fuel state = .ok result ∧
      result.Lists log ∧ FifoInvariant forward.Edge start maxDepth last log [] := by
  have edges : ∀ v w, forward.Edge v w ↔ w ∈ base.targets v := fun v w => by
    rw [stores.edge_iff, clean, BaseLayer.merged_new]
  have some := List.length_pos_iff.mpr nonempty
  induction fuel generalizing state done with
  | zero =>
      have whole := (List.subperm_of_subset invariant.recordLevel_nodup fun v member =>
        List.mem_range.mpr (inside v member)).length_le
      rw [map_fst_recordLevel, List.length_append, List.length_map, List.length_range] at whole
      omega
  | succ fuel ih =>
      by_cases reached : maxDepth ≤ state.depth
      · refine ⟨_, _, state.depth, ?_, recorded.lists invariant nonempty
          state.recordLevel.result rfl rfl rfl rfl,
          invariant.finish within nonempty (.inl reached)⟩
        have deep : maxDepth ≤ state.recordLevel.depth := reached
        rw [dobfsLoop, if_pos deep]
        rfl
      · have frontierInside : ∀ v ∈ state.frontier, v < base.rows.length := fun v member =>
          inside v (BreadthFirst.map_fst_recordLevel done _ _ ▸ List.mem_append_right _ member)
        obtain ⟨after, next, expands, unfolded⟩ := stores.dobfsLoop_succ choose storesReverse
          transposed backend fuel shows frontierInside reached
        have exact : ∀ w, w ∈ next ↔ (∃ v ∈ state.frontier, forward.Edge v w) ∧
            w ∉ (BreadthFirst.recordLevel done state.frontier state.depth).map Prod.fst := fun w => by
          rw [expands.exact]
          simp only [edges]
          rfl
        have stepped := invariant.step expands.nodup exact
        obtain ⟨sameVisited, sameDepths, sameLevels, sameDepth⟩ := expands.recorded
        by_cases empty : next = []
        · subst empty
          refine ⟨after.result, _, state.depth, by rw [unfolded]; rfl,
            recorded.lists invariant nonempty after.result sameVisited sameDepths sameLevels sameDepth,
            invariant.finish within nonempty (.inr fun w distance => ?_)⟩
          exact List.not_mem_nil ((stepped.mem_frontier w).mpr distance)
        · have depthSucc : after.depth + 1 = state.depth + 1 := congrArg (· + 1) sameDepth
          obtain ⟨result, log, last, ran, lists⟩ := ih (recorded.next invariant expands)
            (by rw [depthSucc]; exact stepped)
            (by
              rw [map_fst_recordLevel]
              exact ⟨expands.shows.visited, expands.shows.frontier⟩)
            (fun v member => by
              rw [map_fst_recordLevel] at member
              rcases List.mem_append.mp member with old | new
              · exact inside v old
              · obtain ⟨⟨u, -, step⟩, -⟩ := (expands.exact v).mp new
                exact BaseLayer.target_lt step)
            empty
            (by simp only [depthSucc]; omega)
            (by
              rw [BreadthFirst.recordLevel, List.length_append, List.length_map]
              omega)
            (List.length_pos_iff.mpr empty)
          refine ⟨result, log, last, ?_, lists⟩
          rw [unfolded, if_neg (by simpa using empty), ran]

/-! ## The search -/

/-- **On a graph without mutations and its transpose, the search returns the log
of a breadth-first search.** -/
theorem CsrGraph.Stores.bfsDirectionOptimizedBy_eq (choose : Heuristic) (target : Target)
    (stores : forward.Stores base) (clean : forward.delta = DeltaLayer.new)
    (storesReverse : reverse.Stores reversed) (cleanReverse : reverse.delta = DeltaLayer.new)
    (transposed : Transposed base reversed) (sameEdges : forward.edgeCount = reverse.edgeCount)
    (start maxDepth : ℕ) :
    ∃ result log last,
      bfsDirectionOptimizedBy choose target forward reverse start maxDepth = .ok result ∧
      result.Lists log ∧
      FifoInvariant forward.Edge (forward.IsStart [start]) maxDepth last log [] := by
  have sameNodes : forward.nodeCount = reverse.nodeCount := by
    rw [stores.nodeCount, storesReverse.nodeCount, transposed.nodes]
  have guards : bfsDirectionOptimizedBy choose target forward reverse start maxDepth =
      if ¬ forward.contains start = true then .ok .empty
      else
        setBit (List.replicate ((forward.nodeCount + 63) / 64) 0#64) (start % (u32Max + 1)) >>=
          fun visitedBits =>
            dobfsLoop choose forward reverse (selectBackend target) maxDepth forward.nodeCount
              (.new visitedBits (List.replicate ((forward.nodeCount + 63) / 64) 0#64)
                (start % (u32Max + 1))) := by
    rw [bfsDirectionOptimizedBy, if_neg (by simp [sameNodes, sameEdges]),
      if_neg (by simp [cleanReverse]), if_neg (by simp [clean])]
    rfl
  by_cases contained : forward.contains start = true
  · have bound := (stores.contains_iff start).mp contained
    have nodes := base.nodes_le
    have dense : start % (u32Max + 1) = start := Nat.mod_eq_of_lt (by omega)
    have clear := Represents.zero base.rows.length
    obtain ⟨visitedBits, set, marked⟩ := setBit_eq clear bound
    have starts : ∀ s, s ∈ [start] ↔ forward.IsStart [start] s := fun s => by
      rw [IsStart]
      refine (and_iff_left_of_imp fun member => ?_).symm
      rwa [List.mem_singleton.mp member]
    have recorded : (DobfsState.new visitedBits
        (List.replicate ((base.rows.length + 63) / 64) 0#64) start).Recorded [] := ⟨rfl, rfl, rfl⟩
    obtain ⟨result, log, last, ran, lists⟩ := stores.dobfsLoop_eq choose clean storesReverse
      transposed (selectBackend target) base.rows.length recorded
      (.of_starts (List.nodup_singleton start) starts)
      ⟨marked.congr fun n _ => by simp [BreadthFirst.recordLevel, DobfsState.new], clear⟩
      (by simpa [BreadthFirst.recordLevel, DobfsState.new] using bound) (List.cons_ne_nil _ _)
      (Nat.zero_le maxDepth)
      (Nat.le_refl _)
    refine ⟨result, log, last, ?_, lists⟩
    rw [guards, if_neg (not_not_intro contained), dense]
    simp only [stores.nodeCount, set, Checked.ok_bind, ran]
  · refine ⟨.empty, [], 0, by rw [guards, if_pos contained], ⟨rfl, rfl, rfl, rfl⟩,
      .of_starts (List.nodup_nil : ([] : List ℕ).Nodup) fun s => ?_⟩
    refine ⟨fun member => absurd member List.not_mem_nil, fun isStart => ?_⟩
    have inside := isStart.2
    rw [List.mem_singleton.mp isStart.1] at inside
    exact absurd inside contained

/-! ## Breadth-first results agree -/

/-- Two results with the same number of levels, the same nodes at each level, the
same depth for every node and the same largest depth. -/
structure BfsResult.Agrees (first second : BfsResult) : Prop where
  levels_length : first.levels.length = second.levels.length
  levels : ∀ (k : ℕ) (level other : List ℕ), first.levels[k]? = some level →
    second.levels[k]? = some other → ∀ node, node ∈ level ↔ node ∈ other
  depths : first.nodeDepths = second.nodeDepths
  maxDepthReached : first.maxDepthReached = second.maxDepthReached

namespace BfsResult.IsBreadthFirst

variable {result other : BfsResult} {edge : ℕ → ℕ → Prop}

/-- **Two breadth-first results of one search agree.** -/
theorem agrees (first : result.IsBreadthFirst edge start maxDepth)
    (second : other.IsBreadthFirst edge start maxDepth) : result.Agrees other := by
  have depths : result.nodeDepths = other.nodeDepths := Set.ext fun entry => by
    rw [first.mem_nodeDepths, second.mem_nodeDepths]
  have visited : result.visited = [] ↔ other.visited = [] := by
    simp only [List.eq_nil_iff_forall_not_mem, first.mem_visited, second.mem_visited]
  have depthSets : ∀ {one : BfsResult}, one.IsBreadthFirst edge start maxDepth →
      ∀ k, k ∈ one.depths ↔ ∃ node, (node, k) ∈ one.nodeDepths := fun {one} correct k => by
    constructor
    · intro member
      obtain ⟨i, bound, rfl⟩ := List.mem_iff_getElem.mp member
      have inVisited : i < one.visited.length := correct.length_depths ▸ bound
      refine ⟨one.visited[i], ?_⟩
      rw [BfsResult.nodeDepths, Set.mem_ofPred_eq, ← List.getElem_zip (h := by simp [bound, inVisited])]
      exact List.getElem_mem _
    · rintro ⟨node, member⟩
      exact (List.of_mem_zip member).2
  have largest : result.maxDepthReached = other.maxDepthReached := by
    by_cases none : result.visited = []
    · rw [first.maxDepth_of_nil none, second.maxDepth_of_nil (visited.mp none)]
    · have same : {depth | depth ∈ result.depths} = {depth | depth ∈ other.depths} :=
        Set.ext fun k => by
          rw [Set.mem_ofPred_eq, Set.mem_ofPred_eq, depthSets first, depthSets second, depths]
      exact (first.maxDepth_isGreatest none).unique
        (same ▸ second.maxDepth_isGreatest (mt visited.mpr none))
  refine ⟨by rw [first.length_levels, second.length_levels, largest, if_congr visited rfl rfl],
    fun k level otherLevel found foundOther node => ?_, depths, largest⟩
  have atLevel : ∀ {one : BfsResult} {nodes : List ℕ}, one.IsBreadthFirst edge start maxDepth →
      one.levels[k]? = some nodes → (node ∈ nodes ↔ (node, k) ∈ one.nodeDepths) :=
    fun {one nodes} correct here => by
      have bound := (List.getElem?_eq_some_iff.mp here).1
      rw [correct.level k bound, Option.some.injEq] at here
      rw [← here, List.mem_map]
      constructor
      · rintro ⟨entry, member, rfl⟩
        obtain ⟨inZip, depth⟩ := List.mem_filter.mp member
        rwa [← of_decide_eq_true depth]
      · intro member
        exact ⟨(node, k), List.mem_filter.mpr ⟨member, decide_eq_true rfl⟩, rfl⟩
  rw [atLevel first found, atLevel second foundOther, depths]

end BfsResult.IsBreadthFirst

/-! ## Built graphs -/

/-- A built graph has a transpose with the same counts and the reversed rows. -/
theorem CsrGraph.Stores.exists_transposed (stores : forward.Stores base)
    (clean : forward.delta = DeltaLayer.new) (nodes : base.rows.length = nodeUniverse base.storedEdges) :
    ∃ reverse reversed, forward.transpose.2 = .ok reverse ∧ reverse.delta = DeltaLayer.new ∧
      reverse.Stores reversed ∧ Transposed base reversed ∧ forward.edgeCount = reverse.edgeCount := by
  have live : CsrGraph.merge base false forward.delta = base.storedEdges := by
    rw [clean, CsrGraph.merge_new]
  obtain ⟨reverse, outcome⟩ := stores.transpose_ok_of_clean clean
  obtain ⟨-, cleanReverse, reversed, storesReverse, records⟩ := stores.transpose_records outcome
  refine ⟨reverse, reversed, outcome, cleanReverse, storesReverse, ⟨?_, fun source target => ?_⟩, ?_⟩
  · rw [records.nodes, nodeUniverse_reversedEdges, live, nodes]
  · rw [live] at records
    rw [records.mem_targets_reversed, BaseLayer.targets, List.mem_map]
    constructor
    · rintro ⟨weight, member⟩
      exact ⟨(target, weight), BaseLayer.mem_storedEdges.mp member, rfl⟩
    · rintro ⟨⟨found, weight⟩, member, rfl⟩
      exact ⟨weight, BaseLayer.mem_storedEdges.mpr member⟩
  · rw [stores.edgeCount, storesReverse.edgeCount, records.count, length_reversedEdges, live,
      base.length_storedEdges]

/-- A graph that is built from one list of edges, and its transpose. -/
theorem CsrBuilder.exists_build_transposed (size : Usize) {edges : List (ℕ × ℕ)}
    (endpoints : ∀ edge ∈ edges, edge.1 < u32Max ∧ edge.2 < u32Max)
    (count : edges.length ≤ u32Max) :
    ∃ graph reverse base reversed,
      (CsrBuilder.afterCalls [.shardSize size, .edges edges]).build = .ok graph ∧
      graph.delta = DeltaLayer.new ∧ graph.Stores base ∧ graph.transpose.2 = .ok reverse ∧
      reverse.delta = DeltaLayer.new ∧ reverse.Stores reversed ∧ Transposed base reversed ∧
      graph.edgeCount = reverse.edgeCount := by
  have added : addedEdges [.shardSize size, .edges edges] =
      edges.map fun edge => (edge.1, edge.2, none) := by
    simp [addedEdges, BuilderCall.added]
  have holds : (CsrBuilder.afterCalls [.shardSize size, .edges edges]).Holds false
      (addedEdges [.shardSize size, .edges edges]) :=
    .afterCalls (by simp [BuilderCall.AddsOnly])
  rw [added] at holds
  have valid : ∀ edge ∈ edges.map fun edge => (edge.1, edge.2, (none : Option Float32)),
      edge.1 < u32Max ∧ edge.2.1 < u32Max := fun edge member => by
    obtain ⟨pair, inEdges, rfl⟩ := List.mem_map.mp member
    exact endpoints pair inEdges
  have room : nodeUniverse (edges.map fun edge => (edge.1, edge.2, none)) ≤ u32Max := by
    by_contra many
    obtain ⟨edge, member, bound⟩ := lt_nodeUniverse.mp (Nat.lt_of_not_le many)
    have below := valid edge member
    omega
  obtain ⟨graph, base, built, clean, stores, records⟩ := holds.build_ok
    (fun edge member => ⟨(valid edge member).1.le, (valid edge member).2.le⟩)
    (by rwa [List.length_map]) (.inl room)
  obtain ⟨reverse, reversed, outcome, cleanReverse, storesReverse, transposed, sameEdges⟩ :=
    stores.exists_transposed clean records.nodes_storedEdges
  exact ⟨graph, reverse, base, reversed, built, clean, stores, outcome, cleanReverse, storesReverse,
    transposed, sameEdges⟩

/-- **Direction-optimizing search agrees with breadth-first search** on every
graph that is built from one list of edges, with the directions that the code
takes and with any other choice of directions. -/
theorem direction_optimized_agrees (target : Target) (size : Usize) {edges : List (ℕ × ℕ)}
    (endpoints : ∀ edge ∈ edges, edge.1 < u32Max ∧ edge.2 < u32Max)
    (count : edges.length ≤ u32Max) :
    ∃ graph reverse, (CsrBuilder.afterCalls [.shardSize size, .edges edges]).build = .ok graph ∧
      graph.transpose.2 = .ok reverse ∧ ∀ start maxDepth, ∃ reference,
        bfs target graph start maxDepth = .ok reference ∧
        (∃ result, bfsDirectionOptimized target graph reverse start maxDepth = .ok result ∧
          result.visited.Nodup ∧ result.Agrees reference) ∧
        ∀ choose, ∃ result,
          bfsDirectionOptimizedBy choose target graph reverse start maxDepth = .ok result ∧
          result.visited.Nodup ∧ result.Agrees reference := by
  obtain ⟨graph, reverse, base, reversed, built, clean, stores, outcome, cleanReverse, storesReverse,
    transposed, sameEdges⟩ := CsrBuilder.exists_build_transposed size endpoints count
  refine ⟨graph, reverse, built, outcome, fun start maxDepth => ?_⟩
  have reachable : graph.Reachable := .built built
  obtain ⟨reference, ran, lists⟩ :=
    stores.bfsBoundedWithBackend_eq [start] maxDepth none (selectBackend target)
  obtain ⟨last, invariant⟩ := stores.searchLog_invariant reachable [start] maxDepth
  have correct := lists.isBreadthFirst invariant
  have every : ∀ choose, ∃ result,
      bfsDirectionOptimizedBy choose target graph reverse start maxDepth = .ok result ∧
      result.visited.Nodup ∧ result.Agrees reference := fun choose => by
    obtain ⟨result, log, final, returned, listed, kept⟩ := stores.bfsDirectionOptimizedBy_eq choose
      target clean storesReverse cleanReverse transposed sameEdges start maxDepth
    have breadthFirst := listed.isBreadthFirst kept
    exact ⟨result, returned, breadthFirst.visited_nodup, breadthFirst.agrees correct⟩
  exact ⟨reference, ran, every bottomUp, every⟩

theorem direction_optimized_agrees_witness : ∃ graph reverse result,
    (CsrBuilder.afterCalls [.shardSize ⟨0, by decide⟩,
      .edges [(0, 1), (0, 2), (1, 3), (2, 3), (3, 4)]]).build = .ok graph ∧
    graph.transpose.2 = .ok reverse ∧
    bfsDirectionOptimized .other graph reverse 0 3 = .ok result ∧ result.visited.Nodup := by
  obtain ⟨graph, reverse, built, outcome, agrees⟩ := direction_optimized_agrees .other
    ⟨0, by decide⟩ (show ∀ edge ∈ [(0, 1), (0, 2), (1, 3), (2, 3), (3, 4)],
      edge.1 < u32Max ∧ edge.2 < u32Max by decide) (by decide)
  obtain ⟨reference, -, ⟨result, ran, nodup, -⟩, -⟩ := agrees 0 3
  exact ⟨graph, reverse, result, built, outcome, ran, nodup⟩

end FusionGraph
