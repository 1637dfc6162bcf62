import FusionGraph.Foundations.FifoSearch
import FusionGraph.Traversal.Bfs

/-!
# Breadth-first search on the merged topology

The kernel is the search of `FifoSearch` over the merged rows: a node is expanded
to the new nodes of its row, whichever of the two paths is taken
(`Stores.expand_eq`), so the loop lists what `search` finds, in the same order and
with the levels cut at the right places (`Stores.bfsLoop_eq`). Without a cap on
the nodes these are the nodes within the depth limit with their distances
(`bfs_correct_on_merged_topology`).
-/

set_option autoImplicit false

namespace FusionGraph

open Foundations Foundations.Bitset Foundations.BreadthFirst Foundations.StableBuckets

/-! ## Admitting nodes -/

/-- The search has admitted exactly the given nodes. -/
structure Admission.Shows (state : Admission) (size : ℕ) (seen : List ℕ) : Prop where
  tracker : state.tracker.Tracks size fun node => node ∈ seen
  admitted : state.admitted = seen.length

/-- The outcome of admitting new nodes at one depth. -/
structure Admission.Extends (after before : Admission) (size : ℕ) (seen fresh : List ℕ)
    (depth : ℕ) : Prop where
  shows : after.Shows size (seen ++ fresh)
  queue : after.queue = before.queue ++ fresh.map fun node => (node, depth)

namespace Admission

variable {state : Admission} {size : ℕ} {seen : List ℕ}

theorem Shows.extends_nil (shows : state.Shows size seen) (depth : ℕ) :
    state.Extends state size seen [] depth where
  shows := by rwa [List.append_nil]
  queue := by simp

/-- A node that has been seen is not admitted again. -/
theorem Shows.admitNode_of_mem (shows : state.Shows size seen) {node : ℕ} (known : node ∈ seen)
    (depth : ℕ) :
    ∃ after, state.admitNode node depth = .ok after ∧ after.Extends state size seen [] depth := by
  obtain ⟨unvisited, tracker, marked, new, tracks⟩ := shows.tracker.testAndSet node
  obtain rfl : unvisited = false := by simpa [known] using new
  refine ⟨{ state with tracker := tracker }, by simp [admitNode, marked], ⟨?_, ?_⟩, by simp⟩
  · rw [List.append_nil]
    exact tracks.congr fun other => or_iff_left_of_imp fun same => same ▸ known
  · rw [List.append_nil]
    exact shows.admitted

/-- A new node is marked and enqueued. -/
theorem Shows.admitNode_of_notMem (shows : state.Shows size seen) {node : ℕ} (new : node ∉ seen)
    (depth : ℕ) :
    ∃ after, state.admitNode node depth = .ok after ∧
      after.Extends state size seen [node] depth := by
  obtain ⟨unvisited, tracker, marked, fresh, tracks⟩ := shows.tracker.testAndSet node
  obtain rfl : unvisited = true := fresh.mpr new
  refine ⟨_, by simp only [admitNode, marked, Checked.ok_bind, if_true, Checked.pure_eq_ok]; rfl,
    ⟨?_, ?_⟩, rfl⟩
  · exact tracks.congr fun other => by simp
  · rw [List.length_append, List.length_singleton, shows.admitted]

end Admission

variable {size : ℕ} {seen : List ℕ} {state after : Admission}

/-- Admitting a node counts no edge, and at most one node. -/
theorem Admission.admitNode_counts {node depth : ℕ}
    (outcome : state.admitNode node depth = .ok after) :
    after.edgesExamined = state.edgesExamined ∧ after.admitted ≤ state.admitted + 1 := by
  obtain ⟨⟨unvisited, tracker⟩, -, admitted⟩ := Checked.bind_eq_ok.mp outcome
  cases unvisited with
  | true =>
      obtain rfl := Except.ok.inj admitted
      exact ⟨rfl, Nat.le_refl _⟩
  | false =>
      obtain rfl := Except.ok.inj admitted
      exact ⟨rfl, Nat.le_succ _⟩

/-- The neighbors up to the cap are counted, and where it has room all of them. -/
theorem admitNeighbors_counts {maxNodes depth perEdge : ℕ} {neighbors : List ℕ}
    (outcome : admitNeighbors maxNodes depth perEdge neighbors state = .ok after) :
    ∃ count, after.edgesExamined = state.edgesExamined + perEdge * count ∧
      (state.admitted + neighbors.length ≤ maxNodes → count = neighbors.length) := by
  induction neighbors generalizing state with
  | nil =>
      obtain rfl := Except.ok.inj outcome
      exact ⟨0, rfl, fun _ => rfl⟩
  | cons node rest ih =>
      by_cases full : maxNodes ≤ state.admitted
      · simp only [admitNeighbors, full, if_true] at outcome
        obtain rfl := Except.ok.inj outcome
        refine ⟨1, by rw [Nat.mul_one], ?_⟩
        intro room
        rw [List.length_cons] at room
        omega
      · simp only [admitNeighbors, full, if_false] at outcome
        obtain ⟨middle, admitted, later⟩ := Checked.bind_eq_ok.mp outcome
        obtain ⟨examined, one⟩ := Admission.admitNode_counts admitted
        obtain ⟨count, counted, all⟩ := ih later
        refine ⟨count + 1, ?_, ?_⟩
        · rw [counted, examined, Nat.mul_succ]
          simp only
          omega
        · intro room
          simp only at one
          rw [List.length_cons] at room ⊢
          rw [all (by omega)]

/-- **A list of neighbors admits its new nodes, as far as the cap leaves room.** -/
theorem admitNeighbors_eq (maxNodes depth perEdge : ℕ) (neighbors : List ℕ)
    (shows : state.Shows size seen) :
    ∃ after, admitNeighbors maxNodes depth perEdge neighbors state = .ok after ∧
      after.Extends state size seen ((newNodes seen neighbors).take (maxNodes - seen.length))
        depth := by
  induction neighbors generalizing seen state with
  | nil => exact ⟨state, rfl, by simpa [newNodes] using shows.extends_nil depth⟩
  | cons node rest ih =>
      have counted : ({ state with edgesExamined := state.edgesExamined + perEdge } :
        Admission).Shows size seen := ⟨shows.tracker, shows.admitted⟩
      by_cases full : maxNodes ≤ state.admitted
      · refine ⟨_, by simp only [admitNeighbors, full, if_true, Checked.pure_eq_ok]; rfl, ?_⟩
        rw [Nat.sub_eq_zero_of_le (shows.admitted ▸ full), List.take_zero]
        exact ⟨by simpa using counted, by simp⟩
      · by_cases known : node ∈ seen
        · obtain ⟨middle, admitted, kept⟩ := counted.admitNode_of_mem known depth
          have shown := kept.shows
          rw [List.append_nil] at shown
          obtain ⟨after, later, reached⟩ := ih shown
          refine ⟨after, ?_, ?_⟩
          · simp only [admitNeighbors, full, if_false, admitted, Checked.ok_bind, later]
          · rw [newNodes, if_pos known]
            exact ⟨reached.shows, by simpa [kept.queue] using reached.queue⟩
        · obtain ⟨middle, admitted, kept⟩ := counted.admitNode_of_notMem known depth
          obtain ⟨after, later, reached⟩ := ih kept.shows
          refine ⟨after, ?_, ?_⟩
          · simp only [admitNeighbors, full, if_false, admitted, Checked.ok_bind, later]
          · obtain ⟨room, enough⟩ : ∃ room, maxNodes - seen.length = room + 1 :=
              ⟨maxNodes - seen.length - 1, by rw [shows.admitted] at full; omega⟩
            have left : maxNodes - (seen ++ [node]).length = room := by
              rw [List.length_append, List.length_singleton]
              omega
            have same : newNodes (node :: seen) rest = newNodes (seen ++ [node]) rest :=
              newNodes_congr (fun other => by simp [or_comm]) rest
            have shown := reached.shows
            have queued := reached.queue
            rw [left] at shown queued
            rw [newNodes, if_neg known, enough, List.take_succ_cons, same]
            exact ⟨by simpa using shown, by simpa [kept.queue] using queued⟩

/-- The start nodes that the graph contains are admitted like neighbors at
depth 0, without being counted as edges. -/
theorem admitStarts_eq_admitNeighbors (graph : CsrGraph) (maxNodes : ℕ) (starts : List ℕ)
    (state : Admission) :
    admitStarts graph maxNodes starts state =
      admitNeighbors maxNodes 0 0 (starts.filter graph.contains) state := by
  induction starts generalizing state with
  | nil => rfl
  | cons start rest ih =>
      by_cases full : maxNodes ≤ state.admitted
      · have stops : ∀ nodes, admitNeighbors maxNodes 0 0 nodes state = .ok state := fun nodes => by
          cases nodes with
          | nil => rfl
          | cons node nodes => simp only [admitNeighbors, full, if_true, Checked.pure_eq_ok]; rfl
        rw [stops, admitStarts, if_pos full]
        rfl
      · by_cases contained : graph.contains start = true
        · rw [List.filter_cons_of_pos contained, admitStarts, if_neg full, if_pos contained,
            admitNeighbors, if_neg full]
          simp only [ih]
          rfl
        · rw [List.filter_cons_of_neg contained, admitStarts, if_neg full, if_neg contained, ih]

/-! ## Expanding a node -/

namespace CsrGraph.Stores

variable {graph : CsrGraph} {base : BaseLayer}

/-- **Both paths admit the new nodes of the merged row**, and count the row where
the cap has room for it. -/
theorem expand_eq (stores : graph.Stores base) (backend : SimdBackend) (maxNodes node depth : ℕ)
    (shows : state.Shows base.rows.length seen) :
    ∃ after, expand graph backend maxNodes node depth state = .ok after ∧
      after.Extends state base.rows.length seen
        ((newNodes seen (base.merged graph.delta node)).take (maxNodes - seen.length))
        (depth + 1) ∧
      (seen.length + (base.merged graph.delta node).length ≤ maxNodes →
        after.edgesExamined = state.edgesExamined + (base.merged graph.delta node).length) := by
  by_cases empty : graph.delta.isEmpty = true
  · have filtered := backend.filterSlice_eq
      shows.tracker.dense base.nodes_le fun n (member : n ∈ base.targets node) =>
        BaseLayer.target_lt member
    have counted : ({ state with edgesExamined :=
        state.edgesExamined + (base.targets node).length } : Admission).Shows base.rows.length
        seen := ⟨shows.tracker, shows.admitted⟩
    obtain ⟨after, admitted, reached⟩ := admitNeighbors_eq maxNodes (depth + 1) 0
      ((base.targets node).filter fun n => decide (n ∉ seen)) counted
    rw [DeltaLayer.eq_new_of_isEmpty empty, BaseLayer.merged_new]
    refine ⟨after, ?_, ?_, ?_⟩
    · rw [expand, if_pos empty]
      simp only [stores.baseNeighborSlice_eq, Checked.ok_bind, filtered, admitted]
    · rw [newNodes_filter fun _ member => member] at reached
      exact ⟨reached.shows, reached.queue⟩
    · intro _
      obtain ⟨count, examined, -⟩ := admitNeighbors_counts admitted
      rw [examined, Nat.zero_mul, Nat.add_zero]
  · obtain ⟨after, admitted, reached⟩ := admitNeighbors_eq maxNodes (depth + 1) 1
      (base.merged graph.delta node) shows
    refine ⟨after, ?_, reached, ?_⟩
    · rw [expand, if_neg empty, stores.neighbors_eq, Checked.ok_bind, admitted]
    · intro room
      obtain ⟨count, examined, all⟩ := admitNeighbors_counts admitted
      rw [examined, Nat.one_mul, all (by rwa [shows.admitted])]

end CsrGraph.Stores

/-! ## The main loop -/

/-- The nodes of a log at the given depth, in order. -/
def levelAt (log : List (ℕ × ℕ)) (depth : ℕ) : List ℕ := (bucket Prod.snd log depth).map Prod.fst

/-- What the loop has recorded of the processed entries. -/
structure BfsState.Recorded (state : BfsState) (current : ℕ) (done : List (ℕ × ℕ)) : Prop where
  visited : state.visited = done.map Prod.fst
  depths : state.depths = done.map Prod.snd
  currentDepth : state.currentDepth = current
  levels : state.levels = (List.range current).map (levelAt done)
  currentLevel : state.currentLevel = levelAt done current

theorem levelAt_concat (done : List (ℕ × ℕ)) (node k depth : ℕ) :
    levelAt (done ++ [(node, k)]) depth =
      if k = depth then levelAt done depth ++ [node] else levelAt done depth := by
  by_cases same : k = depth <;> simp [levelAt, bucket, same]

theorem levelAt_eq_nil {log : List (ℕ × ℕ)} {depth : ℕ} (none : ∀ entry ∈ log, entry.2 ≠ depth) :
    levelAt log depth = [] := by
  simpa [levelAt, bucket] using none

theorem BfsState.Recorded.new (admission : Admission) : (BfsState.new admission).Recorded 0 [] where
  visited := rfl
  depths := rfl
  currentDepth := rfl
  levels := rfl
  currentLevel := rfl

/-- Recording the first waiting entry closes a level when the entry is deeper. -/
theorem BfsState.Recorded.record {bfs : BfsState} {current node depth : ℕ}
    {done rest : List (ℕ × ℕ)} (recorded : bfs.Recorded current done)
    (order : FifoOrder current done ((node, depth) :: rest)) :
    (bfs.record node depth).Recorded depth (done ++ [(node, depth)]) := by
  have near := order.near (node, depth) List.mem_cons_self
  have earlier : ∀ n, (List.range n).map (levelAt (done ++ [(node, depth)])) =
      (List.range n).map (levelAt done) ∨ depth < n := fun n => by
    by_cases deep : depth < n
    · exact .inr deep
    · refine .inl (List.map_congr_left fun k member => ?_)
      have small := List.mem_range.mp member
      rw [levelAt_concat, if_neg (by omega)]
  rcases Nat.eq_or_lt_of_le near.1 with same | deeper
  · simp only at same
    subst same
    have stays : ¬ bfs.currentDepth < current := by rw [recorded.currentDepth]; omega
    simp only [BfsState.record, stays, if_false]
    exact
      { visited := by rw [recorded.visited, List.map_append]; rfl
        depths := by rw [recorded.depths, List.map_append]; rfl
        currentDepth := recorded.currentDepth
        levels := recorded.levels.trans ((earlier current).resolve_right (Nat.lt_irrefl _)).symm
        currentLevel := by rw [recorded.currentLevel, levelAt_concat, if_pos rfl] }
  · simp only at deeper near
    obtain rfl : depth = current + 1 := by omega
    have opens : bfs.currentDepth < current + 1 := by rw [recorded.currentDepth]; omega
    have fresh : levelAt done (current + 1) = [] := levelAt_eq_nil fun entry member => by
      have small := order.below entry member
      omega
    simp only [BfsState.record, opens, if_true]
    exact
      { visited := by rw [recorded.visited, List.map_append]; rfl
        depths := by rw [recorded.depths, List.map_append]; rfl
        currentDepth := rfl
        levels := by
          rw [(earlier (current + 1)).resolve_right (Nat.lt_irrefl _), List.range_succ,
            List.map_append, recorded.levels, recorded.currentLevel]
          rfl
        currentLevel := by rw [levelAt_concat, if_pos rfl, fresh] }

/-- The levels of a finished search, with the last one closed. -/
theorem BfsState.Recorded.closed_levels {bfs : BfsState} {last : ℕ} {log : List (ℕ × ℕ)}
    (recorded : bfs.Recorded last log) (order : FifoOrder last log []) :
    (if bfs.currentLevel.isEmpty then bfs.levels else bfs.levels ++ [bfs.currentLevel]) =
      if log = [] then [] else (List.range (last + 1)).map (levelAt log) := by
  rw [recorded.levels, recorded.currentLevel]
  by_cases empty : log = []
  · obtain rfl : 0 = last := by simpa [empty] using order.last
    subst empty
    rfl
  · have some : (levelAt log last).isEmpty = false := by
      obtain ⟨entry, inLog, depth⟩ := List.mem_map.mp (order.isGreatest empty).1
      have member : entry.1 ∈ levelAt log last :=
        List.mem_map.mpr ⟨entry, (mem_bucket _).mpr ⟨inLog, depth⟩, rfl⟩
      exact List.isEmpty_eq_false_iff.mpr (List.ne_nil_of_mem member)
    rw [some, if_neg empty, List.range_succ, List.map_append, List.map_singleton]
    rfl

/-- One round of the loop. -/
theorem bfsLoop_cons {graph : CsrGraph} {backend : SimdBackend} {maxDepth maxNodes fuel : ℕ}
    {bfs : BfsState} {node depth : ℕ} {rest : List (ℕ × ℕ)}
    (queue : bfs.admission.queue = (node, depth) :: rest) {recorded : BfsState}
    (records : BfsState.record { bfs with admission := { bfs.admission with queue := rest } } node
      depth = recorded) :
    bfsLoop graph backend maxDepth maxNodes (fuel + 1) bfs =
      if maxDepth ≤ depth ∨ maxNodes ≤ recorded.admission.admitted then
        bfsLoop graph backend maxDepth maxNodes fuel recorded
      else
        expand graph backend maxNodes node depth recorded.admission >>= fun admission =>
          bfsLoop graph backend maxDepth maxNodes fuel { recorded with admission := admission } := by
  subst records
  conv_lhs => rw [bfsLoop]
  simp only [queue]

/-- The nodes that a search can admit: the base nodes and the inserted targets. -/
def CsrGraph.admissibleNodes (graph : CsrGraph) (base : BaseLayer) : List ℕ :=
  List.range base.rows.length ++ graph.delta.insertions.keys.map Prod.snd

namespace CsrGraph.Stores

variable {graph : CsrGraph} {base : BaseLayer}

theorem length_admissibleNodes (stores : graph.Stores base) :
    (graph.admissibleNodes base).length = graph.nodeBound := by
  simp [admissibleNodes, nodeBound, stores.nodeCount, AList.keys, List.keys]

theorem mem_admissibleNodes_of_merged {node target : ℕ}
    (member : target ∈ base.merged graph.delta node) : target ∈ graph.admissibleNodes base := by
  refine List.mem_append.mpr ?_
  rcases BaseLayer.mem_merged.mp member with ⟨inBase, -⟩ | inserted
  · exact .inl (List.mem_range.mpr (BaseLayer.target_lt inBase))
  · exact .inr (List.mem_map.mpr ⟨(node, target), AList.mem_keys.mpr inserted, rfl⟩)

end CsrGraph.Stores

/-- The number of edges that a search examines for the entries of a log: the rows of
those that the depth limit lets it expand. -/
def examinedEdges (rows : ℕ → List ℕ) (limit : ℕ) (log : List (ℕ × ℕ)) : ℕ :=
  (log.map fun entry => if entry.2 < limit then (rows entry.1).length else 0).sum

/-- The cap has room for every node and row of the graph. -/
def CsrGraph.Uncapped (graph : CsrGraph) (base : BaseLayer) (maxNodes : ℕ) : Prop :=
  ∀ node, graph.nodeBound + (base.merged graph.delta node).length ≤ maxNodes

/-- The state of the loop when it has processed some entries and others wait. -/
structure BfsState.Follows (bfs : BfsState) (graph : CsrGraph) (base : BaseLayer)
    (maxDepth maxNodes current : ℕ) (done waiting : List (ℕ × ℕ)) : Prop where
  recorded : bfs.Recorded current done
  queue : bfs.admission.queue = waiting
  shows : bfs.admission.Shows base.rows.length ((done ++ waiting).map Prod.fst)
  order : FifoOrder current done waiting
  inside : ∀ entry ∈ done ++ waiting, entry.1 ∈ graph.admissibleNodes base
  examined : graph.Uncapped base maxNodes →
    bfs.admission.edgesExamined = examinedEdges (base.merged graph.delta) maxDepth done

namespace BfsState.Follows

variable {graph : CsrGraph} {base : BaseLayer} {bfs : BfsState}
  {maxDepth maxNodes current node depth : ℕ} {done waiting rest : List (ℕ × ℕ)}

/-- The state after the first waiting entry is recorded and what it leads to is
admitted. -/
theorem advance (follows : bfs.Follows graph base maxDepth maxNodes current done
      ((node, depth) :: rest)) {recorded : BfsState}
    (records : BfsState.record { bfs with admission := { bfs.admission with queue := rest } } node
      depth = recorded) {after : Admission}
    (reached : after.Extends recorded.admission base.rows.length
      ((done ++ (node, depth) :: rest).map Prod.fst)
      (discovered (base.merged graph.delta) maxDepth maxNodes
        ((done ++ (node, depth) :: rest).map Prod.fst) node depth) (depth + 1))
    (counted : graph.Uncapped base maxNodes → after.edgesExamined = bfs.admission.edgesExamined +
      if depth < maxDepth then (base.merged graph.delta node).length else 0) :
    BfsState.Follows { recorded with admission := after } graph base maxDepth maxNodes depth
      (done ++ [(node, depth)])
      (rest ++ (discovered (base.merged graph.delta) maxDepth maxNodes
        ((done ++ (node, depth) :: rest).map Prod.fst) node depth).map fun w => (w, depth + 1)) := by
  subst records
  have popped : BfsState.Recorded { bfs with admission := { bfs.admission with queue := rest } }
      current done :=
    ⟨follows.recorded.visited, follows.recorded.depths, follows.recorded.currentDepth,
      follows.recorded.levels, follows.recorded.currentLevel⟩
  have kept := popped.record follows.order
  have queue : (BfsState.record { bfs with admission := { bfs.admission with queue := rest } } node
      depth).admission.queue = rest := by
    simp only [BfsState.record]
    split <;> rfl
  constructor
  · exact ⟨kept.visited, kept.depths, kept.currentDepth, kept.levels, kept.currentLevel⟩
  · rw [reached.queue, queue]
  · have whole := reached.shows
    have together : (done ++ [(node, depth)]) ++ rest = done ++ (node, depth) :: rest := by simp
    rw [← List.append_assoc, together, List.map_append, List.map_map]
    simpa [Function.comp_def] using whole
  · exact follows.order.discover
  · exact discover_inside (fun _ _ _ member => CsrGraph.Stores.mem_admissibleNodes_of_merged member)
      follows.inside
  · intro uncapped
    rw [counted uncapped, follows.examined uncapped]
    simp [examinedEdges]

/-- **One round of the loop processes the first waiting entry.** -/
theorem round (stores : graph.Stores base) (backend : SimdBackend)
    (follows : bfs.Follows graph base maxDepth maxNodes current done ((node, depth) :: rest))
    (fuel : ℕ) :
    ∃ next : BfsState, bfsLoop graph backend maxDepth maxNodes (fuel + 1) bfs =
        bfsLoop graph backend maxDepth maxNodes fuel next ∧
      next.Follows graph base maxDepth maxNodes depth (done ++ [(node, depth)])
        (rest ++ (discovered (base.merged graph.delta) maxDepth maxNodes
          ((done ++ (node, depth) :: rest).map Prod.fst) node depth).map
            fun w => (w, depth + 1)) := by
  obtain ⟨recorded, records⟩ : ∃ recorded, BfsState.record
      { bfs with admission := { bfs.admission with queue := rest } } node depth = recorded :=
    ⟨_, rfl⟩
  have admission : recorded.admission = { bfs.admission with queue := rest } := by
    rw [← records]
    simp only [BfsState.record]
    split <;> rfl
  have shown : recorded.admission.Shows base.rows.length
      ((done ++ (node, depth) :: rest).map Prod.fst) := by
    rw [admission]
    exact ⟨follows.shows.tracker, follows.shows.admitted⟩
  have examined : recorded.admission.edgesExamined = bfs.admission.edgesExamined := by
    rw [admission]
  -- the cap has room for the nodes that the search has seen and for another row
  have room : graph.Uncapped base maxNodes →
      ((done ++ (node, depth) :: rest).map Prod.fst).length +
        (base.merged graph.delta node).length ≤ maxNodes := by
    intro uncapped
    have bound := follows.order.length_le follows.inside
    rw [stores.length_admissibleNodes] at bound
    have whole := uncapped node
    rw [List.length_map, List.length_append]
    omega
  by_cases cut : maxDepth ≤ depth ∨ maxNodes ≤ recorded.admission.admitted
  · have none : discovered (base.merged graph.delta) maxDepth maxNodes
        ((done ++ (node, depth) :: rest).map Prod.fst) node depth = [] := by
      rcases cut with deep | full
      · rw [discovered, if_pos deep]
      · rw [discovered, Nat.sub_eq_zero_of_le (shown.admitted ▸ full), List.take_zero, ite_self]
    refine ⟨recorded, by rw [bfsLoop_cons follows.queue records, if_pos cut], ?_⟩
    refine follows.advance records ?_ ?_
    · rw [none]
      exact shown.extends_nil (depth + 1)
    · intro uncapped
      rw [examined]
      rcases cut with deep | full
      · rw [if_neg (Nat.not_lt_of_le deep), Nat.add_zero]
      · -- the cap is reached although it has room: the row is empty
        have short := room uncapped
        rw [shown.admitted] at full
        have empty : (base.merged graph.delta node).length = 0 := by omega
        rw [empty, ite_self, Nat.add_zero]
  · obtain ⟨after, expanded, reached, counts⟩ :=
      stores.expand_eq backend maxNodes node depth shown
    have low : depth < maxDepth := Nat.lt_of_not_le fun deep => cut (.inl deep)
    refine ⟨{ recorded with admission := after }, ?_, follows.advance records ?_ ?_⟩
    · rw [bfsLoop_cons follows.queue records, if_neg cut, expanded, Checked.ok_bind]
    · rw [discovered, if_neg (Nat.not_le_of_lt low)]
      exact reached
    · intro uncapped
      rw [counts (room uncapped), examined, if_pos low]

end BfsState.Follows

namespace CsrGraph.Stores

variable {graph : CsrGraph} {base : BaseLayer}

/-- **The loop lists what the search over the merged rows finds.** -/
theorem bfsLoop_eq (stores : graph.Stores base) (backend : SimdBackend)
    (maxDepth maxNodes fuel : ℕ) {bfs : BfsState} {current : ℕ} {done waiting : List (ℕ × ℕ)}
    (follows : bfs.Follows graph base maxDepth maxNodes current done waiting)
    (enough : graph.nodeBound ≤ fuel + done.length) :
    ∃ final last, bfsLoop graph backend maxDepth maxNodes fuel bfs = .ok final ∧
      final.Follows graph base maxDepth maxNodes last
        (search (base.merged graph.delta) maxDepth maxNodes fuel done waiting) [] := by
  induction fuel generalizing bfs current done waiting with
  | zero =>
      have bound := follows.order.length_le follows.inside
      rw [stores.length_admissibleNodes] at bound
      obtain rfl : waiting = [] := List.length_eq_zero_iff.mp (by omega)
      exact ⟨bfs, current, by simp only [bfsLoop, follows.queue, Checked.pure_eq_ok], follows⟩
  | succ fuel ih =>
      cases waiting with
      | nil =>
          exact ⟨bfs, current, by simp only [bfsLoop, follows.queue, Checked.pure_eq_ok], follows⟩
      | cons entry rest =>
          obtain ⟨node, depth⟩ := entry
          obtain ⟨next, moved, kept⟩ := follows.round stores backend fuel
          obtain ⟨final, last, ran, result⟩ := ih kept (by
            rw [List.length_append, List.length_singleton]
            omega)
          exact ⟨final, last, moved.trans ran, result⟩

end CsrGraph.Stores

/-! ## The result -/

/-- The result lists a log of nodes with their depths. -/
structure BfsResult.Lists (result : BfsResult) (log : List (ℕ × ℕ)) : Prop where
  visited : result.visited = log.map Prod.fst
  depths : result.depths = log.map Prod.snd
  maxDepthReached : result.maxDepthReached = (log.map Prod.snd).getLast?.getD 0
  levels : result.levels =
    if log = [] then [] else (List.range (result.maxDepthReached + 1)).map (levelAt log)

/-- The start nodes that a search admits. -/
def CsrGraph.admittedStarts (graph : CsrGraph) (starts : List ℕ) (maxNodes : ℕ) : List ℕ :=
  (newNodes [] (starts.filter graph.contains)).take maxNodes

/-- The log of a search: the nodes it visits with their depths, in order. -/
def CsrGraph.searchLog (graph : CsrGraph) (base : BaseLayer) (starts : List ℕ)
    (maxDepth maxNodes : ℕ) : List (ℕ × ℕ) :=
  search (base.merged graph.delta) maxDepth maxNodes graph.nodeBound []
    ((graph.admittedStarts starts maxNodes).map fun start => (start, 0))

namespace CsrGraph

variable {graph : CsrGraph} {base : BaseLayer}

theorem contains_of_mem_admittedStarts {starts : List ℕ} {maxNodes start : ℕ}
    (member : start ∈ graph.admittedStarts starts maxNodes) :
    start ∈ starts ∧ graph.contains start = true :=
  List.mem_filter.mp (mem_newNodes.mp (List.mem_of_mem_take member)).1

theorem admittedStarts_nodup (graph : CsrGraph) (starts : List ℕ) (maxNodes : ℕ) :
    (graph.admittedStarts starts maxNodes).Nodup :=
  (newNodes_nodup [] _).sublist (List.take_sublist _ _)

theorem Stores.admittedStarts_inside (stores : graph.Stores base) (starts : List ℕ)
    (maxNodes : ℕ) :
    ∀ entry ∈ [] ++ (graph.admittedStarts starts maxNodes).map fun start => (start, 0),
      entry.1 ∈ graph.admissibleNodes base := by
  intro entry member
  obtain ⟨start, admitted, rfl⟩ := List.mem_map.mp member
  have contained := (contains_of_mem_admittedStarts admitted).2
  exact List.mem_append_left _ (List.mem_range.mpr ((stores.contains_iff start).mp contained))

/-- The state before the loop, when starts have been admitted. -/
theorem Stores.follows_of_starts (stores : graph.Stores base) (starts : List ℕ)
    (maxDepth maxNodes : ℕ) :
    ∃ admission, admitStarts graph maxNodes starts (.new graph.nodeCount) = .ok admission ∧
      (BfsState.new admission).Follows graph base maxDepth maxNodes 0 []
        ((graph.admittedStarts starts maxNodes).map fun start => (start, 0)) := by
  have fresh : (Admission.new graph.nodeCount).Shows base.rows.length [] :=
    ⟨stores.nodeCount ▸ (Visited.Tracks.new graph.nodeCount).congr (by simp), rfl⟩
  obtain ⟨admission, admitted, reached⟩ :=
    admitNeighbors_eq maxNodes 0 0 (starts.filter graph.contains) fresh
  refine ⟨admission, (admitStarts_eq_admitNeighbors graph maxNodes starts _).trans admitted, ?_⟩
  constructor
  · exact .new admission
  · exact reached.queue
  · have shows := reached.shows
    simpa [Function.comp_def, admittedStarts, BfsState.new] using shows
  · exact .of_starts (graph.admittedStarts_nodup starts maxNodes)
  · exact stores.admittedStarts_inside starts maxNodes
  · intro _
    obtain ⟨count, examined, -⟩ := admitNeighbors_counts admitted
    rw [Nat.zero_mul] at examined
    exact examined

/-- **Every search returns the log of the search over the merged rows**, and where the
cap has room it has examined the rows of the expanded nodes. -/
theorem Stores.bfsBoundedWithBackend_examined (stores : graph.Stores base) (starts : List ℕ)
    (maxDepth : ℕ) (maxNodes : Option ℕ) (backend : SimdBackend) :
    ∃ result, bfsBoundedWithBackend graph starts maxDepth maxNodes backend = .ok result ∧
      result.Lists (graph.searchLog base starts maxDepth (maxNodes.getD usizeMax)) ∧
      (graph.Uncapped base (maxNodes.getD usizeMax) →
        result.edgesExamined = examinedEdges (base.merged graph.delta) maxDepth
          (graph.searchLog base starts maxDepth (maxNodes.getD usizeMax))) := by
  set cap := maxNodes.getD usizeMax with cap_eq
  obtain ⟨admission, admitted, initial⟩ := stores.follows_of_starts starts maxDepth cap
  by_cases none : admission.queue = []
  · have queue : admission.queue = _ := initial.queue
    have nothing : graph.searchLog base starts maxDepth cap = [] := by
      rw [searchLog, ← queue, none]
      cases graph.nodeBound <;> rfl
    refine ⟨.empty, ?_, ?_, ?_⟩
    · simp only [bfsBoundedWithBackend, ← cap_eq, admitted, Checked.ok_bind, none,
        List.isEmpty_nil, if_true, Checked.pure_eq_ok]
    · rw [nothing]
      exact ⟨rfl, rfl, rfl, rfl⟩
    · intro _
      rw [nothing]
      rfl
  · obtain ⟨final, last, ran, finished⟩ :=
      stores.bfsLoop_eq backend maxDepth cap graph.nodeBound initial (Nat.le_refl _)
    have recorded := finished.recorded
    have some : admission.queue.isEmpty = false := List.isEmpty_eq_false_iff.mpr none
    refine ⟨_, by
      simp only [bfsBoundedWithBackend, ← cap_eq, admitted, Checked.ok_bind, some,
        Bool.false_eq_true, if_false, ran, Checked.pure_eq_ok]
      rfl, ⟨recorded.visited, recorded.depths, ?_, ?_⟩, finished.examined⟩
    · exact recorded.currentDepth.trans finished.order.last.symm
    · rw [recorded.currentDepth]
      exact recorded.closed_levels finished.order

/-- **Every search returns the log of the search over the merged rows.** -/
theorem Stores.bfsBoundedWithBackend_eq (stores : graph.Stores base) (starts : List ℕ)
    (maxDepth : ℕ) (maxNodes : Option ℕ) (backend : SimdBackend) :
    ∃ result, bfsBoundedWithBackend graph starts maxDepth maxNodes backend = .ok result ∧
      result.Lists (graph.searchLog base starts maxDepth (maxNodes.getD usizeMax)) := by
  obtain ⟨result, ran, lists, -⟩ :=
    stores.bfsBoundedWithBackend_examined starts maxDepth maxNodes backend
  exact ⟨result, ran, lists⟩

end CsrGraph

end FusionGraph
