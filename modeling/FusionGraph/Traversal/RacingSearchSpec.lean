import FusionGraph.Foundations.ChangingSearch
import FusionGraph.Traversal.RacingSearch

/-!
# What a search beside writers finds

The search sees the graph at no single moment, but it loses nothing that stays and
invents nothing that never was: what it lists is connected by edges that the graph listed
at some moment of the run, and what is connected by edges that the graph had at every
moment is listed, no deeper than along them (`search_beside_writers`).

The invariant is `SearchPhase.Holds`, for any two relations between which the moments lie
(`Sees`). Later moments only narrow the one and widen the other.
-/

set_option autoImplicit false

namespace FusionGraph

open Foundations Foundations.BreadthFirst

/-- The base layer alone lies between the two relations. -/
structure Static (base : BaseLayer) (always sometimes : ℕ → ℕ → Prop) : Prop where
  present : ∀ u w, always u w → w ∈ base.targets u
  listed : ∀ u, ∀ w ∈ base.targets u, sometimes u w

/-! ## The invariant -/

section Invariant

variable (call : SearchCall) (base : BaseLayer) (always sometimes : ℕ → ℕ → Prop)

/-- The search of a call, which is whole while it has room for another node. -/
def SearchCall.Finds (admitted current : ℕ) (done waiting : List (ℕ × ℕ)) : Prop :=
  ChangingSearch always sometimes (call.graph.IsStart call.starts) call.maxDepth
    (admitted < call.maxNodes) current done waiting

/-- The state of the loop between two nodes. -/
structure BfsState.Between (bfs : BfsState) (current : ℕ) (done waiting : List (ℕ × ℕ)) :
    Prop where
  recorded : bfs.Recorded current done
  queue : bfs.admission.queue = waiting
  shows : bfs.admission.Shows base.rows.length ((done ++ waiting).map Prod.fst)
  finds : call.Finds always sometimes bfs.admission.admitted current done waiting

/-- The state of the loop while it reads the row of a node: it has admitted `fresh`. -/
structure BfsState.Within (bfs : BfsState) (node depth : ℕ) (current : ℕ)
    (done rest : List (ℕ × ℕ)) (fresh : List ℕ) : Prop where
  shallow : depth < call.maxDepth
  recorded : bfs.Recorded depth (done ++ [(node, depth)])
  queue : bfs.admission.queue = rest ++ fresh.map fun w => (w, depth + 1)
  shows : bfs.admission.Shows base.rows.length
    ((done ++ (node, depth) :: rest).map Prod.fst ++ fresh)
  finds : call.Finds always sometimes bfs.admission.admitted current done ((node, depth) :: rest)
  fresh_nodup : fresh.Nodup
  fresh_new : ∀ w ∈ fresh, w ∉ (done ++ (node, depth) :: rest).map Prod.fst
  fresh_edge : ∀ w ∈ fresh, sometimes node w

/-- What the parts of a half before the given one have shown, when no entry was found in
them. -/
def SearchCall.Unfound (next : ℕ) : DeltaHalf → Prop
  | .insertions => ∀ u w, always u w → (call.parts .insertions).part (u, w) < next →
      w ∈ base.targets u
  | .deletions => (∀ u w, always u w → w ∈ base.targets u) ∧
      ∀ u, ∀ w ∈ base.targets u, (call.parts .deletions).part (u, w) < next → sometimes u w

/-- What holds of a search at each phase. -/
def SearchPhase.Holds : SearchPhase → Prop
  | .checking half next empty bfs =>
    (∃ waiting, bfs.Between call base always sometimes 0 [] waiting) ∧
      (empty = true → call.Unfound base always sometimes next half)
  | .looping deltaEmpty bfs =>
    (∃ current done waiting, bfs.Between call base always sometimes current done waiting) ∧
      (deltaEmpty = true → Static base always sometimes)
  | .collecting bfs node depth baseIter next found =>
    (∃ current done rest,
      bfs.Within call base always sometimes node depth current done rest []) ∧
    baseIter.pending = base.targets node ∧ (∀ w ∈ found, sometimes node w) ∧
    ∀ w, always node w → (call.parts .insertions).part (node, w) < next →
      w ∈ found ∨ w ∈ base.targets node
  | .yielding bfs node depth baseIter seen inserted =>
    ∃ current done rest fresh yielded,
      bfs.Within call base always sometimes node depth current done rest fresh ∧
      base.targets node = yielded ++ baseIter.pending ∧
      (∀ w ∈ seen, w ∈ (done ++ (node, depth) :: rest).map Prod.fst ++ fresh) ∧
      (∀ w ∈ yielded, w ∈ seen ∨ ¬ always node w) ∧ (∀ w ∈ inserted, sometimes node w) ∧
      ∀ w, always node w → w ∈ inserted ∨ w ∈ base.targets node
  | .finished result => ∃ current log, result.Lists log ∧
      call.Finds always sometimes log.length current log []

/-- The nodes that a search has taken from the queue. -/
def SearchPhase.visited : SearchPhase → List ℕ
  | .checking _ _ _ bfs => bfs.visited
  | .looping _ bfs => bfs.visited
  | .collecting bfs _ _ _ _ _ => bfs.visited
  | .yielding bfs _ _ _ _ _ => bfs.visited
  | .finished result => result.visited

/-- A bound on the steps before the search takes the next node. -/
def SearchPhase.stage : SearchPhase → ℕ
  | .checking .insertions next _ _ =>
    (call.parts .insertions).count - next + (call.parts .deletions).count + 2
  | .checking .deletions next _ _ => (call.parts .deletions).count - next + 1
  | .looping _ _ => 0
  | .collecting _ _ _ baseIter next _ =>
    (call.parts .insertions).count - next + baseIter.pending.length + 2
  | .yielding _ _ _ baseIter _ _ => baseIter.pending.length + 1
  | .finished _ => 0

/-- A step brings the end nearer: the search returns, visits another node, or comes closer to
the next. -/
def SearchPhase.Nears (phase after : SearchPhase) : Prop :=
  after.Done ∨ phase.visited.length < after.visited.length ∨
    after.visited.length = phase.visited.length ∧ after.stage call < phase.stage call

end Invariant

/-! ## Time passes -/

section Moments

variable {call : SearchCall} {base : BaseLayer} {always sometimes lasting seen : ℕ → ℕ → Prop}
  {phase : SearchPhase} {bfs : BfsState} {current node depth admitted more : ℕ}
  {done waiting rest : List (ℕ × ℕ)} {fresh : List ℕ}

theorem SearchCall.Finds.mono (finds : call.Finds always sometimes admitted current done waiting)
    (fewer : ∀ u w, lasting u w → always u w) (listed : ∀ u w, sometimes u w → seen u w)
    (grows : admitted ≤ more) : call.Finds lasting seen more current done waiting :=
  ChangingSearch.mono finds fewer listed grows.trans_lt

theorem BfsState.Between.mono (between : bfs.Between call base always sometimes current done waiting)
    (fewer : ∀ u w, lasting u w → always u w) (listed : ∀ u w, sometimes u w → seen u w) :
    bfs.Between call base lasting seen current done waiting :=
  ⟨between.recorded, between.queue, between.shows, between.finds.mono fewer listed le_rfl⟩

theorem BfsState.Within.mono
    (within : bfs.Within call base always sometimes node depth current done rest fresh)
    (fewer : ∀ u w, lasting u w → always u w) (listed : ∀ u w, sometimes u w → seen u w) :
    bfs.Within call base lasting seen node depth current done rest fresh :=
  { within with
    finds := within.finds.mono fewer listed le_rfl
    fresh_edge := fun w member => listed _ _ (within.fresh_edge w member) }

/-- **What holds of a search holds of it later.** -/
theorem SearchPhase.Holds.mono (holds : phase.Holds call base always sometimes)
    (fewer : ∀ u w, lasting u w → always u w) (listed : ∀ u w, sometimes u w → seen u w) :
    phase.Holds call base lasting seen := by
  cases phase with
  | checking half next empty bfs =>
    obtain ⟨⟨waiting, between⟩, unfound⟩ := holds
    refine ⟨⟨waiting, between.mono fewer listed⟩, fun clear => ?_⟩
    cases half with
    | insertions => exact fun u w stays => unfound clear u w (fewer u w stays)
    | deletions =>
      obtain ⟨targets, live⟩ := unfound clear
      exact ⟨fun u w stays => targets u w (fewer u w stays),
        fun u w target early => listed u w (live u w target early)⟩
  | looping deltaEmpty bfs =>
    obtain ⟨⟨current, done, waiting, between⟩, still⟩ := holds
    refine ⟨⟨current, done, waiting, between.mono fewer listed⟩, fun clear => ?_⟩
    obtain ⟨targets, live⟩ := still clear
    exact ⟨fun u w stays => targets u w (fewer u w stays),
      fun u w target => listed u w (live u w target)⟩
  | collecting bfs node depth baseIter next found =>
    obtain ⟨⟨current, done, rest, within⟩, pending, edges, complete⟩ := holds
    exact ⟨⟨current, done, rest, within.mono fewer listed⟩, pending,
      fun w member => listed _ _ (edges w member),
      fun w stays early => complete w (fewer _ _ stays) early⟩
  | yielding bfs node depth baseIter seen inserted =>
    obtain ⟨current, done, rest, fresh, yielded, within, pending, known, passed, edges, complete⟩ :=
      holds
    exact ⟨current, done, rest, fresh, yielded, within.mono fewer listed, pending, known,
      fun w member => (passed w member).imp_right fun gone stays => gone (fewer _ _ stays),
      fun w member => listed _ _ (edges w member), fun w stays => complete w (fewer _ _ stays)⟩
  | finished result =>
    obtain ⟨current, log, lists, finds⟩ := holds
    exact ⟨current, log, lists, finds.mono fewer listed le_rfl⟩

/-! ## The steps of the search -/

/-- A row is closed when its new nodes are admitted. -/
theorem BfsState.Recorded.closes
    (recorded : bfs.Recorded depth (done ++ [(node, depth)])) (after : Admission) (fresh : List ℕ)
    (finds : call.Finds always sometimes after.admitted current done ((node, depth) :: rest))
    (queue : after.queue = rest ++ fresh.map fun w => (w, depth + 1))
    (shows : after.Shows base.rows.length ((done ++ (node, depth) :: rest).map Prod.fst ++ fresh))
    (fresh_nodup : fresh.Nodup)
    (fresh_new : ∀ w ∈ fresh, w ∉ (done ++ (node, depth) :: rest).map Prod.fst)
    (fresh_edge : ∀ w ∈ fresh, depth < call.maxDepth ∧ sometimes node w)
    (covered : after.admitted < call.maxNodes → depth < call.maxDepth → ∀ w, always node w →
      w ∈ fresh ∨ w ∈ (done ++ (node, depth) :: rest).map Prod.fst) :
    BfsState.Between call base always sometimes { bfs with admission := after } depth
      (done ++ [(node, depth)]) (rest ++ fresh.map fun w => (w, depth + 1)) := by
  refine ⟨?_, queue, ?_, finds.process fresh_nodup fresh_new fresh_edge covered⟩
  · exact ⟨recorded.visited, recorded.depths, recorded.currentDepth, recorded.levels,
      recorded.currentLevel⟩
  · have together : (done ++ [(node, depth)]) ++ rest = done ++ (node, depth) :: rest := by simp
    rw [← List.append_assoc, together, List.map_append, List.map_map]
    simpa [Function.comp_def] using shows

/-- New nodes of a row are admitted. -/
theorem BfsState.Within.admits
    (within : bfs.Within call base always sometimes node depth current done rest fresh)
    {after : Admission} {new : List ℕ}
    (reached : after.Extends bfs.admission base.rows.length
      ((done ++ (node, depth) :: rest).map Prod.fst ++ fresh) new (depth + 1))
    (new_nodup : new.Nodup)
    (unknown : ∀ w ∈ new, w ∉ (done ++ (node, depth) :: rest).map Prod.fst ++ fresh)
    (new_edge : ∀ w ∈ new, sometimes node w) :
    BfsState.Within call base always sometimes { bfs with admission := after } node depth current
      done rest (fresh ++ new) := by
  have recorded := within.recorded
  have grows : bfs.admission.admitted ≤ after.admitted := by
    rw [within.shows.admitted, reached.shows.admitted, @List.length_append _ _ new]
    exact Nat.le_add_right _ _
  constructor
  · exact within.shallow
  · exact ⟨recorded.visited, recorded.depths, recorded.currentDepth, recorded.levels,
      recorded.currentLevel⟩
  · rw [reached.queue, within.queue, List.map_append, List.append_assoc]
  · rw [← List.append_assoc]
    exact reached.shows
  · exact within.finds.mono (fun _ _ => id) (fun _ _ => id) grows
  · refine List.nodup_append.mpr ⟨within.fresh_nodup, new_nodup, ?_⟩
    rintro w early _ late rfl
    exact unknown w late (List.mem_append_right _ early)
  · intro w member
    rcases List.mem_append.mp member with early | late
    · exact within.fresh_new w early
    · exact fun old => unknown w late (List.mem_append_left _ old)
  · intro w member
    rcases List.mem_append.mp member with early | late
    · exact within.fresh_edge w early
    · exact new_edge w late

/-- A row whose targets are admitted is closed. -/
theorem BfsState.Within.close
    (within : bfs.Within call base always sometimes node depth current done rest fresh)
    (covered : bfs.admission.admitted < call.maxNodes → ∀ w, always node w →
      w ∈ (done ++ (node, depth) :: rest).map Prod.fst ++ fresh) :
    bfs.Between call base always sometimes depth (done ++ [(node, depth)])
      (rest ++ fresh.map fun w => (w, depth + 1)) := by
  refine within.recorded.closes bfs.admission fresh within.finds within.queue within.shows within.fresh_nodup
    within.fresh_new (fun w member => ⟨within.shallow, within.fresh_edge w member⟩) ?_
  intro room _ w stays
  exact (List.mem_append.mp (covered room w stays)).symm

/-- Admitting a node adds it where it is new. -/
theorem Admission.Shows.admitNode_eq {state : Admission} {size : ℕ} {known : List ℕ}
    (shows : state.Shows size known) (node depth : ℕ) :
    ∃ after new, state.admitNode node depth = .ok after ∧
      after.Extends state size known new depth ∧ new.Nodup ∧ (∀ w ∈ new, w ∉ known) ∧
      (∀ w ∈ new, w = node) ∧ node ∈ known ++ new := by
  by_cases old : node ∈ known
  · obtain ⟨after, admits, reached⟩ := shows.admitNode_of_mem old depth
    exact ⟨after, [], admits, reached, List.nodup_nil, by simp, by simp,
      List.mem_append_left _ old⟩
  · obtain ⟨after, admits, reached⟩ := shows.admitNode_of_notMem old depth
    exact ⟨after, [node], admits, reached, List.nodup_singleton _, by simpa using old, by simp,
      List.mem_append_right _ List.mem_cons_self⟩

/-- Counting an edge leaves the queue. -/
theorem Admission.Extends.of_queue {after counted before : Admission} {size : ℕ}
    {known : List ℕ} (reached : after.Extends counted size known fresh depth)
    (queue : counted.queue = before.queue) : after.Extends before size known fresh depth :=
  ⟨reached.shows, queue ▸ reached.queue⟩

/-- Where the cap is not reached, all of a row is admitted. -/
theorem Admission.Extends.mem_of_room {after before : Admission} {size cap : ℕ}
    {known row : List ℕ} {w : ℕ}
    (reached : after.Extends before size known ((newNodes known row).take (cap - known.length))
      depth) (room : after.admitted < cap) (member : w ∈ row) :
    w ∈ known ++ (newNodes known row).take (cap - known.length) := by
  have admitted := reached.shows.admitted
  rw [List.length_append, List.length_take] at admitted
  rw [List.take_of_length_le (by omega)]
  by_cases old : w ∈ known
  · exact List.mem_append_left _ old
  · exact List.mem_append_right _ (mem_newNodes.mpr ⟨member, old⟩)

/-- The fast path admits the new targets of the base row. -/
theorem CsrGraph.Stores.expand_base {graph : CsrGraph} {state : Admission} {known : List ℕ}
    (stores : graph.Stores base) (backend : SimdBackend) (maxNodes node depth : ℕ)
    (shows : state.Shows base.rows.length known) :
    ∃ neighbors filtered after, graph.baseNeighborSlice node = .ok neighbors ∧
      backend.filterSlice neighbors state.tracker.words = .ok filtered ∧
      admitNeighbors maxNodes (depth + 1) 0 filtered
        { state with edgesExamined := state.edgesExamined + neighbors.length } = .ok after ∧
      after.Extends state base.rows.length known
        ((newNodes known (base.targets node)).take (maxNodes - known.length)) (depth + 1) := by
  obtain ⟨after, ran, reached, -⟩ :=
    (stores.withDelta .new).expand_eq backend maxNodes node depth shows
  have clean : (graph.withDelta .new).delta.isEmpty = true := rfl
  rw [expand, if_pos clean] at ran
  obtain ⟨neighbors, sliced, ran⟩ := Checked.bind_eq_ok.mp ran
  obtain ⟨filtered, kept, admitted⟩ := Checked.bind_eq_ok.mp ran
  have row : base.merged (graph.withDelta .new).delta node = base.targets node :=
    base.merged_new node
  rw [row] at reached
  exact ⟨neighbors, filtered, after, sliced, kept, admitted, reached⟩

/-- A step of measuring a half. -/
theorem SearchPhase.Holds.check {half : DeltaHalf} {next : ℕ} {empty : Bool} {delta : DeltaLayer}
    (holds : (SearchPhase.checking half next empty bfs).Holds call base always sometimes)
    (sees : Sees base always sometimes delta) :
    ∃ after, (SearchPhase.checking half next empty bfs).advance call delta = .ok after ∧
      after.Holds call base always sometimes ∧
      (SearchPhase.checking half next empty bfs).Nears call after := by
  obtain ⟨⟨waiting, between⟩, unfound⟩ := holds
  by_cases inside : next < (call.parts half).count
  · refine ⟨.checking half (next + 1) (empty && (delta.keysIn call.parts half next).isEmpty) bfs,
      by simp only [SearchPhase.advance, inside, if_true, Checked.pure_eq_ok],
      ⟨⟨waiting, between⟩, ?_⟩, .inr (.inr ⟨rfl, by cases half <;> simp only [SearchPhase.stage] <;> omega⟩)⟩
    intro clear
    obtain ⟨before, none⟩ := Bool.and_eq_true_iff.mp clear
    rw [List.isEmpty_iff] at none
    cases half with
    | insertions =>
      intro u w stays early
      rcases Nat.lt_succ_iff_lt_or_eq.mp early with earlier | here
      · exact unfound before u w stays earlier
      · refine sees.target_of_notMem stays fun inserted => ?_
        have listed := DeltaLayer.mem_keysIn_insertions.mpr ⟨inserted, here⟩
        exact List.not_mem_nil (none ▸ listed)
    | deletions =>
      obtain ⟨targets, live⟩ := unfound before
      refine ⟨targets, fun u w target early => ?_⟩
      rcases Nat.lt_succ_iff_lt_or_eq.mp early with earlier | here
      · exact live u w target earlier
      · refine sees.listed_of_target target fun deleted => ?_
        have listed := DeltaLayer.mem_keysIn_deletions.mpr ⟨deleted, here⟩
        exact List.not_mem_nil (none ▸ listed)
  · -- every part has been measured
    have measured : ∀ key, (call.parts half).part key < next := fun key =>
      ((call.parts half).inside key).trans_le (Nat.le_of_not_lt inside)
    cases half with
    | insertions =>
      cases empty with
      | true =>
        refine ⟨.checking .deletions 0 true bfs, by
          simp only [SearchPhase.advance, inside, if_false, if_true, Checked.pure_eq_ok],
          ⟨⟨waiting, between⟩, fun _ => ?_⟩,
          .inr (.inr ⟨rfl, by simp only [SearchPhase.stage]; omega⟩)⟩
        exact ⟨fun u w stays => unfound rfl u w stays (measured _),
          fun u w _ early => absurd early (Nat.not_lt_zero _)⟩
      | false =>
        exact ⟨.looping false bfs, by
          simp only [SearchPhase.advance, inside, if_false, Bool.false_eq_true, Checked.pure_eq_ok],
          ⟨⟨0, [], waiting, between⟩, nofun⟩, .inr (.inr ⟨rfl, Nat.succ_pos _⟩)⟩
    | deletions =>
      refine ⟨.looping empty bfs, by
        simp only [SearchPhase.advance, inside, if_false, Checked.pure_eq_ok],
        ⟨⟨0, [], waiting, between⟩, ?_⟩, .inr (.inr ⟨rfl, Nat.succ_pos _⟩)⟩
      intro clear
      obtain ⟨targets, live⟩ := unfound clear
      exact ⟨targets, fun u w target => live u w target (measured _)⟩

/-- The node at the head of the queue is recorded. -/
theorem BfsState.Between.record {popped : BfsState}
    (between : bfs.Between call base always sometimes current done ((node, depth) :: rest))
    (records : BfsState.record { bfs with admission := { bfs.admission with queue := rest } } node
      depth = popped) :
    popped.Recorded depth (done ++ [(node, depth)]) ∧
      popped.admission = { bfs.admission with queue := rest } := by
  have kept : BfsState.Recorded { bfs with admission := { bfs.admission with queue := rest } }
      current done :=
    ⟨between.recorded.visited, between.recorded.depths, between.recorded.currentDepth,
      between.recorded.levels, between.recorded.currentLevel⟩
  subst records
  refine ⟨kept.record between.finds.toFifoOrder, ?_⟩
  simp only [BfsState.record]
  split <;> rfl

/-- The step that takes the next node. -/
theorem SearchPhase.Holds.pop {deltaEmpty : Bool} (stores : call.graph.Stores base)
    (holds : (SearchPhase.looping deltaEmpty bfs).Holds call base always sometimes) :
    ∃ after, SearchPhase.pop call deltaEmpty bfs = .ok after ∧
      after.Holds call base always sometimes ∧
      (SearchPhase.looping deltaEmpty bfs).Nears call after := by
  obtain ⟨⟨current, done, waiting, between⟩, still⟩ := holds
  cases waiting with
  | nil =>
    refine ⟨.finished bfs.result, ?_, ⟨current, done, ?_, ?_⟩, .inl trivial⟩
    · simp only [SearchPhase.pop, between.queue, Checked.pure_eq_ok]
    · have recorded := between.recorded
      refine ⟨recorded.visited, recorded.depths, ?_, ?_⟩
      · exact recorded.currentDepth.trans between.finds.last.symm
      · rw [BfsState.result, recorded.currentDepth]
        exact recorded.closed_levels between.finds.toFifoOrder
    · have finds := between.finds
      rw [between.shows.admitted, List.append_nil, List.length_map] at finds
      exact finds
  | cons entry rest =>
    obtain ⟨node, depth⟩ := entry
    obtain ⟨popped, records⟩ : ∃ popped, BfsState.record
        { bfs with admission := { bfs.admission with queue := rest } } node depth = popped :=
      ⟨_, rfl⟩
    obtain ⟨recorded, admission⟩ := between.record records
    have shown : popped.admission.Shows base.rows.length
        ((done ++ (node, depth) :: rest).map Prod.fst) := by
      rw [admission]
      exact ⟨between.shows.tracker, between.shows.admitted⟩
    have finds : call.Finds always sometimes popped.admission.admitted current done
        ((node, depth) :: rest) := by
      rw [admission]
      exact between.finds
    have queue : popped.admission.queue = rest := by rw [admission]
    have visits : bfs.visited.length < popped.visited.length := by
      rw [recorded.visited, between.recorded.visited, List.length_map, List.length_map,
        List.length_append]
      exact Nat.lt_succ_self _
    simp only [SearchPhase.pop, between.queue, records]
    by_cases cut : call.maxDepth ≤ depth ∨ call.maxNodes ≤ popped.admission.admitted
    · refine ⟨.looping deltaEmpty popped, by rw [if_pos cut, Checked.pure_eq_ok],
        ⟨⟨depth, done ++ [(node, depth)], rest, ?_⟩, still⟩, .inr (.inl visits)⟩
      have closed := recorded.closes popped.admission [] finds
        (by simpa using queue) (by simpa using shown) List.nodup_nil (by simp) (by simp)
        (fun room low => by omega)
      simpa using closed
    · have low : depth < call.maxDepth := Nat.lt_of_not_le fun deep => cut (.inl deep)
      cases deltaEmpty with
      | true =>
        have static := still rfl
        obtain ⟨neighbors, filtered, after, sliced, kept, admitted, reached⟩ :=
          stores.expand_base call.backend call.maxNodes node depth shown
        have new : ∀ w ∈ (newNodes ((done ++ (node, depth) :: rest).map Prod.fst)
            (base.targets node)).take (call.maxNodes -
              ((done ++ (node, depth) :: rest).map Prod.fst).length),
            w ∈ base.targets node ∧ w ∉ (done ++ (node, depth) :: rest).map Prod.fst :=
          fun w member => mem_newNodes.mp (List.mem_of_mem_take member)
        have grows : popped.admission.admitted ≤ after.admitted := by
          rw [shown.admitted, reached.shows.admitted, List.length_append]
          exact Nat.le_add_right _ _
        refine ⟨.looping true { popped with admission := after }, ?_, ⟨⟨depth,
          done ++ [(node, depth)], _, recorded.closes after _
            (finds.mono (fun _ _ => id) (fun _ _ => id) grows) (queue ▸ reached.queue)
            reached.shows ((newNodes_nodup _ _).sublist (List.take_sublist _ _))
            (fun w member => (new w member).2)
            (fun w member => ⟨low, static.listed node w (new w member).1⟩) ?_⟩, still⟩,
          .inr (.inl visits)⟩
        · simp only [if_neg cut, if_true, sliced, kept, admitted, Checked.ok_bind,
            Checked.pure_eq_ok]
        · intro room _ w stays
          exact (List.mem_append.mp (reached.mem_of_room room (static.present node w stays))).symm
      | false =>
        obtain ⟨baseIter, started, pending⟩ := stores.baseNeighbors_eq node
        refine ⟨.collecting popped node depth baseIter 0 [], ?_, ⟨⟨current, done, rest, ?_⟩, pending,
          by simp, fun w _ early => absurd early (Nat.not_lt_zero _)⟩, .inr (.inl visits)⟩
        · simp only [if_neg cut, Bool.false_eq_true, if_false, started, Checked.ok_bind,
            Checked.pure_eq_ok]
        · exact ⟨low, recorded, by simpa using queue, by simpa using shown, finds, List.nodup_nil,
            by simp, by simp⟩

/-- A step of listing the inserted targets. -/
theorem SearchPhase.Holds.collect {delta : DeltaLayer} {baseIter : BaseNeighborIter} {next : ℕ}
    {found : List ℕ}
    (holds : (SearchPhase.collecting bfs node depth baseIter next found).Holds call base always
      sometimes) (sees : Sees base always sometimes delta) :
    ∃ after, (SearchPhase.collecting bfs node depth baseIter next found).advance call delta =
        .ok after ∧ after.Holds call base always sometimes ∧
      (SearchPhase.collecting bfs node depth baseIter next found).Nears call after := by
  obtain ⟨⟨current, done, rest, within⟩, pending, edges, complete⟩ := holds
  by_cases inside : next < (call.parts .insertions).count
  · refine ⟨.collecting bfs node depth baseIter (next + 1)
        (found ++ delta.neighborsIn call.parts node next), by
      simp only [SearchPhase.advance, inside, if_true, Checked.pure_eq_ok],
      ⟨⟨current, done, rest, within⟩, pending, ?_, ?_⟩,
      .inr (.inr ⟨rfl, by simp only [SearchPhase.stage]; omega⟩)⟩
    · intro w member
      rcases List.mem_append.mp member with old | new
      · exact edges w old
      · exact sees.listed_of_inserted (DeltaLayer.mem_neighborsIn.mp new).1
    · intro w stays early
      rcases Nat.lt_succ_iff_lt_or_eq.mp early with earlier | here
      · exact (complete w stays earlier).imp_left (List.mem_append_left _)
      · by_cases inserted : (node, w) ∈ delta.insertions
        · refine .inl (List.mem_append_right _ ?_)
          exact DeltaLayer.mem_neighborsIn.mpr ⟨inserted, here⟩
        · exact .inr (sees.target_of_notMem stays inserted)
  · refine ⟨.yielding bfs node depth baseIter [] found, by
      simp only [SearchPhase.advance, inside, if_false, Checked.pure_eq_ok],
      ⟨current, done, rest, [], [], within, pending.symm, by simp, by simp, edges, ?_⟩,
      .inr (.inr ⟨rfl, by simp only [SearchPhase.stage]; omega⟩)⟩
    intro w stays
    exact complete w stays (((call.parts .insertions).inside _).trans_le (Nat.le_of_not_lt inside))

/-- The step that admits the next neighbor. -/
theorem SearchPhase.Holds.yieldNext {delta : DeltaLayer} {baseIter : BaseNeighborIter}
    {seen inserted : List ℕ}
    (holds : (SearchPhase.yielding bfs node depth baseIter seen inserted).Holds call base always
      sometimes) (sees : Sees base always sometimes delta) :
    ∃ after, SearchPhase.yieldNext call delta bfs node depth baseIter seen inserted = .ok after ∧
      after.Holds call base always sometimes ∧
      (SearchPhase.yielding bfs node depth baseIter seen inserted).Nears call after := by
  obtain ⟨current, done, rest, fresh, yielded, within, targets, known, passed, edges, complete⟩ :=
    holds
  cases pending : baseIter.pending with
  | nil =>
    -- the inserted targets that the base part has not yielded close the row
    rw [pending, List.append_nil] at targets
    obtain ⟨after, admitted, reached⟩ := admitNeighbors_eq call.maxNodes (depth + 1) 1
      (inserted.filter fun neighbor => decide (neighbor ∉ seen)) within.shows
    have new : ∀ w ∈ (newNodes ((done ++ (node, depth) :: rest).map Prod.fst ++ fresh)
        (inserted.filter fun neighbor => decide (neighbor ∉ seen))).take (call.maxNodes -
          ((done ++ (node, depth) :: rest).map Prod.fst ++ fresh).length),
        w ∈ inserted ∧ w ∉ (done ++ (node, depth) :: rest).map Prod.fst ++ fresh := by
      intro w member
      obtain ⟨listed, unknown⟩ := mem_newNodes.mp (List.mem_of_mem_take member)
      exact ⟨(List.mem_filter.mp listed).1, unknown⟩
    have whole := within.admits reached ((newNodes_nodup _ _).sublist (List.take_sublist _ _))
      (fun w member => (new w member).2) fun w member => edges w (new w member).1
    refine ⟨.looping false { bfs with admission := after }, ?_, ⟨⟨depth, done ++ [(node, depth)], _,
      whole.close ?_⟩, nofun⟩, .inr (.inr ⟨rfl, Nat.succ_pos _⟩)⟩
    · simp only [SearchPhase.yieldNext, BaseNeighborIter.next_of_pending_nil pending, admitted,
        Checked.ok_bind, Checked.pure_eq_ok]
    · intro room w stays
      rw [← List.append_assoc]
      by_cases yieldedBefore : w ∈ seen
      · exact List.mem_append_left _ (known w yieldedBefore)
      · rcases complete w stays with listed | target
        · refine reached.mem_of_room room (List.mem_filter.mpr ⟨listed, ?_⟩)
          exact decide_eq_true yieldedBefore
        · rcases passed w (targets ▸ target) with before | gone
          · exact absurd before yieldedBefore
          · exact absurd stays gone
  | cons neighbor left =>
    obtain ⟨iter, next, remaining⟩ := BaseNeighborIter.next_of_pending_cons pending
    have split : base.targets node = (yielded ++ [neighbor]) ++ iter.pending := by
      rw [targets, pending, remaining, List.append_assoc, List.singleton_append]
    have target : neighbor ∈ base.targets node := by
      rw [targets, pending]
      exact List.mem_append_right _ List.mem_cons_self
    have shorter : iter.pending.length < baseIter.pending.length := by
      rw [pending, remaining]
      exact Nat.lt_succ_self _
    simp only [SearchPhase.yieldNext, next]
    by_cases deleted : delta.isDeleted node neighbor = true
    · refine ⟨.yielding bfs node depth iter seen inserted, by
        rw [if_pos deleted, Checked.pure_eq_ok],
        ⟨current, done, rest, fresh, yielded ++ [neighbor], within, split, known, ?_, edges,
          complete⟩, .inr (.inr ⟨rfl, Nat.succ_lt_succ shorter⟩)⟩
      intro w member
      rcases List.mem_append.mp member with early | here
      · exact passed w early
      · obtain rfl := List.mem_singleton.mp here
        refine .inr fun stays => (sees.present node w stays).1 ?_
        exact (delta.isDeleted_eq_true node w).mp deleted
    · have edge : sometimes node neighbor := by
        refine sees.listed_of_target target fun gone => deleted ?_
        exact (delta.isDeleted_eq_true node neighbor).mpr gone
      rw [if_neg deleted]
      obtain ⟨counted, counts⟩ : ∃ counted, { bfs.admission with
          edgesExamined := bfs.admission.edgesExamined + 1 } = counted := ⟨_, rfl⟩
      have admitted : counted.admitted = bfs.admission.admitted := by rw [← counts]
      have queued : counted.queue = bfs.admission.queue := by rw [← counts]
      have shown : counted.Shows base.rows.length
          ((done ++ (node, depth) :: rest).map Prod.fst ++ fresh) := by
        rw [← counts]
        exact ⟨within.shows.tracker, within.shows.admitted⟩
      simp only [counts]
      by_cases full : call.maxNodes ≤ bfs.admission.admitted
      · have stopped := within.admits (shown.extends_nil (depth + 1) |>.of_queue queued)
          List.nodup_nil (by simp) (by simp)
        refine ⟨.looping false { bfs with admission := counted }, by
          rw [if_pos full, Checked.pure_eq_ok], ⟨⟨depth, done ++ [(node, depth)], _,
          stopped.close fun room => absurd (admitted ▸ room) (Nat.not_lt_of_le full)⟩, nofun⟩,
          .inr (.inr ⟨rfl, Nat.succ_pos _⟩)⟩
      · have passes : ∀ w ∈ yielded ++ [neighbor], w ∈ neighbor :: seen ∨ ¬ always node w := by
          intro w member
          rcases List.mem_append.mp member with early | here
          · exact (passed w early).imp_left (List.mem_cons_of_mem _)
          · obtain rfl := List.mem_singleton.mp here
            exact .inl List.mem_cons_self
        obtain ⟨after, new, admits, reached, nodup, unknown, only, listed⟩ :=
          shown.admitNode_eq neighbor (depth + 1)
        refine ⟨.yielding { bfs with admission := after } node depth iter (neighbor :: seen)
          inserted, by rw [if_neg full, admits, Checked.ok_bind, Checked.pure_eq_ok],
          ⟨current, done, rest, _, yielded ++ [neighbor],
            within.admits (reached.of_queue queued) nodup unknown
              (fun w member => only w member ▸ edge), split, ?_, passes, edges, complete⟩,
          .inr (.inr ⟨rfl, Nat.succ_lt_succ shorter⟩)⟩
        intro w member
        rw [← List.append_assoc]
        rcases List.mem_cons.mp member with rfl | before
        · exact listed
        · exact List.mem_append_left _ (known w before)

/-- **A step of the search keeps what holds of it, and no step fails.** -/
theorem SearchPhase.Holds.advance (stores : call.graph.Stores base) {delta : DeltaLayer}
    (holds : phase.Holds call base always sometimes) (sees : Sees base always sometimes delta) :
    ∃ after, phase.advance call delta = .ok after ∧ after.Holds call base always sometimes ∧
      phase.Nears call after := by
  cases phase with
  | checking half next empty bfs => exact holds.check sees
  | looping deltaEmpty bfs => exact holds.pop stores
  | collecting bfs node depth baseIter next found => exact holds.collect sees
  | yielding bfs node depth baseIter seen inserted => exact holds.yieldNext sees
  | finished result => exact ⟨.finished result, rfl, holds, .inl trivial⟩

/-- What holds when the start nodes are admitted. -/
theorem SearchPhase.start_eq (always sometimes : ℕ → ℕ → Prop) (stores : call.graph.Stores base) :
    ∃ phase, SearchPhase.start call = .ok phase ∧ phase.Holds call base always sometimes := by
  obtain ⟨admission, admitted, follows⟩ :=
    stores.follows_of_starts call.starts call.maxDepth call.maxNodes
  have count := follows.shows.admitted
  simp only [BfsState.new, List.nil_append, List.map_map, List.length_map] at count
  have finds : call.Finds always sometimes admission.admitted 0 []
      ((call.graph.admittedStarts call.starts call.maxNodes).map fun start => (start, 0)) := by
    refine .of_starts (call.graph.admittedStarts_nodup _ _)
      (fun _ member => CsrGraph.contains_of_mem_admittedStarts member) fun room s isStart => ?_
    have found : s ∈ newNodes [] (call.starts.filter call.graph.contains) :=
      mem_newNodes.mpr ⟨List.mem_filter.mpr isStart, List.not_mem_nil⟩
    rw [count, CsrGraph.admittedStarts, List.length_take] at room
    rwa [CsrGraph.admittedStarts, List.take_of_length_le (by omega)]
  have between : BfsState.Between call base always sometimes (.new admission) 0 []
      ((call.graph.admittedStarts call.starts call.maxNodes).map fun start => (start, 0)) :=
    ⟨follows.recorded, follows.queue, follows.shows, finds⟩
  by_cases none : admission.queue.isEmpty = true
  · refine ⟨.finished .empty, by
      simp only [SearchPhase.start, admitted, Checked.ok_bind, none, if_true, Checked.pure_eq_ok],
      0, [], ⟨rfl, rfl, rfl, rfl⟩, ?_⟩
    have waiting : (call.graph.admittedStarts call.starts call.maxNodes).map (fun start => (start, 0))
        = [] := follows.queue ▸ List.isEmpty_iff.mp none
    rw [List.map_eq_nil_iff] at waiting
    rw [count, waiting] at finds
    exact finds
  · refine ⟨.checking .insertions 0 true (.new admission), by
      simp only [SearchPhase.start, admitted, Checked.ok_bind, none, if_false, Bool.false_eq_true,
        Checked.pure_eq_ok], ⟨_, between⟩, fun _ u w _ early => absurd early (Nat.not_lt_zero _)⟩

/-- A search visits no more nodes than there are. -/
theorem SearchPhase.Holds.visited_le (holds : phase.Holds call base always sometimes)
    {nodes : List ℕ} (starts : ∀ s, call.graph.IsStart call.starts s → s ∈ nodes)
    (targets : ∀ u w, sometimes u w → w ∈ nodes) : phase.visited.length ≤ nodes.length := by
  have within_le : ∀ {bfs : BfsState} {node depth current done rest fresh},
      bfs.Within call base always sometimes node depth current done rest fresh →
        bfs.visited.length ≤ nodes.length := by
    intro bfs node depth current done rest fresh within
    have bound := within.finds.length_le starts targets
    rw [within.recorded.visited, List.length_map, List.length_append]
    simp only [List.length_cons, List.length_nil] at bound ⊢
    omega
  have between_le : ∀ {bfs : BfsState} {current done waiting},
      bfs.Between call base always sometimes current done waiting →
        bfs.visited.length ≤ nodes.length := by
    intro bfs current done waiting between
    have bound := between.finds.length_le starts targets
    rw [between.recorded.visited, List.length_map]
    omega
  cases phase with
  | checking half next empty bfs =>
    obtain ⟨⟨waiting, between⟩, -⟩ := holds
    exact between_le between
  | looping deltaEmpty bfs =>
    obtain ⟨⟨current, done, waiting, between⟩, -⟩ := holds
    exact between_le between
  | collecting bfs node depth baseIter next found =>
    obtain ⟨⟨current, done, rest, within⟩, -⟩ := holds
    exact within_le within
  | yielding bfs node depth baseIter seen inserted =>
    obtain ⟨current, done, rest, fresh, yielded, within, -⟩ := holds
    exact within_le within
  | finished result =>
    obtain ⟨current, log, lists, finds⟩ := holds
    have bound := finds.length_le starts targets
    rw [SearchPhase.visited, lists.visited, List.length_map]
    omega

end Moments

/-! ## Runs -/

section Runs

variable {call : SearchCall} {base : BaseLayer} {start delta : DeltaLayer} {phase : SearchPhase}
  {actions : List SearchAction} {action : SearchAction} {state : RacingSearch} {u w : ℕ}

@[simp] theorem SearchAction.writes_snoc_write (op : MapOp) :
    writes (actions ++ [.write op]) = writes actions ++ [op] := by
  rw [writes, List.filterMap_append]
  rfl

@[simp] theorem SearchAction.writes_snoc_search :
    writes (actions ++ [.search]) = writes actions := by
  rw [writes, List.filterMap_append]
  exact List.append_nil _

/-- **What holds of a search beside writers**, after any of their steps. -/
theorem phase_holds_of_run (stores : call.graph.Stores base)
    (began : SearchPhase.start call = .ok phase)
    (run : Run (SearchStep call) ⟨start, phase⟩ actions state) :
    AtSomeMoment start (SearchAction.writes actions) state.delta ∧
      state.phase.Holds call base (call.graph.HasAlways start (SearchAction.writes actions))
        (call.graph.ListsSometime start (SearchAction.writes actions)) := by
  have now : state.delta = MapOp.runAll (SearchAction.writes actions) start ∧
      state.phase.Holds call base (call.graph.HasAlways start (SearchAction.writes actions))
        (call.graph.ListsSometime start (SearchAction.writes actions)) := by
    refine run.invariant (fun actions (state : RacingSearch) =>
      state.delta = MapOp.runAll (SearchAction.writes actions) start ∧
        state.phase.Holds call base (call.graph.HasAlways start (SearchAction.writes actions))
          (call.graph.ListsSometime start (SearchAction.writes actions))) ?_ ?_
    · obtain ⟨first, starts, holds⟩ := SearchPhase.start_eq _ _ stores
      obtain rfl := Except.ok.inj (began.symm.trans starts)
      exact ⟨rfl, holds⟩
    · intro actions state action next _ before moved
      obtain ⟨same, holds⟩ := before
      cases moved with
      | write op =>
        rw [SearchAction.writes_snoc_write]
        refine ⟨?_, holds.mono (fun _ _ => CsrGraph.HasAlways.earlier (List.prefix_append ..))
          (fun _ _ => CsrGraph.ListsSometime.later (List.prefix_append ..))⟩
        rw [MapOp.runAll, List.foldl_concat, ← MapOp.runAll, same]
      | search running does =>
        rw [SearchAction.writes_snoc_search]
        have moment : AtSomeMoment start (SearchAction.writes actions) state.delta := by
          rw [same]
          exact .now
        obtain ⟨after, advanced, kept, -⟩ := holds.advance stores (moment.sees stores)
        obtain rfl := Except.ok.inj (does.symm.trans advanced)
        exact ⟨same, kept⟩
  refine ⟨?_, now.2⟩
  rw [now.1]
  exact .now

/-- What a search returns that has run beside writers. -/
structure BfsResult.FoundBeside (result : BfsResult) (call : SearchCall) (start : DeltaLayer)
    (writes : List MapOp) : Prop where
  /-- No node is visited twice. -/
  visited_nodup : result.visited.Nodup
  length_depths : result.depths.length = result.visited.length
  depths_sorted : result.depths.Pairwise (· ≤ ·)
  /-- A visited node is reached, in as many steps as its depth, from a start by edges that
  the graph listed at some moment. -/
  sound : ∀ entry ∈ result.visited.zip result.depths, entry.2 ≤ call.maxDepth ∧
    entry.2 ∈ walkLengths (call.graph.ListsSometime start writes)
      (call.graph.IsStart call.starts) entry.1
  /-- A node that is reached within the depth limit by edges that the graph always had is
  visited, no deeper, unless the cap is reached. -/
  complete : result.visited.length < call.maxNodes → ∀ node, ∀ length ≤ call.maxDepth,
    length ∈ walkLengths (call.graph.HasAlways start writes) (call.graph.IsStart call.starts)
      node → ∃ depth ≤ length, (node, depth) ∈ result.visited.zip result.depths

/-- **A search beside writers finds what stays and nothing that never was.** From every start
of every reachable graph, under any map operations of writers between the reads of the
search: the search never fails, and what it returns lies between the edges that the graph
always had and those that it listed at some moment. -/
theorem search_beside_writers (call : SearchCall) (reachable : call.graph.Reachable) :
    ∃ phase, SearchPhase.start call = .ok phase ∧ ∀ start actions state,
      Run (SearchStep call) ⟨start, phase⟩ actions state →
        (¬ state.phase.Done → ∃ next, SearchStep call state .search next) ∧
        ∀ result, state.phase = .finished result →
          result.FoundBeside call start (SearchAction.writes actions) := by
  obtain ⟨base, stores⟩ := reachable.stores
  obtain ⟨phase, began, -⟩ :=
    SearchPhase.start_eq (fun _ _ => True) (fun _ _ => True) stores
  refine ⟨phase, began, fun start actions state run => ?_⟩
  obtain ⟨now, holds⟩ := phase_holds_of_run stores began run
  constructor
  · intro running
    obtain ⟨after, does, -⟩ := holds.advance stores (now.sees stores)
    exact ⟨_, .search running does⟩
  · intro result finished
    rw [finished] at holds
    obtain ⟨current, log, lists, finds⟩ := holds
    have length : result.visited.length = log.length := by rw [lists.visited, List.length_map]
    constructor
    · simpa [lists.visited] using finds.nodup
    · rw [length, lists.depths, List.length_map]
    · simpa [lists.depths] using finds.sorted
    · intro entry member
      rw [lists.zip_eq] at member
      exact finds.sound entry (by simpa using member)
    · rintro room node steps small ⟨s, isStart, walk⟩
      rw [lists.zip_eq]
      exact finds.exists_of_walk (length ▸ room) isStart walk small

/-- **Without a writer the steps of a search compute what the search function computes**: the
nodes within the depth limit with their distances. -/
theorem quiet_search_nodeDepths (reachable : call.graph.Reachable)
    (began : SearchPhase.start call = .ok phase) {result : BfsResult}
    (run : Run (SearchStep call) ⟨call.graph.delta, phase⟩ actions state)
    (quiet : SearchAction.writes actions = []) (finished : state.phase = .finished result)
    (room : result.visited.length < call.maxNodes) (target : Target) :
    ∃ alone, bfsBounded target call.graph call.starts call.maxDepth none = .ok alone ∧
      result.nodeDepths = alone.nodeDepths := by
  obtain ⟨base, stores⟩ := reachable.stores
  obtain ⟨alone, ran, distances⟩ :=
    reachable.bfsBounded_nodeDepths target call.starts call.maxDepth
  obtain ⟨-, holds⟩ := phase_holds_of_run stores began run
  rw [finished, quiet] at holds
  obtain ⟨current, log, lists, finds⟩ := holds
  have always : ∀ u w, call.graph.Edge u w → call.graph.HasAlways call.graph.delta [] u w := by
    intro u w edge delta moment
    rw [atSomeMoment_nil.mp moment]
    refine ((stores.withDelta _).hasEdge_eq reachable.disjoint u w).trans ?_
    exact congrArg Except.ok (decide_eq_true ((stores.edge_iff u w).mp edge))
  have sometimes : ∀ u w, call.graph.ListsSometime call.graph.delta [] u w →
      call.graph.Edge u w := by
    rintro u w ⟨delta, moment, edge⟩
    rwa [atSomeMoment_nil.mp moment] at edge
  have length : result.visited.length = log.length := by rw [lists.visited, List.length_map]
  refine ⟨alone, ran, ?_⟩
  rw [distances, BfsResult.nodeDepths, lists.zip_eq]
  ext entry
  exact (ChangingSearch.toFifoInvariant finds (length ▸ room) always sometimes).mem_iff

/-- **A search returns once the writers pause**: from every state that it can reach beside
them, finitely many steps of its own lead to a result. -/
theorem search_returns (reachable : call.graph.Reachable)
    (began : SearchPhase.start call = .ok phase)
    (run : Run (SearchStep call) ⟨start, phase⟩ actions state) :
    ∃ count final result, Run (SearchStep call) state (List.replicate count .search) final ∧
      final.phase = .finished result := by
  obtain ⟨base, stores⟩ := reachable.stores
  obtain ⟨now, holds⟩ := phase_holds_of_run stores began run
  obtain ⟨nodes, starts, targets⟩ : ∃ nodes : List ℕ,
      (∀ s, call.graph.IsStart call.starts s → s ∈ nodes) ∧
        ∀ u w, call.graph.ListsSometime start (SearchAction.writes actions) u w →
          w ∈ nodes := by
    refine ⟨_, fun s isStart => ?_, fun u w listed => stores.mem_of_listsSometime listed⟩
    exact List.mem_append_left _ (List.mem_range.mpr ((stores.contains_iff s).mp isStart.2))
  obtain ⟨count, final, ran, -, finished⟩ := Run.exists_replicate SearchAction.search
    (fun later : RacingSearch => later.delta = state.delta ∧ later.phase.Holds call base
      (call.graph.HasAlways start (SearchAction.writes actions))
      (call.graph.ListsSometime start (SearchAction.writes actions)))
    (fun later : RacingSearch => later.phase.Done)
    (fun later => (nodes.length - later.phase.visited.length, later.phase.stage call))
    (by
      rintro later ⟨still, holdsNow⟩ running
      obtain ⟨after, does, kept, nears⟩ := holdsNow.advance stores (still ▸ now.sees stores)
      have bound := kept.visited_le starts targets
      refine ⟨{ later with phase := after }, SearchStep.search running does, ⟨still, kept⟩, ?_⟩
      rcases nears with finished | more | ⟨equal, closer⟩
      · exact .inl finished
      · exact .inr (.left _ _ (Nat.sub_lt_sub_left (more.trans_le bound) more))
      · simp only [equal]
        exact .inr (.right _ closer))
    state ⟨rfl, holds⟩
  obtain ⟨delta, phase⟩ := final
  cases phase with
  | finished result => exact ⟨count, _, result, ran, rfl⟩
  | _ => exact finished.elim

end Runs

/-! ## A run -/

namespace RacingSearchSample

open CsrGraph

/-- A search from 0; the hash maps have two parts. -/
def call (graph : CsrGraph) : SearchCall where
  graph := graph
  backend := selectBackend (.x86_64 ⟨true, false⟩)
  starts := [0]
  maxDepth := 3
  maxNodes := usizeMax
  parts _ :=
    { count := 2, part := fun key => key.2 % 2, inside := fun key => Nat.mod_lt _ (by decide) }

/-- Two writes come between the reads of the search. -/
def actions : List SearchAction :=
  List.replicate 12 .search ++ [.write (.putTombstone (1, 2)),
    .write (.putInsertion (3, 7) .default)] ++ List.replicate 16 .search

def start : DeltaLayer := DeltaLayer.new.insert 0 5 .default

/-- What the search has visited at the end of the run. -/
def visits (graph : CsrGraph) : Option (List ℕ) :=
  (SearchPhase.start (call graph)).toOption.bind fun phase =>
    (RacingSearch.play (call graph) actions ⟨start, phase⟩).bind fun state =>
      match state.phase with
      | .finished result => some result.visited
      | _ => none

/-- The search misses the edge that is deleted before it is read, and finds the one that is
inserted. -/
theorem exists_run : ∃ graph phase state result, graph.Reachable ∧
    SearchPhase.start (call graph) = .ok phase ∧
    Run (SearchStep (call graph)) ⟨start, phase⟩ actions state ∧
    state.phase = .finished result ∧ result.visited = [0, 1, 5, 3, 7] := by
  have run : (buildAndMutate [(0, 1), (1, 2), (1, 3)] []).toOption.bind visits =
      some [0, 1, 5, 3, 7] := by decide +kernel
  cases built : buildAndMutate [(0, 1), (1, 2), (1, 3)] [] with
  | error fault => simp [built, Except.toOption] at run
  | ok graph =>
    have visited : visits graph = some [0, 1, 5, 3, 7] := by
      simpa [built, Except.toOption] using run
    cases began : SearchPhase.start (call graph) with
    | error fault => simp [visits, began, Except.toOption] at visited
    | ok phase =>
      simp only [visits, began, Except.toOption, Option.bind_some] at visited
      obtain ⟨state, plays, ends⟩ := Option.bind_eq_some_iff.mp visited
      split at ends
      · next result finished =>
        exact ⟨graph, phase, state, result, Reachable.of_buildAndMutate (by decide) built, began,
          RacingSearch.run_of_play plays, finished, Option.some.inj ends⟩
      · cases ends

end RacingSearchSample

/-- The search runs beside a writer that deletes one edge and inserts another. -/
theorem search_beside_writers_witness : ∃ (graph : CsrGraph) (result : BfsResult),
    result.visited = [0, 1, 5, 3, 7] ∧ result.FoundBeside (RacingSearchSample.call graph)
      RacingSearchSample.start (SearchAction.writes RacingSearchSample.actions) := by
  obtain ⟨graph, phase, state, result, reachable, began, run, finished, visited⟩ :=
    RacingSearchSample.exists_run
  obtain ⟨first, starts, correct⟩ :=
    search_beside_writers (RacingSearchSample.call graph) reachable
  obtain rfl := Except.ok.inj (began.symm.trans starts)
  exact ⟨graph, result, visited, (correct _ _ _ run).2 result finished⟩

/-- The search returns from the middle of that run, after the writes. -/
theorem search_returns_witness : ∃ (graph : CsrGraph) (phase : SearchPhase) (state : RacingSearch)
    (count : ℕ) (final : RacingSearch) (result : BfsResult),
    Run (SearchStep (RacingSearchSample.call graph)) ⟨RacingSearchSample.start, phase⟩
      (List.replicate 12 .search ++ [.write (.putTombstone (1, 2)),
        .write (.putInsertion (3, 7) .default)]) state ∧
    Run (SearchStep (RacingSearchSample.call graph)) state (List.replicate count .search) final ∧
      final.phase = .finished result := by
  obtain ⟨graph, phase, state, result, reachable, began, run, -, -⟩ := RacingSearchSample.exists_run
  obtain ⟨middle, early, -⟩ := run.split_append
  obtain ⟨count, final, returned, rest, finished⟩ := search_returns reachable began early
  exact ⟨graph, phase, middle, count, final, returned, early, rest, finished⟩

end FusionGraph
