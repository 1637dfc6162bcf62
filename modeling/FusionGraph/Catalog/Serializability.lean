import FusionGraph.Catalog.SerialSteps
import Mathlib.Data.List.Permutation

/-!
# Concurrent calls as serial ones

Any number of registry writes and compactions of one name run at the same time.
What the name shows in the end is what it shows after the same calls in some
order, one after the other, when every compaction still finds the name bound to
the entry that it has read at the moment at which it binds it, and no two
compactions of one graph share its delta layer between them
(`concurrent_calls_serializable`). The order has the registry writes as they
happened and all compactions at one place among them.

Neither condition is ensured: a compaction binds the name whatever has happened
to it since, and so brings back a name that has been removed
(`removed_name_comes_back`).
-/

set_option autoImplicit false

namespace FusionGraph

open Foundations RegistryWrite CatalogCall

variable {Dictionary : Type}

namespace SerialInvariant

variable {name : String} {initial : GraphCatalog Dictionary}
  {calls : List (CatalogCall Dictionary)} {log : List (RegistryWrite Dictionary)}
  {state : ConcurrentCatalog Dictionary} {index : ℕ}

/-- Before the first step a compaction looks its entry up. -/
theorem lookup_of_start {policy : CompactionPolicy} {call : CompactionCall}
    (found : (ConcurrentCatalog.start initial calls).threads[index]? =
      some (.compaction policy call)) : call = .lookup := by
  obtain ⟨made, -, same⟩ := List.mem_map.mp (List.mem_of_getElem? found)
  cases made with
  | write write => cases same
  | compactIfNeeded policy =>
    cases same
    rfl

/-- Before the first step. -/
theorem start (wellFormed : initial.WellFormed) :
    SerialInvariant name initial calls [] (.start initial calls) where
  writes := by
    rw [ConcurrentCatalog.start, List.filterMap_map, List.nil_append]
    refine (List.filterMap_congr fun call _ => ?_).symm ▸ .refl _
    cases call <;> rfl
  policies := by
    rw [ConcurrentCatalog.start, List.filterMap_map]
    refine List.filterMap_congr fun call _ => ?_
    cases call <;> rfl
  bound := wellFormed.bound name
  forward := wellFormed.forward
  grown := le_rfl
  clean ref fresh used := absurd used fresh.not_gt
  held index policy call found := by
    obtain rfl := lookup_of_start found
    trivial
  absent none := Option.map_eq_none_iff.mp none
  shown ref bound := by
    obtain ⟨entry, found, rfl⟩ := Option.map_eq_some_iff.mp bound
    exact ⟨wellFormed.forward entry (wellFormed.bound name entry found), .inl bound⟩
  status ref used := by
    refine .inl ⟨fun _ => rfl, id, fun index policy call found => ?_⟩
    obtain rfl := lookup_of_start found
    trivial

/-- **Every step that keeps apart** keeps the invariant. -/
theorem step (invariant : SerialInvariant name initial calls log state)
    {next : ConcurrentCatalog Dictionary}
    (moved : CatalogStep (ConcurrentCatalog.Exclusive name) name state index next)
    (inUse : ∀ call ∈ calls, call.InUse initial)
    (sound : ∀ ref < initial.graphCount, (initial.graphs ref).Sound) :
    ∃ log, SerialInvariant name initial calls log next := by
  obtain ⟨exclusive, rfl⟩ := moved
  rw [ConcurrentCatalog.step]
  cases here : state.threads[index]? with
  | none => exact ⟨log, invariant⟩
  | some thread =>
    cases thread with
    | written =>
      have same : state.threads.set index .written = state.threads := by
        obtain ⟨inside, own⟩ := List.getElem?_eq_some_iff.mp here
        rw [← own, List.set_getElem_self]
      simp only [CatalogThread.step]
      rw [same]
      exact ⟨log, invariant⟩
    | write write =>
      refine ⟨log ++ [write], invariant.write here fun ref target => ?_⟩
      have pending : write ∈ calls.filterMap asWrite := by
        refine invariant.writes.symm.subset (List.mem_append_right _ ?_)
        exact List.mem_filterMap.mpr ⟨_, List.mem_of_getElem? here, rfl⟩
      obtain ⟨call, made, same⟩ := List.mem_filterMap.mp pending
      exact inUse call made write ref same target
    | compaction policy call => exact ⟨log, invariant.compaction here exclusive sound⟩

/-- No registry write is left when all calls have returned. -/
theorem writes_finished (invariant : SerialInvariant name initial calls log state)
    (finished : state.Finished) : (calls.filterMap asWrite).Perm log := by
  have none : state.threads.filterMap CatalogThread.pendingWrite = [] := by
    refine List.filterMap_eq_nil_iff.mpr fun thread member => ?_
    cases thread with
    | write write => exact (finished _ member).elim
    | written => rfl
    | compaction policy call => rfl
  have all := invariant.writes
  rwa [none, List.append_nil] at all

/-- When nobody has taken anything from the graph that the name is bound to, no
compaction found it due, or there was a time when the name was not bound to it. -/
theorem spared_finished (invariant : SerialInvariant name initial calls log state)
    (finished : state.Finished) {ref : GraphRef} (used : ref < initial.graphCount)
    (whole : Whole name initial log ref state) :
    Elsewhere (initial.get name) log ref ∨
      ∀ policy ∈ calls.filterMap asPolicy, (initial.graphs ref).shouldCompact policy = false := by
  by_cases elsewhere : Elsewhere (initial.get name) log ref
  · exact .inl elsewhere
  · refine .inr fun policy member => ?_
    rw [← invariant.policies, List.mem_filterMap] at member
    obtain ⟨thread, member, same⟩ := member
    cases thread with
    | write write => cases same
    | written => cases same
    | compaction made call =>
      cases same
      obtain ⟨index, here⟩ := List.mem_iff_getElem?.mp member
      obtain ⟨result, rfl⟩ := finished _ member
      rw [← whole.graph used]
      exact (whole.spares index _ _ here).resolve_right elsewhere

/-- The owner of a graph has taken all its mutations. It has failed, or what it has
bound the name to is or was shown. -/
theorem taken_finished (finished : state.Finished) {ref : GraphRef} {owner : ℕ}
    (taken : Taken name initial log ref (calls.filterMap asPolicy) state owner) :
    state.catalog.graphs ref = (initial.graphs ref).withDelta .new ∧
      ((∀ compacted, (initial.graphs ref).rebuildAll ≠ .ok compacted) ∨
        Settled name initial log state.catalog ref) := by
  obtain ⟨insertions, same⟩ := taken.graph
  obtain ⟨policy, call, here, owns⟩ := taken.owns
  obtain ⟨result, rfl⟩ := finished _ (List.mem_of_getElem? here)
  have outcome : (state.catalog.graphs ref).delta.insertions = ∅ ∧
      ((∀ compacted, (initial.graphs ref).rebuildAll ≠ .ok compacted) ∨
        Settled name initial log state.catalog ref) := by
    match result with
    | .ok true => exact owns.imp_right .inr
    | .ok false => exact owns.elim
    | .error fault => exact owns.imp_right .inl
  obtain ⟨empty, outcome⟩ := outcome
  refine ⟨?_, outcome⟩
  rw [same, CsrGraph.delta_withDelta] at empty
  rw [same, show insertions = ∅ from empty]
  rfl

/-- **What the name shows when all calls have returned** is what a serial order of the
calls shows. -/
theorem serializable (invariant : SerialInvariant name initial calls log state)
    (finished : state.Finished)
    (sound : ∀ ref < initial.graphCount, (initial.graphs ref).Sound) :
    ∃ order : List (CatalogCall Dictionary), order.Perm calls ∧
      (initial.runCalls name order).binding name = state.catalog.binding name := by
  have writes := invariant.writes_finished finished
  cases root : boundAfter (initial.get name) log with
  | none =>
    rw [GraphCatalog.binding, GraphCatalog.get, invariant.absent root]
    exact GraphCatalog.exists_order_absent writes root
  | some ref =>
    obtain ⟨used, graph⟩ := invariant.shown ref root
    rcases invariant.status ref (used.trans_le invariant.grown) with whole | ⟨owner, taken⟩
    · rw [GraphCatalog.binding_of_get (whole.shown root), whole.graph used]
      exact GraphCatalog.exists_order_untouched writes root used
        (invariant.spared_finished finished used whole)
    · have soundRef := sound ref used
      obtain ⟨emptied, outcome⟩ := taken_finished finished taken
      -- the graph without its mutations, a rebuild with all of them, or one with none
      rcases graph with get | ⟨copy, get, fresh, rebuilt | rebuilt⟩
      · rw [GraphCatalog.binding_of_get get, emptied]
        refine GraphCatalog.exists_order_emptied writes root used taken.due (outcome.imp_right ?_)
        rintro (rebound | ⟨-, copy, shown, fresh, -⟩)
        · exact rebound
        · obtain rfl := Option.some.inj (get.symm.trans shown)
          exact absurd used fresh.not_gt
      · rw [GraphCatalog.binding_of_get get, soundRef.hasEdge_rebuildAll rebuilt]
        exact GraphCatalog.exists_order_compacted writes root soundRef rebuilt
      · rw [GraphCatalog.binding_of_get get]
        rcases outcome with fails | rebound | ⟨-, copy, shown, -, rebuiltAll⟩
        · rw [soundRef.hasEdge_rebuild_nil rebuilt]
          exact GraphCatalog.exists_order_emptied writes root used taken.due (.inl fails)
        · rw [soundRef.hasEdge_rebuild_nil rebuilt]
          exact GraphCatalog.exists_order_emptied writes root used taken.due (.inr rebound)
        · obtain rfl := Option.some.inj (get.symm.trans shown)
          rw [soundRef.hasEdge_rebuildAll rebuiltAll]
          exact GraphCatalog.exists_order_compacted writes root soundRef rebuiltAll

end SerialInvariant

/-- **Concurrent calls on one name are serializable** when every compaction binds the
name only while it is bound to the entry that it has read, and no two compactions share
the delta layer of a graph between them: what the name shows in the end is what it
shows after the same calls in some order, one after the other. -/
theorem concurrent_calls_serializable {name : String} {catalog : GraphCatalog Dictionary}
    {calls : List (CatalogCall Dictionary)} {actions : List ℕ}
    {final : ConcurrentCatalog Dictionary} (wellFormed : catalog.WellFormed)
    (reachable : ∀ ref < catalog.graphCount, (catalog.graphs ref).Reachable)
    (inUse : ∀ call ∈ calls, call.InUse catalog)
    (run : Run (CatalogStep (ConcurrentCatalog.Exclusive name) name) (.start catalog calls) actions
      final)
    (finished : final.Finished) :
    ∃ order : List (CatalogCall Dictionary), order.Perm calls ∧
      (catalog.runCalls name order).binding name = final.catalog.binding name := by
  have sound : ∀ ref < catalog.graphCount, (catalog.graphs ref).Sound :=
    fun ref used => (reachable ref used).sound
  obtain ⟨log, invariant⟩ := run.invariant
    (fun _ state => ∃ log, SerialInvariant name catalog calls log state)
    ⟨[], .start wellFormed⟩ fun _ ⟨_, before⟩ moved => before.step moved inUse sound
  exact invariant.serializable finished sound

/-! ## Two runs -/

namespace ConcurrentCatalog

variable (name : String) (state : ConcurrentCatalog Dictionary) (index : ℕ)

/-- A test for the end of all calls. -/
def finished : Bool :=
  state.threads.all fun
    | .write _ => false
    | .written => true
    | .compaction _ call => call.returned

/-- A test for steps that keep apart. -/
def keepsApart : Bool :=
  match state.threads[index]? with
  | some (.compaction _ (.running entry [] (.swap _))) =>
    decide (state.catalog.entry name = some entry)
  | some (.compaction _ (.running _ [] (.drainInsertions _))) =>
    (List.range state.threads.length).all fun other =>
      decide (other = index) || match state.threads[other]? with
        | some (.compaction _ (.running _ [] (.drainInsertions held))) => held.isEmpty
        | _ => true
  | _ => true

variable {name state index}

theorem finished_of_test (passes : state.finished = true) : state.Finished := by
  intro thread member
  have returned := List.all_eq_true.mp passes thread member
  match thread with
  | .written => trivial
  | .compaction policy (.done result) => exact ⟨result, rfl⟩
  | .compaction policy .lookup => cases returned
  | .compaction policy (.running entry removals phase) => cases returned

theorem exclusive_of_test (passes : state.keepsApart name index = true) :
    state.Exclusive name index where
  swap policy entry compacted here := by
    simp only [keepsApart, here] at passes
    exact of_decide_eq_true passes
  drain policy entry deletions here _ other policyOther entryOther held different found _ := by
    simp only [keepsApart, here, List.all_eq_true, List.mem_range] at passes
    obtain ⟨inside, -⟩ := List.getElem?_eq_some_iff.mp found
    have empty := passes other inside
    rw [found, decide_eq_false different, Bool.false_or] at empty
    exact List.isEmpty_iff.mp empty

end ConcurrentCatalog

theorem GraphCatalog.wellFormed_registering (graph : CsrGraph) (name : String) :
    (GraphCatalog.registering graph name).WellFormed where
  bound other entry found := by
    by_cases same : other = name
    · subst same
      rw [registering, register, entry_bindEntry] at found
      obtain rfl := Option.some.inj found
      exact Nat.lt_succ_self _
    · have absent : (registering graph name).entry other = none :=
        (AList.lookup_insert_ne same).trans (AList.lookup_empty other)
      cases absent.symm.trans found
  forward entry inUse := by
    obtain rfl : entry = 0 := Nat.lt_one_iff.mp inUse
    exact Nat.zero_lt_one

theorem concurrent_calls_serializable_witness :
    ∃ (graph : CsrGraph) (final : ConcurrentCatalog Unit),
    CsrGraph.buildAndMutate [(0, 1)] [.insert 1 2 .default, .delete 0 1] = .ok graph ∧
    Run (CatalogStep (ConcurrentCatalog.Exclusive "g") "g")
      (.start (.registering graph "g")
        [.compactIfNeeded .eager, .write (.register 0), .compactIfNeeded .eager])
      [0, 0, 0, 0, 2, 0, 2, 2, 0, 0, 0, 0, 1] final ∧
    final.Finished ∧ ∃ order : List (CatalogCall Unit),
      order.Perm [.compactIfNeeded .eager, .write (.register 0), .compactIfNeeded .eager] ∧
      ((GraphCatalog.registering graph "g").runCalls "g" order).binding "g" =
        final.catalog.binding "g" := by
  obtain ⟨graph, built, passes⟩ := Checked.exists_of_passes
    (show (CsrGraph.buildAndMutate [(0, 1)] [.insert 1 2 .default, .delete 0 1]).passes
      (fun graph =>
        let start := ConcurrentCatalog.start (.registering graph "g")
          [.compactIfNeeded .eager, .write (.register 0), .compactIfNeeded .eager]
        let actions := [0, 0, 0, 0, 2, 0, 2, 2, 0, 0, 0, 0, 1]
        plays (ConcurrentCatalog.keepsApart "g") (ConcurrentCatalog.step .atomic "g") start
            actions &&
          (actions.foldl (ConcurrentCatalog.step .atomic "g") start).finished) = true by
      decide +kernel)
  obtain ⟨played, finished⟩ := (Bool.and_eq_true _ _).mp passes
  have apart : ∀ (state : ConcurrentCatalog Unit) index, state.keepsApart "g" index = true →
      CatalogStep (ConcurrentCatalog.Exclusive "g") "g" state index
        (state.step .atomic "g" index) :=
    fun _ _ passes => ⟨ConcurrentCatalog.exclusive_of_test passes, rfl⟩
  have run := Run.of_plays apart played
  have done := ConcurrentCatalog.finished_of_test finished
  refine ⟨graph, _, built, run, done, concurrent_calls_serializable
    (GraphCatalog.wellFormed_registering graph "g") (fun ref used => ?_) ?_ run done⟩
  · obtain rfl : ref = 0 := Nat.lt_one_iff.mp used
    exact .of_buildAndMutate (by decide) built
  · intro call member write ref made target
    simp only [List.mem_cons, List.not_mem_nil, or_false] at member
    rcases member with rfl | rfl | rfl
    · cases made
    · cases made
      cases target
      exact Nat.zero_lt_one
    · cases made

/-- A compaction reads the entry of the name, then the name is removed, and then the
compaction binds it to the rebuilt graph. In either order of the two calls the name is
not bound in the end. -/
theorem removed_name_comes_back : ∃ (graph : CsrGraph) (final : ConcurrentCatalog Unit),
    CsrGraph.buildAndMutate [(0, 1)] [.insert 1 2 .default] = .ok graph ∧ graph.Reachable ∧
    (GraphCatalog.registering graph "g").WellFormed ∧
    Run (CatalogStep (fun _ _ => True) "g")
      (.start (.registering graph "g") [.compactIfNeeded .eager, .write .deregister])
      [0, 1, 0, 0, 0, 0, 0, 0, 0, 0] final ∧
    final.Finished ∧ ∀ order : List (CatalogCall Unit),
      order.Perm [.compactIfNeeded .eager, .write .deregister] →
      ((GraphCatalog.registering graph "g").runCalls "g" order).binding "g" ≠
        final.catalog.binding "g" := by
  obtain ⟨graph, built, passes⟩ := Checked.exists_of_passes
    (show (CsrGraph.buildAndMutate [(0, 1)] [.insert 1 2 .default]).passes (fun graph =>
        let start := ConcurrentCatalog.start (.registering graph "g")
          [.compactIfNeeded .eager, .write .deregister]
        let actions := [0, 1, 0, 0, 0, 0, 0, 0, 0, 0]
        (actions.foldl (ConcurrentCatalog.step .atomic "g") start).finished &&
          ((actions.foldl (ConcurrentCatalog.step .atomic "g") start).catalog.get "g").isSome) =
            true by decide +kernel)
  have any : ∀ (state : ConcurrentCatalog Unit) (index : ℕ),
      CatalogStep (fun _ _ => True) "g" state index (state.step .atomic "g" index) :=
    fun _ _ => ⟨trivial, rfl⟩
  have run := Run.of_foldl any [0, 1, 0, 0, 0, 0, 0, 0, 0, 0]
    (.start (.registering graph "g") [.compactIfNeeded .eager, .write .deregister])
  obtain ⟨finished, bound⟩ := (Bool.and_eq_true _ _).mp passes
  generalize List.foldl (ConcurrentCatalog.step .atomic "g") _ _ = final at run finished bound
  obtain ⟨ref, bound⟩ := Option.isSome_iff_exists.mp bound
  refine ⟨graph, final, built, .of_buildAndMutate (by decide) built,
    GraphCatalog.wellFormed_registering graph "g", run,
    ConcurrentCatalog.finished_of_test finished, fun order same => ?_⟩
  rw [GraphCatalog.binding_of_get bound]
  suffices absent : ((GraphCatalog.registering graph "g").runCalls "g" order).get "g" = none by
    simp [GraphCatalog.binding, absent]
  have orders := List.mem_permutations'.mpr same
  simp only [List.permutations', List.mem_flatMap, exists_eq_left, List.permutations'Aux,
    List.map_cons, List.map_nil, List.mem_cons, List.not_mem_nil, or_false] at orders
  rcases orders with rfl | rfl
  · -- the name is removed last
    exact (GraphCatalog.run_write _ "g" .deregister).1
  · -- the compaction finds no entry
    have removed := (GraphCatalog.run_write (.registering graph "g") "g" .deregister).1
    rw [GraphCatalog.runCalls_cons, GraphCatalog.runCalls_cons, CatalogCall.run, CatalogCall.run,
      GraphCatalog.compactIfNeeded_of_not_due fun ref here => ?_]
    · exact removed
    · cases removed.symm.trans here

end FusionGraph
