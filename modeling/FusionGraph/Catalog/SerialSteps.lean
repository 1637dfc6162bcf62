import FusionGraph.Catalog.SerialInvariant

/-!
# The steps of concurrent compactions

Every step of a registry write and every step of a compaction that keeps apart
from the others (`ConcurrentCatalog.Exclusive`) keeps `SerialInvariant`. Most
steps change no graph and bind nothing (`SerialInvariant.advance`); the others
are the registry writes, the drains that find something and the binding of the
name to a rebuilt graph.
-/

set_option autoImplicit false

namespace FusionGraph

open Foundations RegistryWrite CatalogCall

variable {Dictionary : Type}

/-! ## The invariant step by step -/

namespace SerialInvariant

variable {name : String} {initial catalog : GraphCatalog Dictionary}
  {calls : List (CatalogCall Dictionary)} {log : List (RegistryWrite Dictionary)}
  {state : ConcurrentCatalog Dictionary} {index : ℕ} {policy : CompactionPolicy}
  {call moved : CompactionCall}

/-- The threads after a step of one of them. -/
theorem getElem?_set_thread {threads : List (CatalogThread Dictionary)}
    {old : CatalogThread Dictionary} (here : threads[index]? = some old)
    (moved : CatalogThread Dictionary) :
    (∀ other ≠ index, (threads.set index moved)[other]? = threads[other]?) ∧
      (threads.set index moved)[index]? = some moved := by
  obtain ⟨inside, -⟩ := List.getElem?_eq_some_iff.mp here
  exact ⟨fun other different => List.getElem?_set_ne different.symm,
    List.getElem?_set_self inside⟩

/-- A thread makes one compaction. -/
theorem compaction_unique {threads : List (CatalogThread Dictionary)}
    {policyOther : CompactionPolicy}
    (first : threads[index]? = some (.compaction policy call))
    (second : threads[index]? = some (.compaction policyOther moved)) :
    policy = policyOther ∧ call = moved := by
  simpa using first.symm.trans second

/-- A step of a compaction makes no write, and the policies stay. -/
theorem filterMap_set_compaction {threads : List (CatalogThread Dictionary)}
    (here : threads[index]? = some (.compaction policy call)) (moved : CompactionCall) :
    (threads.set index (.compaction policy moved)).filterMap CatalogThread.pendingWrite =
        threads.filterMap CatalogThread.pendingWrite ∧
      (threads.set index (.compaction policy moved)).filterMap CatalogThread.policy =
        threads.filterMap CatalogThread.policy :=
  ⟨filterMap_set_of_eq here rfl, filterMap_set_of_eq here rfl⟩

/-- A registry write is no longer pending, and the policies stay. -/
theorem filterMap_set_write {threads : List (CatalogThread Dictionary)}
    {write : RegistryWrite Dictionary} (here : threads[index]? = some (.write write)) :
    (threads.filterMap CatalogThread.pendingWrite).Perm
        (write :: (threads.set index .written).filterMap CatalogThread.pendingWrite) ∧
      (threads.set index .written).filterMap CatalogThread.policy =
        threads.filterMap CatalogThread.policy :=
  ⟨perm_filterMap_set here rfl rfl, filterMap_set_of_eq here rfl⟩

/-- The calls of all threads after a step of one of them. -/
theorem held_set (invariant : SerialInvariant name initial calls log state)
    {old moved : CatalogThread Dictionary} (here : state.threads[index]? = some old)
    (own : ∀ policy call, moved = .compaction policy call → call.Held catalog)
    (more : state.catalog.entryCount ≤ catalog.entryCount)
    (other : ℕ) (policyOther : CompactionPolicy) (callOther : CompactionCall)
    (found : (state.threads.set index moved)[other]? = some (.compaction policyOther callOther)) :
    callOther.Held catalog := by
  obtain ⟨others, now⟩ := getElem?_set_thread here moved
  by_cases same : other = index
  · subst same
    exact own _ _ (Option.some.inj (now.symm.trans found))
  · have before := invariant.held other _ _ ((others other same).symm.trans found)
    cases callOther with
    | lookup => trivial
    | done result => trivial
    | running entry removals phase => exact ⟨before.1, before.2.trans_le more⟩

/-- **What holds of a graph that a step of a compaction does not change** holds after
the step, when the compaction keeps what it holds of it. -/
theorem status_move (invariant : SerialInvariant name initial calls log state)
    (here : state.threads[index]? = some (.compaction policy call)) {ref : GraphRef}
    (inUse : ref < state.catalog.graphCount) (keeps : state.catalog.Keeps catalog ref)
    (shown : Whole name initial log ref state →
      boundAfter (initial.get name) log = some ref → catalog.get name = some ref)
    (settled : ref < initial.graphCount → Settled name initial log state.catalog ref →
      Settled name initial log catalog ref)
    (spares : Whole name initial log ref state →
      call.Spares name initial log state.catalog ref policy →
      moved.Spares name initial log catalog ref policy)
    (owns : ∀ owner, Taken name initial log ref (calls.filterMap asPolicy) state owner →
      call.Owns name initial log state.catalog ref → moved.Owns name initial log catalog ref)
    (follows : ∀ owner, Taken name initial log ref (calls.filterMap asPolicy) state owner →
      index ≠ owner → call.Follows initial state.catalog ref →
      moved.Follows initial catalog ref) :
    Whole name initial log ref
        { catalog := catalog, threads := state.threads.set index (.compaction policy moved) } ∨
      ∃ owner, Taken name initial log ref (calls.filterMap asPolicy)
        { catalog := catalog, threads := state.threads.set index (.compaction policy moved) }
        owner := by
  obtain ⟨others, now⟩ := getElem?_set_thread here (.compaction policy moved)
  rcases invariant.status ref inUse with whole | ⟨owner, taken⟩
  · refine .inl (whole.keep invariant.held keeps (List.prefix_refl _) others (shown whole)
      fun policyNext callNext found => ?_)
    obtain ⟨rfl, rfl⟩ := compaction_unique now found
    exact spares whole (whole.spares index _ _ here)
  · refine .inr ⟨owner, taken.keep invariant.held keeps others (settled taken.inUse)
      (fun policyOld callOld found owned _ => ?_) fun policyNext callNext different found => ?_⟩
    · obtain ⟨rfl, rfl⟩ := compaction_unique here found
      exact ⟨policy, moved, now, owns owner taken owned⟩
    · obtain ⟨rfl, rfl⟩ := compaction_unique now found
      exact follows owner taken different (taken.follows index _ _ different here)

/-- **A step of a compaction that changes no graph and binds nothing** keeps the
invariant when it keeps what the compaction holds of every graph. -/
theorem advance (invariant : SerialInvariant name initial calls log state)
    (here : state.threads[index]? = some (.compaction policy call))
    (held : moved.Held state.catalog)
    (spares : ∀ ref, Whole name initial log ref state →
      call.Spares name initial log state.catalog ref policy →
      moved.Spares name initial log state.catalog ref policy)
    (owns : ∀ ref owner, Taken name initial log ref (calls.filterMap asPolicy) state owner →
      call.Owns name initial log state.catalog ref →
      moved.Owns name initial log state.catalog ref)
    (follows : ∀ ref owner, Taken name initial log ref (calls.filterMap asPolicy) state owner →
      index ≠ owner → call.Follows initial state.catalog ref →
      moved.Follows initial state.catalog ref) :
    SerialInvariant name initial calls log
      { catalog := state.catalog
        threads := state.threads.set index (.compaction policy moved) } := by
  obtain ⟨writes, policies⟩ := filterMap_set_compaction here moved
  refine ⟨writes ▸ invariant.writes, policies.trans invariant.policies, invariant.bound,
    invariant.forward, invariant.grown, invariant.clean, ?_, invariant.absent,
    fun ref root => ⟨(invariant.shown ref root).inUse, (invariant.shown ref root).graph⟩,
    fun ref inUse => ?_⟩
  · refine invariant.held_set here (fun _ _ same => ?_) le_rfl
    cases same
    exact held
  · exact invariant.status_move here inUse (.refl _ _) Whole.shown (fun _ settled => settled)
      (spares ref) (owns ref) (follows ref)

/-- **A registry write** keeps the invariant. -/
theorem write (invariant : SerialInvariant name initial calls log state)
    {write : RegistryWrite Dictionary} (here : state.threads[index]? = some (.write write))
    (inUse : ∀ ref, write.target = some ref → ref < initial.graphCount) :
    SerialInvariant name initial calls (log ++ [write])
      { catalog := write.run name state.catalog, threads := state.threads.set index .written } := by
  obtain ⟨others, now⟩ := getElem?_set_thread here .written
  obtain ⟨pending, policies⟩ := filterMap_set_write here
  obtain ⟨get, graphs, count⟩ := state.catalog.run_write name write
  have entries := write.binds_run name state.catalog
  generalize write.run name state.catalog = after at get graphs count entries ⊢
  have more : state.catalog.entryCount ≤ after.entryCount := by
    rcases entries with ⟨-, -, -, same⟩ | ⟨entry, -, binds⟩
    · exact same.ge
    · exact binds.entryCount ▸ Nat.le_succ _
  have keeps : ∀ ref, state.catalog.Keeps after ref := by
    refine fun ref => ⟨congrFun graphs ref, fun entry old => ?_⟩
    rcases entries with ⟨-, -, same, -⟩ | ⟨entry, -, binds⟩
    · rw [same]
    · rw [binds.entries_of_lt old]
  refine ⟨?_, ?_, ?_, ?_, count ▸ invariant.grown, ?_,
    invariant.held_set here (fun _ _ same => by cases same) more, ?_, ?_, ?_⟩
  · refine invariant.writes.trans ?_
    rw [List.append_assoc]
    exact pending.append_left log
  · exact policies.trans invariant.policies
  · intro entry bound
    rcases entries with ⟨-, none, -, -⟩ | ⟨new, -, binds⟩
    · cases none.symm.trans bound
    · obtain rfl := Option.some.inj (binds.entry.symm.trans bound)
      exact binds.entryCount ▸ Nat.lt_succ_self _
  · intro entry known
    rw [count]
    rcases entries with ⟨-, -, same, sameCount⟩ | ⟨new, target, binds⟩
    · rw [same]
      exact invariant.forward entry (sameCount ▸ known)
    · have fresh := (inUse _ target).trans_le invariant.grown
      exact binds.forward_lt invariant.forward fresh entry known
  · rw [graphs, count]
    exact invariant.clean
  · intro absent
    rw [boundAfter_concat] at absent
    rcases entries with ⟨-, none, -, -⟩ | ⟨new, target, -⟩
    · exact none
    · cases absent.symm.trans target
  · intro ref root
    rw [boundAfter_concat] at root
    exact ⟨inUse ref root, .inl (get.trans root)⟩
  · intro ref known
    rw [count] at known
    rcases invariant.status ref known with whole | ⟨owner, taken⟩
    · refine .inl (whole.keep invariant.held (keeps ref) (List.prefix_append _ _) others
        (fun root => ?_) fun policy call found => by cases now.symm.trans found)
      rw [boundAfter_concat] at root
      exact get.trans root
    · refine .inr ⟨owner, taken.keep invariant.held (keeps ref) others (fun settled => .inl ?_)
        (fun policy call found => by cases here.symm.trans found)
        fun policy call _ found => by cases now.symm.trans found⟩
      rcases settled with rebound | ⟨root, -⟩
      · exact rebound.mono (List.prefix_append _ _)
      · exact .of_write root

/-- **A drain of a graph that is taken afterwards** keeps the invariant. -/
theorem drained (invariant : SerialInvariant name initial calls log state) {entry : EntryRef}
    {phase phaseNext : CompactionPhase} {delta : DeltaLayer}
    (here : state.threads[index]? = some (.compaction policy (.running entry [] phase)))
    (old : (state.catalog.entries entry).forward < initial.graphCount)
    (taken : ∃ owner, Taken name initial log (state.catalog.entries entry).forward
      (calls.filterMap asPolicy)
      { catalog := state.catalog.updateDelta (state.catalog.entries entry).forward fun _ => delta
        threads := state.threads.set index (.compaction policy (.running entry [] phaseNext)) }
      owner) :
    SerialInvariant name initial calls log
      { catalog := state.catalog.updateDelta (state.catalog.entries entry).forward fun _ => delta
        threads := state.threads.set index
          (.compaction policy (.running entry [] phaseNext)) } := by
  obtain ⟨writes, policies⟩ := filterMap_set_compaction here (.running entry [] phaseNext)
  have inUse := (invariant.held index _ _ here).2
  generalize known : (state.catalog.entries entry).forward = found at old taken ⊢
  have same : ∀ ref, ref ≠ found →
      (state.catalog.updateDelta found fun _ => delta).graphs ref = state.catalog.graphs ref :=
    fun ref different => GraphCatalog.graphs_updateDelta_of_ne _ _ _ different
  refine ⟨writes ▸ invariant.writes, policies.trans invariant.policies, invariant.bound,
    invariant.forward, invariant.grown, ?_,
    invariant.held_set here (fun _ _ same => by cases same; exact ⟨rfl, inUse⟩) le_rfl,
    invariant.absent, ?_, ?_⟩
  · intro ref fresh used
    rw [same ref (old.trans_le fresh).ne']
    exact invariant.clean ref fresh used
  · intro ref root
    obtain ⟨used, graph⟩ := invariant.shown ref root
    refine ⟨used, graph.imp_right ?_⟩
    rintro ⟨copy, bound, fresh, rebuilt⟩
    refine ⟨copy, bound, fresh, ?_⟩
    rwa [same copy (old.trans_le fresh).ne']
  · intro ref used
    by_cases own : ref = found
    · exact .inr (own ▸ taken)
    · -- the call works on another graph
      have away : (state.catalog.entries entry).forward ≠ ref :=
        fun works => own (works.symm.trans known)
      refine invariant.status_move here used ⟨same ref own, fun _ _ => rfl⟩ Whole.shown
        (fun _ settled => settled.imp_right ?_)
        (fun _ spares => ⟨fun works => absurd works away, spares.2⟩)
        (fun _ _ owns => absurd owns.1 away) fun _ _ _ _ works => absurd works away
      rintro ⟨root, copy, bound, fresh, rebuilt⟩
      refine ⟨root, copy, bound, fresh, ?_⟩
      rwa [same copy (old.trans_le fresh).ne']

/-- **A call that has drained both maps** works on a graph that is taken and has no
mutations left, and carries all of them or none. -/
theorem late (invariant : SerialInvariant name initial calls log state) {entry : EntryRef}
    {phase : CompactionPhase}
    (here : state.threads[index]? = some (.compaction policy (.running entry [] phase)))
    (late : phase.Late) :
    ∃ owner, Taken name initial log (state.catalog.entries entry).forward
        (calls.filterMap asPolicy) state owner ∧
      (state.catalog.graphs (state.catalog.entries entry).forward).delta = .new ∧
      (phase.Carries (initial.graphs (state.catalog.entries entry).forward)
          (initial.graphs (state.catalog.entries entry).forward).delta.snapshotDeletions
          (initial.graphs (state.catalog.entries entry).forward).delta.snapshotInsertions ∨
        phase.Carries (initial.graphs (state.catalog.entries entry).forward) [] []) := by
  have used := invariant.forward entry (invariant.held index _ _ here).2
  rcases invariant.status _ used with whole | ⟨owner, taken⟩
  · exact absurd ((whole.spares index _ _ here).1 rfl) late.not_early
  · have carries :
        (state.catalog.graphs (state.catalog.entries entry).forward).delta.insertions = ∅ ∧
        (phase.Carries (initial.graphs (state.catalog.entries entry).forward)
            (initial.graphs (state.catalog.entries entry).forward).delta.snapshotDeletions
            (initial.graphs (state.catalog.entries entry).forward).delta.snapshotInsertions ∨
          phase.Carries (initial.graphs (state.catalog.entries entry).forward) [] []) := by
      by_cases own : index = owner
      · subst own
        obtain ⟨policyOwner, callOwner, found, owns⟩ := taken.owns
        obtain ⟨rfl, rfl⟩ := compaction_unique found here
        exact (late.owns_iff.mp owns.2).imp_right .inl
      · exact (late.follows_iff.mp (taken.follows index _ _ own here rfl)).imp_right .inr
    obtain ⟨insertions, graph⟩ := taken.graph
    refine ⟨owner, taken, ?_, carries.2⟩
    have empty := carries.1
    rw [graph, CsrGraph.delta_withDelta] at empty ⊢
    rw [show insertions = ∅ from empty]
    rfl

/-- The name was bound last to the graph that a compaction is about to replace. -/
theorem bound_last (invariant : SerialInvariant name initial calls log state) {entry : EntryRef}
    (bound : state.catalog.entry name = some entry)
    (old : (state.catalog.entries entry).forward < initial.graphCount) :
    boundAfter (initial.get name) log = some (state.catalog.entries entry).forward := by
  cases found : boundAfter (initial.get name) log with
  | none => cases (invariant.absent found).symm.trans bound
  | some ref =>
    have get : state.catalog.get name = some (state.catalog.entries entry).forward := by
      rw [GraphCatalog.get, bound, Option.map_some]
    rcases (invariant.shown ref found).graph with here | ⟨copy, here, fresh, -⟩
    · exact here.symm.trans get
    · obtain rfl := Option.some.inj (here.symm.trans get)
      exact absurd old fresh.not_gt

section Swap

variable {after : GraphCatalog Dictionary} {entry : EntryRef} {compacted : CsrGraph}

/-- What a compaction has bound the name to is shown: the graphs in use before the swap
are whole or taken as before. -/
theorem status_swap (invariant : SerialInvariant name initial calls log state)
    (here : state.threads[index]? =
      some (.compaction policy (.running entry [] (.swap compacted))))
    (bound : state.catalog.entry name = some entry)
    (root : boundAfter (initial.get name) log = some (state.catalog.entries entry).forward)
    (swapped : state.catalog.SwapsTo name compacted after) {ref : GraphRef}
    (old : ref < state.catalog.graphCount) :
    Whole name initial log ref
        { catalog := after
          threads := state.threads.set index (.compaction policy (.done (.ok true))) } ∨
      ∃ owner, Taken name initial log ref (calls.filterMap asPolicy)
        { catalog := after
          threads := state.threads.set index (.compaction policy (.done (.ok true))) } owner := by
  have other : ∀ {ref}, (state.catalog.entries entry).forward ≠ ref →
      boundAfter (initial.get name) log ≠ some ref :=
    fun away same => away (Option.some.inj (root.symm.trans same))
  refine invariant.status_move here old (swapped.keeps old) (fun whole same => ?_)
    (fun used settled => settled.imp_right ?_) (fun whole spares => .inr (.of_ne (other ?_)))
    (fun owner taken owns => ?_) fun _ _ _ _ => trivial
  · exact absurd same (other fun works => (whole.spares index _ _ here).1 works)
  · -- a rebuilt graph was shown, and the compaction has not read that one
    rintro ⟨same, copy, shown, fresh, -⟩
    obtain rfl := Option.some.inj (root.symm.trans same)
    rw [GraphCatalog.get, bound, Option.map_some, Option.some.injEq] at shown
    exact absurd used (shown ▸ fresh).not_gt
  · exact fun works => spares.1 works
  · obtain ⟨rfl, empty, rebuilt⟩ := owns
    refine ⟨?_, .inr ⟨root, state.catalog.graphCount, swapped.get, invariant.grown, ?_⟩⟩
    · rw [(swapped.keeps old).graph]
      exact empty
    · rw [swapped.fresh]
      exact rebuilt

/-- Nobody works on the graph that the name is bound to by a swap. -/
theorem whole_swap (invariant : SerialInvariant name initial calls log state)
    (here : state.threads[index]? =
      some (.compaction policy (.running entry [] (.swap compacted))))
    (root : boundAfter (initial.get name) log ≠ some state.catalog.graphCount)
    (swapped : state.catalog.SwapsTo name compacted after) :
    Whole name initial log state.catalog.graphCount
      { catalog := after
        threads := state.threads.set index (.compaction policy (.done (.ok true))) } := by
  obtain ⟨others, now⟩ := getElem?_set_thread here (.compaction policy (.done (.ok true)))
  refine ⟨fun old => absurd old invariant.grown.not_gt, fun same => absurd same root,
    fun position policyOther call found => ?_⟩
  cases call with
  | lookup => trivial
  | done result => exact .inr (.of_ne root)
  | running entryOther removals phase =>
    refine ⟨fun same => ?_, fun _ => .of_ne root⟩
    have own : position ≠ index := by
      rintro rfl
      cases now.symm.trans found
    have inUse := (invariant.held position _ _ ((others position own).symm.trans found)).2
    rw [swapped.entries_of_lt inUse] at same
    exact absurd (invariant.forward entryOther inUse) same.not_lt

/-- **A compaction that binds the name** while it is bound to the entry that the
compaction has read keeps the invariant. -/
theorem swap (invariant : SerialInvariant name initial calls log state)
    (here : state.threads[index]? =
      some (.compaction policy (.running entry [] (.swap compacted))))
    (bound : state.catalog.entry name = some entry)
    (sound : ∀ ref < initial.graphCount, (initial.graphs ref).Sound)
    (swapped : state.catalog.SwapsTo name compacted after) :
    SerialInvariant name initial calls log
      { catalog := after
        threads := state.threads.set index (.compaction policy (.done (.ok true))) } := by
  obtain ⟨writes, policies⟩ := filterMap_set_compaction here (.done (.ok true))
  obtain ⟨owner, taken, -, carries⟩ := invariant.late here trivial
  have root := invariant.bound_last bound taken.inUse
  refine ⟨writes ▸ invariant.writes, policies.trans invariant.policies, swapped.bound, ?_,
    swapped.count ▸ invariant.grown.trans (Nat.le_succ _), ?_,
    invariant.held_set here (fun _ _ same => by cases same; trivial) swapped.more, ?_, ?_, ?_⟩
  · exact swapped.forward_lt invariant.forward
  · intro ref isNew inUse
    rw [swapped.count, Nat.lt_succ_iff_lt_or_eq] at inUse
    rcases inUse with old | rfl
    · rw [(swapped.keeps old).graph]
      exact invariant.clean ref isNew old
    · rw [swapped.fresh]
      rcases carries with all | none
      · exact ((sound _ taken.inUse).has_rebuild all).2.1
      · exact ((sound _ taken.inUse).has_rebuild none).2.1
  · intro absent
    cases absent.symm.trans root
  · intro ref same
    obtain rfl := Option.some.inj (root.symm.trans same)
    refine ⟨taken.inUse, .inr ⟨state.catalog.graphCount, swapped.get, invariant.grown, ?_⟩⟩
    rw [swapped.fresh]
    exact carries
  · intro ref inUse
    rw [swapped.count, Nat.lt_succ_iff_lt_or_eq] at inUse
    rcases inUse with old | rfl
    · exact invariant.status_swap here bound root swapped old
    · refine .inl (invariant.whole_swap here (fun same => ?_) swapped)
      have works := Option.some.inj (root.symm.trans same)
      exact absurd taken.inUse (works ▸ invariant.grown.not_gt)

end Swap

/-- A graph from which nobody has taken anything is taken by a compaction that is due
and drains what it has not drained yet. -/
theorem taken_of_whole (invariant : SerialInvariant name initial calls log state) {ref : GraphRef}
    {next : ConcurrentCatalog Dictionary}
    (whole : Whole name initial log ref state) (old : ref < initial.graphCount)
    (here : state.threads[index]? = some (.compaction policy call))
    (due : (state.catalog.graphs ref).shouldCompact policy = true)
    (threads : next.threads = state.threads.set index (.compaction policy moved))
    (entries : next.catalog.entries = state.catalog.entries)
    (graph : ∃ insertions, next.catalog.graphs ref =
      (state.catalog.graphs ref).withDelta { insertions := insertions, deletions := ∅ })
    (owns : moved.Owns name initial log next.catalog ref) :
    Taken name initial log ref (calls.filterMap asPolicy) next index := by
  obtain ⟨others, now⟩ := getElem?_set_thread here (.compaction policy moved)
  rw [← threads] at others now
  refine ⟨old, ⟨policy, ?_, whole.graph old ▸ due⟩, whole.graph old ▸ graph,
    ⟨policy, moved, now, owns⟩, fun other policyOther callOther different found => ?_⟩
  · rw [← invariant.policies, List.mem_filterMap]
    exact ⟨_, List.mem_of_getElem? here, rfl⟩
  · rw [others other different] at found
    cases callOther with
    | lookup => trivial
    | done result => trivial
    | running entry removals phase =>
      intro same
      rw [entries] at same
      exact ((whole.spares other _ _ found).1 same).follows

/-- The tombstones are drained. -/
theorem drainDeletions (invariant : SerialInvariant name initial calls log state)
    {entry : EntryRef}
    (here : state.threads[index]? = some (.compaction policy (.running entry [] .drainDeletions))) :
    let graph := state.catalog.graphs (state.catalog.entries entry).forward
    SerialInvariant name initial calls log
      { catalog := state.catalog.updateDelta (state.catalog.entries entry).forward
          (MapOp.runAll graph.delta.tombstoneRemovals)
        threads := state.threads.set index (.compaction policy
          (.running entry [] (.drainInsertions graph.delta.snapshotDeletions))) } := by
  intro graph
  have inUse := (invariant.held index _ _ here).2
  have used := invariant.forward entry inUse
  by_cases none : graph.delta.snapshotDeletions = []
  · -- nothing is drained
    rw [DeltaLayer.tombstoneRemovals, none, List.map_nil]
    rw [state.catalog.updateDelta_runAll_nil]
    refine invariant.advance here ⟨rfl, inUse⟩ (fun ref whole spares => ⟨?_, spares.2⟩)
      (fun ref owner _ owns => owns.2.2.elim) fun ref owner _ _ _ _ => rfl
    rintro rfl
    exact ⟨spares.1 rfl, rfl, none⟩
  · have old : (state.catalog.entries entry).forward < initial.graphCount := by
      by_contra fresh
      have clean := invariant.clean _ (Nat.le_of_not_lt fresh) used
      exact none (by rw [show graph.delta = .new from clean]; rfl)
    have emptied : state.catalog.updateDelta (state.catalog.entries entry).forward
        (MapOp.runAll graph.delta.tombstoneRemovals) =
          state.catalog.updateDelta (state.catalog.entries entry).forward fun _ =>
            { graph.delta with deletions := ∅ } := by
      rw [GraphCatalog.updateDelta, graph.delta.runAll_tombstoneRemovals]
      rfl
    rw [emptied]
    refine invariant.drained here old ⟨index, ?_⟩
    rcases invariant.status _ used with whole | ⟨owner, taken⟩
    · have origin : graph = initial.graphs _ := whole.graph old
      refine invariant.taken_of_whole whole old here ((whole.spares index _ _ here).1 rfl) rfl rfl
        ⟨graph.delta.insertions, GraphCatalog.graphs_setGraph_self ..⟩ ⟨rfl, ?_, none, ?_⟩
      · rw [origin]
      · rw [state.catalog.graphs_updateDelta_self, CsrGraph.delta_withDelta, origin]
    · obtain ⟨insertions, same⟩ := taken.graph
      exact absurd (by rw [show graph = _ from same]; rfl) none

/-- The owner of a graph has taken the insertions, or it has taken some tombstones
and takes the insertions next. -/
theorem owner_drains (invariant : SerialInvariant name initial calls log state) {ref : GraphRef}
    {owner : ℕ} (taken : Taken name initial log ref (calls.filterMap asPolicy) state owner) :
    (state.catalog.graphs ref).delta.insertions = ∅ ∨ ∃ policy entry deletions,
      state.threads[owner]? =
        some (.compaction policy (.running entry [] (.drainInsertions deletions))) ∧
      (state.catalog.entries entry).forward = ref ∧ deletions ≠ [] := by
  obtain ⟨policy, call, found, owns⟩ := taken.owns
  match call with
  | .lookup => exact owns.elim
  | .done (.ok true) => exact .inl owns.1
  | .done (.ok false) => exact owns.elim
  | .done (.error fault) => exact .inl owns.1
  | .running entry removals phase =>
    obtain ⟨rfl, -⟩ := invariant.held owner _ _ found
    cases phase with
    | drainInsertions deletions => exact .inr ⟨policy, entry, deletions, found, owns.1, owns.2.2.1⟩
    | _ => exact .inl owns.2.1

section DrainInsertions

variable {entry : EntryRef} {deletions : List EdgeKey}

/-- A compaction that has found no tombstones takes the insertions of a graph from which
nobody has taken anything. -/
theorem first_takes (invariant : SerialInvariant name initial calls log state)
    (here : state.threads[index]? =
      some (.compaction policy (.running entry [] (.drainInsertions deletions))))
    (whole : Whole name initial log (state.catalog.entries entry).forward state) :
    let graph := state.catalog.graphs (state.catalog.entries entry).forward
    (state.catalog.entries entry).forward < initial.graphCount ∧
      Taken name initial log (state.catalog.entries entry).forward (calls.filterMap asPolicy)
        { catalog := state.catalog.updateDelta (state.catalog.entries entry).forward
            fun _ => { graph.delta with insertions := ∅ }
          threads := state.threads.set index (.compaction policy
            (.running entry [] (.rebuild deletions graph.delta.snapshotInsertions))) } index := by
  intro graph
  obtain ⟨due, rfl, none⟩ := (whole.spares index _ _ here).1 rfl
  have used := invariant.forward entry (invariant.held index _ _ here).2
  have old : (state.catalog.entries entry).forward < initial.graphCount := by
    by_contra fresh
    have clean := invariant.clean _ (Nat.le_of_not_lt fresh) used
    rw [CsrGraph.shouldCompact_of_clean clean] at due
    cases due
  have origin : graph = initial.graphs _ := whole.graph old
  have deletions : graph.delta.deletions = ∅ := AList.ext (List.map_eq_nil_iff.mp none)
  refine ⟨old, invariant.taken_of_whole whole old here due rfl rfl ⟨∅, ?_⟩ ⟨rfl, ?_, ?_, ?_⟩⟩
  · rw [← deletions]
    exact GraphCatalog.graphs_setGraph_self ..
  · rw [state.catalog.graphs_updateDelta_self, CsrGraph.delta_withDelta]
  · rw [← origin]
    exact none.symm
  · rw [← origin]

/-- The owner of a graph that has taken the tombstones takes the insertions. -/
theorem owner_takes (here : state.threads[index]? =
      some (.compaction policy (.running entry [] (.drainInsertions deletions))))
    (taken : Taken name initial log (state.catalog.entries entry).forward
      (calls.filterMap asPolicy) state index) :
    let graph := state.catalog.graphs (state.catalog.entries entry).forward
    Taken name initial log (state.catalog.entries entry).forward (calls.filterMap asPolicy)
      { catalog := state.catalog.updateDelta (state.catalog.entries entry).forward
          fun _ => { graph.delta with insertions := ∅ }
        threads := state.threads.set index (.compaction policy
          (.running entry [] (.rebuild deletions graph.delta.snapshotInsertions))) } index := by
  intro graph
  obtain ⟨policyOwner, callOwner, found, owns⟩ := taken.owns
  obtain ⟨rfl, rfl⟩ := compaction_unique found here
  obtain ⟨-, all, some, left⟩ := owns
  obtain ⟨insertions, same⟩ := taken.graph
  have after : (state.catalog.updateDelta (state.catalog.entries entry).forward fun _ =>
      { graph.delta with insertions := ∅ }).graphs (state.catalog.entries entry).forward =
        (initial.graphs (state.catalog.entries entry).forward).withDelta .new := by
    rw [state.catalog.graphs_updateDelta_self, same, CsrGraph.withDelta_withDelta,
      show graph = _ from same]
    rfl
  obtain ⟨others, now⟩ := getElem?_set_thread here (.compaction policyOwner
    (.running entry [] (.rebuild deletions graph.delta.snapshotInsertions)))
  refine ⟨taken.inUse, taken.due, ⟨∅, after⟩, ⟨policyOwner, _, now, rfl, ?_, all, ?_⟩,
    fun other policyOther callOther different found => ?_⟩
  · rw [after]
    rfl
  · rw [DeltaLayer.snapshotInsertions, DeltaLayer.snapshotInsertions, left]
  · rw [others other different] at found
    have follows := taken.follows other policyOther callOther different found
    cases callOther with
    | lookup => trivial
    | done result => trivial
    | running entryOther removals phase =>
      refine fun same => (follows same).emptied ?_
      rw [after]
      rfl

/-- The other compactions of a graph find no insertions in it. -/
theorem rest_finds_nothing (invariant : SerialInvariant name initial calls log state)
    (exclusive : state.Exclusive name index)
    (here : state.threads[index]? =
      some (.compaction policy (.running entry [] (.drainInsertions deletions)))) {owner : ℕ}
    (different : owner ≠ index)
    (taken : Taken name initial log (state.catalog.entries entry).forward
      (calls.filterMap asPolicy) state owner) :
    (state.catalog.graphs (state.catalog.entries entry).forward).delta.insertions = ∅ := by
  rcases invariant.owner_drains taken with empty | ⟨_, entryOwner, held, found, works, some⟩
  · exact empty
  · by_contra left
    refine some (exclusive.drain policy entry deletions here (fun none => left ?_) owner _
      entryOwner held different found works)
    exact AList.ext (List.map_eq_nil_iff.mp none)

/-- The insertions are drained. -/
theorem drainInsertions (invariant : SerialInvariant name initial calls log state)
    (exclusive : state.Exclusive name index)
    (here : state.threads[index]? =
      some (.compaction policy (.running entry [] (.drainInsertions deletions)))) :
    let graph := state.catalog.graphs (state.catalog.entries entry).forward
    SerialInvariant name initial calls log
      { catalog := state.catalog.updateDelta (state.catalog.entries entry).forward
          (MapOp.runAll graph.delta.insertionRemovals)
        threads := state.threads.set index (.compaction policy
          (.running entry [] (.rebuild deletions graph.delta.snapshotInsertions))) } := by
  intro graph
  have inUse := (invariant.held index _ _ here).2
  have emptied : state.catalog.updateDelta (state.catalog.entries entry).forward
      (MapOp.runAll graph.delta.insertionRemovals) =
        state.catalog.updateDelta (state.catalog.entries entry).forward fun _ =>
          { graph.delta with insertions := ∅ } := by
    rw [GraphCatalog.updateDelta, graph.delta.runAll_insertionRemovals]
    rfl
  rcases invariant.status _ (invariant.forward entry inUse) with whole | ⟨owner, taken⟩
  · obtain ⟨old, taken⟩ := invariant.first_takes here whole
    rw [emptied]
    exact invariant.drained here old ⟨index, taken⟩
  · by_cases own : owner = index
    · subst own
      rw [emptied]
      exact invariant.drained here taken.inUse ⟨owner, owner_takes here taken⟩
    · have nothing : deletions = [] := taken.follows index _ _ (Ne.symm own) here rfl
      have empty : graph.delta.insertions = ∅ :=
        invariant.rest_finds_nothing exclusive here own taken
      have none : graph.delta.snapshotInsertions = [] := by
        rw [DeltaLayer.snapshotInsertions, empty]
        rfl
      rw [DeltaLayer.insertionRemovals, none, List.map_nil]
      rw [state.catalog.updateDelta_runAll_nil]
      refine invariant.advance here ⟨rfl, inUse⟩ (fun ref whole spares => ⟨?_, spares.2⟩)
        (fun ref owner _ owns => absurd nothing owns.2.2.1) ?_
      · rintro rfl
        obtain ⟨due, -, drained⟩ := spares.1 rfl
        rw [CsrGraph.shouldCompact_of_drained none drained] at due
        cases due
      · rintro ref owner _ _ _ rfl
        exact ⟨empty, nothing, rfl⟩

end DrainInsertions

/-- A drain that finds nothing: the call moves on. -/
theorem drained_nothing (invariant : SerialInvariant name initial calls log state)
    {entry : EntryRef} {phase phaseNext : CompactionPhase}
    (here : state.threads[index]? = some (.compaction policy (.running entry [] phase)))
    (late : phase.Late) (lateNext : phaseNext.Late)
    (same : ∀ origin deletions insertions, phase.Carries origin deletions insertions →
      phaseNext.Carries origin deletions insertions) :
    SerialInvariant name initial calls log
      { catalog := state.catalog
        threads := state.threads.set index
          (.compaction policy (.running entry [] phaseNext)) } := by
  refine invariant.advance here ⟨rfl, (invariant.held index _ _ here).2⟩
    (fun ref whole spares => ⟨fun known => absurd (spares.1 known) late.not_early, spares.2⟩)
    (fun ref owner _ owns => ⟨owns.1, ?_⟩) fun ref owner _ _ follows known => ?_
  · obtain ⟨empty, carries⟩ := late.owns_iff.mp owns.2
    exact lateNext.owns_iff.mpr ⟨empty, same _ _ _ carries⟩
  · obtain ⟨empty, carries⟩ := late.follows_iff.mp (follows known)
    exact lateNext.follows_iff.mpr ⟨empty, same _ _ _ carries⟩

/-- The rebuild. -/
theorem rebuild (invariant : SerialInvariant name initial calls log state) {entry : EntryRef}
    {deletions : List EdgeKey} {insertions : List (EdgeKey × EdgeData)}
    (here : state.threads[index]? =
      some (.compaction policy (.running entry [] (.rebuild deletions insertions)))) :
    let (catalog, moved) := CompactionCall.stepPhase .atomic name policy state.catalog entry
      (.rebuild deletions insertions)
    SerialInvariant name initial calls log
      { catalog := catalog, threads := state.threads.set index (.compaction policy moved) } := by
  have inUse := (invariant.held index _ _ here).2
  have builds : ∀ owner, Taken name initial log (state.catalog.entries entry).forward
      (calls.filterMap asPolicy) state owner → ∀ deletions insertions,
        (initial.graphs (state.catalog.entries entry).forward).rebuild deletions insertions =
          (state.catalog.graphs (state.catalog.entries entry).forward).rebuild deletions
            insertions := by
    intro owner taken deletions insertions
    obtain ⟨left, same⟩ := taken.graph
    rw [same, CsrGraph.rebuild_withDelta]
  simp only [CompactionCall.stepPhase]
  cases outcome : (state.catalog.graphs (state.catalog.entries entry).forward).rebuild deletions
      insertions with
  | error fault =>
    refine invariant.advance here trivial (fun ref whole spares => .inr (spares.2 ?_))
      (fun ref owner taken owns => ?_) fun ref owner _ _ _ => trivial
    · exact fun known => spares.1 known
    · obtain ⟨rfl, empty, rfl, rfl⟩ := owns
      refine ⟨empty, fun compacted rebuilt => ?_⟩
      cases ((builds owner taken _ _).trans outcome).symm.trans rebuilt
  | ok compacted =>
    refine invariant.advance here ⟨rfl, inUse⟩
      (fun ref whole spares => ⟨fun known => (spares.1 known).elim, spares.2⟩)
      (fun ref owner taken owns => ?_) fun ref owner taken _ follows known => ?_
    · obtain ⟨rfl, empty, rfl, rfl⟩ := owns
      exact ⟨rfl, empty, (builds owner taken _ _).trans outcome⟩
    · obtain ⟨empty, rfl, rfl⟩ := follows known
      subst known
      exact ⟨empty, (builds owner taken _ _).trans outcome⟩

/-- The entry of the name is read. -/
theorem lookup (invariant : SerialInvariant name initial calls log state)
    (here : state.threads[index]? = some (.compaction policy .lookup)) :
    let (catalog, moved) := CompactionCall.lookup.step .atomic name policy state.catalog
    SerialInvariant name initial calls log
      { catalog := catalog, threads := state.threads.set index (.compaction policy moved) } := by
  cases bound : state.catalog.entry name with
  | none =>
    simp only [CompactionCall.step, bound]
    refine invariant.advance here trivial (fun ref _ _ => .inr (.of_ne fun root => ?_))
      (fun _ _ _ owns => owns.elim) fun _ _ _ _ _ => trivial
    rcases (invariant.shown ref root).graph with get | ⟨copy, get, -⟩ <;>
      simp [GraphCatalog.get, bound] at get
  | some entry =>
    simp only [CompactionCall.step, bound]
    refine invariant.advance here ⟨rfl, invariant.bound entry bound⟩
      (fun ref whole _ => ⟨fun _ => trivial, fun other => .of_ne fun root => other ?_⟩)
      (fun _ _ _ owns => owns.elim) fun _ _ _ _ _ _ => trivial
    have get := whole.shown root
    rw [GraphCatalog.get, bound, Option.map_some] at get
    exact Option.some.inj get

/-- The tombstones are counted. The insertions were counted before, and of a graph from
which nobody has taken anything the sum says whether it is due. -/
theorem countDeletions (invariant : SerialInvariant name initial calls log state)
    {entry : EntryRef} {insertions : ℕ}
    (here : state.threads[index]? =
      some (.compaction policy (.running entry [] (.countDeletions insertions)))) :
    let (catalog, moved) := CompactionCall.stepPhase .atomic name policy state.catalog entry
      (.countDeletions insertions)
    SerialInvariant name initial calls log
      { catalog := catalog, threads := state.threads.set index (.compaction policy moved) } := by
  have due : ∀ ref, (state.catalog.entries entry).forward = ref →
      insertions = (state.catalog.graphs ref).delta.insertions.entries.length →
      (state.catalog.graphs ref).shouldCompact policy =
        (state.catalog.graphs (state.catalog.entries entry).forward).shouldCompactAt policy
          (insertions + (state.catalog.graphs
            (state.catalog.entries entry).forward).delta.deletions.entries.length) := by
    rintro ref rfl rfl
    exact CsrGraph.shouldCompact_eq _ _
  simp only [CompactionCall.stepPhase]
  split
  · rename_i reached
    refine invariant.advance here ⟨rfl, (invariant.held index _ _ here).2⟩
      (fun ref _ spares => ⟨fun known => ?_, spares.2⟩) (fun _ _ _ owns => owns.2.2.elim)
      fun _ _ _ _ _ _ => trivial
    exact (due ref known (spares.1 known)).trans reached
  · rename_i below
    refine invariant.advance here trivial (fun ref _ spares => ?_)
      (fun _ _ _ owns => owns.2.2.elim) fun _ _ _ _ _ => trivial
    by_cases known : (state.catalog.entries entry).forward = ref
    · exact .inl ((due ref known (spares.1 known)).trans (Bool.eq_false_of_not_eq_true below))
    · exact .inr (spares.2 known)

/-- **A step of a compaction that keeps apart** keeps the invariant. -/
theorem compaction (invariant : SerialInvariant name initial calls log state)
    (here : state.threads[index]? = some (.compaction policy call))
    (exclusive : state.Exclusive name index)
    (sound : ∀ ref < initial.graphCount, (initial.graphs ref).Sound) :
    SerialInvariant name initial calls log
      { catalog := (call.step .atomic name policy state.catalog).1
        threads := state.threads.set index
          (.compaction policy (call.step .atomic name policy state.catalog).2) } := by
  cases call with
  | done result =>
    exact invariant.advance here trivial (fun _ _ spares => spares) (fun _ _ _ owns => owns)
      fun _ _ _ _ _ => trivial
  | lookup => exact invariant.lookup here
  | running entry removals phase =>
    obtain ⟨rfl, inUse⟩ := invariant.held index _ _ here
    cases phase with
    | countInsertions =>
      refine invariant.advance here ⟨rfl, inUse⟩ (fun ref _ spares => ⟨?_, spares.2⟩)
        (fun _ _ _ owns => owns.2.2.elim) fun _ _ _ _ _ _ => trivial
      rintro rfl
      rfl
    | countDeletions insertions => exact invariant.countDeletions here
    | drainDeletions => exact invariant.drainDeletions here
    | drainInsertions deletions => exact invariant.drainInsertions exclusive here
    | rebuild deletions insertions => exact invariant.rebuild here
    | replayInsertions compacted =>
      obtain ⟨owner, -, clean, -⟩ := invariant.late here trivial
      have idle :=
        state.catalog.updateDelta_runAll_nil (state.catalog.entries entry).forward
      simp only [CompactionCall.step, CompactionCall.stepPhase, CompactionCall.drain, clean]
      refine idle.symm ▸ invariant.drained_nothing here trivial trivial fun _ _ _ carries => carries
    | replayDeletions compacted =>
      obtain ⟨owner, -, clean, -⟩ := invariant.late here trivial
      have idle :=
        state.catalog.updateDelta_runAll_nil (state.catalog.entries entry).forward
      simp only [CompactionCall.step, CompactionCall.stepPhase, CompactionCall.drain, clean]
      refine idle.symm ▸ invariant.drained_nothing here trivial trivial fun _ _ _ carries => carries
    | swap compacted =>
      exact invariant.swap here (exclusive.swap policy entry compacted here) sound
        ⟨⟨_, .of_bindEntry _, rfl⟩, rfl, rfl⟩

end SerialInvariant

end FusionGraph
