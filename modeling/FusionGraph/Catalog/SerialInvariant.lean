import FusionGraph.Catalog.SerialCalls

/-!
# What concurrent compactions hold

A compaction takes the mutations of a graph out of it in two drains, and another
compaction of the same graph can come in between. At every time a graph is whole,
so that nobody has taken anything from it (`Whole`), or it is taken: one of its
compactions has all its mutations or will get the rest of them, and the others
have none (`Taken`). `SerialInvariant` says this of every graph, and of the name
that it is bound to the graph of the last registry write or to a rebuild of that
graph.

A step that does not touch a graph keeps what holds of it (`Whole.keep`,
`Taken.keep`).
-/

set_option autoImplicit false

namespace FusionGraph

open Foundations RegistryWrite CatalogCall

variable {Dictionary : Type}

/-! ## Steps that keep apart -/

/-- A compaction binds the name only while it is bound to the entry that the
compaction has read, and takes insertions out of a graph only while no other
compaction holds tombstones of that graph and has still to take the insertions. -/
structure ConcurrentCatalog.Exclusive (name : String) (state : ConcurrentCatalog Dictionary)
    (index : ℕ) : Prop where
  swap : ∀ policy entry compacted,
    state.threads[index]? = some (.compaction policy (.running entry [] (.swap compacted))) →
    state.catalog.entry name = some entry
  drain : ∀ policy entry deletions,
    state.threads[index]? =
      some (.compaction policy (.running entry [] (.drainInsertions deletions))) →
    (state.catalog.graphs (state.catalog.entries entry).forward).delta.snapshotInsertions ≠ [] →
    ∀ other policyOther entryOther held, other ≠ index →
      state.threads[other]? =
        some (.compaction policyOther (.running entryOther [] (.drainInsertions held))) →
      (state.catalog.entries entryOther).forward = (state.catalog.entries entry).forward → held = []

/-- A step of one of the threads that meets a condition on the state before it. -/
def CatalogStep (condition : ConcurrentCatalog Dictionary → ℕ → Prop) (name : String)
    (state : ConcurrentCatalog Dictionary) (index : ℕ) (next : ConcurrentCatalog Dictionary) :
    Prop :=
  condition state index ∧ next = state.step .atomic name index

/-- The graph that the call registers is shared already. -/
def CatalogCall.InUse (catalog : GraphCatalog Dictionary) (call : CatalogCall Dictionary) : Prop :=
  ∀ write ref, call.asWrite = some write → write.target = some ref → ref < catalog.graphCount

/-! ## What a compaction holds of a graph -/

namespace CompactionPhase

/-- The call has taken nothing out of the graph. -/
def Early (graph : CsrGraph) (policy : CompactionPolicy) : CompactionPhase → Prop
  | countInsertions => True
  | countDeletions insertions => insertions = graph.delta.insertions.entries.length
  | drainDeletions => graph.shouldCompact policy = true
  | drainInsertions deletions =>
    graph.shouldCompact policy = true ∧ deletions = [] ∧ graph.delta.snapshotDeletions = []
  | _ => False

/-- The call builds from these mutations, or has built from them. -/
def Carries (graph : CsrGraph) (deletions : List EdgeKey) (insertions : List (EdgeKey × EdgeData)) :
    CompactionPhase → Prop
  | rebuild drained inserted => drained = deletions ∧ inserted = insertions
  | replayInsertions compacted => graph.rebuild deletions insertions = .ok compacted
  | replayDeletions compacted => graph.rebuild deletions insertions = .ok compacted
  | swap compacted => graph.rebuild deletions insertions = .ok compacted
  | _ => False

/-- The call has taken or will take all mutations of the graph, and no other call any
of them. -/
def Owns (origin graph : CsrGraph) : CompactionPhase → Prop
  | drainInsertions deletions => deletions = origin.delta.snapshotDeletions ∧ deletions ≠ [] ∧
      graph.delta.insertions = origin.delta.insertions
  | phase => graph.delta.insertions = ∅ ∧
      phase.Carries origin origin.delta.snapshotDeletions origin.delta.snapshotInsertions

/-- The call has taken nothing and finds nothing to take any more. -/
def Follows (origin graph : CsrGraph) : CompactionPhase → Prop
  | countInsertions => True
  | countDeletions _ => True
  | drainDeletions => True
  | drainInsertions deletions => deletions = []
  | phase => graph.delta.insertions = ∅ ∧ phase.Carries origin [] []

/-- The call has drained both maps. -/
def Late : CompactionPhase → Prop
  | rebuild _ _ => True
  | replayInsertions _ => True
  | replayDeletions _ => True
  | swap _ => True
  | _ => False

variable {origin graph after : CsrGraph} {policy : CompactionPolicy} {phase : CompactionPhase}

/-- A call that has taken nothing follows the one that takes something. -/
theorem Early.follows (early : phase.Early graph policy) : phase.Follows origin after := by
  cases phase with
  | countInsertions => trivial
  | countDeletions insertions => trivial
  | drainDeletions => trivial
  | drainInsertions deletions => exact early.2.1
  | rebuild deletions insertions => exact early.elim
  | replayInsertions compacted => exact early.elim
  | replayDeletions compacted => exact early.elim
  | swap compacted => exact early.elim

/-- It goes on following when there are no insertions left. -/
theorem Follows.emptied (follows : phase.Follows origin graph)
    (empty : after.delta.insertions = ∅) : phase.Follows origin after := by
  cases phase with
  | countInsertions => trivial
  | countDeletions insertions => trivial
  | drainDeletions => trivial
  | drainInsertions deletions => exact follows
  | rebuild deletions insertions => exact ⟨empty, follows.2⟩
  | replayInsertions compacted => exact ⟨empty, follows.2⟩
  | replayDeletions compacted => exact ⟨empty, follows.2⟩
  | swap compacted => exact ⟨empty, follows.2⟩

theorem Late.not_early (late : phase.Late) : ¬ phase.Early graph policy := by
  cases phase <;> first | exact late.elim | exact id

theorem Late.owns_iff (late : phase.Late) :
    phase.Owns origin graph ↔ graph.delta.insertions = ∅ ∧
      phase.Carries origin origin.delta.snapshotDeletions origin.delta.snapshotInsertions := by
  cases phase <;> first | exact late.elim | exact Iff.rfl

theorem Late.follows_iff (late : phase.Late) :
    phase.Follows origin graph ↔
      graph.delta.insertions = ∅ ∧ phase.Carries origin [] [] := by
  cases phase <;> first | exact late.elim | exact Iff.rfl

end CompactionPhase

/-- A graph whose drains find nothing is not due. -/
theorem CsrGraph.shouldCompact_of_drained {graph : CsrGraph}
    (insertions : graph.delta.snapshotInsertions = [])
    (deletions : graph.delta.snapshotDeletions = []) (policy : CompactionPolicy) :
    graph.shouldCompact policy = false := by
  refine shouldCompact_of_clean ?_ policy
  refine DeltaLayer.eq_new_of_isEmpty (graph.delta.isEmpty_eq_true.mpr ⟨?_, ?_⟩)
  · exact AList.ext (List.map_eq_nil_iff.mp insertions)
  · exact AList.ext (List.map_eq_nil_iff.mp deletions)

section Status

variable (name : String) (initial : GraphCatalog Dictionary)
  (log : List (RegistryWrite Dictionary)) (catalog : GraphCatalog Dictionary) (ref : GraphRef)

/-- What the owner of a graph has bound the name to is shown, or there was a write
after that. -/
def Settled : Prop :=
  Rebound (initial.get name) log ref ∨ (boundAfter (initial.get name) log = some ref ∧
    ∃ copy, catalog.get name = some copy ∧ initial.graphCount ≤ copy ∧
      (initial.graphs ref).rebuildAll = .ok (catalog.graphs copy))

namespace CompactionCall

/-- What a call knows of a graph from which nobody has taken anything. -/
def Spares (policy : CompactionPolicy) : CompactionCall → Prop
  | lookup => True
  | running entry _ phase =>
    ((catalog.entries entry).forward = ref → phase.Early (catalog.graphs ref) policy) ∧
      ((catalog.entries entry).forward ≠ ref → Elsewhere (initial.get name) log ref)
  | done _ => (catalog.graphs ref).shouldCompact policy = false ∨
      Elsewhere (initial.get name) log ref

/-- What the owner of a graph has done with it. -/
def Owns : CompactionCall → Prop
  | running entry _ phase => (catalog.entries entry).forward = ref ∧
      phase.Owns (initial.graphs ref) (catalog.graphs ref)
  | done (.ok true) => (catalog.graphs ref).delta.insertions = ∅ ∧
      Settled name initial log catalog ref
  | done (.error _) => (catalog.graphs ref).delta.insertions = ∅ ∧
      ∀ compacted, (initial.graphs ref).rebuildAll ≠ .ok compacted
  | _ => False

/-- What the other calls have done with it. -/
def Follows : CompactionCall → Prop
  | running entry _ phase => (catalog.entries entry).forward = ref →
      phase.Follows (initial.graphs ref) (catalog.graphs ref)
  | _ => True

/-- The call is not in a drain, and its entry is in use. -/
def Held : CompactionCall → Prop
  | running entry removals _ => removals = [] ∧ entry < catalog.entryCount
  | _ => True

end CompactionCall

variable (policies : List CompactionPolicy) (state : ConcurrentCatalog Dictionary)

/-- Nobody has taken anything from the graph. -/
structure Whole : Prop where
  graph : ref < initial.graphCount → state.catalog.graphs ref = initial.graphs ref
  shown : boundAfter (initial.get name) log = some ref → state.catalog.get name = some ref
  spares : ∀ (index : ℕ) policy call, state.threads[index]? = some (.compaction policy call) →
    call.Spares name initial log state.catalog ref policy

/-- One of the compactions has taken or will take all mutations of the graph. -/
structure Taken (owner : ℕ) : Prop where
  inUse : ref < initial.graphCount
  due : ∃ policy ∈ policies, (initial.graphs ref).shouldCompact policy = true
  graph : ∃ insertions, state.catalog.graphs ref =
    (initial.graphs ref).withDelta { insertions := insertions, deletions := ∅ }
  owns : ∃ policy call, state.threads[owner]? = some (.compaction policy call) ∧
    call.Owns name initial log state.catalog ref
  follows : ∀ (index : ℕ) policy call, index ≠ owner →
    state.threads[index]? = some (.compaction policy call) →
    call.Follows initial state.catalog ref

/-- What the name shows: the graph that it was bound to last, or a rebuild of it. -/
structure Shown : Prop where
  inUse : ref < initial.graphCount
  graph : state.catalog.get name = some ref ∨
    ∃ copy, state.catalog.get name = some copy ∧ initial.graphCount ≤ copy ∧
      ((initial.graphs ref).rebuildAll = .ok (state.catalog.graphs copy) ∨
        (initial.graphs ref).rebuild [] [] = .ok (state.catalog.graphs copy))

end Status

/-- The registry writes that have not happened yet. -/
def CatalogThread.pendingWrite : CatalogThread Dictionary → Option (RegistryWrite Dictionary)
  | write call => some call
  | _ => none

/-- The policy of the compaction that the thread makes. -/
def CatalogThread.policy : CatalogThread Dictionary → Option CompactionPolicy
  | compaction policy _ => some policy
  | _ => none

/-- **What holds at every time**, after the writes of the log. -/
structure SerialInvariant (name : String) (initial : GraphCatalog Dictionary)
    (calls : List (CatalogCall Dictionary)) (log : List (RegistryWrite Dictionary))
    (state : ConcurrentCatalog Dictionary) : Prop where
  writes : (calls.filterMap asWrite).Perm
    (log ++ state.threads.filterMap CatalogThread.pendingWrite)
  policies : state.threads.filterMap CatalogThread.policy = calls.filterMap asPolicy
  bound : ∀ entry, state.catalog.entry name = some entry → entry < state.catalog.entryCount
  forward : ∀ entry < state.catalog.entryCount,
    (state.catalog.entries entry).forward < state.catalog.graphCount
  grown : initial.graphCount ≤ state.catalog.graphCount
  clean : ∀ ref, initial.graphCount ≤ ref → ref < state.catalog.graphCount →
    (state.catalog.graphs ref).delta = .new
  held : ∀ (index : ℕ) policy call, state.threads[index]? = some (.compaction policy call) →
    call.Held state.catalog
  absent : boundAfter (initial.get name) log = none → state.catalog.entry name = none
  shown : ∀ ref, boundAfter (initial.get name) log = some ref → Shown name initial ref state
  status : ∀ ref < state.catalog.graphCount, Whole name initial log ref state ∨
    ∃ owner, Taken name initial log ref (calls.filterMap asPolicy) state owner

/-! ## What a step does not touch -/

/-- The graph and the entries in use are the same in both catalogs. -/
structure GraphCatalog.Keeps (before after : GraphCatalog Dictionary) (ref : GraphRef) : Prop where
  graph : after.graphs ref = before.graphs ref
  forward : ∀ entry < before.entryCount,
    (after.entries entry).forward = (before.entries entry).forward

theorem GraphCatalog.Keeps.refl (catalog : GraphCatalog Dictionary) (ref : GraphRef) :
    catalog.Keeps catalog ref := ⟨rfl, fun _ _ => rfl⟩

namespace GraphCatalog.Binds

variable {before after : GraphCatalog Dictionary} {name : String} {bound : GraphEntry Dictionary}

theorem entries_of_lt (binds : before.Binds name bound after) {entry : EntryRef}
    (old : entry < before.entryCount) : after.entries entry = before.entries entry := by
  rw [binds.entries]
  exact Function.update_of_ne old.ne _ _

theorem get (binds : before.Binds name bound after) : after.get name = some bound.forward := by
  rw [GraphCatalog.get, binds.entry, Option.map_some, binds.entries, Function.update_self]

theorem forward_lt (binds : before.Binds name bound after) {count : ℕ}
    (old : ∀ entry < before.entryCount, (before.entries entry).forward < count)
    (new : bound.forward < count) :
    ∀ entry < after.entryCount, (after.entries entry).forward < count := by
  intro entry inUse
  rw [binds.entryCount, Nat.lt_succ_iff_lt_or_eq] at inUse
  rcases inUse with earlier | rfl
  · rw [binds.entries_of_lt earlier]
    exact old entry earlier
  · rwa [binds.entries, Function.update_self]

end GraphCatalog.Binds

/-- A registry write removes the name or binds it to its target. -/
theorem RegistryWrite.binds_run (write : RegistryWrite Dictionary) (name : String)
    (catalog : GraphCatalog Dictionary) :
    (write.target = none ∧ (write.run name catalog).entry name = none ∧
        (write.run name catalog).entries = catalog.entries ∧
        (write.run name catalog).entryCount = catalog.entryCount) ∨
      ∃ entry : GraphEntry Dictionary, write.target = some entry.forward ∧
        catalog.Binds name entry (write.run name catalog) := by
  cases write with
  | register graph => exact .inr ⟨_, rfl, .of_bindEntry _⟩
  | registerWithReverse forward reverse => exact .inr ⟨_, rfl, .of_bindEntry _⟩
  | registerWithDictionary forward dictionary => exact .inr ⟨_, rfl, .of_bindEntry _⟩
  | deregister => exact .inl ⟨rfl, AList.lookup_erase name catalog.registry, rfl, rfl⟩

/-- The catalog after a compaction has bound the name to a new graph. -/
structure GraphCatalog.SwapsTo (before : GraphCatalog Dictionary) (name : String)
    (compacted : CsrGraph) (after : GraphCatalog Dictionary) : Prop where
  binds : ∃ new : GraphEntry Dictionary, (before.allocGraph compacted).2.Binds name new after ∧
    new.forward = before.graphCount
  graphs : after.graphs = Function.update before.graphs before.graphCount compacted
  count : after.graphCount = before.graphCount + 1

namespace GraphCatalog.SwapsTo

variable {before after : GraphCatalog Dictionary} {name : String} {compacted : CsrGraph}

theorem entries_of_lt (swapped : before.SwapsTo name compacted after) {entry : EntryRef}
    (old : entry < before.entryCount) : after.entries entry = before.entries entry := by
  obtain ⟨new, binds, -⟩ := swapped.binds
  exact binds.entries_of_lt old

theorem get (swapped : before.SwapsTo name compacted after) :
    after.get name = some before.graphCount := by
  obtain ⟨new, binds, forward⟩ := swapped.binds
  rw [binds.get, forward]

theorem fresh (swapped : before.SwapsTo name compacted after) :
    after.graphs before.graphCount = compacted := by
  rw [swapped.graphs, Function.update_self]

theorem more (swapped : before.SwapsTo name compacted after) :
    before.entryCount ≤ after.entryCount := by
  obtain ⟨new, binds, -⟩ := swapped.binds
  exact binds.entryCount ▸ Nat.le_succ _

theorem bound (swapped : before.SwapsTo name compacted after) :
    ∀ entry, after.entry name = some entry → entry < after.entryCount := by
  obtain ⟨new, binds, -⟩ := swapped.binds
  intro entry found
  obtain rfl := Option.some.inj (binds.entry.symm.trans found)
  exact binds.entryCount ▸ Nat.lt_succ_self _

theorem forward_lt (swapped : before.SwapsTo name compacted after)
    (old : ∀ entry < before.entryCount, (before.entries entry).forward < before.graphCount) :
    ∀ entry < after.entryCount, (after.entries entry).forward < after.graphCount := by
  obtain ⟨new, binds, forward⟩ := swapped.binds
  rw [swapped.count]
  exact binds.forward_lt (fun entry inUse => Nat.lt_succ_of_lt (old entry inUse))
    (forward ▸ Nat.lt_succ_self _)

/-- The graphs and entries in use before stay as they are. -/
theorem keeps (swapped : before.SwapsTo name compacted after) {ref : GraphRef}
    (old : ref < before.graphCount) : before.Keeps after ref := by
  refine ⟨?_, fun entry inUse => by rw [swapped.entries_of_lt inUse]⟩
  rw [swapped.graphs, Function.update_of_ne old.ne]

end GraphCatalog.SwapsTo

section Keep

variable {name : String} {initial catalog after : GraphCatalog Dictionary}
  {calls : List (CatalogCall Dictionary)} {log more : List (RegistryWrite Dictionary)}
  {ref : GraphRef} {policy : CompactionPolicy} {call moved : CompactionCall}
  {policies : List CompactionPolicy} {state next : ConcurrentCatalog Dictionary} {index owner : ℕ}

theorem CompactionCall.Spares.keep (spares : call.Spares name initial log catalog ref policy)
    (held : call.Held catalog) (keeps : catalog.Keeps after ref) (grows : log <+: more) :
    call.Spares name initial more after ref policy := by
  cases call with
  | lookup => trivial
  | done result =>
    rw [Spares, keeps.graph]
    exact spares.imp_right fun elsewhere => elsewhere.mono grows
  | running entry removals phase =>
    rw [Spares, keeps.graph, keeps.forward entry held.2]
    exact ⟨spares.1, fun other => (spares.2 other).mono grows⟩

theorem CompactionCall.Owns.keep (owns : call.Owns name initial log catalog ref)
    (held : call.Held catalog) (keeps : catalog.Keeps after ref)
    (settled : Settled name initial log catalog ref → Settled name initial more after ref) :
    call.Owns name initial more after ref := by
  match call with
  | lookup => exact owns
  | running entry removals phase =>
    rw [Owns, keeps.graph, keeps.forward entry held.2]
    exact owns
  | done (.ok true) =>
    rw [Owns, keeps.graph]
    exact ⟨owns.1, settled owns.2⟩
  | done (.ok false) => exact owns
  | done (.error fault) =>
    rw [Owns, keeps.graph]
    exact owns

theorem CompactionCall.Follows.keep (follows : call.Follows initial catalog ref)
    (held : call.Held catalog) (keeps : catalog.Keeps after ref) :
    call.Follows initial after ref := by
  cases call with
  | lookup => trivial
  | done result => trivial
  | running entry removals phase =>
    rw [Follows, keeps.graph, keeps.forward entry held.2]
    exact follows

/-- **A graph that a step does not change is whole afterwards** if the thread that
takes the step still spares it. -/
theorem Whole.keep (whole : Whole name initial log ref state)
    (held : ∀ (index : ℕ) policy call, state.threads[index]? = some (.compaction policy call) →
      call.Held state.catalog)
    (keeps : state.catalog.Keeps next.catalog ref) (grows : log <+: more)
    (others : ∀ other ≠ index, next.threads[other]? = state.threads[other]?)
    (shown : boundAfter (initial.get name) more = some ref → next.catalog.get name = some ref)
    (spares : ∀ policy call, next.threads[index]? = some (.compaction policy call) →
      call.Spares name initial more next.catalog ref policy) :
    Whole name initial more ref next where
  graph old := keeps.graph.trans (whole.graph old)
  shown := shown
  spares other policy call here := by
    by_cases own : other = index
    · exact spares policy call (own ▸ here)
    · rw [others other own] at here
      exact (whole.spares other policy call here).keep (held other policy call here) keeps grows

/-- **A graph that a step does not change is still taken afterwards.** -/
theorem Taken.keep (taken : Taken name initial log ref policies state owner)
    (held : ∀ (index : ℕ) policy call, state.threads[index]? = some (.compaction policy call) →
      call.Held state.catalog)
    (keeps : state.catalog.Keeps next.catalog ref)
    (others : ∀ other ≠ index, next.threads[other]? = state.threads[other]?)
    (settled : Settled name initial log state.catalog ref →
      Settled name initial more next.catalog ref)
    (owns : ∀ policy call, state.threads[index]? = some (.compaction policy call) →
      call.Owns name initial log state.catalog ref → index = owner →
      ∃ policy moved, next.threads[index]? = some (.compaction policy moved) ∧
        moved.Owns name initial more next.catalog ref)
    (follows : ∀ policy call, index ≠ owner →
      next.threads[index]? = some (.compaction policy call) →
      call.Follows initial next.catalog ref) :
    Taken name initial more ref policies next owner where
  inUse := taken.inUse
  due := taken.due
  graph := by
    rw [keeps.graph]
    exact taken.graph
  owns := by
    obtain ⟨policy, call, here, owned⟩ := taken.owns
    by_cases own : owner = index
    · subst own
      exact owns policy call here owned rfl
    · exact ⟨policy, call, (others owner own).trans here,
        owned.keep (held owner policy call here) keeps settled⟩
  follows other policy call different here := by
    by_cases own : other = index
    · subst own
      exact follows policy call different here
    · rw [others other own] at here
      have before := taken.follows other policy call different here
      exact before.keep (held other policy call here) keeps

end Keep

/-! ## The threads after a step -/

section Threads

variable {α β : Type} {f : α → Option β} {xs : List α} {old new : α} {i : ℕ}

/-- An element that is replaced by one with the same value. -/
theorem filterMap_set_of_eq (found : xs[i]? = some old) (same : f new = f old) :
    (xs.set i new).filterMap f = xs.filterMap f := by
  induction xs generalizing i with
  | nil => rfl
  | cons head rest ih =>
      cases i with
      | zero =>
        obtain rfl : head = old := by simpa using found
        simp only [List.set_cons_zero, List.filterMap_cons, same]
      | succ i =>
        have later := ih (by simpa using found)
        simp only [List.set_cons_succ, List.filterMap_cons, later]

/-- An element that is replaced by one without value. -/
theorem perm_filterMap_set {value : β} (found : xs[i]? = some old) (was : f old = some value)
    (now : f new = none) : (xs.filterMap f).Perm (value :: (xs.set i new).filterMap f) := by
  induction xs generalizing i with
  | nil => simp at found
  | cons head rest ih =>
      cases i with
      | zero =>
        obtain rfl : head = old := by simpa using found
        simp only [List.set_cons_zero, List.filterMap_cons, was, now]
        exact .refl _
      | succ i =>
        have later := ih (show rest[i]? = some old by simpa using found)
        simp only [List.set_cons_succ, List.filterMap_cons]
        cases f head with
        | none => exact later
        | some other => exact (later.cons other).trans (.swap ..)

end Threads

end FusionGraph
