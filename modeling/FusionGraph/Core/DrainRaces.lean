import FusionGraph.Core.DeltaRaces
import Mathlib.Data.List.Induction

/-!
# Insertions during a drain

A drain reads the entries of the insertions and then removes their edges one by
one. Calls of `insert` by other threads run before, between and after these
steps. What an insertion has put is drained or stored at the end, unless it put
an edge that was read and not yet removed: the removal then takes the new data
away, and the drain returns the old.
-/

set_option autoImplicit false

namespace FusionGraph

open Foundations

/-- An entry is in the snapshot exactly when it is found under its key. -/
theorem DeltaLayer.mem_snapshotInsertions {delta : DeltaLayer} {key : EdgeKey} {data : EdgeData} :
    (key, data) ∈ delta.snapshotInsertions ↔ delta.insertions.lookup key = some data := by
  rw [← Option.mem_def, AList.mem_lookup_iff, snapshotInsertions, List.mem_map]
  constructor
  · rintro ⟨⟨key, data⟩, member, same⟩
    obtain ⟨rfl, rfl⟩ := Prod.mk.inj same
    exact member
  · exact fun member => ⟨⟨key, data⟩, member, rfl⟩

/-! ## A drain among insertions -/

/-- Where a call of `drain_insertions` stands: before its first step, or with the
entries that it returns and the keys that it still removes. -/
inductive DrainCall where
  | waiting
  | removing (entries : List (EdgeKey × EdgeData)) (left : List EdgeKey)

namespace DrainCall

/-- What the drain returns, as far as it has read. -/
def entries : DrainCall → List (EdgeKey × EdgeData)
  | waiting => []
  | removing entries _ => entries

/-- The keys that are read and not yet removed. -/
def left : DrainCall → List EdgeKey
  | waiting => []
  | removing _ left => left

end DrainCall

/-- A delta layer with the insertions in progress, and one drain. -/
structure SharedDrain (Thread : Type) where
  shared : SharedDelta Thread
  drain : DrainCall

/-- One operation of an insertion or of the drain. -/
inductive DrainOp (Thread : Type) where
  | begin (thread : Thread) (source target : ℕ) (data : EdgeData)
  | put (thread : Thread) (source target : ℕ) (data : EdgeData)
  | read (entries : List (EdgeKey × EdgeData))
  | remove (key : EdgeKey)

namespace SharedDrain

variable {Thread : Type}

/-- A delta layer before any of the calls. -/
def before (delta : DeltaLayer) : SharedDrain Thread where
  shared := { delta := delta, inProgress := fun _ => none }
  drain := .waiting

/-- No insertion is in progress, and the drain has returned. -/
structure Finished (self : SharedDrain Thread) : Prop where
  idle : self.shared.Idle
  drained : ∃ entries, self.drain = .removing entries []

/-- The drain has read this data for the edge, or it is stored. -/
def Keeps (self : SharedDrain Thread) (key : EdgeKey) (data : EdgeData) : Prop :=
  (key, data) ∈ self.drain.entries ∨ self.shared.delta.insertions.lookup key = some data

/-- The data may be put: the edge is not between its read and its removal, or the
drain has read the same data for it. -/
def Spares (self : SharedDrain Thread) (key : EdgeKey) (data : EdgeData) : Prop :=
  key ∈ self.drain.left → (key, data) ∈ self.drain.entries

/-- The drain has removed the next key. -/
def remove (self : SharedDrain Thread) (key : EdgeKey) (entries : List (EdgeKey × EdgeData))
    (left : List EdgeKey) : SharedDrain Thread where
  shared := { self.shared with delta := (MapOp.removeInsertion key).run self.shared.delta }
  drain := .removing entries left

variable [DecidableEq Thread]

/-- The map is iterated in any order when the drain reads it. -/
inductive Step : SharedDrain Thread → DrainOp Thread → SharedDrain Thread → Prop where
  | begin {state : SharedDrain Thread} {thread : Thread} (source target : ℕ) (data : EdgeData)
      (free : state.shared.inProgress thread = none) :
      Step state (.begin thread source target data)
        { state with shared := state.shared.begin thread (.insert source target data) }
  | put {state : SharedDrain Thread} {thread : Thread} {source target : ℕ} {data : EdgeData}
      (busy : state.shared.inProgress thread = some (.insert source target data)) :
      Step state (.put thread source target data)
        { state with shared := state.shared.finish thread (.insert source target data) }
  | read {state : SharedDrain Thread} {entries : List (EdgeKey × EdgeData)}
      (waiting : state.drain = .waiting)
      (iterated : entries.Perm state.shared.delta.snapshotInsertions) :
      Step state (.read entries)
        { state with drain := .removing entries (entries.map Prod.fst) }
  | remove {state : SharedDrain Thread} {entries : List (EdgeKey × EdgeData)} {key : EdgeKey}
      {left : List EdgeKey} (next : state.drain = .removing entries (key :: left)) :
      Step state (.remove key) (state.remove key entries left)

/-- A step that puts no data over an edge between its read and its removal. -/
def SparingStep (state : SharedDrain Thread) (op : DrainOp Thread) (next : SharedDrain Thread) :
    Prop :=
  Step state op next ∧ ∀ thread source target data, op = .put thread source target data →
    state.Spares (source, target) data

omit [DecidableEq Thread] in
/-- The data of the last insertion of an edge, in step order. Before any, it is what
the map had at the start. -/
def lastInserted (start : DeltaLayer) (actions : List (DrainOp Thread)) (key : EdgeKey) :
    Option EdgeData :=
  actions.foldl (fun last op =>
    match op with
    | .put _ source target data => if key = (source, target) then some data else last
    | _ => last) (start.insertions.lookup key)

section LastInserted

variable (start : DeltaLayer) (actions : List (DrainOp Thread)) (key : EdgeKey)

omit [DecidableEq Thread]

theorem lastInserted_put (thread : Thread) (source target : ℕ) (data : EdgeData) :
    lastInserted start (actions ++ [.put thread source target data]) key =
      if key = (source, target) then some data else lastInserted start actions key := by
  rw [lastInserted, List.foldl_concat]
  rfl

theorem lastInserted_of_not_put {op : DrainOp Thread}
    (other : ∀ thread source target data, op ≠ .put thread source target data) :
    lastInserted start (actions ++ [op]) key = lastInserted start actions key := by
  rw [lastInserted, List.foldl_concat]
  cases op with
  | put thread source target data => exact absurd rfl (other thread source target data)
  | begin | read | remove => rfl

end LastInserted

variable {state next : SharedDrain Thread} {actions : List (DrainOp Thread)}

/-! ## What is kept -/

/-- The last data of every edge is read, or it is stored and the drain does not
remove it. -/
def Holds (start : DeltaLayer) (actions : List (DrainOp Thread)) (state : SharedDrain Thread) :
    Prop :=
  ∀ key data, lastInserted start actions key = some data →
    (key, data) ∈ state.drain.entries ∨
      state.shared.delta.insertions.lookup key = some data ∧ key ∉ state.drain.left

/-- **A sparing step keeps the last data of every edge.** -/
theorem Holds.step {delta : DeltaLayer} {op : DrainOp Thread} (holds : Holds delta actions state)
    (moved : SparingStep state op next) : Holds delta (actions ++ [op]) next := by
  obtain ⟨moved, spares⟩ := moved
  intro key data last
  cases moved with
  | begin source target inserted free =>
      rw [lastInserted_of_not_put _ _ _ (by simp)] at last
      exact holds key data last
  | @put thread source target inserted busy =>
      rw [lastInserted_put] at last
      by_cases same : key = (source, target)
      · rw [if_pos same] at last
        obtain rfl := Option.some.inj last
        have spared := spares thread source target inserted rfl
        rw [← same] at spared
        by_cases pending : key ∈ state.drain.left
        · exact .inl (spared pending)
        · refine .inr ⟨?_, pending⟩
          rw [same]
          exact AList.lookup_insert _
      · rw [if_neg same] at last
        rcases holds key data last with old | ⟨stored, spared⟩
        · exact .inl old
        · exact .inr ⟨(AList.lookup_insert_ne same).trans stored, spared⟩
  | @read entries waiting iterated =>
      rw [lastInserted_of_not_put _ _ _ (by simp)] at last
      rcases holds key data last with old | ⟨stored, -⟩
      · rw [waiting] at old
        exact absurd old List.not_mem_nil
      · exact .inl (iterated.mem_iff.mpr (DeltaLayer.mem_snapshotInsertions.mpr stored))
  | @remove entries removed left found =>
      rw [lastInserted_of_not_put _ _ _ (by simp)] at last
      rcases holds key data last with old | ⟨stored, spared⟩
      · rw [found] at old
        exact .inl old
      · rw [found, DrainCall.left, List.mem_cons, not_or] at spared
        exact .inr ⟨(AList.lookup_erase_ne spared.1).trans stored, spared.2⟩

/-! ## What is lost -/

/-- The drain can remove the keys that are left. None of them is stored then, and no
edge that was not stored before. -/
theorem exists_drained {entries : List (EdgeKey × EdgeData)} {left : List EdgeKey}
    (here : state.drain = .removing entries left) (idle : state.shared.Idle) :
    ∃ last, Run Step state (left.map .remove) last ∧ last.drain = .removing entries [] ∧
      last.shared.Idle ∧ ∀ key, key ∈ left ∨ state.shared.delta.insertions.lookup key = none →
        last.shared.delta.insertions.lookup key = none := by
  induction left generalizing state with
  | nil =>
      refine ⟨state, .start, here, idle, fun key absent => ?_⟩
      exact absent.resolve_left List.not_mem_nil
  | cons first left ih =>
      obtain ⟨last, run, drained, stopped, gone⟩ :=
        @ih (state.remove first entries left) rfl idle
      refine ⟨last, .cons (.remove here) run, drained, stopped, fun key absent => gone key ?_⟩
      by_cases same : key = first
      · rw [same]
        exact .inr (AList.lookup_erase first _)
      · rcases absent with member | none
        · exact .inl ((List.mem_cons.mp member).resolve_left same)
        · exact .inr ((AList.lookup_erase_ne same).trans none)

omit [DecidableEq Thread] in
theorem lastInserted_removes (start : DeltaLayer) (actions : List (DrainOp Thread))
    (keys : List EdgeKey) (key : EdgeKey) :
    lastInserted start (actions ++ keys.map .remove) key = lastInserted start actions key := by
  induction keys using List.reverseRecOn with
  | nil => rw [List.map_nil, List.append_nil]
  | append_singleton keys removed ih =>
      rw [List.map_append, ← List.append_assoc, List.map_singleton,
        lastInserted_of_not_put _ _ _ (by simp), ih]

/-- **A drain loses no insertion when no insertion puts new data on an edge that is
read and not yet removed.** When one does and it is the only one in progress, the
drain can go on to its end, and the data is neither drained nor stored. -/
theorem drain_keeps_inserts (delta : DeltaLayer) :
    (∀ actions (state : SharedDrain Thread), Run SparingStep (before delta) actions state →
        state.Finished → ∀ key data, lastInserted delta actions key = some data →
        state.Keeps key data) ∧
      ∀ actions (state : SharedDrain Thread), Run Step (before delta) actions state →
        ∀ thread source target data next, Step state (.put thread source target data) next →
        ¬ state.Spares (source, target) data → next.shared.Idle →
        ∃ more last, Run Step (before delta) (actions ++ .put thread source target data :: more)
            last ∧ last.Finished ∧
          lastInserted delta (actions ++ .put thread source target data :: more) (source, target) =
            some data ∧ ¬ last.Keeps (source, target) data := by
  constructor
  · intro actions state run finished key data last
    have holds : Holds delta actions state :=
      run.invariant (Holds delta) (fun key data stored => .inr ⟨stored, List.not_mem_nil⟩)
        fun _ before moved => before.step moved
    rcases holds key data last with drained | ⟨stored, -⟩
    · exact .inl drained
    · exact .inr stored
  · intro actions state run thread source target data next moved overwrites stopped
    rw [Spares, Classical.not_imp] at overwrites
    obtain ⟨pending, new⟩ := overwrites
    have same : next.drain = state.drain := by cases moved; rfl
    cases here : state.drain with
    | waiting =>
        rw [here] at pending
        exact absurd pending List.not_mem_nil
    | removing entries left =>
        rw [here] at pending new same
        obtain ⟨last, rest, drained, idle, gone⟩ := exists_drained same stopped
        refine ⟨left.map .remove, last, ?_, ⟨idle, entries, drained⟩, ?_, ?_⟩
        · rw [List.append_cons]
          exact (run.step moved).append rest
        · rw [List.append_cons, lastInserted_removes, lastInserted_put, if_pos rfl]
        · rw [Keeps, drained, gone _ (.inl pending)]
          rintro (read | stored)
          · exact new read
          · cases stored

theorem drain_keeps_inserts_witness :
    (∃ state : SharedDrain ℕ, Run SparingStep (before (DeltaLayer.new.insert 0 1 .default))
        [.begin 0 2 3 .default, .read [((0, 1), .default)], .put 0 2 3 .default, .remove (0, 1)]
        state ∧ state.Keeps (0, 1) .default ∧ state.Keeps (2, 3) .default) ∧
      ∃ (more : List (DrainOp ℕ)) (last : SharedDrain ℕ),
        Run Step (before (DeltaLayer.new.insert 0 1 .default))
          ([.begin 0 0 1 ⟨none, some "new"⟩, .read [((0, 1), .default)]] ++
            .put 0 0 1 ⟨none, some "new"⟩ :: more) last ∧
        ¬ last.Keeps (0, 1) ⟨none, some "new"⟩ := by
  obtain ⟨kept, lost⟩ := @drain_keeps_inserts ℕ _ (DeltaLayer.new.insert 0 1 .default)
  constructor
  · have run : Run SparingStep (before (DeltaLayer.new.insert 0 1 .default) : SharedDrain ℕ)
        [.begin 0 2 3 .default, .read [((0, 1), .default)], .put 0 2 3 .default, .remove (0, 1)] _ :=
      .cons ⟨.begin 2 3 .default rfl, by simp⟩ (.cons ⟨.read rfl (.refl _), by simp⟩
        (.cons ⟨.put (SharedDelta.inProgress_begin_self ..), by
          intro thread source target data same pending
          obtain ⟨-, rfl, rfl, -⟩ := DrainOp.put.inj same
          have left : ((2, 3) : EdgeKey) ∈ [((0, 1) : EdgeKey)] := pending
          exact absurd left (by simp)⟩
          (.cons ⟨.remove rfl, by simp⟩ .start)))
    have keeps := kept _ _ run ⟨SharedDelta.Idle.finish_begin (fun _ => rfl) 0 _, _, rfl⟩
    exact ⟨_, run, keeps _ _ rfl, keeps _ _ rfl⟩
  · have run : Run Step (before (DeltaLayer.new.insert 0 1 .default) : SharedDrain ℕ)
        [.begin 0 0 1 ⟨none, some "new"⟩, .read [((0, 1), .default)]] _ :=
      .cons (.begin 0 1 ⟨none, some "new"⟩ rfl) (.cons (.read rfl (.refl _)) .start)
    obtain ⟨more, last, overwritten, -, -, gone⟩ := lost _ _ run 0 0 1 ⟨none, some "new"⟩ _
      (.put (SharedDelta.inProgress_begin_self ..))
      (fun spared => by
        have read : (((0, 1) : EdgeKey), (⟨none, some "new"⟩ : EdgeData)) ∈
            [(((0, 1) : EdgeKey), EdgeData.default)] := spared List.mem_cons_self
        simp [EdgeData.default] at read)
      (SharedDelta.Idle.finish_begin (fun _ => rfl) 0 _)
    exact ⟨more, last, overwritten, gone⟩

/-- The drain reads an edge, a thread inserts it with a label, and the drain removes
it: the label is neither drained nor stored. -/
theorem drain_loses_overwrite : ∃ state : SharedDrain ℕ,
    Run Step (before (DeltaLayer.new.insert 0 1 .default))
      [.begin 0 0 1 ⟨none, some "new"⟩, .read [((0, 1), .default)], .put 0 0 1 ⟨none, some "new"⟩,
        .remove (0, 1)] state ∧ state.Finished ∧
    lastInserted (DeltaLayer.new.insert 0 1 .default)
      ([.begin 0 0 1 ⟨none, some "new"⟩, .read [((0, 1), .default)], .put 0 0 1 ⟨none, some "new"⟩,
        .remove (0, 1)] : List (DrainOp ℕ)) (0, 1) = some ⟨none, some "new"⟩ ∧
    ¬ state.Keeps (0, 1) ⟨none, some "new"⟩ := by
  have run : Run Step (before (DeltaLayer.new.insert 0 1 .default) : SharedDrain ℕ)
      [.begin 0 0 1 ⟨none, some "new"⟩, .read [((0, 1), .default)], .put 0 0 1 ⟨none, some "new"⟩,
        .remove (0, 1)] _ :=
    .cons (.begin 0 1 ⟨none, some "new"⟩ rfl) (.cons (.read rfl (.refl _))
      (.cons (.put (SharedDelta.inProgress_begin_self ..)) (.cons (.remove rfl) .start)))
  refine ⟨_, run, ⟨SharedDelta.Idle.finish_begin (fun _ => rfl) 0 _, _, rfl⟩, rfl, ?_⟩
  rintro (drained | stored)
  · simp [DrainCall.entries, remove, EdgeData.default] at drained
  · cases (AList.lookup_erase (0, 1) _).symm.trans stored

end SharedDrain

end FusionGraph
