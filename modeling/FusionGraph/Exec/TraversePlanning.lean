import FusionGraph.Exec.GraphTraverseUdtf

/-!
# Planning beside catalog updates

A call of `graph_traverse` looks the name up several times, and the name can be
bound to another entry between two lookups. The plan is then put together from
two entries: it starts at a node that another dictionary resolved, or pairs a
graph with the transpose of another one (`plan_mixes_entries`).

A binding does no harm when it happens before the first lookup or after the last
one, when the dictionary of the new entry gives the start key the same node, or
when an outgoing traversal finds no transpose in it (`TraverseCall.Tolerates`).
If every binding is of this kind, the plan comes from one registered entry
(`plans_against_one_entry`).
-/

set_option autoImplicit false

namespace FusionGraph

open Foundations GraphTraverseUdtf

/-! ## A call among other threads -/

/-- A call of `graph_traverse` and the threads that change the binding of its name. -/
structure ConcurrentPlanning where
  updates : ConcurrentCatalog NodeDictionary
  call : TraverseCall

/-- Who takes the next step. -/
inductive PlanningAction where
  | planner
  | thread (index : ℕ)

namespace ConcurrentPlanning

/-- No thread has taken a step. -/
def start (debug : DebugText) (args : List Expr) (catalog : GraphCatalog NodeDictionary)
    (calls : List (CatalogCall NodeDictionary)) : ConcurrentPlanning where
  updates := .start catalog calls
  call := .begin debug args

/-- One step of the call or of a thread. -/
def step (mode : DrainMode) (debug : DebugText) (args : List Expr) (name : String)
    (state : ConcurrentPlanning) : PlanningAction → ConcurrentPlanning
  | .planner =>
    let (catalog, call) := state.call.step debug args state.updates.catalog
    { updates := { state.updates with catalog := catalog }, call := call }
  | .thread index => { state with updates := state.updates.step mode name index }

end ConcurrentPlanning

/-! ## Plans from one entry -/

/-- The dictionary of the entry gives the start key of the arguments the node. -/
def GraphEntry.Resolves (entry : GraphEntry NodeDictionary) (args : List Expr) (node : ℕ) : Prop :=
  ∀ key, startKey args[1]? = some key →
    ∃ dictionary, entry.dictionary = some dictionary ∧ dictionary.idOf key = some node

/-- The start node, the graph and the transpose of a plan are those of the entry. -/
structure GraphEntry.Provides (entry : GraphEntry NodeDictionary) (args : List Expr)
    (table : TraversalTable) : Prop where
  forward : entry.forward = table.graph
  reverse : ∀ reverse, table.reverse = some reverse → entry.reverse = some reverse
  start : ∃ node, table.spec.start = [node] ∧ entry.Resolves args node

/-- The entries that the name has been bound to since the start. -/
def GraphCatalog.Registered (start : GraphCatalog NodeDictionary) (name : String)
    (catalog : GraphCatalog NodeDictionary) (entry : EntryRef) : Prop :=
  start.entry name = some entry ∨ (start.entryCount ≤ entry ∧ entry < catalog.entryCount)

/-- The plan comes from one entry that the name has been bound to. -/
def TraversalTable.FromOneEntry (table : TraversalTable) (start : GraphCatalog NodeDictionary)
    (name : String) (args : List Expr) (catalog : GraphCatalog NodeDictionary) : Prop :=
  ∃ entry, start.Registered name catalog entry ∧ (catalog.entries entry).Provides args table

/-- The entry has the graph that the call has found, and resolves its start node. -/
def GraphEntry.Fits (entry : GraphEntry NodeDictionary) (args : List Expr)
    (request : TraverseRequest) (graph : GraphRef) : Prop :=
  entry.forward = graph ∧ entry.Resolves args request.startNode

/-- The call does not attach a transpose of the entry. -/
def GraphEntry.LeavesOutReverse (entry : GraphEntry NodeDictionary) (request : TraverseRequest) :
    Prop :=
  request.direction ≠ .incoming ∧ entry.reverse = none

/-- The entry may be bound to the name while the call stands where it does. -/
def TraverseCall.Tolerates (args : List Expr) (bound : GraphEntry NodeDictionary) :
    TraverseCall → Prop
  | .findGraph request => bound.Resolves args request.startNode
  | .findEntry request graph => bound.Fits args request graph ∨ bound.LeavesOutReverse request
  | _ => True

/-- A step that binds the name binds it to an entry that the call tolerates. -/
def PlanningAction.Harmless (args : List Expr) (state : ConcurrentPlanning) :
    PlanningAction → Prop
  | .planner => True
  | .thread index => ∀ thread bound, state.updates.threads[index]? = some thread →
      thread.binds state.updates.catalog = some bound → state.call.Tolerates args bound

/-- A step whose action meets a condition on the state before it. -/
def PlanningStep (condition : List Expr → ConcurrentPlanning → PlanningAction → Prop)
    (mode : DrainMode) (debug : DebugText) (args : List Expr) (name : String)
    (state : ConcurrentPlanning) (action : PlanningAction) (next : ConcurrentPlanning) : Prop :=
  condition args state action ∧ next = state.step mode debug args name action

/-! ## The invariant of a run -/

section Invariant

variable {start catalog next : GraphCatalog NodeDictionary} {name : String} {args : List Expr}
  {debug : DebugText} {request : TraverseRequest} {graph : GraphRef} {entry : EntryRef}

/-- What the call has found so far fits together. -/
def TraverseCall.Holds (start : GraphCatalog NodeDictionary) (name : String) (args : List Expr)
    (catalog : GraphCatalog NodeDictionary) : TraverseCall → Prop
  | .findDictionary graphName key => graphName = name ∧ startKey args[1]? = some key
  | .findGraph request => request.graphName = name ∧ ∀ entry, catalog.entry name = some entry →
      (catalog.entries entry).Resolves args request.startNode
  | .listNames _ => True
  | .findEntry request graph => request.graphName = name ∧
      (∃ entry, start.Registered name catalog entry ∧
        (catalog.entries entry).Fits args request graph) ∧
      ∀ entry, catalog.entry name = some entry →
        (catalog.entries entry).Fits args request graph ∨
          (catalog.entries entry).LeavesOutReverse request
  | .readReverse request graph entry => start.Registered name catalog entry ∧
      (∃ found, start.Registered name catalog found ∧
        (catalog.entries found).Fits args request graph) ∧
      ((catalog.entries entry).Fits args request graph ∨
        (catalog.entries entry).LeavesOutReverse request)
  | .transpose request graph entry => start.Registered name catalog entry ∧
      (catalog.entries entry).Fits args request graph
  | .storeReverse request graph entry _ => start.Registered name catalog entry ∧
      (catalog.entries entry).Fits args request graph
  | .done (.ok table) => table.FromOneEntry start name args catalog
  | .done (.error _) => True

/-- The invariant: the name is bound to an entry that it has been bound to since the
start, and what the call has found fits together. -/
structure PlanningInvariant (start : GraphCatalog NodeDictionary) (name : String)
    (args : List Expr) (state : ConcurrentPlanning) : Prop where
  grown : start.entryCount ≤ state.updates.catalog.entryCount
  bound : ∀ entry, state.updates.catalog.entry name = some entry →
    start.Registered name state.updates.catalog entry
  holds : state.call.Holds start name args state.updates.catalog

/-! ### Steps of the threads -/

theorem GraphCatalog.Registered.lt
    (inUse : ∀ entry, start.entry name = some entry → entry < start.entryCount)
    (grown : start.entryCount ≤ catalog.entryCount)
    (registered : start.Registered name catalog entry) : entry < catalog.entryCount := by
  rcases registered with bound | ⟨-, below⟩
  · exact (inUse entry bound).trans_le grown
  · exact below

theorem GraphCatalog.Registered.mono (grown : catalog.entryCount ≤ next.entryCount)
    (registered : start.Registered name catalog entry) : start.Registered name next entry :=
  registered.imp_right fun within => ⟨within.1, within.2.trans_le grown⟩

/-- What the call has found stays together when the entries stay as they are, and
the name keeps its entry or is bound to one that the call tolerates. -/
theorem TraverseCall.Holds.updated {call : TraverseCall}
    (holds : call.Holds start name args catalog)
    (kept : ∀ {found}, start.Registered name catalog found →
      start.Registered name next found ∧ next.entries found = catalog.entries found)
    (current : ∀ {found}, next.entry name = some found →
      (catalog.entry name = some found ∧ next.entries found = catalog.entries found) ∨
        call.Tolerates args (next.entries found)) : call.Holds start name args next := by
  cases call with
  | findDictionary graphName key => exact holds
  | listNames request => trivial
  | findGraph request =>
    refine ⟨holds.1, fun found here => ?_⟩
    rcases current here with ⟨before, same⟩ | tolerated
    · exact same ▸ holds.2 found before
    · exact tolerated
  | findEntry request graph =>
    obtain ⟨named, ⟨found, registered, fits⟩, either⟩ := holds
    obtain ⟨still, same⟩ := kept registered
    refine ⟨named, ⟨found, still, same ▸ fits⟩, fun bound here => ?_⟩
    rcases current here with ⟨before, same⟩ | tolerated
    · exact same ▸ either bound before
    · exact tolerated
  | readReverse request graph entry =>
    obtain ⟨registered, ⟨found, other, fits⟩, either⟩ := holds
    obtain ⟨still, same⟩ := kept registered
    obtain ⟨stillOther, sameOther⟩ := kept other
    exact ⟨still, ⟨found, stillOther, sameOther ▸ fits⟩, same ▸ either⟩
  | transpose request graph entry =>
    obtain ⟨still, same⟩ := kept holds.1
    exact ⟨still, same ▸ holds.2⟩
  | storeReverse request graph entry built =>
    obtain ⟨still, same⟩ := kept holds.1
    exact ⟨still, same ▸ holds.2⟩
  | done result =>
    cases result with
    | error fault => trivial
    | ok table =>
      obtain ⟨found, registered, provides⟩ := holds
      obtain ⟨still, same⟩ := kept registered
      exact ⟨found, still, same ▸ provides⟩

/-- **A harmless step of a thread keeps the invariant.** -/
theorem PlanningInvariant.thread {state : ConcurrentPlanning} {mode : DrainMode} {index : ℕ}
    (invariant : PlanningInvariant start name args state)
    (inUse : ∀ entry, start.entry name = some entry → entry < start.entryCount)
    (harmless : (PlanningAction.thread index).Harmless args state) :
    PlanningInvariant start name args (state.step mode debug args name (.thread index)) := by
  simp only [ConcurrentPlanning.step, ConcurrentCatalog.step]
  cases here : state.updates.threads[index]? with
  | none => exact invariant
  | some thread =>
    cases binding : thread.binds state.updates.catalog with
    | none =>
      obtain ⟨entries, count, entry⟩ := thread.step_of_binds_eq_none mode name binding
      have current : ∀ {found}, (thread.step mode name state.updates.catalog).1.entry name =
          some found → state.updates.catalog.entry name = some found := by
        intro found bound
        rcases entry with same | removed
        · exact same ▸ bound
        · rw [removed] at bound
          cases bound
      have kept : ∀ {found}, start.Registered name state.updates.catalog found →
          start.Registered name (thread.step mode name state.updates.catalog).1 found :=
        fun registered => registered.mono count.ge
      exact
        { grown := invariant.grown.trans_eq count.symm
          bound := fun found bound => kept (invariant.bound found (current bound))
          holds := invariant.holds.updated
            (fun registered => ⟨kept registered, congrFun entries _⟩)
            fun bound => .inl ⟨current bound, congrFun entries _⟩ }
    | some entry =>
      have moved := thread.binds_step mode name binding
      have more : state.updates.catalog.entryCount ≤
          (thread.step mode name state.updates.catalog).1.entryCount :=
        moved.entryCount ▸ Nat.le_succ _
      refine
        { grown := invariant.grown.trans more
          bound := fun found bound => ?_
          holds := invariant.holds.updated (fun registered => ⟨registered.mono more, ?_⟩)
            fun bound => .inr ?_ }
      · obtain rfl := Option.some.inj (moved.entry.symm.trans bound)
        exact .inr ⟨invariant.grown, moved.entryCount ▸ Nat.lt_succ_self _⟩
      · rw [moved.entries, Function.update_of_ne (registered.lt inUse invariant.grown).ne]
      · obtain rfl := Option.some.inj (moved.entry.symm.trans bound)
        rw [moved.entries, Function.update_self]
        exact harmless thread entry here binding

/-! ### Steps of the call -/

/-- A request carries the name and the start node that it is made for. -/
theorem TraverseCall.parseRequest_eq_ok {graphName : String} {startNode : ℕ}
    (parsed : parseRequest debug args graphName startNode = .ok request) :
    request.graphName = graphName ∧ request.startNode = startNode := by
  simp only [parseRequest, Checked.bind_eq_ok, Checked.pure_eq_ok, Except.ok.injEq] at parsed
  obtain ⟨maxHops, -, fourth, -, direction, -, parsedDirection, -, rfl⟩ := parsed
  exact ⟨rfl, rfl⟩

/-- A call whose start node is the one of its key is consistent. -/
theorem TraverseCall.holds_resolved {startNode : ℕ}
    (resolves : ∀ entry, catalog.entry name = some entry →
      (catalog.entries entry).Resolves args startNode) :
    (resolved debug args name startNode).Holds start name args catalog := by
  rw [resolved]
  cases parsed : parseRequest debug args name startNode with
  | error fault => trivial
  | ok request =>
    obtain ⟨named, node⟩ := parseRequest_eq_ok parsed
    exact ⟨named, fun entry bound => node ▸ resolves entry bound⟩

/-- A call that has found everything is consistent when one entry provides it. -/
theorem TraverseCall.holds_finish {reverse : Option GraphRef}
    (registered : start.Registered name catalog entry)
    (fits : (catalog.entries entry).Fits args request graph)
    (attached : ∀ found, reverse = some found → (catalog.entries entry).reverse = some found) :
    (finish request graph reverse).Holds start name args catalog := by
  rw [finish]
  cases u32TryFrom request.maxHops with
  | none => trivial
  | some maxDepth =>
    exact ⟨entry, registered, fits.1, attached, request.startNode, rfl, fits.2⟩

/-- A call starts consistent when it is about the name. -/
theorem TraverseCall.holds_begin
    (named : parseString debug args[0]? "1 (graph_name)" = .ok name) :
    (begin debug args).Holds start name args catalog := by
  rw [begin]
  split
  · trivial
  · simp only [named]
    cases key : startKey args[1]? with
    | some key => exact ⟨rfl, key⟩
    | none =>
      cases parseU64 debug args[1]? "2 (start_node)" with
      | error fault => trivial
      | ok startNode =>
        refine holds_resolved fun entry bound found asked => ?_
        rw [key] at asked
        cases asked

/-- Storing a transpose adds it to its entry and changes no binding. -/
theorem TraverseCall.holds_storeReverse (debug : DebugText) {built : CsrGraph}
    (holds : (storeReverse request graph entry built).Holds start name args catalog) :
    let (next, call) := (storeReverse request graph entry built).step debug args catalog
    call.Holds start name args next ∧ next.entryCount = catalog.entryCount ∧
      next.entry name = catalog.entry name := by
  obtain ⟨registered, fits⟩ := holds
  cases memoized : (catalog.entries entry).reverse with
  | some reverse =>
    simp only [step, memoized]
    refine ⟨holds_finish registered fits fun found same => ?_, trivial, trivial⟩
    rwa [← same]
  | none =>
    simp only [step, memoized, GraphCatalog.allocGraph]
    refine ⟨holds_finish registered ?_ fun found same => ?_, trivial, rfl⟩
    · simp only [Function.update_self]
      exact fits
    · simpa only [Function.update_self] using same

/-- **Every step of the call keeps the invariant.** -/
theorem PlanningInvariant.planner {state : ConcurrentPlanning} {mode : DrainMode}
    (invariant : PlanningInvariant start name args state) :
    PlanningInvariant start name args (state.step mode debug args name .planner) := by
  obtain ⟨⟨catalog, threads⟩, call⟩ := state
  obtain ⟨grown, bound, holds⟩ := invariant
  have keep : ∀ call : TraverseCall, call.Holds start name args catalog →
      PlanningInvariant start name args ⟨⟨catalog, threads⟩, call⟩ :=
    fun call holds => ⟨grown, bound, holds⟩
  have failed : ∀ fault, PlanningInvariant start name args
      ⟨⟨catalog, threads⟩, .done (.error fault)⟩ := fun fault => keep _ trivial
  simp only [ConcurrentPlanning.step]
  cases call with
  | findDictionary graphName key =>
    obtain ⟨rfl, asked⟩ := holds
    simp only [TraverseCall.step]
    cases found : catalog.dictionary graphName with
    | none => exact failed _
    | some dictionary =>
      cases known : dictionary.idOf key with
      | none =>
        simp only [known]
        exact failed _
      | some startNode =>
        simp only [known]
        refine keep _ (TraverseCall.holds_resolved fun entry current other same => ?_)
        obtain rfl := Option.some.inj (asked.symm.trans same)
        rw [GraphCatalog.dictionary, current, Option.bind_some] at found
        exact ⟨dictionary, found, known⟩
  | findGraph request =>
    obtain ⟨rfl, resolves⟩ := holds
    simp only [TraverseCall.step]
    cases current : catalog.entry request.graphName with
    | none =>
      simp only [GraphCatalog.get, current, Option.map_none]
      exact keep _ trivial
    | some entry =>
      simp only [GraphCatalog.get, current, Option.map_some]
      have fits : (catalog.entries entry).Fits args request (catalog.entries entry).forward :=
        ⟨rfl, resolves entry current⟩
      refine keep _ ⟨rfl, ⟨entry, bound entry current, fits⟩, fun other same => .inl ?_⟩
      obtain rfl := Option.some.inj (current.symm.trans same)
      exact fits
  | listNames request => exact failed _
  | findEntry request graph =>
    obtain ⟨rfl, found, either⟩ := holds
    simp only [TraverseCall.step]
    cases current : catalog.entry request.graphName with
    | none =>
      obtain ⟨entry, registered, fits⟩ := found
      exact keep _ (TraverseCall.holds_finish registered fits fun reverse none => by cases none)
    | some entry => exact keep _ ⟨bound entry current, found, either entry current⟩
  | readReverse request graph entry =>
    obtain ⟨registered, ⟨found, other, fitsFound⟩, either⟩ := holds
    simp only [TraverseCall.step]
    cases memoized : (catalog.entries entry).reverse with
    | some reverse =>
      rcases either with fits | leaves
      · refine keep _ (TraverseCall.holds_finish registered fits fun found same => ?_)
        rwa [← same]
      · exact absurd (leaves.2.symm.trans memoized) (by simp)
    | none =>
      simp only
      split
      · rename_i incoming
        rcases either with fits | leaves
        · exact keep _ ⟨registered, fits⟩
        · exact absurd incoming leaves.1
      · exact keep _ (TraverseCall.holds_finish other fitsFound fun reverse none => by cases none)
  | transpose request graph entry =>
    simp only [TraverseCall.step]
    cases (catalog.graphs (catalog.entries entry).forward).transpose.2 with
    | error fault =>
      cases fault with
      | error reason => exact failed _
      | abort cause => exact failed _
    | ok built => exact keep _ holds
  | storeReverse request graph entry built =>
    obtain ⟨stored, count, same⟩ := TraverseCall.holds_storeReverse debug holds
    refine ⟨grown.trans_eq count.symm, fun found current => ?_, stored⟩
    exact (bound found (same ▸ current)).mono count.ge
  | done result => exact keep _ holds

/-- **A plan comes from one registered entry**, whatever other calls run in between,
if every binding of the name is one that the call tolerates. -/
theorem plans_against_one_entry {mode : DrainMode} {calls : List (CatalogCall NodeDictionary)}
    {actions : List PlanningAction} {final : ConcurrentPlanning} {table : TraversalTable}
    (wellFormed : start.WellFormed)
    (named : parseString debug args[0]? "1 (graph_name)" = .ok name)
    (run : Run (PlanningStep PlanningAction.Harmless mode debug args name)
      (.start debug args start calls) actions final)
    (planned : final.call = .done (.ok table)) :
    table.FromOneEntry start name args final.updates.catalog := by
  have invariant : PlanningInvariant start name args final := by
    refine run.invariant (fun _ state => PlanningInvariant start name args state) ?_ ?_
    · exact ⟨Nat.le_refl _, fun entry bound => .inl bound, TraverseCall.holds_begin named⟩
    · rintro actions state action next - invariant ⟨harmless, rfl⟩
      cases action with
      | planner => exact invariant.planner
      | thread index => exact invariant.thread (wellFormed.bound name) harmless
  have holds := invariant.holds
  rwa [planned] at holds

end Invariant

/-! ## Two runs -/

/-- The dictionary of the given keys. -/
def NodeDictionary.ofKeys (keys : List String) : NodeDictionary :=
  keys.foldl (fun dictionary key => (dictionary.getOrInsert key).2) .new

/-- A catalog with two graphs, of which the first is registered with a dictionary. -/
def GraphCatalog.keyed (name : String) (keys : List String) : GraphCatalog NodeDictionary :=
  let first := (GraphCatalog.new.allocGraph .empty).2
  let both := (first.allocGraph .empty).2
  both.registerWithDictionary name 0 (.ofKeys keys)

/-- Debug prints that show nothing. -/
def DebugText.blank : DebugText where
  argument _ := ""
  names _ := ""

/-- The arguments of a traversal of three hops from a key. -/
def threeHopsFrom (name key : String) : List Expr :=
  [.literal (.utf8 (some name)), .literal (.utf8 (some key)), .literal (.int64 (some 3))]

theorem GraphCatalog.wellFormed_keyed (name : String) (keys : List String) :
    (GraphCatalog.keyed name keys).WellFormed where
  bound other entry found := by
    by_cases same : other = name
    · subst same
      rw [keyed, registerWithDictionary, entry_bindEntry] at found
      obtain rfl := Option.some.inj found
      exact Nat.lt_succ_self _
    · have absent : (keyed name keys).entry other = none :=
        (AList.lookup_insert_ne same).trans (AList.lookup_empty other)
      rw [absent] at found
      cases found
  forward entry inUse := by
    obtain rfl : entry = 0 := Nat.lt_one_iff.mp inUse
    exact Nat.zero_lt_two

theorem plans_against_one_entry_witness : ∃ (final : ConcurrentPlanning) (table : TraversalTable),
    Run (PlanningStep PlanningAction.Harmless .keyByKey .blank (threeHopsFrom "g" "alice") "g")
      (.start .blank (threeHopsFrom "g" "alice") (.keyed "g" ["alice"])
        [.write (.registerWithDictionary 1 (.ofKeys ["alice", "bob"]))])
      [.planner, .thread 0, .planner, .planner, .planner] final ∧
    final.call = .done (.ok table) ∧
    table.FromOneEntry (.keyed "g" ["alice"]) "g" (threeHopsFrom "g" "alice")
      final.updates.catalog := by
  have run : ∃ final table,
      Run (PlanningStep PlanningAction.Harmless .keyByKey .blank (threeHopsFrom "g" "alice") "g")
        (.start .blank (threeHopsFrom "g" "alice") (.keyed "g" ["alice"])
          [.write (.registerWithDictionary 1 (.ofKeys ["alice", "bob"]))])
        [.planner, .thread 0, .planner, .planner, .planner] final ∧
      final.call = .done (.ok table) := by
    refine ⟨_, _, .cons ⟨trivial, rfl⟩ (.cons ⟨?_, rfl⟩ (.cons ⟨trivial, rfl⟩
      (.cons ⟨trivial, rfl⟩ (.cons ⟨trivial, rfl⟩ .start)))), rfl⟩
    intro thread bound here binding
    obtain rfl := Option.some.inj here
    obtain rfl := Option.some.inj binding
    intro key asked
    obtain rfl := Option.some.inj asked
    exact ⟨_, rfl, rfl⟩
  obtain ⟨final, table, run, planned⟩ := run
  exact ⟨final, table, run, planned, plans_against_one_entry
    (GraphCatalog.wellFormed_keyed "g" ["alice"]) rfl run planned⟩

/-- The key `alice` is resolved to node 0 by the first dictionary. Before the graph
is looked up, the name is bound to another graph, in which node 0 is `bob`, and the
plan traverses that graph from node 0. -/
theorem plan_mixes_entries : ∃ (final : ConcurrentPlanning) (table : TraversalTable),
    (GraphCatalog.keyed "g" ["alice"]).WellFormed ∧
    Run (PlanningStep (fun _ _ _ => True) .keyByKey .blank (threeHopsFrom "g" "alice") "g")
      (.start .blank (threeHopsFrom "g" "alice") (.keyed "g" ["alice"])
        [.write (.registerWithDictionary 1 (.ofKeys ["bob", "alice"]))])
      [.planner, .thread 0, .planner, .planner, .planner] final ∧
    final.call = .done (.ok table) ∧ table.graph = 1 ∧ table.spec.start = [0] ∧
    ¬ table.FromOneEntry (.keyed "g" ["alice"]) "g" (threeHopsFrom "g" "alice")
      final.updates.catalog := by
  refine ⟨_, _, GraphCatalog.wellFormed_keyed "g" ["alice"], .cons ⟨trivial, rfl⟩
    (.cons ⟨trivial, rfl⟩ (.cons ⟨trivial, rfl⟩ (.cons ⟨trivial, rfl⟩
      (.cons ⟨trivial, rfl⟩ .start)))), rfl, rfl, rfl, ?_⟩
  rintro ⟨entry, registered, provides⟩
  obtain ⟨node, start, resolves⟩ := provides.start
  obtain ⟨dictionary, found, known⟩ := resolves "alice" rfl
  rcases registered with first | ⟨above, below⟩
  · obtain rfl : 0 = entry := Option.some.inj first
    exact absurd provides.forward (by decide)
  · obtain rfl : entry = 1 := Nat.le_antisymm (Nat.lt_succ_iff.mp below) above
    obtain rfl := Option.some.inj found
    obtain rfl : node = 0 := (List.singleton_inj.mp start).symm
    exact absurd known (by decide)

end FusionGraph
