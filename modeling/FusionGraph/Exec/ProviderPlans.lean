import FusionGraph.Catalog.GraphTableProvider
import FusionGraph.Exec.GraphTraversal
import FusionGraph.Traversal.ShortestPaths

/-!
# Reading a provider's table and traversing its graph

A provider serves the edges of an ontology twice: `scan` reads them as a table, and
`create_traversal_plan` traverses the graph of them. Both come from the last call of
`materialize` that returned, whatever has failed since, so a traversal answers with the
distances along the rows that a scan reads (`provider_traversal_follows_table`).
-/

set_option autoImplicit false

namespace FusionGraph

open Foundations Foundations.BreadthFirst

/-- `DataFusionError::PlanGenerationFailed` of the integration crate. -/
structure PlanGenerationFailed where
  reason : String
  deriving DecidableEq, Repr

/-- A cell of the edge table. -/
inductive EdgeListCell where
  | id (value : Option ℕ)
  | label (value : Option String)
  deriving DecidableEq, Repr

/-- The plan of a scan: batches in memory, the columns that are asked for, and a limit on
the rows. -/
structure EdgeListScan where
  batches : List (RecordBatch edgeListSchema)
  projection : Option (List (Fin edgeListSchema.length))
  fetch : Option ℕ

namespace EdgeListScan

/-- The rows that the plan reads. -/
def rows (self : EdgeListScan) : List (Option ℕ × Option ℕ × Option String) :=
  let rows := self.batches.flatMap GraphTableProvider.listRows
  self.fetch.elim rows rows.take

/-- The cells of a row, in the order of the schema. -/
def cells (row : Option ℕ × Option ℕ × Option String) : Fin edgeListSchema.length → EdgeListCell :=
  [EdgeListCell.id row.1, .id row.2.1, .label row.2.2].get

/-- What the plan returns: of each row, the columns that are asked for. -/
def output (self : EdgeListScan) : List (List EdgeListCell) :=
  self.rows.map fun row => (self.projection.getD (List.finRange _)).map (cells row)

/-- **A limit and a projection commute**: they cut and pick from the whole table. -/
theorem output_eq {batches : List (RecordBatch edgeListSchema)}
    (projection : Option (List (Fin edgeListSchema.length))) (limit : Option ℕ) :
    output { batches := batches, projection := projection, fetch := limit } =
      (limit.elim (output { batches := batches, projection := none, fetch := none })
        (output { batches := batches, projection := none, fetch := none }).take).map fun cells =>
          (projection.getD (List.finRange _)).filterMap fun column => cells[column.val]? := by
  have picks : ∀ row : Option ℕ × Option ℕ × Option String,
      ((projection.getD (List.finRange _)).filterMap fun column =>
        ((List.finRange edgeListSchema.length).map (cells row))[column.val]?) =
          (projection.getD (List.finRange _)).map (cells row) := by
    intro row
    rw [← List.filterMap_eq_map]
    exact List.filterMap_congr fun column _ => by simp
  cases limit with
  | none =>
    simp only [output, rows, Option.elim_none, List.map_map, Option.getD_none]
    exact List.map_congr_left fun row _ => (picks row).symm
  | some limit =>
    simp only [output, rows, Option.elim_some, Option.elim_none, ← List.map_take, List.map_map,
      Option.getD_none]
    exact List.map_congr_left fun row _ => (picks row).symm

/-- A row of the table leads from one identifier to another. -/
def Links (self : EdgeListScan) (source target : ℕ) : Prop :=
  ∃ label, (some source, some target, label) ∈ self.rows

/-- A start node that is no larger than some identifier in the table. -/
def IsStart (self : EdgeListScan) (starts : List ℕ) (node : ℕ) : Prop :=
  node ∈ starts ∧ ∃ source target, self.Links source target ∧ (node ≤ source ∨ node ≤ target)

end EdgeListScan

/-- The specification of an outgoing breadth-first search without a cap on the nodes. -/
structure TraversalSpec.Outgoing (spec : TraversalSpec) : Prop where
  maxNodes : spec.maxNodes = none
  algorithm : spec.algorithm = .bfs
  direction : spec.direction = .outgoing

namespace GraphTableProvider

/-- `create_traversal_plan`; the filters are left to the surrounding plan. -/
def createTraversalPlan (self : GraphTableProvider) (spec : TraversalSpec) :
    Checked PlanGenerationFailed GraphTraversalExec :=
  if self.materialized then .ok (.new self.graph spec)
  else Checked.fail ⟨"Graph must be materialized before traversal"⟩

/-- The scan of the table; the filters are left to the surrounding plan. -/
def scan (self : GraphTableProvider) (projection : Option (List (Fin edgeListSchema.length)))
    (limit : Option ℕ) : Checked DataFusionError EdgeListScan :=
  if self.materialized then
    .ok { batches := self.edgeBatches, projection := projection, fetch := limit }
  else
    Checked.fail
      (.plan "GraphTableProvider is not materialized; call materialize(ctx) first")

/-! ## Calls of materialize, one after the other -/

/-- The provider after calls of `materialize` on the sessions. -/
def materializeAll (provider : GraphTableProvider) (sessions : List SessionContext) :
    GraphTableProvider :=
  sessions.foldl (fun provider ctx => ((materialize ctx).runFrom provider).2) provider

/-- The call of `materialize` on the session returns. -/
def Returns (provider : GraphTableProvider) (ctx : SessionContext) : Prop :=
  ((materialize ctx).runFrom provider).1 = .ok ⟨⟩

/-- The session is that of the last call that has returned. -/
def LastReturned (ontology : Ontology) (sessions : List SessionContext) (ctx : SessionContext) :
    Prop :=
  ∃ front back, sessions = front ++ ctx :: back ∧
    Returns (materializeAll (.new ontology) front) ctx ∧
    ∀ early later other, back = early ++ other :: later →
      ¬ Returns (materializeAll (.new ontology) (front ++ ctx :: early)) other

/-- The provider serves the rows that the session answered with. -/
structure Serves (ontology : Ontology) (ctx : SessionContext) (provider : GraphTableProvider) :
    Prop where
  materialized : provider.materialized = true
  rows : provider.edgeBatches.flatMap listRows =
    ontology.edges.flatMap fun edge => (pairs ctx edge).map (labelled edge)
  built : (CsrBuilder.new.withEdges (ontology.edges.flatMap (pairs ctx))).build = .ok provider.graph

section Calls

variable {ontology : Ontology} {sessions : List SessionContext} {ctx : SessionContext}
  {provider after : GraphTableProvider}

theorem materializeAll_concat (provider : GraphTableProvider) (sessions : List SessionContext)
    (ctx : SessionContext) : materializeAll provider (sessions ++ [ctx]) =
      ((materialize ctx).runFrom (materializeAll provider sessions)).2 := by
  rw [materializeAll, List.foldl_append]
  rfl

theorem materialize_of_not_returns (failed : ¬ Returns provider ctx) :
    ((materialize ctx).runFrom provider).2 = provider := by
  cases outcome : ((materialize ctx).runFrom provider).1 with
  | ok value => exact absurd outcome failed
  | error fault => exact materialize_atomic ctx provider fault outcome

/-- The ontology of a provider never changes. -/
theorem ontology_materialize (ctx : SessionContext) (provider : GraphTableProvider) :
    ((materialize ctx).runFrom provider).2.ontology = provider.ontology := by
  by_cases returns : Returns provider ctx
  · obtain ⟨collected, graph, -, -, same⟩ := materialize_eq_ok
      (show (materialize ctx).runFrom provider =
        (.ok ⟨⟩, ((materialize ctx).runFrom provider).2) from Prod.ext returns rfl)
    rw [same]
  · rw [materialize_of_not_returns returns]

theorem ontology_materializeAll (provider : GraphTableProvider) (sessions : List SessionContext) :
    (materializeAll provider sessions).ontology = provider.ontology := by
  induction sessions using List.reverseRecOn with
  | nil => rfl
  | append_singleton sessions ctx ih => rw [materializeAll_concat, ontology_materialize, ih]

/-- A call that returns serves what its session answers. -/
theorem Returns.serves (returns : Returns provider ctx) :
    Serves provider.ontology ctx ((materialize ctx).runFrom provider).2 := by
  obtain ⟨collected, graph, projected, built, same⟩ := materialize_eq_ok
    (show (materialize ctx).runFrom provider =
      (.ok ⟨⟩, ((materialize ctx).runFrom provider).2) from Prod.ext returns rfl)
  obtain ⟨-, edges, batches, collects, listed, -⟩ := projectEdges_eq_ok projected
  rw [List.nil_append] at edges collects
  rw [same]
  refine ⟨rfl, ?_, edges ▸ built⟩
  rw [collects, List.flatMap_def, listed, ← List.flatMap_def]

/-- **After any calls a provider is as it was made, or serves what the session of the last
call that returned answered with.** -/
theorem materializeAll_cases (ontology : Ontology) (sessions : List SessionContext) :
    (materializeAll (.new ontology) sessions = .new ontology ∧
      ∀ front ctx back, sessions = front ++ ctx :: back →
        ¬ Returns (materializeAll (.new ontology) front) ctx) ∨
    ∃ ctx, LastReturned ontology sessions ctx ∧
      Serves ontology ctx (materializeAll (.new ontology) sessions) := by
  induction sessions using List.reverseRecOn with
  | nil => exact .inl ⟨rfl, by simp⟩
  | append_singleton sessions last ih =>
    by_cases returns : Returns (materializeAll (.new ontology) sessions) last
    · refine .inr ⟨last, ⟨sessions, [], rfl, returns, by simp⟩, ?_⟩
      have serves := returns.serves
      rwa [ontology_materializeAll, ← materializeAll_concat] at serves
    · rw [materializeAll_concat, materialize_of_not_returns returns]
      rcases ih with ⟨fresh, failed⟩ | ⟨ctx, ⟨front, back, rfl, returned, failed⟩, serves⟩
      · refine .inl ⟨fresh, fun front ctx back whole => ?_⟩
        rcases List.eq_nil_or_concat back with rfl | ⟨more, other, rfl⟩
        · obtain ⟨rfl, same⟩ := List.append_inj' whole rfl
          obtain rfl := List.singleton_inj.mp same
          exact returns
        · rw [List.concat_eq_append, ← List.cons_append, ← List.append_assoc] at whole
          exact failed front ctx more (List.append_inj' whole rfl).1
      · refine .inr ⟨ctx, ⟨front, back ++ [last], by simp, returned, ?_⟩, serves⟩
        intro early later other whole
        rcases List.eq_nil_or_concat later with rfl | ⟨more, final, rfl⟩
        · obtain ⟨rfl, same⟩ := List.append_inj' whole rfl
          obtain rfl := List.singleton_inj.mp same
          exact returns
        · rw [List.concat_eq_append, ← List.cons_append, ← List.append_assoc] at whole
          exact failed early more other (List.append_inj' whole rfl).1

end Calls

/-! ## The rows and the graph -/

section Rows

variable {ontology : Ontology} {ctx : SessionContext} {provider : GraphTableProvider}
  {projection : Option (List (Fin edgeListSchema.length))}

theorem Serves.scan_eq (serves : Serves ontology ctx provider) (limit : Option ℕ) :
    provider.scan projection limit =
      .ok { batches := provider.edgeBatches, projection := projection, fetch := limit } :=
  if_pos serves.materialized

theorem Serves.plan_eq (serves : Serves ontology ctx provider) (spec : TraversalSpec) :
    provider.createTraversalPlan spec = .ok (.new provider.graph spec) :=
  if_pos serves.materialized

/-- The rows of a scan without a limit link the pairs that the queries answered with. -/
theorem Serves.links_iff (serves : Serves ontology ctx provider) (u w : ℕ) :
    EdgeListScan.Links
        { batches := provider.edgeBatches, projection := projection, fetch := none } u w ↔
      (u, w) ∈ ontology.edges.flatMap (pairs ctx) := by
  simp only [EdgeListScan.Links, EdgeListScan.rows, Option.elim_none, serves.rows,
    List.mem_flatMap, List.mem_map]
  constructor
  · rintro ⟨label, edge, member, ⟨source, target⟩, listed, same⟩
    cases same
    exact ⟨edge, member, listed⟩
  · rintro ⟨edge, member, listed⟩
    exact ⟨some edge.label, edge, member, (u, w), listed, rfl⟩

/-- The graph stores the pairs that the queries answered with. -/
theorem Serves.records (serves : Serves ontology ctx provider) :
    provider.graph.delta = DeltaLayer.new ∧ ∃ base, provider.graph.Stores base ∧
      base.Records ((ontology.edges.flatMap (pairs ctx)).map fun edge => (edge.1, edge.2, none)) :=
  (CsrBuilder.Holds.withEdges (ontology.edges.flatMap (pairs ctx))).records_of_build
    (CsrGraph.defaultShardSize_roomy rfl) serves.built

/-- The graph has these edges. -/
theorem Serves.edge_iff (serves : Serves ontology ctx provider) (u w : ℕ) :
    provider.graph.Edge u w ↔ (u, w) ∈ ontology.edges.flatMap (pairs ctx) := by
  obtain ⟨clean, base, stores, records⟩ := serves.records
  rw [stores.edge_iff, clean, BaseLayer.merged_new, BaseLayer.targets, records.row]
  constructor
  · intro member
    obtain ⟨entry, inRow, rfl⟩ := List.mem_map.mp member
    obtain ⟨⟨source, target⟩, listed, same⟩ := List.mem_map.mp (mem_entriesFrom.mpr inRow :
      (u, entry) ∈ (ontology.edges.flatMap (pairs ctx)).map fun edge => (edge.1, edge.2, none))
    cases same
    exact listed
  · intro listed
    exact List.mem_map.mpr ⟨(w, none), mem_entriesFrom.mp (List.mem_map.mpr ⟨_, listed, rfl⟩), rfl⟩

/-- It contains the identifiers up to the largest one. -/
theorem Serves.contains_iff (serves : Serves ontology ctx provider) (node : ℕ) :
    provider.graph.contains node = true ↔
      ∃ u w, (u, w) ∈ ontology.edges.flatMap (pairs ctx) ∧ (node ≤ u ∨ node ≤ w) := by
  obtain ⟨-, base, stores, records⟩ := serves.records
  rw [stores.contains_iff, records.nodes, lt_nodeUniverse]
  constructor
  · rintro ⟨edge, member, below⟩
    obtain ⟨⟨u, w⟩, listed, rfl⟩ := List.mem_map.mp member
    exact ⟨u, w, listed, below⟩
  · rintro ⟨u, w, listed, below⟩
    exact ⟨(u, w, none), List.mem_map.mpr ⟨(u, w), listed, rfl⟩, below⟩

end Rows

/-! ## Traversals -/

/-- The operator without a transpose runs the plain search. -/
theorem execute_outgoing {spec : TraversalSpec} (outgoing : spec.Outgoing) (target : Target)
    (graph : CsrGraph) {result : BfsResult}
    (ran : bfsBounded target graph spec.start spec.maxDepth none = .ok result) :
    (GraphTraversalExec.new graph spec).execute target 0 =
      .ok { nodeId := result.visited, depth := result.depths,
            path := result.visited.map fun _ => none } := by
  have valid : (GraphTraversalExec.new graph spec).validateSpec = .ok () := by
    simp [GraphTraversalExec.validateSpec, GraphTraversalExec.new, outgoing.algorithm,
      outgoing.direction]
  have collected : (GraphTraversalExec.new graph spec).collectBfsRows target usizeMax =
      .ok (result.visited, result.depths) := by
    rw [GraphTraversalExec.collectBfsRows, if_neg (by decide)]
    simp only [GraphTraversalExec.new, outgoing.direction, if_true, ran, Checked.pure_eq_ok,
      Checked.ok_bind]
  have uncapped : (GraphTraversalExec.new graph spec).spec.maxNodes.getD usizeMax = usizeMax := by
    rw [GraphTraversalExec.new, outgoing.maxNodes, Option.getD_none]
  rw [GraphTraversalExec.execute, if_neg (by simp), valid, Checked.ok_bind]
  simp only [uncapped, collected, Checked.mapError, Checked.ok_bind, Checked.pure_eq_ok]

/-- The traversals of a provider answer along the rows of its table. -/
theorem Serves.traverses {ontology : Ontology} {ctx : SessionContext}
    {provider : GraphTableProvider} (serves : Serves ontology ctx provider) (target : Target)
    {spec : TraversalSpec} (outgoing : spec.Outgoing) :
    ∃ batch, (GraphTraversalExec.new provider.graph spec).execute target 0 = .ok batch ∧
      batch.nodeId.Nodup ∧ batch.depth.length = batch.nodeId.length ∧
      ∀ node depth, (node, depth) ∈ batch.rows ↔ depth ≤ spec.maxDepth ∧
        IsDistance
          (EdgeListScan.Links
            { batches := provider.edgeBatches, projection := none, fetch := none })
          (EdgeListScan.IsStart
            { batches := provider.edgeBatches, projection := none, fetch := none } spec.start)
          node depth := by
  have reachable : provider.graph.Reachable := .built serves.built
  obtain ⟨base, stores⟩ := reachable.stores
  obtain ⟨result, ran, lists⟩ := stores.bfsBoundedWithBackend_eq spec.start spec.maxDepth none
    (selectBackend target)
  obtain ⟨last, invariant⟩ := stores.searchLog_invariant reachable spec.start spec.maxDepth
  have correct := lists.isBreadthFirst invariant
  refine ⟨_, execute_outgoing outgoing target provider.graph ran, correct.visited_nodup,
    correct.length_depths, fun node depth => (correct.mem_nodeDepths node depth).trans ?_⟩
  have links : provider.graph.Edge = EdgeListScan.Links
      { batches := provider.edgeBatches, projection := none, fetch := none } := by
    funext u w
    exact propext ((serves.edge_iff u w).trans (serves.links_iff u w).symm)
  have starts : provider.graph.IsStart spec.start = EdgeListScan.IsStart
      { batches := provider.edgeBatches, projection := none, fetch := none } spec.start := by
    funext node
    simp only [CsrGraph.IsStart, EdgeListScan.IsStart, serves.contains_iff, serves.links_iff]
  rw [links, starts]

/-- **A traversal of a provider follows the rows of its table.** After any calls of
`materialize`, of which any may fail: a provider for which no call has returned refuses to
scan and to traverse; any other one serves the table of the last call that returned, cut by
a limit and with the columns that are asked for, and an outgoing traversal answers with the
nodes within the depth limit at their distances along the rows of that table. -/
theorem provider_traversal_follows_table (target : Target) (ontology : Ontology)
    (sessions : List SessionContext) :
    ((∀ front ctx back, sessions = front ++ ctx :: back →
        ¬ Returns (materializeAll (.new ontology) front) ctx) ∧
      (∀ projection limit, (materializeAll (.new ontology) sessions).scan projection limit =
        Checked.fail
          (.plan "GraphTableProvider is not materialized; call materialize(ctx) first")) ∧
      ∀ spec, (materializeAll (.new ontology) sessions).createTraversalPlan spec =
        Checked.fail ⟨"Graph must be materialized before traversal"⟩) ∨
    ∃ ctx table, LastReturned ontology sessions ctx ∧
      (materializeAll (.new ontology) sessions).scan none none = .ok table ∧
      table.rows = ontology.edges.flatMap (fun edge => (pairs ctx edge).map (labelled edge)) ∧
      (∀ projection limit, ∃ plan,
        (materializeAll (.new ontology) sessions).scan projection limit = .ok plan ∧
        plan.rows = limit.elim table.rows table.rows.take ∧
        plan.output = (limit.elim table.output table.output.take).map fun cells =>
          (projection.getD (List.finRange _)).filterMap fun column => cells[column.val]?) ∧
      ∀ spec, spec.Outgoing → ∃ exec batch,
        (materializeAll (.new ontology) sessions).createTraversalPlan spec = .ok exec ∧
        exec.execute target 0 = .ok batch ∧ batch.nodeId.Nodup ∧
        batch.depth.length = batch.nodeId.length ∧
        ∀ node depth, (node, depth) ∈ batch.rows ↔
          depth ≤ spec.maxDepth ∧ IsDistance table.Links (table.IsStart spec.start) node depth := by
  rcases materializeAll_cases ontology sessions with ⟨fresh, failed⟩ | ⟨ctx, last, serves⟩
  · refine .inl ⟨failed, fun projection limit => ?_, fun spec => ?_⟩
    · rw [fresh]
      rfl
    · rw [fresh]
      rfl
  · refine .inr ⟨ctx, _, last, serves.scan_eq none, serves.rows, fun projection limit => ?_,
      fun spec outgoing => ?_⟩
    · exact ⟨_, serves.scan_eq limit, rfl, EdgeListScan.output_eq projection limit⟩
    · obtain ⟨batch, ran, nodup, lengths, rows⟩ := serves.traverses target outgoing
      exact ⟨_, batch, serves.plan_eq spec, ran, nodup, lengths, rows⟩

/-- A later call that fails leaves the table in place. -/
example : (materializeAll (.new followers)
    [.answering [pairBatch], .answering ([] : List (RecordBatch []))]).materialized = true := by
  decide

end GraphTableProvider

end FusionGraph
