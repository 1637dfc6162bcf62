import FusionGraph.Catalog.OntologyLoader
import FusionGraph.Foundations.StatefulCalls

/-!
# The table of all edges

A provider serves the edges of all definitions of an ontology as one table, and the
graph of them all. Both are made by one call: it queries the table of each definition,
keeps the rows with both identifiers, makes one batch of them with the label of the
definition, and at the end builds one graph of all rows. The graph, the batches and
the flag are set after the last step that can fail.

So a call that fails changes nothing, and after a call that returns, the rows of the
batches are the edges of the graph (`materialize_agrees`).
-/

set_option autoImplicit false

namespace FusionGraph

open Foundations

/-- `DataFusionError` of the integration crate. -/
inductive ProviderError where
  | graph (error : GraphError)
  | ontology (error : OntologyError)
  | dataFusion (error : DataFusionError)
  | arrow (error : ArrowError)
  | executionFailed (operator reason : String)
  deriving DecidableEq, Repr

/-- The schema of the query of a definition. -/
def pairSchema : Schema := [⟨"source", .uint64⟩, ⟨"target", .uint64⟩]

/-- `edge_list_schema`: the schema of the table. -/
def edgeListSchema : Schema := [⟨"source", .uint64⟩, ⟨"target", .uint64⟩, ⟨"label", .utf8⟩]

/-- The fields of the table that are not nullable. -/
def edgeListRequired : List String := ["source", "target", "label"]

/-- A provider of the edge table of an ontology. -/
structure GraphTableProvider where
  ontology : Ontology
  graph : CsrGraph
  /-- The batches of the table, one for each edge definition. -/
  edgeBatches : List (RecordBatch edgeListSchema)
  materialized : Bool

/-- `GraphTableProvider::new`. -/
def GraphTableProvider.new (ontology : Ontology) : GraphTableProvider where
  ontology := ontology
  graph := .empty
  edgeBatches := []
  materialized := false

/-- The query of a definition: both identifiers, as numbers. -/
def EdgeDefinition.pairQuery (self : EdgeDefinition) : EdgeQuery where
  edge := self
  filters := []
  columns := [.col self.fromColumn, .col self.toColumn]
  schema := pairSchema

namespace GraphTableProvider

/-- The entries of an identifier column. -/
def idColumn (batch : RecordBatch pairSchema) (i : ℕ) (role : String) :
    Checked ProviderError (List (Option ℕ)) := do
  let column ← batch.column i
  Checked.okOr (ArrowType.uint64.downcast column)
    (.executionFailed "GraphTableProvider::materialize" s!"{role} column did not cast to UInt64")

/-- One row: both identifiers join their lists, unless one of them is null. -/
def pushPair (sources targets : List (Option ℕ)) (pairs : List ℕ × List ℕ) (i : ℕ) :
    Checked ProviderError (List ℕ × List ℕ) := do
  let source ← Checked.index sources i
  let target ← Checked.index targets i
  match source, target with
  | some source, some target => pure (pairs.1 ++ [source], pairs.2 ++ [target])
  | _, _ => pure pairs

/-- The rows of one batch. -/
def readBatch (pairs : List ℕ × List ℕ) (batch : RecordBatch pairSchema) :
    Checked ProviderError (List ℕ × List ℕ) := do
  let sources ← idColumn batch 0 "source"
  let targets ← idColumn batch 1 "target"
  (List.range batch.numRows).foldlM (pushPair sources targets) pairs

/-- The batch of the table for one definition. -/
def edgeListBatch (edge : EdgeDefinition) (sources targets : List ℕ) :
    Checked ProviderError (RecordBatch edgeListSchema) := do
  let labels ← stringArray (List.replicate sources.length (some edge.label))
  Checked.mapError .arrow (RecordBatch.tryNew edgeListSchema edgeListRequired
    [.uint64 (sources.map some), .uint64 (targets.map some), labels])

/-- What has been collected of the definitions: the edges and the batches. -/
structure Collected where
  allEdges : List (ℕ × ℕ)
  batches : List (RecordBatch edgeListSchema)

/-- One definition. -/
def projectEdge (ctx : SessionContext) (collected : Collected) (edge : EdgeDefinition) :
    Checked ProviderError Collected := do
  let answers ← Checked.mapError .dataFusion (ctx.collect edge.pairQuery)
  let (sources, targets) ← answers.foldlM readBatch ([], [])
  let batch ← edgeListBatch edge sources targets
  pure { allEdges := collected.allEdges ++ sources.zip targets,
         batches := collected.batches ++ [batch] }

/-- Materializes the table and the graph of the ontology. -/
def materialize (ctx : SessionContext) : Stateful ProviderError GraphTableProvider PUnit := do
  let provider ← get
  Stateful.lift (Checked.mapError .ontology provider.ontology.validateOrError)
  let collected ← Stateful.lift
    (provider.ontology.edges.foldlM (projectEdge ctx) { allEdges := [], batches := [] })
  let graph ← Stateful.lift
    (Checked.mapError .graph (CsrBuilder.new.withEdges collected.allEdges).build)
  modify fun provider => { provider with graph := graph }
  modify fun provider => { provider with edgeBatches := collected.batches }
  modify fun provider => { provider with materialized := true }

/-! ## The rows of a definition -/

/-- A row with both identifiers. -/
def bothIds : Option ℕ × Option ℕ → Option (ℕ × ℕ)
  | (some source, some target) => some (source, target)
  | _ => none

/-- The rows of a batch with both identifiers, in row order. -/
def pairsOf (batch : RecordBatch pairSchema) : List (ℕ × ℕ) :=
  ((batch.valuesAt .uint64 0).zip (batch.valuesAt .uint64 1)).filterMap bothIds

/-- Pairs at the end of the two lists. -/
def push (pairs : List ℕ × List ℕ) (more : List (ℕ × ℕ)) : List ℕ × List ℕ :=
  (pairs.1 ++ more.map Prod.fst, pairs.2 ++ more.map Prod.snd)

theorem foldl_push (pairs : List ℕ × List ℕ) (parts : List (List (ℕ × ℕ))) :
    parts.foldl push pairs = push pairs parts.flatten := by
  induction parts generalizing pairs with
  | nil => simp [push]
  | cons first rest ih =>
      rw [List.foldl_cons, ih]
      simp [push]

theorem idColumn_eq (batch : RecordBatch pairSchema) {i : ℕ} (role : String)
    (typed : pairSchema[i]?.map Field.dataType = some ArrowType.uint64.dataType) :
    idColumn batch i role = .ok (batch.valuesAt .uint64 i) ∧
      (batch.valuesAt .uint64 i).length = batch.numRows := by
  obtain ⟨column, held, read, length⟩ := batch.valuesAt_of_type .uint64 typed
  refine ⟨?_, length⟩
  simp only [idColumn, RecordBatch.column, Checked.index_eq_ok held, Checked.ok_bind, read,
    Checked.okOr_some]

/-- The rows of a batch with both identifiers are read. -/
theorem readBatch_eq (pairs : List ℕ × List ℕ) (batch : RecordBatch pairSchema) :
    readBatch pairs batch = .ok (push pairs (pairsOf batch)) := by
  obtain ⟨sources, sourceLength⟩ := idColumn_eq batch (i := 0) "source" rfl
  obtain ⟨targets, targetLength⟩ := idColumn_eq batch (i := 1) "target" rfl
  have rows : ((batch.valuesAt .uint64 0).zip (batch.valuesAt .uint64 1)).length =
      batch.numRows := by
    rw [List.length_zip, sourceLength, targetLength, Nat.min_self]
  rw [readBatch, sources, Checked.ok_bind, targets, Checked.ok_bind, ← rows,
    Checked.foldlM_range (g := fun state row => .ok (push state (bothIds row).toList)),
    Checked.foldlM_eq_ok (g := fun state row => push state (bothIds row).toList) fun _ _ _ => rfl]
  · rw [← List.foldl_map, foldl_push, pairsOf, List.filterMap_eq_flatMap_toList, List.flatMap_def]
  · intro state i row found
    obtain ⟨source, target⟩ := row
    obtain ⟨sourceAt, targetAt⟩ := List.getElem?_zip_eq_some.mp found
    rw [pushPair, Checked.index_eq_ok sourceAt, Checked.ok_bind, Checked.index_eq_ok targetAt,
      Checked.ok_bind]
    cases source with
    | none => simp [bothIds, push]
    | some source =>
      cases target with
      | none => simp [bothIds, push]
      | some target => rfl

/-- The rows of all batches are read, one batch after the other. -/
theorem readBatches_eq (batches : List (RecordBatch pairSchema)) :
    batches.foldlM readBatch ([], []) =
      .ok ((batches.flatMap pairsOf).map Prod.fst, (batches.flatMap pairsOf).map Prod.snd) := by
  rw [Checked.foldlM_eq_ok (g := fun state batch => push state (pairsOf batch))
    fun state batch _ => readBatch_eq state batch, ← List.foldl_map, foldl_push, List.flatMap_def]
  simp [push]

/-- The rows of a query with both identifiers, batch after batch; none when it fails. -/
def pairs (ctx : SessionContext) (edge : EdgeDefinition) : List (ℕ × ℕ) :=
  match ctx.collect edge.pairQuery with
  | .ok answers => answers.flatMap pairsOf
  | .error _ => []

/-- The rows of a batch of the table. -/
def listRows (batch : RecordBatch edgeListSchema) : List (Option ℕ × Option ℕ × Option String) :=
  (batch.valuesAt .uint64 0).zip ((batch.valuesAt .uint64 1).zip (batch.valuesAt .utf8 2))

/-- A row of the table. -/
def labelled (edge : EdgeDefinition) (pair : ℕ × ℕ) : Option ℕ × Option ℕ × Option String :=
  (some pair.1, some pair.2, some edge.label)

/-- The batch of a definition has a row for each pair, with the label. -/
theorem listRows_edgeListBatch {edge : EdgeDefinition} {rows : List (ℕ × ℕ)}
    {batch : RecordBatch edgeListSchema}
    (built : edgeListBatch edge (rows.map Prod.fst) (rows.map Prod.snd) = .ok batch) :
    listRows batch = rows.map (labelled edge) ∧ batch.numRows = rows.length := by
  obtain ⟨labels, array, built⟩ := Checked.bind_eq_ok.mp built
  have columns := RecordBatch.columns_of_tryNew (Checked.mapError_eq_ok.mp built)
  rw [stringArray] at array
  split at array
  · obtain rfl := Except.ok.inj array
    constructor
    · have labels : List.replicate (rows.map Prod.fst).length (some edge.label) =
          rows.map fun _ => some edge.label := by rw [List.length_map, List.map_const']
      rw [labels, List.map_map, List.map_map] at columns
      rw [listRows, RecordBatch.valuesAt, RecordBatch.valuesAt, RecordBatch.valuesAt, columns]
      change (rows.map (some ∘ Prod.fst)).zip ((rows.map (some ∘ Prod.snd)).zip (rows.map _)) = _
      rw [List.zip_map', List.zip_map']
      rfl
    · rw [← batch.lengths (.uint64 ((rows.map Prod.fst).map some)) (by simp [columns])]
      simp [ArrayRef.length]
  · cases array

/-- One definition adds its rows to the edges, and one batch of them. -/
theorem projectEdge_eq_ok {ctx : SessionContext} {collected next : Collected}
    {edge : EdgeDefinition} (projected : projectEdge ctx collected edge = .ok next) :
    (∃ answers, ctx.collect edge.pairQuery = .ok answers) ∧
      next.allEdges = collected.allEdges ++ pairs ctx edge ∧
      ∃ batch, next.batches = collected.batches ++ [batch] ∧
        listRows batch = (pairs ctx edge).map (labelled edge) ∧
        batch.numRows = (pairs ctx edge).length := by
  obtain ⟨answers, answered, rest⟩ := Checked.bind_eq_ok.mp projected
  rw [Checked.mapError_eq_ok] at answered
  obtain ⟨lists, read, rest⟩ := Checked.bind_eq_ok.mp rest
  have rows : pairs ctx edge = answers.flatMap pairsOf := by rw [pairs, answered]
  obtain rfl : ((pairs ctx edge).map Prod.fst, (pairs ctx edge).map Prod.snd) = lists := by
    rw [rows]
    exact Except.ok.inj ((readBatches_eq answers).symm.trans read)
  obtain ⟨batch, built, rest⟩ := Checked.bind_eq_ok.mp rest
  obtain rfl := Except.ok.inj rest
  obtain ⟨listed, count⟩ := listRows_edgeListBatch built
  exact ⟨⟨answers, answered⟩, by simp [List.zip_map'], batch, rfl, listed, count⟩

/-- **What is collected of definitions is the edges and the batches of them all.** -/
theorem projectEdges_eq_ok {ctx : SessionContext} {edges : List EdgeDefinition}
    {collected final : Collected}
    (projected : edges.foldlM (projectEdge ctx) collected = .ok final) :
    (∀ edge ∈ edges, ∃ answers, ctx.collect edge.pairQuery = .ok answers) ∧
      final.allEdges = collected.allEdges ++ edges.flatMap (pairs ctx) ∧
      ∃ batches, final.batches = collected.batches ++ batches ∧
        batches.map listRows = edges.map (fun edge => (pairs ctx edge).map (labelled edge)) ∧
        batches.map RecordBatch.numRows = edges.map fun edge => (pairs ctx edge).length := by
  induction edges generalizing collected with
  | nil =>
      obtain rfl := Except.ok.inj projected
      exact ⟨by simp, by simp, [], by simp⟩
  | cons edge rest ih =>
      obtain ⟨next, first, projected⟩ := Checked.bind_eq_ok.mp projected
      obtain ⟨answered, added, batch, appended, listed, count⟩ := projectEdge_eq_ok first
      obtain ⟨others, edges, batches, more, rows, counts⟩ := ih projected
      refine ⟨?_, ?_, batch :: batches, ?_, ?_, ?_⟩
      · exact List.forall_mem_cons.mpr ⟨answered, others⟩
      · rw [edges, added, List.flatMap_cons, List.append_assoc]
      · rw [more, appended, List.append_assoc, List.singleton_append]
      · rw [List.map_cons, List.map_cons, listed, rows]
      · rw [List.map_cons, List.map_cons, count, counts]

/-! ## A failed call -/

/-- **A call that fails changes nothing.** -/
theorem materialize_atomic (ctx : SessionContext) : (materialize ctx).Atomic := by
  refine .bind Stateful.readOnly_get fun provider => ?_
  refine .bind (Stateful.readOnly_lift _) fun _ => ?_
  refine .bind (Stateful.readOnly_lift _) fun collected => ?_
  refine .bind (Stateful.readOnly_lift _) fun graph => ?_
  refine .of_total ((Stateful.total_modify _).bind fun _ => ?_)
  exact (Stateful.total_modify _).bind fun _ => Stateful.total_modify _

/-! ## A call that returns -/

/-- The edges of a graph, read from the neighbors of its nodes. -/
def edgePairs (graph : CsrGraph) : Outcome (List (ℕ × ℕ)) := do
  let rows ← (List.range graph.nodeCount).mapM fun node => do
    let neighbors ← graph.neighbors node
    pure (neighbors.map (Prod.mk node))
  pure rows.flatten

/-- A call that returns met no failure, and set all three fields. -/
theorem materialize_eq_ok {ctx : SessionContext} {provider after : GraphTableProvider}
    (returned : (materialize ctx).runFrom provider = (.ok ⟨⟩, after)) :
    ∃ collected graph,
      provider.ontology.edges.foldlM (projectEdge ctx) { allEdges := [], batches := [] } =
        .ok collected ∧
      (CsrBuilder.new.withEdges collected.allEdges).build = .ok graph ∧
      after = { provider with
        graph := graph, edgeBatches := collected.batches, materialized := true } := by
  obtain ⟨_, _, got, returned⟩ := Stateful.runFrom_bind_eq_ok returned
  cases got
  obtain ⟨_, _, accepted, returned⟩ := Stateful.runFrom_bind_eq_ok returned
  obtain ⟨-, rfl⟩ := Stateful.runFrom_lift_eq_ok accepted
  obtain ⟨collected, _, projected, returned⟩ := Stateful.runFrom_bind_eq_ok returned
  obtain ⟨folded, rfl⟩ := Stateful.runFrom_lift_eq_ok projected
  obtain ⟨graph, _, built, returned⟩ := Stateful.runFrom_bind_eq_ok returned
  obtain ⟨whole, rfl⟩ := Stateful.runFrom_lift_eq_ok built
  cases returned
  exact ⟨collected, graph, folded, Checked.mapError_eq_ok.mp whole, rfl⟩

/-- The edges of a graph of pairs are these. -/
theorem edgePairs_perm {graph : CsrGraph} {edges : List (ℕ × ℕ)}
    (built : (CsrBuilder.new.withEdges edges).build = .ok graph) :
    graph.delta = DeltaLayer.new ∧ graph.edgeCount = edges.length ∧
      ∃ read, edgePairs graph = .ok read ∧ read.Perm edges := by
  obtain ⟨clean, base, stores, records⟩ := (CsrBuilder.Holds.withEdges edges).records_of_build
    (by decide : 28 ≤ defaultShardSize.val) built
  have each : ∀ node ∈ List.range graph.nodeCount,
      (graph.neighbors node >>= fun neighbors => pure (neighbors.map (Prod.mk node))) =
        .ok (StableBuckets.bucket Prod.fst edges node) := by
    intro node _
    rw [stores.neighbors_eq, clean, BaseLayer.merged_new, Checked.ok_bind, BaseLayer.targets,
      records.row, entriesFrom, StableBuckets.bucket, List.filter_map, List.map_map, List.map_map,
      List.map_map]
    refine congrArg Except.ok ((List.map_congr_left fun edge member => ?_).trans (List.map_id _))
    have source : edge.1 = node := by simpa using (List.mem_filter.mp member).2
    exact Prod.ext source.symm rfl
  have bound : ∀ edge ∈ edges, edge.1 < graph.nodeCount := by
    intro edge member
    rw [stores.nodeCount, records.nodes]
    exact lt_nodeUniverse.mpr ⟨_, List.mem_map_of_mem member, .inl (Nat.le_refl _)⟩
  refine ⟨clean, by rw [stores.edgeCount, records.count, List.length_map], _,
    by rw [edgePairs, Checked.mapM_eq_ok each]; rfl, ?_⟩
  exact StableBuckets.flatten_buckets_perm Prod.fst bound

/-- The table and the graph of a provider are those of the answers to its queries. -/
structure Agrees (ctx : SessionContext) (ontology : Ontology) (after : GraphTableProvider) :
    Prop where
  answered : ∀ edge ∈ ontology.edges, ∃ answers, ctx.collect edge.pairQuery = .ok answers
  materialized : after.materialized = true
  kept : after.ontology = ontology
  /-- Definition by definition, the rows with both identifiers, with its label. -/
  rows : after.edgeBatches.map listRows =
    ontology.edges.map fun edge => (pairs ctx edge).map (labelled edge)
  /-- The edges of the graph are the rows of the table, with their multiplicities. -/
  edges : ∃ read, edgePairs after.graph = .ok read ∧
    (read.map fun edge => (some edge.1, some edge.2)).Perm
      ((after.edgeBatches.flatMap listRows).map fun row => (row.1, row.2.1))
  clean : after.graph.delta = DeltaLayer.new
  edgeCount : after.graph.edgeCount = (after.edgeBatches.map RecordBatch.numRows).sum

/-- After a call that returns, the table and the graph agree. -/
theorem agrees_of_materialize {ctx : SessionContext} {provider after : GraphTableProvider}
    (returned : (materialize ctx).runFrom provider = (.ok ⟨⟩, after)) :
    Agrees ctx provider.ontology after := by
  obtain ⟨collected, graph, projected, built, rfl⟩ := materialize_eq_ok returned
  obtain ⟨answered, edges, batches, same, listed, counts⟩ := projectEdges_eq_ok projected
  obtain ⟨clean, edgeCount, read, walked, perm⟩ := edgePairs_perm built
  rw [List.nil_append] at edges same
  refine ⟨answered, rfl, rfl, same ▸ listed, ⟨read, walked, ?_⟩, clean, ?_⟩
  · have rows : (collected.batches.flatMap listRows).map (fun row => (row.1, row.2.1)) =
        collected.allEdges.map fun edge => (some edge.1, some edge.2) := by
      rw [same, List.flatMap_def, listed, edges, ← List.flatMap_def, List.map_flatMap,
        List.map_flatMap]
      refine List.flatMap_congr fun edge _ => ?_
      rw [List.map_map]
      rfl
    rw [rows]
    exact perm.map _
  · rw [edgeCount, edges, same, counts, List.length_flatMap]

/-- **A materialized provider's table and graph agree, and materializing is atomic.** -/
theorem materialize_agrees (ctx : SessionContext) (provider : GraphTableProvider) :
    (((materialize ctx).runFrom provider).1 = .ok ⟨⟩ →
      Agrees ctx provider.ontology ((materialize ctx).runFrom provider).2) ∧
    ∀ fault, ((materialize ctx).runFrom provider).1 = .error fault →
      ((materialize ctx).runFrom provider).2 = provider := by
  refine ⟨fun returned => ?_, fun fault => materialize_atomic ctx provider fault⟩
  generalize ran : (materialize ctx).runFrom provider = pair at returned ⊢
  obtain ⟨outcome, after⟩ := pair
  subst returned
  exact agrees_of_materialize ran

/-- A batch of pairs, of which the second has no source. -/
def pairBatch : RecordBatch pairSchema where
  columns := [.uint64 [some 1, none, some 2], .uint64 [some 2, some 3, some 3]]
  numRows := 3
  types := rfl
  lengths := by simp [ArrayRef.length]

/-- An ontology with one edge definition. -/
def followers : Ontology := Ontology.follows { name := "score", node := some "User", edge := none }

theorem materialize_agrees_witness :
    Agrees (.answering [pairBatch]) followers
      ((materialize (.answering [pairBatch])).runFrom (.new followers)).2 ∧
    ((materialize (.answering ([] : List (RecordBatch [])))).runFrom (.new followers)).2 =
      .new followers := by
  constructor
  · refine (materialize_agrees (.answering [pairBatch]) (.new followers)).1 ?_
    obtain ⟨value, returned⟩ := Checked.returns_of_passes
      ((materialize (.answering [pairBatch])).runFrom (.new followers)).1 (by decide)
    exact returned
  · exact (materialize_agrees (.answering ([] : List (RecordBatch []))) (.new followers)).2
      (.error (.dataFusion (.plan "unknown table"))) rfl

end GraphTableProvider

end FusionGraph
