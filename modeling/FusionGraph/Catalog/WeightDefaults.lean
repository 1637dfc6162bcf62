import FusionGraph.Catalog.OntologyLoader

/-!
# The weight of a null

A definition declares the weight of an edge whose weight is null. Both ways to build
its graph take 1 instead. So the edges of the graph are the declared ones exactly when
the declared weight is 1, or no edge has a null weight
(`stores_declared_weights_iff`).

The table of the definition comes from outside, and so do the casts of its cells. An
answer of the query engine shows a table when its batches are the rows of the table,
cast.
-/

set_option autoImplicit false

namespace FusionGraph

open Foundations

/-! ## Defaults -/

section Defaults

universe u v

variable {κ : Type u} {ω : Type v}

/-- Entries under one default and under another one differ in the entries without a
value. -/
theorem countP_getD [DecidableEq ω] {first second : ω} (different : first ≠ second)
    (entries : List (κ × Option ω)) :
    (entries.map fun entry => (entry.1, entry.2.getD second)).countP
        (fun pair => pair.2 = second) =
      (entries.map fun entry => (entry.1, entry.2.getD first)).countP
          (fun pair => pair.2 = second) +
        entries.countP fun entry => entry.2.isNone := by
  induction entries with
  | nil => rfl
  | cons entry rest ih =>
      simp only [List.map_cons, List.countP_cons, ih]
      cases entry.2 with
      | none =>
        simp [different]
        omega
      | some value =>
        simp
        omega

/-- **Two defaults give the same entries exactly when they are the same, or no entry
needs them.** -/
theorem perm_getD_iff [DecidableEq ω] {first second : ω} (entries : List (κ × Option ω)) :
    (entries.map fun entry => (entry.1, entry.2.getD first)).Perm
        (entries.map fun entry => (entry.1, entry.2.getD second)) ↔
      second = first ∨ ∀ entry ∈ entries, entry.2.isSome := by
  constructor
  · intro same
    rw [or_iff_not_imp_left]
    intro different entry member
    have counts := countP_getD (Ne.symm different) entries
    rw [same.countP_eq] at counts
    have none : (entries.countP fun entry => entry.2.isNone) = 0 := by omega
    exact Option.isSome_iff_ne_none.mpr (by simpa using List.countP_eq_zero.mp none entry member)
  · rintro (rfl | all)
    · exact .refl _
    · refine List.Perm.of_eq (List.map_congr_left fun entry member => ?_)
      obtain ⟨value, held⟩ := Option.isSome_iff_exists.mp (all entry member)
      rw [held, Option.getD_some, Option.getD_some]

end Defaults

/-! ## Tables -/

/-- A row of the table of an edge definition, with nothing for a null. -/
structure EdgeTableRow (Cell : Type) where
  source : Option Cell
  target : Option Cell
  weight : Option Cell

/-- The casts of the cells of a table. -/
structure Casts (Cell Id : Type) where
  source : Cell → Id
  target : Cell → Id
  weight : Cell → Float32

namespace EdgeTableRow

variable {Cell Id : Type}

/-- The cells of a row, cast; a null stays a null. -/
def cast (casts : Casts Cell Id) (row : EdgeTableRow Cell) :
    Option Id × Option Id × Option Float32 :=
  (row.source.map casts.source, row.target.map casts.target, row.weight.map casts.weight)

/-- Whether neither identifier is null. -/
def projects (row : EdgeTableRow Cell) : Bool := row.source.isSome && row.target.isSome

end EdgeTableRow

/-- The endpoints and the weight of a row, unless one of its identifiers is null. -/
def projectedCells {Id : Type} :
    Option Id × Option Id × Option Float32 → Option ((Id × Id) × Option Float32)
  | (some source, some target, weight) => some ((source, target), weight)
  | _ => none

/-- The edges that rows declare, with a default for the weights that are null. -/
def declaredEdges {Cell Id : Type} (casts : Casts Cell Id) (default : Float32)
    (rows : List (EdgeTableRow Cell)) : List ((Id × Id) × Float32) :=
  (rows.filterMap fun row => projectedCells (row.cast casts)).map fun entry =>
    (entry.1, entry.2.getD default)

theorem projectedCells_cast {Cell Id : Type} {casts : Casts Cell Id} {row : EdgeTableRow Cell}
    {weight : Option Float32} :
    (∃ endpoints, projectedCells (row.cast casts) = some (endpoints, weight)) ↔
      row.projects ∧ weight = row.weight.map casts.weight := by
  obtain ⟨source, target, value⟩ := row
  cases source <;> cases target <;>
    simp [EdgeTableRow.cast, projectedCells, EdgeTableRow.projects, eq_comm]

/-- **Two defaults declare the same edges exactly when they are the same, or no row with
both identifiers has a null weight.** -/
theorem declaredEdges_perm_iff {Cell Id : Type} (casts : Casts Cell Id) {first second : Float32}
    (rows : List (EdgeTableRow Cell)) :
    (declaredEdges casts first rows).Perm (declaredEdges casts second rows) ↔
      second = first ∨ ∀ row ∈ rows, row.projects → row.weight.isSome := by
  rw [declaredEdges, declaredEdges, perm_getD_iff]
  refine or_congr_right ⟨fun all row member both => ?_, fun all entry member => ?_⟩
  · obtain ⟨endpoints, projected⟩ : ∃ endpoints, projectedCells (row.cast casts) =
        some (endpoints, row.weight.map casts.weight) := projectedCells_cast.mpr ⟨both, rfl⟩
    simpa using all _ (List.mem_filterMap.mpr ⟨row, member, projected⟩)
  · obtain ⟨row, inRows, projected⟩ := List.mem_filterMap.mp member
    obtain ⟨both, weight⟩ := projectedCells_cast.mp ⟨entry.1, projected⟩
    rw [weight, Option.isSome_map]
    exact all row inRows both

namespace EdgeColumns

variable {Id : Type}

/-- The cells of the rows of edge columns. -/
def cells (columns : EdgeColumns Id) (numRows : ℕ) :
    List (Option Id × Option Id × Option Float32) :=
  (List.range numRows).map fun i =>
    (columns.sources[i]?.join, columns.targets[i]?.join,
      columns.weights.bind fun entries => entries[i]?.join)

/-- The edges of columns are those of their cells, with 1 for a null weight. -/
theorem edgeRows_eq (columns : EdgeColumns Id) (numRows : ℕ) :
    columns.edgeRows numRows = ((columns.cells numRows).filterMap projectedCells).map fun entry =>
      (entry.1.1, entry.1.2, entry.2.getD 1.0) := by
  rw [edgeRows, cells, List.filterMap_map, List.map_filterMap]
  refine List.filterMap_congr fun i _ => ?_
  rw [kept, Function.comp_apply]
  rcases columns.sources[i]? with _ | _ | source <;>
    rcases columns.targets[i]? with _ | _ | target <;> rfl

end EdgeColumns

/-! ## What the graphs hold -/

/-- The graph has these edges, with these weights. -/
def CsrGraph.HoldsEdges (graph : CsrGraph) (edges : List ((ℕ × ℕ) × Float32)) : Prop :=
  ∃ walked, graph.walkBase = .ok walked ∧
    walked.Perm (edges.map fun edge => (edge.1.1, edge.1.2, some edge.2))

/-- The graph has these edges under the keys of its dictionary, with these weights. -/
def CsrGraph.HoldsKeyedEdges (graph : CsrGraph) (dictionary : NodeDictionary)
    (edges : List ((String × String) × Float32)) : Prop :=
  ∃ decoded, graph.decodedEdges dictionary = .ok decoded ∧
    decoded.Perm (edges.map fun edge => (some edge.1.1, some edge.1.2, some edge.2))

/-- What is a permutation of one list is a permutation of the permutations of that list. -/
theorem exists_perm_iff {α β : Type} {ε : Type} {computation : Checked ε (List β)} {f : α → β}
    (injective : Function.Injective f) {held : List α}
    (holds : ∃ read, computation = .ok read ∧ read.Perm (held.map f)) (edges : List α) :
    (∃ read, computation = .ok read ∧ read.Perm (edges.map f)) ↔ held.Perm edges := by
  obtain ⟨read, outcome, same⟩ := holds
  rw [← List.map_perm_map_iff injective]
  constructor
  · rintro ⟨other, again, perm⟩
    obtain rfl := Except.ok.inj (outcome.symm.trans again)
    exact same.symm.trans perm
  · exact fun perm => ⟨read, outcome, same.trans perm⟩

namespace EdgeDefinition

variable (self : EdgeDefinition)

/-- The columns of a batch of the numeric query, by their positions. -/
def numericColumns (batch : RecordBatch self.numericProjection) : EdgeColumns ℕ where
  sources := batch.valuesAt .uint64 0
  targets := batch.valuesAt .uint64 1
  weights := if self.weightColumn.isSome then some (batch.valuesAt .float32 2) else none

/-- The cells of all batches of a scan. -/
def scannedCells (input : List (Exec.InputPoll self.numericProjection)) :
    List (Option ℕ × Option ℕ × Option Float32) :=
  input.flatMap fun answer =>
    match answer with
    | .ok batch => (self.numericColumns batch).cells batch.numRows
    | _ => []

/-- The cells of all batches of a query for keys. -/
def collectedCells (batches : List (RecordBatch self.projection)) :
    List (Option String × Option String × Option Float32) :=
  batches.flatMap fun batch => (self.columnsOf batch).cells batch.numRows

/-- The answers of a scan show the rows of a table that pass the filters. A projection
that repeats a name is refused by the engine. -/
structure ScanShows {Cell : Type} (edge : EdgeDefinition) (casts : Casts Cell ℕ)
    (rows : List (EdgeTableRow Cell)) (input : List (Exec.InputPoll edge.numericProjection)) :
    Prop where
  names : (edge.numericProjection.map Field.name).Nodup
  cells : edge.scannedCells input = rows.map (EdgeTableRow.cast casts)

/-- The batches of a query show the rows of a table that pass the filters. -/
def BatchesShow {Cell : Type} (casts : Casts Cell String) (rows : List (EdgeTableRow Cell))
    (batches : List (RecordBatch self.projection)) : Prop :=
  self.collectedCells batches = rows.map (EdgeTableRow.cast casts)

variable {self}

/-- Under distinct names the build operator finds the columns of the query. -/
theorem columnsOf_buildConfig (distinct : (self.numericProjection.map Field.name).Nodup)
    (batch : RecordBatch self.numericProjection) :
    self.buildConfig.columnsOf batch = self.numericColumns batch := by
  have fields : self.numericProjection[0]? = some ⟨self.fromColumn, .uint64⟩ ∧
      self.numericProjection[1]? = some ⟨self.toColumn, .uint64⟩ := ⟨rfl, rfl⟩
  have source := batch.values_of_distinct .uint64 distinct fields.1
  have target := batch.values_of_distinct .uint64 distinct fields.2
  rw [Exec.CsrBuildConfig.columnsOf, numericColumns, buildConfig, source, target]
  congr 1
  cases weighted : self.weightColumn with
  | none => rfl
  | some name =>
    have held : self.numericProjection[2]? = some ⟨name, .float32⟩ := by
      simp [numericProjection, weighted]
    simp [batch.values_of_distinct .float32 distinct held]

/-- The rows that the build operator reads, with 1 for a null weight. -/
theorem wholeRows_buildConfig (distinct : (self.numericProjection.map Field.name).Nodup)
    (input : List (Exec.InputPoll self.numericProjection)) :
    self.buildConfig.wholeRows input =
      ((self.scannedCells input).filterMap projectedCells).map fun entry =>
        (entry.1.1, entry.1.2, entry.2.getD 1.0) := by
  rw [Exec.CsrBuildConfig.wholeRows, scannedCells, List.filterMap_flatMap, List.map_flatMap]
  refine List.flatMap_congr fun answer _ => ?_
  cases answer with
  | ok batch =>
    dsimp only
    rw [Exec.CsrBuildConfig.rowsOf, columnsOf_buildConfig distinct, EdgeColumns.edgeRows_eq]
  | pending => rfl
  | err reason => rfl

section Built

variable {Cell : Type} {ctx : SessionContext} {ontology : Ontology} {asOf : Option String}

/-- **The graph of the build operator has the declared edges, with 1 for a null.** -/
theorem holdsEdges_of_buildEdgeGraph {casts : Casts Cell ℕ} {rows : List (EdgeTableRow Cell)}
    {input : List (Exec.InputPoll self.numericProjection)} {graph : CsrGraph}
    (weighted : self.weightColumn.isSome)
    (scanned : ctx.scan (self.numericQuery ontology asOf) = .ok input)
    (shows : self.ScanShows casts rows input)
    (built : self.buildEdgeGraph ctx ontology asOf = .ok graph) :
    graph.HoldsEdges (declaredEdges casts 1.0 rows) := by
  rw [self.buildEdgeGraph_eq] at built
  obtain ⟨answers, again, outcome⟩ := Checked.bind_eq_ok.mp built
  obtain rfl : input = answers := Except.ok.inj (scanned.symm.trans again)
  change @Exec.CsrBuildConfig.outcome self.numericProjection self.buildConfig input [] = _
    at outcome
  have roomy : ∀ stored, 28 ≤ (self.buildConfig.builderOf stored).config.shardSize.val := by
    intro stored
    rw [Exec.CsrBuildConfig.builderOf]
    split <;> exact (by decide : 28 ≤ defaultShardSize.val)
  obtain ⟨-, base, stores, records⟩ := (Exec.builderOf_holds self.buildConfig _).records_of_build
    (roomy _) (Exec.outcome_eq_ok.mp outcome).2.2.2
  refine ⟨_, stores.walkBase_eq, records.storedEdges_perm.trans (List.Perm.of_eq ?_)⟩
  have column : self.buildConfig.weightColumn.isSome = true := weighted
  rw [Exec.CsrBuildConfig.storedRows, wholeRows_buildConfig shows.names, shows.cells,
    declaredEdges, List.filterMap_map, List.map_map, List.map_map]
  simp [column, Function.comp_def]

/-- **The graph of string keys has the declared edges, with 1 for a null.** -/
theorem holdsKeyedEdges_of_buildKeyedGraph {casts : Casts Cell String}
    {rows : List (EdgeTableRow Cell)} {batches : List (RecordBatch self.projection)}
    {graph : CsrGraph} {dictionary : NodeDictionary} (weighted : self.weightColumn.isSome)
    (collected : ctx.collect (self.keyedQuery asOf) = .ok batches)
    (shows : self.BatchesShow casts rows batches)
    (built : self.buildKeyedGraph ctx asOf = .ok (graph, dictionary)) :
    graph.HoldsKeyedEdges dictionary (declaredEdges casts 1.0 rows) := by
  obtain ⟨answers, again, outcome⟩ := Checked.bind_eq_ok.mp built
  obtain rfl : batches = answers := Except.ok.inj (collected.symm.trans again)
  obtain ⟨decoded, read, same⟩ := (lossless_of_buildEdgeGraph outcome).edges
  refine ⟨decoded, read, same.trans (List.Perm.of_eq ?_)⟩
  have cells : self.rowsOf batches =
      ((self.collectedCells batches).filterMap projectedCells).map fun entry =>
        (entry.1.1, entry.1.2, entry.2.getD 1.0) := by
    rw [rowsOf, collectedCells, List.filterMap_flatMap, List.map_flatMap]
    exact List.flatMap_congr fun batch _ => EdgeColumns.edgeRows_eq _ _
  rw [cells, show self.collectedCells batches = _ from shows, declaredEdges, List.filterMap_map,
    List.map_map, List.map_map]
  simp [weighted, Function.comp_def]

end Built

end EdgeDefinition

/-- The declared default is 1, or no row with both identifiers has a null weight. -/
def EdgeDefinition.DefaultsToOne {Cell : Type} (self : EdgeDefinition)
    (castDefault : Float → Float32) (rows : List (EdgeTableRow Cell)) : Prop :=
  castDefault self.weightDefault = 1.0 ∨ ∀ row ∈ rows, row.projects → row.weight.isSome

/-! ## The declared weights -/

section Declared

variable {Cell : Type} {rows : List (EdgeTableRow Cell)} {edge : EdgeDefinition}
  {castDefault : Float → Float32} {graph : CsrGraph}

/-- A graph with 1 for every null weight has the declared edges exactly when the default
is 1 or not needed. -/
theorem holdsEdges_iff {casts : Casts Cell ℕ}
    (holds : graph.HoldsEdges (declaredEdges casts 1.0 rows)) :
    graph.HoldsEdges (declaredEdges casts (castDefault edge.weightDefault) rows) ↔
      edge.DefaultsToOne castDefault rows := by
  have injective : Function.Injective fun edge : (ℕ × ℕ) × Float32 =>
      (edge.1.1, edge.1.2, some edge.2) := by
    rintro ⟨⟨_, _⟩, _⟩ ⟨⟨_, _⟩, _⟩ same
    simpa [and_assoc] using same
  rw [CsrGraph.HoldsEdges, exists_perm_iff injective holds, declaredEdges_perm_iff,
    EdgeDefinition.DefaultsToOne]

theorem holdsKeyedEdges_iff {casts : Casts Cell String} {dictionary : NodeDictionary}
    (holds : graph.HoldsKeyedEdges dictionary (declaredEdges casts 1.0 rows)) :
    graph.HoldsKeyedEdges dictionary
        (declaredEdges casts (castDefault edge.weightDefault) rows) ↔
      edge.DefaultsToOne castDefault rows := by
  have injective : Function.Injective fun edge : (String × String) × Float32 =>
      (some edge.1.1, some edge.1.2, some edge.2) := by
    rintro ⟨⟨_, _⟩, _⟩ ⟨⟨_, _⟩, _⟩ same
    simpa [and_assoc] using same
  rw [CsrGraph.HoldsKeyedEdges, exists_perm_iff injective holds, declaredEdges_perm_iff,
    EdgeDefinition.DefaultsToOne]

end Declared

/-- **The graphs of a definition have the declared weights exactly when the declared
default is 1, or no edge has a null weight.** -/
theorem stores_declared_weights_iff (castDefault : Float → Float32) (ctx : SessionContext)
    (ontology : Ontology) (asOf : Option String) (edge : EdgeDefinition)
    (weighted : edge.weightColumn.isSome) (Cell : Type) (rows : List (EdgeTableRow Cell)) :
    (∀ (casts : Casts Cell ℕ) (input : List (Exec.InputPoll edge.numericProjection))
        (graph : CsrGraph),
      ctx.scan (edge.numericQuery ontology asOf) = .ok input → edge.ScanShows casts rows input →
      edge.buildEdgeGraph ctx ontology asOf = .ok graph →
      (graph.HoldsEdges (declaredEdges casts (castDefault edge.weightDefault) rows) ↔
        edge.DefaultsToOne castDefault rows)) ∧
    ∀ (casts : Casts Cell String) (batches : List (RecordBatch edge.projection))
        (graph : CsrGraph) (dictionary : NodeDictionary),
      ctx.collect (edge.keyedQuery asOf) = .ok batches → edge.BatchesShow casts rows batches →
      edge.buildKeyedGraph ctx asOf = .ok (graph, dictionary) →
      (graph.HoldsKeyedEdges dictionary
          (declaredEdges casts (castDefault edge.weightDefault) rows) ↔
        edge.DefaultsToOne castDefault rows) := by
  refine ⟨fun casts input graph scanned shows built => ?_,
    fun casts batches graph dictionary collected shows built => ?_⟩
  · exact holdsEdges_iff (edge.holdsEdges_of_buildEdgeGraph weighted scanned shows built)
  · exact holdsKeyedEdges_iff
      (edge.holdsKeyedEdges_of_buildKeyedGraph weighted collected shows built)

/-! ## A default of 2 -/

/-- A table with the edge from 0 to 1, whose weight is null. -/
def zeroToOne : List (EdgeTableRow (ℕ ⊕ Float32)) :=
  [{ source := some (.inl 0), target := some (.inl 1), weight := none }]

/-- The casts of its cells, to numbers and to strings. -/
def numberCasts : Casts (ℕ ⊕ Float32) ℕ where
  source := Sum.elim id fun _ => 0
  target := Sum.elim id fun _ => 0
  weight := Sum.elim (fun _ => 0.0) id

def stringCasts : Casts (ℕ ⊕ Float32) String where
  source := Sum.elim toString fun _ => ""
  target := Sum.elim toString fun _ => ""
  weight := Sum.elim (fun _ => 0.0) id

/-- A weighted definition with a declared default. -/
def EdgeDefinition.knowsBy (default : Float) : EdgeDefinition :=
  { EdgeDefinition.knows with weightDefault := default }

/-- An ontology with the definition. -/
def Ontology.people (default : Float) : Ontology where
  ontology := { name := "" }
  settings := { defaultNodeIdType := .u64 }
  nodes := [{ label := "Person", idTransform := .passthrough }]
  edges := [.knowsBy default]
  properties := []

/-- The batch of the numeric query, and that of the query for keys. -/
def numberBatch (default : Float) :
    RecordBatch (EdgeDefinition.knowsBy default).numericProjection where
  columns := [.uint64 [some 0], .uint64 [some 1], .float32 [none]]
  numRows := 1
  types := rfl
  lengths := by simp [ArrayRef.length]

def stringBatch (default : Float) : RecordBatch (EdgeDefinition.knowsBy default).projection where
  columns := [.utf8 [some "0"], .utf8 [some "1"], .float32 [none]]
  numRows := 1
  types := rfl
  lengths := by simp [ArrayRef.length]

section Sample

variable (default : Float)

theorem numberBatch_shows : (EdgeDefinition.knowsBy default).ScanShows numberCasts zeroToOne
    [.ok (numberBatch default)] :=
  ⟨(by decide : (EdgeDefinition.knows.numericProjection.map Field.name).Nodup), rfl⟩

theorem stringBatch_shows : (EdgeDefinition.knowsBy default).BatchesShow stringCasts zeroToOne
    [stringBatch default] := rfl

theorem scan_numberBatch :
    (SessionContext.answering [numberBatch default]).scan
        ((EdgeDefinition.knowsBy default).numericQuery (.people default) none) =
      .ok [.ok (numberBatch default)] :=
  SessionContext.scan_answering
    ((EdgeDefinition.knowsBy default).numericQuery (.people default) none) [numberBatch default]

theorem collect_stringBatch :
    (SessionContext.answering [stringBatch default]).collect
        ((EdgeDefinition.knowsBy default).keyedQuery none) = .ok [stringBatch default] :=
  SessionContext.collect_answering ((EdgeDefinition.knowsBy default).keyedQuery none)
    [stringBatch default]

end Sample

theorem stores_declared_weights_iff_witness :
    (∃ graph, (EdgeDefinition.knowsBy 1.0).buildEdgeGraph (.answering [numberBatch 1.0])
        (.people 1.0) none = .ok graph ∧
      graph.HoldsEdges (declaredEdges numberCasts 1.0 zeroToOne)) ∧
    ∃ graph dictionary, (EdgeDefinition.knowsBy 1.0).buildKeyedGraph
        (.answering [stringBatch 1.0]) none = .ok (graph, dictionary) ∧
      graph.HoldsKeyedEdges dictionary (declaredEdges stringCasts 1.0 zeroToOne) := by
  constructor
  · obtain ⟨graph, built⟩ := Checked.returns_of_passes
      ((EdgeDefinition.knowsBy 1.0).buildEdgeGraph (.answering [numberBatch 1.0])
        (.people 1.0) none) (by decide)
    have declared := (stores_declared_weights_iff (fun _ => 1.0) (.answering [numberBatch 1.0])
      (.people 1.0) none (.knowsBy 1.0) rfl _ zeroToOne).1 numberCasts _ graph
        (scan_numberBatch 1.0) (numberBatch_shows 1.0) built
    exact ⟨graph, built, declared.mpr (.inl rfl)⟩
  · obtain ⟨⟨graph, dictionary⟩, built⟩ := Checked.returns_of_passes
      ((EdgeDefinition.knowsBy 1.0).buildKeyedGraph (.answering [stringBatch 1.0])
        none) (by decide)
    have declared := (stores_declared_weights_iff (fun _ => 1.0) (.answering [stringBatch 1.0])
      (.people 1.0) none (.knowsBy 1.0) rfl _ zeroToOne).2 stringCasts _ graph dictionary
        (collect_stringBatch 1.0) (stringBatch_shows 1.0) built
    exact ⟨graph, dictionary, built, declared.mpr (.inl rfl)⟩

/-- With a declared default of 2, a null weight is still 1. -/
theorem null_weight_ignores_default :
    (∃ graph, (EdgeDefinition.knowsBy 2.0).buildEdgeGraph (.answering [numberBatch 2.0])
        (.people 2.0) none = .ok graph ∧
      ¬ graph.HoldsEdges (declaredEdges numberCasts 2.0 zeroToOne)) ∧
    ∃ graph dictionary, (EdgeDefinition.knowsBy 2.0).buildKeyedGraph
        (.answering [stringBatch 2.0]) none = .ok (graph, dictionary) ∧
      ¬ graph.HoldsKeyedEdges dictionary (declaredEdges stringCasts 2.0 zeroToOne) := by
  have needed : ¬ (EdgeDefinition.knowsBy 2.0).DefaultsToOne (fun _ => 2.0) zeroToOne := by
    rw [EdgeDefinition.DefaultsToOne, not_or]
    exact ⟨by decide, by decide⟩
  constructor
  · obtain ⟨graph, built⟩ := Checked.returns_of_passes
      ((EdgeDefinition.knowsBy 2.0).buildEdgeGraph (.answering [numberBatch 2.0])
        (.people 2.0) none) (by decide)
    have holds := EdgeDefinition.holdsEdges_of_buildEdgeGraph rfl (scan_numberBatch 2.0)
      (numberBatch_shows 2.0) built
    exact ⟨graph, built, fun declared => needed ((holdsEdges_iff holds).mp declared)⟩
  · obtain ⟨⟨graph, dictionary⟩, built⟩ := Checked.returns_of_passes
      ((EdgeDefinition.knowsBy 2.0).buildKeyedGraph (.answering [stringBatch 2.0])
        none) (by decide)
    have holds := EdgeDefinition.holdsKeyedEdges_of_buildKeyedGraph rfl (collect_stringBatch 2.0)
      (stringBatch_shows 2.0) built
    exact ⟨graph, dictionary, built,
      fun declared => needed ((holdsKeyedEdges_iff holds).mp declared)⟩

end FusionGraph
