import FusionGraph.Core.Construction
import FusionGraph.Exec.CsrBuildStream
import Mathlib.Logic.Relation

/-!
# What a build stream builds

The columns that a configuration names are there or not, whatever the batch: all
batches have one schema. So every batch is read the same way, or every batch is
refused with the same message. Row by row the edges join the buffer, and where
one batch ends and the next begins leaves no trace.
-/

set_option autoImplicit false

namespace FusionGraph

open Foundations

namespace Exec

variable {schema : Schema}

/-! ## The columns -/

/-- The columns that the configuration names have the required types. -/
structure CsrBuildConfig.ColumnsFit (config : CsrBuildConfig) (schema : Schema) : Prop where
  source : schema.columnType config.sourceColumn = some .uint64
  target : schema.columnType config.targetColumn = some .uint64
  weight : ∀ name ∈ config.weightColumn, schema.columnType name = some .float32

/-- The entries of the columns that the configuration names. -/
def CsrBuildConfig.columnsOf (config : CsrBuildConfig) (batch : RecordBatch schema) :
    EdgeColumns ℕ where
  sources := batch.values .uint64 config.sourceColumn
  targets := batch.values .uint64 config.targetColumn
  weights := config.weightColumn.map (batch.values .float32)

/-- A name is looked up the same way for every batch. -/
theorem columnIndex_cases (schema : Schema) (role name : String) :
    (∃ i, schema.indexOf name = some i ∧ columnIndex schema role name = .ok i) ∨
      schema.indexOf name = none ∧
        ∃ reason, columnIndex schema role name = Checked.fail reason := by
  cases found : schema.indexOf name with
  | none => exact .inr ⟨rfl, _, by rw [columnIndex, found]; rfl⟩
  | some i => exact .inl ⟨i, rfl, by rw [columnIndex, found]; rfl⟩

/-- A column is read, or refused with the same message, whatever the batch. -/
theorem downcastColumn_cases {α : Type} (type : ArrowType α) (role : String) {name : String}
    {i : ℕ} (found : schema.indexOf name = some i) :
    (schema.columnType name = some type.dataType ∧ ∀ batch : RecordBatch schema,
      downcastColumn batch type role name i = .ok (batch.values type name)) ∨
    (schema.columnType name ≠ some type.dataType ∧ ∃ reason, ∀ batch : RecordBatch schema,
      downcastColumn batch type role name i = Checked.fail reason) := by
  by_cases typed : schema.columnType name = some type.dataType
  · refine .inl ⟨typed, fun batch => ?_⟩
    obtain ⟨j, foundToo, fieldType, same⟩ := batch.values_of_type type typed
    obtain rfl : i = j := Option.some.inj (found.symm.trans foundToo)
    obtain ⟨column, held, read, -⟩ := batch.valuesAt_of_type type fieldType
    simp only [downcastColumn, RecordBatch.column, Checked.index_eq_ok held, Checked.ok_bind, read,
      Checked.okOr_some, same]
  · refine .inr ⟨typed, .execution s!"{role} column '{name}' must be {type.name}", fun batch => ?_⟩
    obtain ⟨column, held, same⟩ := batch.exists_column found
    have unreadable : type.downcast column = none := by
      rw [← Option.not_isSome_iff_eq_none, type.isSome_downcast]
      exact fun right => typed (same.trans (congrArg some right))
    simp only [downcastColumn, RecordBatch.column, Checked.index_eq_ok held, Checked.ok_bind,
      unreadable]
    rfl

/-- The weight column is read, or refused, the same way for every batch. -/
theorem weightEntries_cases (config : CsrBuildConfig) (schema : Schema) :
    ((∀ name ∈ config.weightColumn, schema.columnType name = some .float32) ∧
      ∀ batch : RecordBatch schema,
        config.weightEntries batch = .ok (config.weightColumn.map (batch.values .float32))) ∨
    (¬ (∀ name ∈ config.weightColumn, schema.columnType name = some .float32) ∧
      ∃ reason, ∀ batch : RecordBatch schema,
        config.weightEntries batch = Checked.fail reason) := by
  cases configured : config.weightColumn with
  | none => exact .inl ⟨by simp, fun batch => by simp [CsrBuildConfig.weightEntries, configured]⟩
  | some name =>
    simp only [Option.mem_some_iff, forall_eq', Option.map_some, CsrBuildConfig.weightEntries,
      configured]
    rcases columnIndex_cases schema "Weight" name with ⟨i, found, read⟩ | ⟨missing, reason, failed⟩
    · rcases downcastColumn_cases .float32 "Weight" found with
        ⟨typed, entries⟩ | ⟨other, reason, failed⟩
      · exact .inl ⟨typed, fun batch => by simp [read, entries batch]⟩
      · exact .inr ⟨other, reason, fun batch => by simp [read, failed batch, Checked.fail]⟩
    · exact .inr ⟨by simp [Schema.columnType, missing], reason, fun batch => by
        simp [failed, Checked.fail]⟩

/-- **The columns of every batch are read, or every batch is refused with the same
message.** -/
theorem edgeColumns_cases (config : CsrBuildConfig) (schema : Schema) :
    (config.ColumnsFit schema ∧ ∀ batch : RecordBatch schema,
      config.edgeColumns batch = .ok (config.columnsOf batch)) ∨
    (¬ config.ColumnsFit schema ∧ ∃ reason, ∀ batch : RecordBatch schema,
      config.edgeColumns batch = Checked.fail reason) := by
  unfold CsrBuildConfig.edgeColumns
  rcases columnIndex_cases schema "Source" config.sourceColumn with
    ⟨i, sourceAt, source⟩ | ⟨missing, reason, failed⟩
  · rcases columnIndex_cases schema "Target" config.targetColumn with
      ⟨j, targetAt, target⟩ | ⟨missing, reason, failed⟩
    · rcases downcastColumn_cases .uint64 "Source" sourceAt with
        ⟨sourceType, sources⟩ | ⟨other, reason, failed⟩
      · rcases downcastColumn_cases .uint64 "Target" targetAt with
          ⟨targetType, targets⟩ | ⟨other, reason, failed⟩
        · rcases weightEntries_cases config schema with
            ⟨weightType, weights⟩ | ⟨other, reason, failed⟩
          · exact .inl ⟨⟨sourceType, targetType, weightType⟩, fun batch => by
              simp [source, target, sources batch, targets batch, weights batch,
                CsrBuildConfig.columnsOf]⟩
          · exact .inr ⟨fun fit => other fit.weight, reason, fun batch => by
              simp [source, target, sources batch, targets batch, failed batch, Checked.fail]⟩
        · exact .inr ⟨fun fit => other fit.target, reason, fun batch => by
            simp [source, target, sources batch, failed batch, Checked.fail]⟩
      · exact .inr ⟨fun fit => other fit.source, reason, fun batch => by
          simp [source, target, failed batch, Checked.fail]⟩
    · exact .inr ⟨fun fit => by simpa [Schema.columnType, missing] using fit.target, reason,
        fun batch => by simp [source, failed, Checked.fail]⟩
  · exact .inr ⟨fun fit => by simpa [Schema.columnType, missing] using fit.source, reason,
      fun batch => by simp [failed, Checked.fail]⟩

/-! ## The rows -/

/-- The edges of the rows of a batch whose endpoints are not null, in row order. -/
def CsrBuildConfig.rowsOf (config : CsrBuildConfig) (batch : RecordBatch schema) :
    List (EdgeRow ℕ) :=
  (config.columnsOf batch).edgeRows batch.numRows

/-- One more edge in a buffer. -/
def CsrBuildConfig.pushRow (config : CsrBuildConfig) (buffered : List (EdgeRow ℕ))
    (row : EdgeRow ℕ) : Checked DataFusionError (List (EdgeRow ℕ)) := do
  config.enforceNextEdge buffered.length
  pure (buffered ++ [row])

/-- A buffer of that many edges fits the configuration. -/
def CsrBuildConfig.Fits (config : CsrBuildConfig) (edgeCount : ℕ) : Prop :=
  edgeCount ≤ usizeMax ∧ ∀ limit ∈ config.memoryLimit, 16 * edgeCount ≤ limit.val

theorem CsrBuildConfig.Fits.mono {config : CsrBuildConfig} {few many : ℕ}
    (fits : config.Fits many) (fewer : few ≤ many) : config.Fits few :=
  ⟨fewer.trans fits.1, fun limit configured =>
    (Nat.mul_le_mul_left 16 fewer).trans (fits.2 limit configured)⟩

theorem fits_nil (config : CsrBuildConfig) : config.Fits ([] : List (EdgeRow ℕ)).length :=
  ⟨Nat.zero_le _, fun _ _ => Nat.zero_le _⟩

/-- An edge joins the buffer when the longer buffer fits. -/
theorem enforceNextEdge_cases (config : CsrBuildConfig) (edgeCount : ℕ) :
    (config.Fits (edgeCount + 1) ∧ config.enforceNextEdge edgeCount = .ok ()) ∨
      (¬ config.Fits (edgeCount + 1) ∧
        ∃ reason, config.enforceNextEdge edgeCount = Checked.fail reason) := by
  by_cases counted : edgeCount + 1 ≤ usizeMax
  · have step : config.enforceNextEdge edgeCount = config.enforceMemoryLimit (edgeCount + 1) := by
      rw [CsrBuildConfig.enforceNextEdge, usizeTryFrom_of_le counted]
      rfl
    rw [step, CsrBuildConfig.enforceMemoryLimit]
    cases configured : config.memoryLimit with
    | none => exact .inl ⟨⟨counted, by simp [configured]⟩, rfl⟩
    | some limit =>
      have bound := limit.property
      by_cases addressable : (edgeCount + 1) * 16 ≤ usizeMax
      · simp only [CsrBuildConfig.edgeBufferBytes, usizeTryFrom_of_le addressable,
          Checked.okOr_some, Checked.ok_bind]
        by_cases exceeds : limit.val < (edgeCount + 1) * 16
        · rw [if_pos exceeds]
          refine .inr ⟨fun fits => ?_, _, rfl⟩
          have small := fits.2 limit configured
          omega
        · rw [if_neg exceeds]
          refine .inl ⟨⟨counted, fun other same => ?_⟩, rfl⟩
          obtain rfl : limit = other := by simpa [configured] using same
          omega
      · refine .inr ⟨fun fits => ?_, .execution
          "CSRBuilderExec edge buffer size overflowed usize accounting", ?_⟩
        · have small := fits.2 limit configured
          omega
        · simp [CsrBuildConfig.edgeBufferBytes, usizeTryFrom, addressable, Checked.okOr,
            Checked.fail]
  · refine .inr ⟨fun fits => counted fits.1, .execution
      "CSRBuilderExec edge count overflowed usize accounting", ?_⟩
    simp [CsrBuildConfig.enforceNextEdge, usizeTryFrom, counted, Checked.okOr, Checked.fail]

/-- All edges join a buffer when the buffer with all of them fits; otherwise an
error is returned. -/
theorem pushRows_cases (config : CsrBuildConfig) (rows : List (EdgeRow ℕ))
    {buffered : List (EdgeRow ℕ)} (start : config.Fits buffered.length) :
    (config.Fits (buffered ++ rows).length ∧
      rows.foldlM config.pushRow buffered = .ok (buffered ++ rows)) ∨
    (¬ config.Fits (buffered ++ rows).length ∧
      ∃ reason, rows.foldlM config.pushRow buffered = Checked.fail reason) := by
  induction rows generalizing buffered with
  | nil => exact .inl ⟨by simpa using start, by simp⟩
  | cons row rows ih =>
    rw [List.foldlM_cons, CsrBuildConfig.pushRow]
    rcases enforceNextEdge_cases config buffered.length with ⟨fits, room⟩ | ⟨tooMany, reason, full⟩
    · rw [room]
      have later := @ih (buffered ++ [row]) (by simpa using fits)
      simpa using later
    · refine .inr ⟨fun fits => tooMany (fits.mono ?_), reason, by rw [full]; rfl⟩
      simp only [List.length_append, List.length_cons]
      omega

/-- The columns of a batch have an entry for each of its rows. -/
theorem columnsOf_full {config : CsrBuildConfig} (fit : config.ColumnsFit schema)
    (batch : RecordBatch schema) : (config.columnsOf batch).Full batch.numRows where
  sources := batch.length_values .uint64 fit.source
  targets := batch.length_values .uint64 fit.target
  weights entries found := by
    obtain ⟨name, configured, rfl⟩ := Option.map_eq_some_iff.mp found
    exact batch.length_values .float32 (fit.weight name configured)

namespace CsrBuildStream

/-- The stream with the given edges in its buffers. -/
def holding (self : CsrBuildStream schema) (rows : List (EdgeRow ℕ)) : CsrBuildStream schema :=
  { self with
    edges := rows.map fun row => (row.1, row.2.1)
    weights := if self.config.weightColumn.isSome then rows.map fun row => row.2.2 else [] }

variable (self : CsrBuildStream schema)

/-- A row of a batch adds its edge to the buffers, or nothing. -/
theorem extractRow_holding (fit : self.config.ColumnsFit schema) (batch : RecordBatch schema)
    {i : ℕ} (inside : i < batch.numRows) (rows : List (EdgeRow ℕ)) :
    extractRow (self.config.columnsOf batch) (self.holding rows) i =
      ((self.config.columnsOf batch).kept i).elim (.ok (self.holding rows)) fun row =>
        (self.config.pushRow rows row).map self.holding := by
  obtain ⟨source, target, sourceAt, targetAt, weightAt⟩ := (columnsOf_full fit batch).entries inside
  simp only [extractRow, EdgeColumns.kept, Checked.index_eq_ok sourceAt,
    Checked.index_eq_ok targetAt, Checked.ok_bind, sourceAt, targetAt]
  cases source with
  | none => rfl
  | some source =>
    cases target with
    | none => rfl
    | some target =>
      simp only [Option.elim_some, CsrBuildConfig.pushRow]
      have count : (self.holding rows).edges.length = rows.length := by simp [holding]
      rw [count, show (self.holding rows).config = self.config from rfl]
      rcases enforceNextEdge_cases self.config rows.length with ⟨-, room⟩ | ⟨-, reason, full⟩
      · simp only [room, Checked.ok_bind, Checked.pure_eq_ok, Except.map]
        cases configured : self.config.weightColumn with
        | none => simp [CsrBuildConfig.columnsOf, configured, holding]
        | some name =>
          obtain ⟨weight, held⟩ := weightAt _ (by rw [CsrBuildConfig.columnsOf, configured]; rfl)
          simp [CsrBuildConfig.columnsOf, configured, holding, held, Checked.index_eq_ok held]
      · rw [full]
        rfl

/-- The rows of a batch add their edges one after another, up to the first that
does not fit. -/
theorem extractRows_holding (fit : self.config.ColumnsFit schema) (batch : RecordBatch schema) :
    ∀ (indices : List ℕ), (∀ i ∈ indices, i < batch.numRows) → ∀ rows : List (EdgeRow ℕ),
      match (indices.filterMap (self.config.columnsOf batch).kept).foldlM self.config.pushRow
        rows with
      | .ok pushed => extractRows (self.config.columnsOf batch) (self.holding rows) indices =
          (.ok (), self.holding pushed)
      | .error fault => (extractRows (self.config.columnsOf batch) (self.holding rows) indices).1 =
          .error fault := by
  intro indices inside
  induction indices with
  | nil => exact fun rows => rfl
  | cons i rest ih =>
    intro rows
    have later := ih fun j member => inside j (List.mem_cons_of_mem i member)
    have first := self.extractRow_holding fit batch (inside i List.mem_cons_self) rows
    cases kept : (self.config.columnsOf batch).kept i with
    | none =>
      rw [kept, Option.elim_none] at first
      simp only [List.filterMap_cons, kept, extractRows, first]
      exact later rows
    | some row =>
      rw [kept, Option.elim_some] at first
      simp only [List.filterMap_cons, kept, List.foldlM_cons, extractRows, first]
      cases pushed : self.config.pushRow rows row with
      | ok longer =>
        simp only [Except.map, Checked.ok_bind]
        exact later longer
      | error fault => rfl

/-- Reading rows leaves the input, the configuration and the end as they are. -/
theorem extractRow_config {columns : EdgeColumns ℕ} {i : ℕ} {next : CsrBuildStream schema}
    (read : extractRow columns self i = .ok next) : next.config = self.config := by
  simp only [extractRow, Checked.bind_eq_ok] at read
  obtain ⟨source, -, target, -, read⟩ := read
  split at read
  · simp only [Checked.bind_eq_ok, Checked.pure_eq_ok] at read
    obtain ⟨-, -, read⟩ := read
    split at read
    · simp only [Checked.bind_eq_ok] at read
      obtain ⟨_, -, _, -, read⟩ := read
      cases read
      rfl
    · cases read
      rfl
  · obtain rfl : self = next := by simpa using read
    rfl

theorem extractRows_config (columns : EdgeColumns ℕ) (indices : List ℕ) :
    (extractRows columns self indices).2.config = self.config := by
  induction indices generalizing self with
  | nil => rfl
  | cons i rest ih =>
    rw [extractRows]
    cases read : extractRow columns self i with
    | ok next => exact (ih next).trans (self.extractRow_config read)
    | error fault => rfl

theorem extractEdges_config (batch : RecordBatch schema) :
    (self.extractEdges batch).2.config = self.config := by
  rw [extractEdges]
  cases self.config.edgeColumns batch with
  | ok columns => exact self.extractRows_config columns _
  | error fault => rfl

end CsrBuildStream

/-! ## The batches -/

/-- The buffer after one more batch. -/
def CsrBuildConfig.absorb (config : CsrBuildConfig) (buffered : List (EdgeRow ℕ))
    (batch : RecordBatch schema) : Checked DataFusionError (List (EdgeRow ℕ)) := do
  let columns ← config.edgeColumns batch
  (columns.edgeRows batch.numRows).foldlM config.pushRow buffered

/-- A batch under a schema with the right columns adds its rows. -/
theorem absorb_of_fit {config : CsrBuildConfig} (fit : config.ColumnsFit schema)
    (buffered : List (EdgeRow ℕ)) (batch : RecordBatch schema) :
    config.absorb buffered batch = (config.rowsOf batch).foldlM config.pushRow buffered := by
  rcases edgeColumns_cases config schema with ⟨-, read⟩ | ⟨unfit, -⟩
  · rw [CsrBuildConfig.absorb, read, Checked.ok_bind, CsrBuildConfig.rowsOf]
  · exact absurd fit unfit

/-- Every batch under a schema without the right columns is refused. -/
theorem absorb_of_unfit {config : CsrBuildConfig} (unfit : ¬ config.ColumnsFit schema) :
    ∃ reason, ∀ (buffered : List (EdgeRow ℕ)) (batch : RecordBatch schema),
      config.absorb buffered batch = Checked.fail reason := by
  rcases edgeColumns_cases config schema with ⟨fit, -⟩ | ⟨-, reason, refused⟩
  · exact absurd fit unfit
  · refine ⟨reason, fun buffered batch => ?_⟩
    rw [CsrBuildConfig.absorb, refused]
    rfl

/-- The stream reads a batch as the buffer absorbs it. -/
theorem extractEdges_holding (stream : CsrBuildStream schema) (batch : RecordBatch schema)
    (rows : List (EdgeRow ℕ)) :
    match stream.config.absorb rows batch with
    | .ok longer => (stream.holding rows).extractEdges batch = (.ok (), stream.holding longer)
    | .error fault => ((stream.holding rows).extractEdges batch).1 = .error fault := by
  rw [CsrBuildStream.extractEdges, show (stream.holding rows).config = stream.config from rfl,
    CsrBuildConfig.absorb]
  rcases edgeColumns_cases stream.config schema with ⟨fit, read⟩ | ⟨-, reason, refused⟩
  · rw [read, Checked.ok_bind]
    exact stream.extractRows_holding fit batch _ (fun i member => List.mem_range.mp member) rows
  · rw [refused]
    rfl

/-- The rows of appended batches are appended. -/
theorem rowsOf_append {config : CsrBuildConfig} (fit : config.ColumnsFit schema)
    (left right : RecordBatch schema) :
    config.rowsOf (left.append right) = config.rowsOf left ++ config.rowsOf right := by
  have columns : config.columnsOf (left.append right) =
      (config.columnsOf left).append (config.columnsOf right) := by
    simp only [CsrBuildConfig.columnsOf, EdgeColumns.append,
      left.values_append right .uint64 fit.source, left.values_append right .uint64 fit.target]
    cases configured : config.weightColumn with
    | none => rfl
    | some name =>
      simp only [Option.map_some, Option.map₂_some_some,
        left.values_append right .float32 (fit.weight name configured)]
  rw [CsrBuildConfig.rowsOf, columns]
  exact EdgeColumns.edgeRows_append (columnsOf_full fit left) (by simp [CsrBuildConfig.columnsOf])
    right.numRows

/-- **A buffer absorbs appended batches as it absorbs one after the other.** -/
theorem absorb_append (config : CsrBuildConfig) (buffered : List (EdgeRow ℕ))
    (left right : RecordBatch schema) :
    config.absorb buffered (left.append right) =
      config.absorb buffered left >>= fun longer => config.absorb longer right := by
  by_cases fit : config.ColumnsFit schema
  · simp only [absorb_of_fit fit, rowsOf_append fit, List.foldlM_append]
  · obtain ⟨reason, refused⟩ := absorb_of_unfit fit
    simp only [refused, Checked.fail, Checked.error_bind]

end Exec

end FusionGraph
