import FusionGraph.Core.Types
import Mathlib.Algebra.GroupWithZero.Nat
import Mathlib.Data.Option.NAry

/-!
# Record batches

A record batch has one column for each field of its schema, of the type of that
field, and all of its columns have the same number of rows. That is part of the
type: a batch that is not so cannot be built.

An array is the list of its entries, with nothing for a null. Of the arrays whose
type no modelled function reads, only the length is kept.
-/

set_option autoImplicit false

namespace FusionGraph

open Foundations

/-- The type of a column. -/
inductive DataType where
  | uint64
  | float32
  | utf8
  | other (name : String)
  deriving DecidableEq, Repr

/-- A named column of a schema. -/
structure Field where
  name : String
  dataType : DataType
  deriving DecidableEq, Repr

/-- The fields of a batch. -/
abbrev Schema := List Field

/-- The position of the first field with the name. -/
def Schema.indexOf (schema : Schema) (name : String) : Option ℕ :=
  schema.findIdx? fun field => field.name == name

/-- A column. -/
inductive ArrayRef where
  | uint64 (values : List (Option ℕ))
  | float32 (values : List (Option Float32))
  | utf8 (values : List (Option String))
  | other (name : String) (length : ℕ)

namespace ArrayRef

def dataType : ArrayRef → DataType
  | .uint64 _ => .uint64
  | .float32 _ => .float32
  | .utf8 _ => .utf8
  | .other name _ => .other name

def length : ArrayRef → ℕ
  | .uint64 values => values.length
  | .float32 values => values.length
  | .utf8 values => values.length
  | .other _ length => length

/-- `downcast_ref::<UInt64Array>()`. -/
def asUInt64 : ArrayRef → Option (List (Option ℕ))
  | .uint64 values => some values
  | _ => none

/-- `downcast_ref::<Float32Array>()`. -/
def asFloat32 : ArrayRef → Option (List (Option Float32))
  | .float32 values => some values
  | _ => none

/-- `downcast_ref::<StringArray>()`. -/
def asUtf8 : ArrayRef → Option (List (Option String))
  | .utf8 values => some values
  | _ => none

/-- The rows of one column and then those of another. -/
def append : ArrayRef → ArrayRef → ArrayRef
  | .uint64 left, .uint64 right => .uint64 (left ++ right)
  | .float32 left, .float32 right => .float32 (left ++ right)
  | .utf8 left, .utf8 right => .utf8 (left ++ right)
  | .other name left, .other _ right => .other name (left + right)
  | left, _ => left

@[simp] theorem dataType_append (left right : ArrayRef) :
    (left.append right).dataType = left.dataType := by
  cases left <;> cases right <;> rfl

theorem length_append {left right : ArrayRef} (same : left.dataType = right.dataType) :
    (left.append right).length = left.length + right.length := by
  cases left <;> cases right <;> simp_all [dataType, append, length]

end ArrayRef

/-- A type of array: how an array of the type is read. -/
structure ArrowType (α : Type) where
  /-- The type in an error message. -/
  name : String
  dataType : DataType
  downcast : ArrayRef → Option (List (Option α))
  isSome_downcast : ∀ column, (downcast column).isSome ↔ column.dataType = dataType
  length_downcast : ∀ column values, downcast column = some values →
    values.length = column.length
  downcast_append : ∀ left right first second, downcast left = some first →
    downcast right = some second → downcast (left.append right) = some (first ++ second)

namespace ArrowType

def uint64 : ArrowType ℕ where
  name := "UInt64"
  dataType := .uint64
  downcast := ArrayRef.asUInt64
  isSome_downcast column := by cases column <;> simp [ArrayRef.asUInt64, ArrayRef.dataType]
  length_downcast column values found := by
    cases column <;> simp_all [ArrayRef.asUInt64, ArrayRef.length]
  downcast_append left right first second := by
    cases left <;> cases right <;> simp_all [ArrayRef.asUInt64, ArrayRef.append]

def float32 : ArrowType Float32 where
  name := "Float32"
  dataType := .float32
  downcast := ArrayRef.asFloat32
  isSome_downcast column := by cases column <;> simp [ArrayRef.asFloat32, ArrayRef.dataType]
  length_downcast column values found := by
    cases column <;> simp_all [ArrayRef.asFloat32, ArrayRef.length]
  downcast_append left right first second := by
    cases left <;> cases right <;> simp_all [ArrayRef.asFloat32, ArrayRef.append]

def utf8 : ArrowType String where
  name := "Utf8"
  dataType := .utf8
  downcast := ArrayRef.asUtf8
  isSome_downcast column := by cases column <;> simp [ArrayRef.asUtf8, ArrayRef.dataType]
  length_downcast column values found := by
    cases column <;> simp_all [ArrayRef.asUtf8, ArrayRef.length]
  downcast_append left right first second := by
    cases left <;> cases right <;> simp_all [ArrayRef.asUtf8, ArrayRef.append]

end ArrowType

/-- A batch of rows under a schema. -/
structure RecordBatch (schema : Schema) where
  columns : List ArrayRef
  numRows : ℕ
  types : columns.map ArrayRef.dataType = schema.map Field.dataType
  lengths : ∀ column ∈ columns, column.length = numRows

namespace Schema

/-- The type of the first field with the name. -/
def columnType (schema : Schema) (name : String) : Option DataType :=
  (schema.indexOf name).bind fun i => schema[i]?.map Field.dataType

end Schema

namespace RecordBatch

variable {schema : Schema} {α : Type}

/-- A column of the batch. -/
def column {ε : Type} (batch : RecordBatch schema) (i : ℕ) : Checked ε ArrayRef :=
  Checked.index batch.columns i

/-- The entries of a column, when they are of the type. -/
def valuesAt (batch : RecordBatch schema) (type : ArrowType α) (i : ℕ) : List (Option α) :=
  (batch.columns[i]?.bind type.downcast).getD []

/-- The entries of the first column with the name, when they are of the type. -/
def values (batch : RecordBatch schema) (type : ArrowType α) (name : String) :
    List (Option α) :=
  ((schema.indexOf name).map (batch.valuesAt type)).getD []

/-- A column has the type of its field. -/
theorem dataType_getElem? (batch : RecordBatch schema) (i : ℕ) :
    batch.columns[i]?.map ArrayRef.dataType = schema[i]?.map Field.dataType := by
  rw [← List.getElem?_map, batch.types, List.getElem?_map]

theorem length_columns (batch : RecordBatch schema) : batch.columns.length = schema.length := by
  simpa using congrArg List.length batch.types

/-- A column of the right type is read, and has an entry for each row. -/
theorem valuesAt_of_type (batch : RecordBatch schema) (type : ArrowType α) {i : ℕ}
    (typed : schema[i]?.map Field.dataType = some type.dataType) :
    ∃ column, batch.columns[i]? = some column ∧
      type.downcast column = some (batch.valuesAt type i) ∧
      (batch.valuesAt type i).length = batch.numRows := by
  rw [← batch.dataType_getElem? i, Option.map_eq_some_iff] at typed
  obtain ⟨column, held, same⟩ := typed
  obtain ⟨entries, read⟩ := Option.isSome_iff_exists.mp ((type.isSome_downcast column).mpr same)
  have values : batch.valuesAt type i = entries := by
    simp [valuesAt, held, read]
  refine ⟨column, held, by rw [read, values], ?_⟩
  rw [values, type.length_downcast column entries read,
    batch.lengths column (List.mem_of_getElem? held)]

/-- A position that a name has in the schema is the position of a column. -/
theorem exists_column (batch : RecordBatch schema) {name : String} {i : ℕ}
    (found : schema.indexOf name = some i) :
    ∃ column, batch.columns[i]? = some column ∧
      schema.columnType name = some column.dataType := by
  have inSchema : i < schema.length := (List.findIdx?_eq_some_iff_getElem.mp found).1
  have inBatch : i < batch.columns.length := by rwa [batch.length_columns]
  have same := batch.dataType_getElem? i
  rw [List.getElem?_eq_getElem inBatch] at same
  exact ⟨batch.columns[i], List.getElem?_eq_getElem inBatch, by
    rw [Schema.columnType, found, Option.bind_some, ← same, Option.map_some]⟩

/-- A named column of the right type has a position, and is read there. -/
theorem values_of_type (batch : RecordBatch schema) (type : ArrowType α) {name : String}
    (typed : schema.columnType name = some type.dataType) :
    ∃ i, schema.indexOf name = some i ∧ schema[i]?.map Field.dataType = some type.dataType ∧
      batch.values type name = batch.valuesAt type i := by
  obtain ⟨i, found, fieldType⟩ := Option.bind_eq_some_iff.mp typed
  exact ⟨i, found, fieldType, by rw [values, found, Option.map_some, Option.getD_some]⟩

theorem length_values (batch : RecordBatch schema) (type : ArrowType α) {name : String}
    (typed : schema.columnType name = some type.dataType) :
    (batch.values type name).length = batch.numRows := by
  obtain ⟨i, -, fieldType, same⟩ := batch.values_of_type type typed
  obtain ⟨-, -, -, length⟩ := batch.valuesAt_of_type type fieldType
  rw [same, length]

/-- The rows of one batch and then those of another, column by column. -/
def append (left right : RecordBatch schema) : RecordBatch schema where
  columns := List.zipWith ArrayRef.append left.columns right.columns
  numRows := left.numRows + right.numRows
  types := by
    rw [← left.types, List.map_zipWith]
    refine List.ext_getElem? fun i => ?_
    have sameLength : left.columns.length = right.columns.length := by
      rw [left.length_columns, right.length_columns]
    simp only [ArrayRef.dataType_append, List.getElem?_zipWith, List.getElem?_map]
    by_cases inside : i < left.columns.length
    · rw [List.getElem?_eq_getElem inside, List.getElem?_eq_getElem (sameLength ▸ inside)]
      rfl
    · rw [List.getElem?_eq_none (Nat.le_of_not_lt inside)]
      rfl
  lengths := by
    intro column member
    obtain ⟨i, inside, rfl⟩ := List.mem_iff_getElem.mp member
    have bounds := inside
    rw [List.length_zipWith, Nat.lt_min] at bounds
    rw [List.getElem_zipWith, ArrayRef.length_append, left.lengths _ (List.getElem_mem _),
      right.lengths _ (List.getElem_mem _)]
    have same := (left.dataType_getElem? i).trans (right.dataType_getElem? i).symm
    rw [List.getElem?_eq_getElem bounds.1, List.getElem?_eq_getElem bounds.2] at same
    exact Option.some.inj same

/-- Under distinct names, the column of a field is found by its name. -/
theorem values_of_distinct (batch : RecordBatch schema) (type : ArrowType α)
    (distinct : (schema.map Field.name).Nodup) {field : Field} {i : ℕ}
    (held : schema[i]? = some field) : batch.values type field.name = batch.valuesAt type i := by
  obtain ⟨inside, rfl⟩ := List.getElem?_eq_some_iff.mp held
  have found : schema.indexOf schema[i].name = some i := by
    refine List.findIdx?_eq_some_iff_getElem.mpr ⟨inside, by simp, fun j earlier => ?_⟩
    have different := List.pairwise_iff_getElem.mp distinct j i
      (by simpa using Nat.lt_trans earlier inside) (by simpa using inside) earlier
    simpa using different
  rw [values, found, Option.map_some, Option.getD_some]

/-- Entries of appended batches are appended. -/
theorem values_append (left right : RecordBatch schema) (type : ArrowType α) {name : String}
    (typed : schema.columnType name = some type.dataType) :
    (left.append right).values type name =
      left.values type name ++ right.values type name := by
  obtain ⟨i, found, fieldType, same⟩ := left.values_of_type type typed
  obtain ⟨first, held, read, -⟩ := left.valuesAt_of_type type fieldType
  obtain ⟨second, heldToo, readToo, -⟩ := right.valuesAt_of_type type fieldType
  have both : (left.append right).columns[i]? = some (first.append second) := by
    simp [append, List.getElem?_zipWith, held, heldToo]
  have joined := type.downcast_append first second _ _ read readToo
  rw [values, values, values, found]
  simp only [Option.map_some, Option.getD_some]
  rw [valuesAt, both, Option.bind_some, joined, Option.getD_some]

end RecordBatch

/-! ## Building a batch -/

/-- What the constructor of batches complains of. -/
inductive ArrowError where
  | invalidArgument (reason : String)
  deriving DecidableEq, Repr

/-- A type in an error message. -/
def DataType.display : DataType → String
  | .uint64 => "UInt64"
  | .float32 => "Float32"
  | .utf8 => "Utf8"
  | .other name => name

/-- Whether an entry is null, where the entries are kept. -/
def ArrayRef.hasNull : ArrayRef → Bool
  | .uint64 values => values.any Option.isNone
  | .float32 values => values.any Option.isNone
  | .utf8 values => values.any Option.isNone
  | .other _ _ => false

/-- The first column of another type than its field. -/
def typeMismatch (schema : Schema) (columns : List ArrayRef) : String :=
  match (columns.zip schema).zipIdx.find? fun ((column, field), _) =>
      column.dataType ≠ field.dataType with
  | some ((column, field), i) =>
    s!"column types must match schema types, expected {field.dataType.display} " ++
      s!"but found {column.dataType.display} at column index {i}"
  | none => ""

/-- The first required field with a null in its column. -/
def firstNull (schema : Schema) (required : List String) (columns : List ArrayRef) :
    Option Field :=
  ((schema.zip columns).find? fun (field, column) =>
    field.name ∈ required ∧ column.hasNull).map Prod.fst

/-- `RecordBatch::try_new`. The required fields are those that are not nullable. -/
def RecordBatch.tryNew (schema : Schema) (required : List String) (columns : List ArrayRef) :
    Checked ArrowError (RecordBatch schema) :=
  if columns.length ≠ schema.length then
    Checked.fail (.invalidArgument (s!"number of columns({columns.length}) must match " ++
      s!"number of fields({schema.length}) in schema"))
  else
    match columns.head? with
    | none => Checked.fail (.invalidArgument
        "must either specify a row count or at least one column")
    | some first =>
      match firstNull schema required columns with
      | some field => Checked.fail (.invalidArgument
          s!"Column '{field.name}' is declared as non-nullable but contains null values")
      | none =>
        if lengths : ∀ column ∈ columns, column.length = first.length then
          if types : columns.map ArrayRef.dataType = schema.map Field.dataType then
            .ok { columns := columns, numRows := first.length, types := types, lengths := lengths }
          else Checked.fail (.invalidArgument (typeMismatch schema columns))
        else Checked.fail (.invalidArgument
          "all columns in a record batch must have the same length")

/-- A batch that is built has the columns. -/
theorem RecordBatch.columns_of_tryNew {schema : Schema} {required : List String}
    {columns : List ArrayRef} {batch : RecordBatch schema}
    (built : RecordBatch.tryNew schema required columns = .ok batch) :
    batch.columns = columns := by
  rw [tryNew] at built
  split at built
  · cases built
  · split at built
    · cases built
    · split at built
      · cases built
      · split at built
        · split at built
          · cases built
            rfl
          · cases built
        · cases built

/-- Columns of the right types and of one length, without nulls in required fields, are
a batch. -/
theorem RecordBatch.exists_of_tryNew (schema : Schema) (required : List String) (first : ArrayRef)
    (rest : List ArrayRef) (lengths : ∀ column ∈ rest, column.length = first.length)
    (types : (first :: rest).map ArrayRef.dataType = schema.map Field.dataType)
    (nulls : firstNull schema required (first :: rest) = none) :
    ∃ batch, RecordBatch.tryNew schema required (first :: rest) = .ok batch ∧
      batch.columns = first :: rest := by
  have count : (first :: rest).length = schema.length := by
    rw [← List.length_map ArrayRef.dataType, types, List.length_map]
  have all : ∀ column ∈ first :: rest, column.length = first.length :=
    List.forall_mem_cons.mpr ⟨rfl, lengths⟩
  refine ⟨{ columns := first :: rest, numRows := first.length, types := types, lengths := all },
    ?_, rfl⟩
  rw [tryNew, if_neg (not_not.mpr count)]
  simp only [List.head?_cons, nulls, dif_pos all, dif_pos types]

/-- `i32::MAX`, the largest offset into the bytes of a string array. -/
abbrev i32Max : ℕ := 2147483647

/-- `StringArray::from`. The offsets into the bytes of the entries must fit. -/
def stringArray {ε : Type} (values : List (Option String)) : Checked ε ArrayRef :=
  if (values.map fun value => (value.map String.utf8ByteSize).getD 0).sum ≤ i32Max then
    .ok (.utf8 values)
  else Checked.abort .valueMissing

/-! ## The edges of a batch -/

/-- The columns of a batch that hold its edges. -/
structure EdgeColumns (Id : Type) where
  sources : List (Option Id)
  targets : List (Option Id)
  weights : Option (List (Option Float32))

/-- An edge of a batch and its weight. -/
abbrev EdgeRow (Id : Type) := Id × Id × Float32

namespace EdgeColumns

variable {Id : Type}

/-- The edge of a row, unless one of its endpoints is null. A null weight is 1. -/
def kept (columns : EdgeColumns Id) (i : ℕ) : Option (EdgeRow Id) :=
  match columns.sources[i]?, columns.targets[i]? with
  | some (some source), some (some target) =>
      some (source, target, ((columns.weights.bind fun entries => entries[i]?.join).getD 1.0))
  | _, _ => none

/-- The edges of the rows whose endpoints are not null, in row order. -/
def edgeRows (columns : EdgeColumns Id) (numRows : ℕ) : List (EdgeRow Id) :=
  (List.range numRows).filterMap columns.kept

/-- Every column has an entry for each row. -/
structure Full (columns : EdgeColumns Id) (numRows : ℕ) : Prop where
  sources : columns.sources.length = numRows
  targets : columns.targets.length = numRows
  weights : ∀ entries ∈ columns.weights, entries.length = numRows

/-- A row of full columns has an entry in each of them. -/
theorem Full.entries {columns : EdgeColumns Id} {numRows i : ℕ} (full : columns.Full numRows)
    (inside : i < numRows) :
    ∃ source target, columns.sources[i]? = some source ∧ columns.targets[i]? = some target ∧
      ∀ entries, columns.weights = some entries → ∃ weight, entries[i]? = some weight :=
  ⟨_, _, List.getElem?_eq_getElem (by rwa [full.sources]),
    List.getElem?_eq_getElem (by rwa [full.targets]), fun entries found =>
      ⟨_, List.getElem?_eq_getElem (by rwa [full.weights entries found])⟩⟩

/-- The rows of two batches, one after the other. -/
def append (left right : EdgeColumns Id) : EdgeColumns Id where
  sources := left.sources ++ right.sources
  targets := left.targets ++ right.targets
  weights := Option.map₂ (· ++ ·) left.weights right.weights

variable {left right : EdgeColumns Id} {numRows i : ℕ}

theorem kept_append_left (full : left.Full numRows)
    (same : left.weights.isSome = right.weights.isSome) (inside : i < numRows) :
    (left.append right).kept i = left.kept i := by
  simp only [kept, append]
  rw [List.getElem?_append_left (by rwa [full.sources]),
    List.getElem?_append_left (by rwa [full.targets])]
  cases weighted : left.weights with
  | none => rfl
  | some entries =>
    obtain ⟨others, found⟩ := Option.isSome_iff_exists.mp (same.symm.trans (by rw [weighted]; rfl))
    simp only [found, Option.map₂_some_some, Option.bind_some]
    rw [List.getElem?_append_left (by rwa [full.weights entries weighted])]

theorem kept_append_right (full : left.Full numRows)
    (same : left.weights.isSome = right.weights.isSome) (i : ℕ) :
    (left.append right).kept (numRows + i) = right.kept i := by
  simp only [kept, append]
  rw [List.getElem?_append_right (by rw [full.sources]; exact Nat.le_add_right numRows i),
    List.getElem?_append_right (by rw [full.targets]; exact Nat.le_add_right numRows i),
    full.sources, full.targets, Nat.add_sub_cancel_left]
  cases weighted : left.weights with
  | none =>
    have none : right.weights = none := by simpa [weighted] using same
    rw [none]
    rfl
  | some entries =>
    obtain ⟨others, found⟩ := Option.isSome_iff_exists.mp (same.symm.trans (by rw [weighted]; rfl))
    have length := full.weights entries weighted
    simp only [found, Option.map₂_some_some, Option.bind_some]
    rw [List.getElem?_append_right (by rw [length]; exact Nat.le_add_right numRows i), length,
      Nat.add_sub_cancel_left]

/-- The edges of appended columns are appended. -/
theorem edgeRows_append (full : left.Full numRows)
    (same : left.weights.isSome = right.weights.isSome) (others : ℕ) :
    (left.append right).edgeRows (numRows + others) =
      left.edgeRows numRows ++ right.edgeRows others := by
  rw [edgeRows, List.range_add, List.filterMap_append, List.filterMap_map]
  refine congrArg₂ (· ++ ·) (List.filterMap_congr fun i member => ?_)
    (List.filterMap_congr fun i _ => ?_)
  · exact kept_append_left full same (List.mem_range.mp member)
  · exact kept_append_right full same i

end EdgeColumns

end FusionGraph
