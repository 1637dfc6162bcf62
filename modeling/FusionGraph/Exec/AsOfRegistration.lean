import FusionGraph.Exec.KeyQueries
import FusionGraph.Foundations.Validity
import Mathlib.Data.String.Basic

/-!
# Graphs as of an instant

A definition with temporal columns is registered as of an instant by filtering its rows.
The filters are SQL conditions, so a comparison with NULL is unknown and drops its row; the
second filter asks for NULL on its own.

A table that keeps versions of its links, each with the span in which it was there, is read
through these filters as the links at the instant, each once and with its weight
(`registered_as_of_instant`). The query engine is outside: `SessionContext.AnswersTable`
says that it returns the rows for which the filters are true.
-/

set_option autoImplicit false

namespace FusionGraph

open Foundations Foundations.BreadthFirst

variable {Time : Type} [LinearOrder Time]

/-! ## Conditions -/

namespace SqlExpr

/-- The value of an operand in a row of instants; `none` is NULL. -/
def operand (ofText : String → Time) (row : String → Option Time) : SqlExpr → Option Time
  | col name => row name
  | lit text => some (ofText text)
  | _ => none

/-- The truth of a condition in a row; `none` is unknown. -/
def truth (ofText : String → Time) (row : String → Option Time) : SqlExpr → Option Bool
  | isNull expr => some (expr.operand ofText row).isNone
  | or left right =>
    match left.truth ofText row, right.truth ofText row with
    | some true, _ => some true
    | _, some true => some true
    | some false, some false => some false
    | _, _ => none
  | ltEq left right => do
    let one ← left.operand ofText row
    let other ← right.operand ofText row
    pure (decide (one ≤ other))
  | gt left right => do
    let one ← left.operand ofText row
    let other ← right.operand ofText row
    pure (decide (other < one))
  | _ => none

/-- The row passes all conditions. -/
def Passes (ofText : String → Time) (row : String → Option Time) (filters : List SqlExpr) : Prop :=
  ∀ filter ∈ filters, filter.truth ofText row = some true

instance (ofText : String → Time) (row : String → Option Time) (filters : List SqlExpr) :
    Decidable (Passes ofText row filters) :=
  inferInstanceAs (Decidable (∀ filter ∈ filters, filter.truth ofText row = some true))

variable {ofText : String → Time} {row : String → Option Time} {name text : String}

/-- A row without a value does not pass. -/
theorem truth_ltEq_lit : (ltEq (col name) (lit text)).truth ofText row = some true ↔
    ∃ value, row name = some value ∧ value ≤ ofText text := by
  cases found : row name with
  | none => simp [truth, operand, found]
  | some value => simp [truth, operand, found]

/-- A row without a value passes. -/
theorem truth_openEnded :
    (SqlExpr.or (isNull (col name)) (gt (col name) (lit text))).truth ofText row = some true ↔
      ∀ value ∈ row name, ofText text < value := by
  cases found : row name with
  | none => simp [truth, operand, found]
  | some value =>
    by_cases later : ofText text < value
    · simp [truth, operand, found, later]
    · simp [truth, operand, found, later]

end SqlExpr

/-- **A row passes the temporal filters when it has begun and not ended.** A row without a
beginning passes only where the definition has no column for it. -/
theorem EdgeDefinition.passes_temporalFilters (edge : EdgeDefinition) (instant : String)
    (ofText : String → Time) (row : String → Option Time) :
    SqlExpr.Passes ofText row (edge.temporalFilters (some instant)) ↔
      (∀ name ∈ edge.validFromColumn, ∃ start, row name = some start ∧ start ≤ ofText instant) ∧
        ∀ name ∈ edge.validToColumn, ∀ stop ∈ row name, ofText instant < stop := by
  simp only [SqlExpr.Passes, temporalFilters, List.forall_mem_append]
  refine and_congr ?_ ?_
  · cases edge.validFromColumn with
    | none => simp
    | some name => simpa using SqlExpr.truth_ltEq_lit
  · cases edge.validToColumn with
    | none => simp
    | some name => simpa using SqlExpr.truth_openEnded

/-! ## Tables of versions -/

/-- A row of a table of links: the link as the projection shows it, and its span. -/
structure VersionRow (Time : Type) where
  link : EdgeRow String
  span : Span Time

/-- The temporal columns of a row. -/
def VersionRow.instants (self : VersionRow Time) (edge : EdgeDefinition) (name : String) :
    Option Time :=
  if edge.validFromColumn = some name then some self.span.start
  else if edge.validToColumn = some name then self.span.stop
  else none

/-- The changes of each link: its weight from an instant on, or its end. -/
abbrev LinkHistory (Time : Type) := List ((String × String) × List (Time × Option Float32))

namespace LinkHistory

/-- The rows of one link: a version of it for each weight. -/
def rowsOf (entry : (String × String) × List (Time × Option Float32)) : List (VersionRow Time) :=
  (versions entry.2).map fun version => ⟨(entry.1.1, entry.1.2, version.2), version.1⟩

/-- The table of a history. -/
def table (history : LinkHistory Time) : List (VersionRow Time) := history.flatMap rowsOf

/-- The links at an instant, with their weights. -/
def at_ (history : LinkHistory Time) (instant : Time) : List (EdgeRow String) :=
  history.flatMap fun entry =>
    (valueAt entry.2 instant).toList.map fun weight => (entry.1.1, entry.1.2, weight)

end LinkHistory

/-- What the engine promises of the query of a definition over a table: the rows for which
all filters are true, in any order. -/
def SessionContext.AnswersTable (ctx : SessionContext) (ofText : String → Time)
    (edge : EdgeDefinition) (rows : List (VersionRow Time)) (asOf : Option String) : Prop :=
  ∃ batches, ctx.collect (edge.keyedQuery asOf) = .ok batches ∧
    (edge.rowsOf batches).Perm ((rows.filter fun row => decide (SqlExpr.Passes ofText
      (row.instants edge) (edge.temporalFilters asOf))).map VersionRow.link)

section AsOf

variable {edge : EdgeDefinition} {ofText : String → Time} {firstColumn lastColumn instant : String}
  {history : LinkHistory Time}

/-- A version passes the filters when its span holds the instant. -/
theorem VersionRow.passes_iff (begins : edge.validFromColumn = some firstColumn)
    (ends : edge.validToColumn = some lastColumn) (apart : firstColumn ≠ lastColumn)
    (row : VersionRow Time) : SqlExpr.Passes ofText (row.instants edge) (edge.temporalFilters (some instant)) ↔
      row.span.Holds (ofText instant) := by
  have first : row.instants edge firstColumn = some row.span.start := if_pos begins
  have last : row.instants edge lastColumn = row.span.stop := by
    rw [VersionRow.instants, if_neg (by simpa [begins] using apart), if_pos ends]
  rw [edge.passes_temporalFilters, begins, ends, Span.Holds]
  simp [first, last]

/-- **The rows of the table that pass the filters are the links at the instant.** -/
theorem LinkHistory.filter_table (begins : edge.validFromColumn = some firstColumn)
    (ends : edge.validToColumn = some lastColumn) (apart : firstColumn ≠ lastColumn)
    (sorted : ∀ entry ∈ history, entry.2.Pairwise fun one other => one.1 ≤ other.1) :
    (history.table.filter fun row => decide (SqlExpr.Passes ofText (row.instants edge)
      (edge.temporalFilters (some instant)))).map VersionRow.link =
        history.at_ (ofText instant) := by
  have each : ∀ entry ∈ history, ((LinkHistory.rowsOf entry).filter fun row =>
      decide (SqlExpr.Passes ofText (row.instants edge)
        (edge.temporalFilters (some instant)))).map VersionRow.link =
      (valueAt entry.2 (ofText instant)).toList.map
        fun weight => (entry.1.1, entry.1.2, weight) := by
    intro entry member
    rw [← filter_versions (sorted entry member), LinkHistory.rowsOf, List.filter_map, List.map_map,
      List.map_map]
    refine congrArg _ (List.filter_congr fun version _ => ?_)
    exact decide_eq_decide.mpr (VersionRow.passes_iff begins ends apart _)
  rw [LinkHistory.table, LinkHistory.at_, List.filter_flatMap, List.map_flatMap]
  exact List.flatMap_congr each

/-- **A definition registered as of an instant is its links at that instant.** Over a table
of versions, the query returns each link that is there at the instant once, with the weight
that it has then, and the registered graph has the edges of these links between the keys of
its dictionary. -/
theorem registered_as_of_instant {ctx : SessionContext} {ontology : Ontology}
    {start catalog : GraphCatalog NodeDictionary} {names : List String}
    (wellFormed : start.WellFormed)
    (registered : registerOntologyGraphsAsOf ctx ontology start (some instant) =
      (.ok names, catalog))
    (member : edge ∈ ontology.edges) (keyed : ontology.needsDictionary edge = true)
    (begins : edge.validFromColumn = some firstColumn)
    (ends : edge.validToColumn = some lastColumn) (apart : firstColumn ≠ lastColumn)
    (sorted : ∀ entry ∈ history, entry.2.Pairwise fun one other => one.1 ≤ other.1)
    (answers : ctx.AnswersTable ofText edge history.table (some instant)) :
    ∃ batches ref dictionary, ctx.collect (edge.keyedQuery (some instant)) = .ok batches ∧
      (edge.rowsOf batches).Perm (history.at_ (ofText instant)) ∧
      catalog.get (ontology.graphName edge) = some ref ∧
      catalog.dictionary (ontology.graphName edge) = some dictionary ∧
      ∀ a b, named dictionary.keyOf (catalog.graphs ref).Edge a b ↔
        ∃ weight, (a, b, weight) ∈ history.at_ (ofText instant) := by
  obtain ⟨batches, collects, rows⟩ := answers
  rw [LinkHistory.filter_table begins ends apart sorted] at rows
  obtain ⟨ref, base, dictionary, entry, servesRows⟩ :=
    exists_servesRows wellFormed registered member keyed collects
  obtain ⟨-, -, links⟩ := servesRows.run .start
  refine ⟨batches, ref, dictionary, collects, rows, servesRows.serves.get_eq,
    servesRows.serves.dictionary_eq, fun a b => ?_⟩
  rw [links]
  exact exists_congr fun weight => rows.mem_iff

end AsOf

namespace AsOfSample

open Sample

/-- The users, with the times at which they follow each other. -/
def datedUsers : Ontology :=
  { users with edges := users.edges.map fun edge =>
      { edge with validFromColumn := some "since", validToColumn := some "until" } }

/-- The edge definition of the users. -/
def datedFollows : EdgeDefinition := datedUsers.edges.head (by simp [datedUsers, users])

/-- Ann follows Bob for a while and again later, and Bob follows Cy. -/
def history : LinkHistory String :=
  [(("ann", "bob"), [("2024-01", some 1.0), ("2024-02", none), ("2024-05", some 1.0)]),
    (("bob", "cy"), [("2024-03", some 1.0)])]

/-- The rows in April. -/
def april : RecordBatch datedFollows.projection where
  columns := [.utf8 [some "bob"], .utf8 [some "cy"]]
  numRows := 1
  types := rfl
  lengths := by simp [ArrayRef.length]

theorem rowsOf_april : datedFollows.rowsOf [april] = [("bob", "cy", 1.0)] := rfl

theorem registers_april :
    ((registerOntologyGraphsAsOf (.answering [april]) datedUsers .new (some "2024-04")).1.passes
      fun _ => true) = true := by decide

theorem sorted : ∀ entry ∈ history, entry.2.Pairwise fun one other => one.1 ≤ other.1 := by
  simp [history]

theorem at_april : history.at_ "2024-04" = [("bob", "cy", 1.0)] := by
  have first : valueAt [("2024-01", some (1.0 : Float32)), ("2024-02", none), ("2024-05", some 1.0)]
      "2024-04" = none := rfl
  have second : valueAt [("2024-03", some (1.0 : Float32))] "2024-04" = some 1.0 := rfl
  simp [LinkHistory.at_, history, first, second]

theorem begins : datedFollows.validFromColumn = some "since" := rfl

theorem ends : datedFollows.validToColumn = some "until" := rfl

theorem answers_april : (SessionContext.answering [april]).AnswersTable id datedFollows
    (LinkHistory.table history) (some "2024-04") := by
  refine ⟨[april],
    SessionContext.collect_answering (datedFollows.keyedQuery (some "2024-04")) [april], ?_⟩
  rw [LinkHistory.filter_table begins ends (by decide) sorted]
  exact .of_eq (rowsOf_april.trans at_april.symm)

end AsOfSample

open AsOfSample in
/-- In April only Bob follows Cy. -/
theorem registered_as_of_instant_witness : ∃ (catalog : GraphCatalog NodeDictionary)
    (ref : GraphRef) (dictionary : NodeDictionary),
    catalog.get "social.FOLLOWS" = some ref ∧
    ∀ a b, named dictionary.keyOf (catalog.graphs ref).Edge a b ↔
      ∃ weight, (a, b, weight) ∈ history.at_ "2024-04" := by
  obtain ⟨names, returned⟩ := Checked.returns_of_passes _ registers_april
  obtain ⟨-, ref, dictionary, -, -, bound, -, links⟩ := registered_as_of_instant .new
    (Prod.ext returned rfl) (List.head_mem (by simp [datedUsers, Sample.users])) rfl begins ends
    (by decide) sorted answers_april
  exact ⟨_, ref, dictionary, bound, links⟩

end FusionGraph
