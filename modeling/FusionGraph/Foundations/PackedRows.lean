import Mathlib.Data.List.Basic
import Mathlib.Data.List.Flatten
import Mathlib.Data.List.Induction
import Mathlib.Tactic.Ring

/-!
# Rows packed into one sequence

A list of rows is stored by concatenating the rows and keeping the offset at
which each of them starts. This file has the offsets (`offsets`), the row that
lies between two neighboring offsets (`extract_flatten_row`) and the run of
rows that lies between any two (`extract_flatten_rows`). Offsets taken relative
to the start of a run are the offsets of that run (`offset_extract`).
-/

set_option autoImplicit false

namespace Foundations

namespace PackedRows

universe u

variable {α : Type u}

/-- The position at which row `i` starts. -/
def offset (rows : List (List α)) (i : ℕ) : ℕ := (rows.take i).flatten.length

/-- The starts of all rows and the end of the last one. -/
def offsets (rows : List (List α)) : List ℕ :=
  (List.range (rows.length + 1)).map (offset rows)

variable (rows : List (List α))

@[simp] theorem offset_length : offset rows rows.length = rows.flatten.length := by simp [offset]

@[simp] theorem length_offsets : (offsets rows).length = rows.length + 1 := by simp [offsets]

theorem offset_succ {i : ℕ} (bound : i < rows.length) :
    offset rows (i + 1) = offset rows i + rows[i].length := by
  simp only [offset, List.take_succ_eq_append_getElem bound, List.flatten_append,
    List.length_append, List.flatten_singleton]

theorem offset_mono {i j : ℕ} (ordered : i ≤ j) : offset rows i ≤ offset rows j := by
  unfold offset
  rw [← Nat.min_eq_left ordered, ← List.take_take]
  have split := List.take_append_drop i (rows.take j)
  have whole := congrArg (fun list => list.flatten.length) split
  simp only [List.flatten_append, List.length_append] at whole
  omega

theorem offset_le (i : ℕ) : offset rows i ≤ rows.flatten.length := by
  rcases Nat.le_total i rows.length with inside | outside
  · exact (offset_mono rows inside).trans (offset_length rows).le
  · simp [offset, List.take_of_length_le outside]

theorem getElem?_offsets {i : ℕ} (bound : i ≤ rows.length) :
    (offsets rows)[i]? = some (offset rows i) := by
  simp only [offsets, List.getElem?_map, List.getElem?_range (Nat.lt_succ_of_le bound),
    Option.map_some]

/-- The rows before `j` are the rows before `i` followed by those from `i` on. -/
theorem flatten_take_eq {i j : ℕ} (ordered : i ≤ j) :
    (rows.take j).flatten = (rows.take i).flatten ++ (rows.extract i j).flatten := by
  rw [List.extract_eq_take_drop, ← List.flatten_append]
  congr 1
  conv_lhs => rw [← Nat.add_sub_cancel' ordered, List.take_add]

/-- The offset of a row in a run of rows is its offset relative to the run. -/
theorem offset_extract {i j k : ℕ} (first : i ≤ k) (last : k ≤ j) :
    offset (rows.extract i j) (k - i) = offset rows k - offset rows i := by
  have whole := congrArg List.length (flatten_take_eq rows first)
  simp only [List.length_append] at whole
  have same : (rows.extract i j).take (k - i) = rows.extract i k := by
    rw [List.extract_eq_take_drop, List.extract_eq_take_drop, List.take_take]
    congr 1
    omega
  simp only [offset, same]
  omega

/-- **Between the offsets of two rows lies the run of rows between them.** -/
theorem extract_flatten_rows {i j : ℕ} (ordered : i ≤ j) :
    rows.flatten.extract (offset rows i) (offset rows j) = (rows.extract i j).flatten := by
  have tail := List.take_append_drop j rows
  have whole : rows.flatten =
      (rows.take i).flatten ++ ((rows.extract i j).flatten ++ (rows.drop j).flatten) := by
    rw [← List.append_assoc, ← flatten_take_eq rows ordered, ← List.flatten_append, tail]
  have width : offset rows j - offset rows i = (rows.extract i j).flatten.length := by
    have split := congrArg List.length (flatten_take_eq rows ordered)
    simp only [List.length_append] at split
    simp only [offset]
    omega
  rw [List.extract_eq_take_drop, width, whole, offset, List.drop_left, List.take_left]

theorem extract_succ {i : ℕ} (bound : i < rows.length) :
    rows.extract i (i + 1) = [rows[i]] := by
  rw [List.extract_eq_take_drop, Nat.add_sub_cancel_left, List.drop_eq_getElem_cons bound]
  rfl

/-- **Between two neighboring offsets lies one row.** -/
theorem extract_flatten_row {i : ℕ} (bound : i < rows.length) :
    rows.flatten.extract (offset rows i) (offset rows (i + 1)) = rows[i] := by
  rw [extract_flatten_rows rows (Nat.le_succ i), extract_succ rows bound]
  simp

/-- Reading all positions of a list in order gives the list. -/
theorem filterMap_range_getElem? (xs : List α) :
    (List.range xs.length).filterMap (fun i => xs[i]?) = xs := by
  induction xs using List.reverseRecOn with
  | nil => rfl
  | append_singleton xs x ih =>
      have before : ∀ i ∈ List.range xs.length, (xs ++ [x])[i]? = xs[i]? := fun i member =>
        List.getElem?_append_left (List.mem_range.mp member)
      rw [List.length_append, List.length_singleton, List.range_succ, List.filterMap_append,
        List.filterMap_congr before, ih]
      simp

/-- Rows of the same lengths have the same offsets. -/
theorem offset_map {β : Type*} (f : α → β) (i : ℕ) :
    offset (rows.map (List.map f)) i = offset rows i := by
  simp only [offset, ← List.map_take, ← List.map_flatten, List.length_map]

theorem offsets_map {β : Type*} (f : α → β) : offsets (rows.map (List.map f)) = offsets rows := by
  simp only [offsets, List.length_map]
  exact List.map_congr_left fun i _ => offset_map rows f i

end PackedRows

end Foundations
