import Mathlib.Data.List.Nodup

/-!
# Joining two tables on a key

The inner join of two tables has a row for each pair of rows with the same key. A
row whose key is null has no partner. When the keys of the right table are distinct,
the join looks the key of each left row up, and rows that differ on the left or in what
is looked up stay different.
-/

set_option autoImplicit false

namespace Foundations

universe u v w x

variable {Left : Type u} {Right : Type v} {Key : Type w} {Out : Type x} [DecidableEq Key]

/-- The pairs of rows whose keys are equal and not null. -/
def innerJoin (leftKey : Left → Option Key) (rightKey : Right → Option Key) (left : List Left)
    (right : List Right) : List (Left × Right) :=
  left.flatMap fun l =>
    (right.filter fun r => leftKey l ≠ none ∧ rightKey r = leftKey l).map fun r => (l, r)

variable {leftKey : Left → Option Key} {rightKey : Right → Option Key} {left : List Left}
  {right : List Right}

theorem mem_innerJoin {row : Left × Right} :
    row ∈ innerJoin leftKey rightKey left right ↔
      row.1 ∈ left ∧ row.2 ∈ right ∧ ∃ key, leftKey row.1 = some key ∧ rightKey row.2 = some key := by
  obtain ⟨l, r⟩ := row
  simp only [innerJoin, List.mem_flatMap, List.mem_map, List.mem_filter, decide_eq_true_eq,
    Prod.mk.injEq]
  constructor
  · rintro ⟨l, inLeft, r, ⟨inRight, known, same⟩, rfl, rfl⟩
    obtain ⟨key, held⟩ := Option.ne_none_iff_exists'.mp known
    exact ⟨inLeft, inRight, key, held, same.trans held⟩
  · rintro ⟨inLeft, inRight, key, held, same⟩
    refine ⟨l, inLeft, r, ⟨inRight, ?_, same.trans held.symm⟩, rfl, rfl⟩
    rw [held]
    exact Option.some_ne_none key

/-- Rows that occur once are joined once. -/
theorem innerJoin_nodup (leftNodup : left.Nodup) (rightNodup : right.Nodup) :
    (innerJoin leftKey rightKey left right).Nodup := by
  refine List.nodup_flatMap.mpr ⟨fun l _ => ?_, ?_⟩
  · exact (rightNodup.filter _).map fun first second same => (Prod.mk.inj same).2
  · refine leftNodup.imp fun different => ?_
    intro row inFirst inSecond
    obtain ⟨r, -, rfl⟩ := List.mem_map.mp inFirst
    obtain ⟨s, -, same⟩ := List.mem_map.mp inSecond
    exact different (Prod.mk.inj same).1.symm

/-- What is selected from joined rows occurs once when it tells the rows apart. -/
theorem nodup_map_innerJoin (leftNodup : left.Nodup) (rightNodup : right.Nodup)
    {select : Left × Right → Out}
    (apart : ∀ first ∈ innerJoin leftKey rightKey left right,
      ∀ second ∈ innerJoin leftKey rightKey left right, select first = select second →
        first = second) :
    ((innerJoin leftKey rightKey left right).map select).Nodup :=
  (innerJoin_nodup leftNodup rightNodup).map_on fun first inFirst second inSecond same =>
    apart first inFirst second inSecond same

end Foundations
