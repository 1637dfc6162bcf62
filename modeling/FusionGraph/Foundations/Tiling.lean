import Mathlib.Data.List.Basic
import Mathlib.Order.Basic
import Mathlib.Data.Nat.Basic

/-!
# Intervals that tile a range

Half-open intervals of natural numbers that follow one another without a gap tile
the range from the start of the first to the end of the last (`Tiles`). They lie in
the range (`Tiles.bounds`), and no number lies in two of them (`Tiles.index_unique`).
-/

set_option autoImplicit false

namespace Foundations

/-- Non-empty half-open intervals that follow one another from `start` up to `stop`. -/
inductive Tiles : ℕ → List (ℕ × ℕ) → ℕ → Prop where
  | nil (start : ℕ) : Tiles start [] start
  | cons {start next stop : ℕ} {rest : List (ℕ × ℕ)} (nonempty : start < next)
      (tail : Tiles next rest stop) : Tiles start ((start, next) :: rest) stop

namespace Tiles

variable {start stop number : ℕ} {blocks : List (ℕ × ℕ)}

theorem le (tiles : Tiles start blocks stop) : start ≤ stop := by
  induction tiles with
  | nil start => exact Nat.le_refl start
  | cons nonempty _ ih => exact nonempty.le.trans ih

/-- Every interval lies in the range. -/
theorem bounds (tiles : Tiles start blocks stop) {block : ℕ × ℕ} (member : block ∈ blocks) :
    start ≤ block.1 ∧ block.1 < block.2 ∧ block.2 ≤ stop := by
  induction tiles with
  | nil start => exact absurd member List.not_mem_nil
  | cons nonempty tail ih =>
      rcases List.mem_cons.mp member with rfl | later
      · exact ⟨Nat.le_refl _, nonempty, tail.le⟩
      · obtain ⟨above, proper, below⟩ := ih later
        exact ⟨nonempty.le.trans above, proper, below⟩

/-- No number lies in two intervals. -/
theorem index_unique (tiles : Tiles start blocks stop) {i j : ℕ} {block other : ℕ × ℕ}
    (first : blocks[i]? = some block) (second : blocks[j]? = some other)
    (inFirst : block.1 ≤ number ∧ number < block.2)
    (inSecond : other.1 ≤ number ∧ number < other.2) : i = j := by
  induction tiles generalizing i j with
  | nil start => cases first
  | @cons origin next stop rest nonempty tail ih =>
      -- an interval behind the first one starts at its end or later
      have later : ∀ {k : ℕ} {found : ℕ × ℕ}, rest[k]? = some found → next ≤ found.1 :=
        fun found => (tail.bounds (List.mem_of_getElem? found)).1
      cases i with
      | zero =>
        cases j with
        | zero => rfl
        | succ j =>
          cases first
          exact absurd (inFirst.2.trans_le (later second)) inSecond.1.not_gt
      | succ i =>
        cases j with
        | zero =>
          cases second
          exact absurd (inSecond.2.trans_le (later first)) inFirst.1.not_gt
        | succ j => exact congrArg Nat.succ (ih first second)

end Tiles

end Foundations
