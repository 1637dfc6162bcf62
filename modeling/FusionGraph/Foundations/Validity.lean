import Mathlib.Data.List.Basic
import Mathlib.Order.Lattice

/-!
# Values with their spans

A log of changes sets a value at some instants and takes it away at others. Stored as
versions, each value comes with the half-open span from its change to the next one. At an
instant the versions whose span holds it are the value of the log there, once
(`filter_versions`).
-/

set_option autoImplicit false

namespace Foundations

universe u v

variable {Time : Type u} {Value : Type v} [LinearOrder Time]

/-- The instants from a first one on, up to but without another one if there is one. -/
structure Span (Time : Type u) where
  start : Time
  stop : Option Time

/-- The instant is in the span. -/
def Span.Holds (self : Span Time) (instant : Time) : Prop :=
  self.start ≤ instant ∧ ∀ stop ∈ self.stop, instant < stop

instance (span : Span Time) (instant : Time) : Decidable (span.Holds instant) :=
  inferInstanceAs (Decidable (_ ∧ _))

/-- What the last change up to an instant has set. -/
def valueAt (log : List (Time × Option Value)) (instant : Time) : Option Value :=
  (log.filter fun change => decide (change.1 ≤ instant)).getLast?.bind Prod.snd

/-- The values of a log, each with the span up to the next change. -/
def versions : List (Time × Option Value) → List (Span Time × Value)
  | [] => []
  | change :: rest =>
    (change.2.toList.map fun value => (⟨change.1, rest.head?.map Prod.fst⟩, value)) ++ versions rest

variable {log : List (Time × Option Value)} {instant : Time}

/-- Before the first change there is no value, and no span holds. -/
theorem filter_versions_of_lt (later : ∀ change ∈ log, instant < change.1) :
    valueAt log instant = none ∧
      (versions log).filter (fun version => decide (version.1.Holds instant)) = [] := by
  induction log with
  | nil => exact ⟨rfl, rfl⟩
  | cons change rest ih =>
      obtain ⟨first, others⟩ := List.forall_mem_cons.mp later
      obtain ⟨value, spans⟩ := ih others
      constructor
      · rw [valueAt, List.filter_cons_of_neg (by simpa using first)]
        exact value
      · rw [versions, List.filter_append, spans, List.append_nil, List.filter_eq_nil_iff]
        intro version member
        obtain ⟨value, -, rfl⟩ := List.mem_map.mp member
        rw [decide_eq_true_iff]
        exact fun holds => absurd first (not_lt_of_ge holds.1)

/-- **At an instant the versions hold the value of the log.** -/
theorem filter_versions (sorted : log.Pairwise fun one other => one.1 ≤ other.1) (instant : Time) :
    ((versions log).filter fun version => decide (version.1.Holds instant)).map Prod.snd =
      (valueAt log instant).toList := by
  induction log with
  | nil => rfl
  | cons change rest ih =>
      obtain ⟨first, others⟩ := List.pairwise_cons.mp sorted
      rw [versions, List.filter_append, List.map_append]
      by_cases early : change.1 ≤ instant
      · by_cases last : ∀ other ∈ rest, instant < other.1
        · -- the change is the last one up to the instant
          obtain ⟨value, spans⟩ := filter_versions_of_lt last
          have unchanged : rest.filter (fun other => decide (other.1 ≤ instant)) = [] := by
            rw [List.filter_eq_nil_iff]
            exact fun other member => by simpa using last other member
          have holds : Span.Holds ⟨change.1, rest.head?.map Prod.fst⟩ instant := by
            refine ⟨early, fun stop next => ?_⟩
            obtain ⟨other, head, rfl⟩ := Option.map_eq_some_iff.mp next
            exact last other (List.mem_of_mem_head? head)
          rw [spans, valueAt, List.filter_cons_of_pos (by simpa using early), unchanged,
            List.map_nil, List.append_nil, List.filter_eq_self.mpr, List.map_map]
          · simp [Function.comp_def]
          · intro version member
            obtain ⟨value, -, rfl⟩ := List.mem_map.mp member
            exact decide_eq_true holds
        · -- a later change comes up to the instant, so the span of this one is past
          push Not at last
          obtain ⟨other, member, past⟩ := last
          obtain ⟨next, tail, rfl⟩ := List.exists_cons_of_ne_nil (List.ne_nil_of_mem member)
          have begun : next.1 ≤ instant := by
            rcases List.mem_cons.mp member with rfl | later
            · exact past
            · exact ((List.pairwise_cons.mp others).1 other later).trans past
          have value : valueAt (change :: next :: tail) instant =
              valueAt (next :: tail) instant := by
            rw [valueAt, valueAt, List.filter_cons_of_pos (by simpa using early),
              List.filter_cons_of_pos (by simpa using begun), List.getLast?_cons_cons]
          rw [value, ← ih others, List.filter_eq_nil_iff.mpr, List.map_nil, List.nil_append]
          intro version inSpan
          obtain ⟨value, -, rfl⟩ := List.mem_map.mp inSpan
          simpa [Span.Holds] using fun _ => begun
      · have later : ∀ other ∈ change :: rest, instant < other.1 := by
          intro other member
          rcases List.mem_cons.mp member with rfl | behind
          · exact lt_of_not_ge early
          · exact (lt_of_not_ge early).trans_le (first other behind)
        obtain ⟨value, spans⟩ := filter_versions_of_lt later
        rw [versions, List.filter_append, List.append_eq_nil_iff] at spans
        rw [value, spans.1, spans.2]
        rfl

end Foundations
