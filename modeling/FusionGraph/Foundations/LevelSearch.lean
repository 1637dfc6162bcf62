import FusionGraph.Foundations.FifoSearch

/-!
# Searching level by level

A search can also keep the nodes of one distance as a frontier and find those of
the next distance all at once, in any order. `LevelInvariant` says that the
frontier is the nodes of the current distance and the log is the nodes of the
smaller ones. The new successors of a frontier are the next frontier
(`LevelInvariant.step`), and a search that stops at the depth limit or at an empty
frontier has the log of a search in the order of discovery
(`LevelInvariant.finish`).
-/

set_option autoImplicit false

namespace Foundations

namespace BreadthFirst

universe u

variable {V : Type u}

/-- The log after the frontier of the given depth has been recorded. -/
def recordLevel (done : List (V × ℕ)) (frontier : List V) (depth : ℕ) : List (V × ℕ) :=
  done ++ frontier.map fun v => (v, depth)

theorem map_fst_recordLevel (done : List (V × ℕ)) (frontier : List V) (depth : ℕ) :
    (recordLevel done frontier depth).map Prod.fst = done.map Prod.fst ++ frontier := by
  simp [recordLevel, Function.comp_def]

/-- The frontier holds the nodes of one distance, the log those of the smaller ones. -/
structure LevelInvariant (edge : V → V → Prop) (start : V → Prop) (depth : ℕ)
    (done : List (V × ℕ)) (frontier : List V) : Prop where
  frontier_nodup : frontier.Nodup
  mem_frontier : ∀ v, v ∈ frontier ↔ IsDistance edge start v depth
  mem_done : ∀ v k, (v, k) ∈ done ↔ k < depth ∧ IsDistance edge start v k
  nodup : (done.map Prod.fst).Nodup
  sorted : (done.map Prod.snd).Pairwise (· ≤ ·)

namespace LevelInvariant

variable {edge : V → V → Prop} {start : V → Prop} {depth : ℕ} {done : List (V × ℕ)}
  {frontier : List V}

/-- The starts are the frontier of depth 0. -/
theorem of_starts {starts : List V} (nodup : starts.Nodup) (exact : ∀ s, s ∈ starts ↔ start s) :
    LevelInvariant edge start 0 [] starts where
  frontier_nodup := nodup
  mem_frontier v := by rw [exact, isDistance_zero_iff]
  mem_done := by simp
  nodup := List.nodup_nil
  sorted := List.Pairwise.nil

theorem mem_recordLevel (invariant : LevelInvariant edge start depth done frontier) (v : V)
    (k : ℕ) : (v, k) ∈ recordLevel done frontier depth ↔ k ≤ depth ∧ IsDistance edge start v k := by
  rw [recordLevel, List.mem_append, invariant.mem_done, List.mem_map]
  constructor
  · rintro (⟨small, distance⟩ | ⟨w, inFrontier, same⟩)
    · exact ⟨small.le, distance⟩
    · obtain ⟨rfl, rfl⟩ := Prod.mk.inj same
      exact ⟨Nat.le_refl _, (invariant.mem_frontier w).mp inFrontier⟩
  · rintro ⟨bound, distance⟩
    rcases Nat.lt_or_eq_of_le bound with small | rfl
    · exact .inl ⟨small, distance⟩
    · exact .inr ⟨v, (invariant.mem_frontier v).mpr distance, rfl⟩

theorem recordLevel_nodup (invariant : LevelInvariant edge start depth done frontier) :
    ((recordLevel done frontier depth).map Prod.fst).Nodup := by
  rw [map_fst_recordLevel, List.nodup_append]
  refine ⟨invariant.nodup, invariant.frontier_nodup, ?_⟩
  rintro old inDone _ inFrontier rfl
  obtain ⟨⟨v, k⟩, member, rfl⟩ := List.mem_map.mp inDone
  obtain ⟨small, distance⟩ := (invariant.mem_done _ k).mp member
  have same := distance.unique ((invariant.mem_frontier v).mp inFrontier)
  omega

theorem recordLevel_sorted (invariant : LevelInvariant edge start depth done frontier) :
    ((recordLevel done frontier depth).map Prod.snd).Pairwise (· ≤ ·) := by
  rw [recordLevel, List.map_append, List.map_map, List.pairwise_append]
  refine ⟨invariant.sorted, ?_, ?_⟩
  · exact List.pairwise_map.mpr (List.pairwise_of_forall fun _ _ => Nat.le_refl depth)
  · rintro old inDone new inFrontier
    obtain ⟨⟨v, k⟩, member, rfl⟩ := List.mem_map.mp inDone
    obtain ⟨w, -, rfl⟩ := List.mem_map.mp inFrontier
    exact ((invariant.mem_done v k).mp member).1.le

/-- **The new successors of the frontier are the next frontier.** -/
theorem step (invariant : LevelInvariant edge start depth done frontier) {next : List V}
    (nodup : next.Nodup)
    (exact : ∀ w, w ∈ next ↔ (∃ v ∈ frontier, edge v w) ∧
      w ∉ (recordLevel done frontier depth).map Prod.fst) :
    LevelInvariant edge start (depth + 1) (recordLevel done frontier depth) next where
  frontier_nodup := nodup
  mem_frontier w := by
    have unseen : w ∉ (recordLevel done frontier depth).map Prod.fst ↔
        ∀ k ≤ depth, ¬ IsDistance edge start w k := by
      rw [List.mem_map]
      constructor
      · intro absent k bound distance
        exact absent ⟨(w, k), (invariant.mem_recordLevel w k).mpr ⟨bound, distance⟩, rfl⟩
      · rintro far ⟨⟨v, k⟩, member, rfl⟩
        obtain ⟨bound, distance⟩ := (invariant.mem_recordLevel v k).mp member
        exact far k bound distance
    rw [exact, unseen, isDistance_succ_iff]
    simp only [invariant.mem_frontier]
  mem_done v k := by rw [invariant.mem_recordLevel, Nat.lt_succ_iff]
  nodup := invariant.recordLevel_nodup
  sorted := invariant.recordLevel_sorted

/-- Beyond an empty distance there are no nodes. -/
theorem not_isDistance_of_empty (empty : ∀ v, ¬ IsDistance edge start v depth) :
    ∀ (more : ℕ) (v : V), ¬ IsDistance edge start v (depth + more) := by
  intro more
  induction more with
  | zero => exact empty
  | succ more ih =>
      intro v distance
      obtain ⟨⟨u, before, -⟩, -⟩ := isDistance_succ_iff.mp distance
      exact ih u before

/-- **A search that stops at the limit, or because there is no next frontier, has
found what a search in the order of discovery finds.** -/
theorem finish (invariant : LevelInvariant edge start depth done frontier) {limit : ℕ}
    (within : depth ≤ limit) (nonempty : frontier ≠ [])
    (stops : limit ≤ depth ∨ ∀ w, ¬ IsDistance edge start w (depth + 1)) :
    FifoInvariant edge start limit depth (recordLevel done frontier depth) [] := by
  have exact : ∀ v k, (v, k) ∈ recordLevel done frontier depth ++ [] ↔
      k ≤ limit ∧ IsDistance edge start v k := fun v k => by
    rw [List.append_nil, invariant.mem_recordLevel]
    refine ⟨fun ⟨bound, distance⟩ => ⟨bound.trans within, distance⟩, fun ⟨bound, distance⟩ =>
      ⟨?_, distance⟩⟩
    rcases stops with reached | none
    · exact bound.trans reached
    · by_contra deep
      obtain ⟨more, rfl⟩ : ∃ more, k = depth + 1 + more := ⟨k - (depth + 1), by omega⟩
      exact not_isDistance_of_empty none more v distance
  refine ⟨⟨?_, ?_, ?_, ?_, by simp⟩, ?_, ?_, ?_⟩
  · rw [List.append_nil]
    exact invariant.recordLevel_nodup
  · rw [List.append_nil]
    exact invariant.recordLevel_sorted
  · obtain ⟨before, v, rfl⟩ := List.eq_nil_or_concat frontier |>.resolve_left nonempty
    simp [recordLevel]
  · rintro ⟨v, k⟩ member
    exact ((invariant.mem_recordLevel v k).mp member).1
  · rintro ⟨v, k⟩ member
    obtain ⟨bound, distance⟩ := (exact v k).mp member
    exact ⟨bound, distance.1⟩
  · exact fun s isStart => (exact s 0).mpr ⟨Nat.zero_le limit, isDistance_zero_iff.mpr isStart⟩
  · rintro ⟨v, k⟩ member room w step
    obtain ⟨-, distance⟩ := (invariant.mem_recordLevel v k).mp member
    obtain ⟨n, bound, next⟩ := distance.exists_le_succ step
    simp only at room bound ⊢
    exact ⟨n, bound, (exact w n).mpr ⟨by omega, next⟩⟩

end LevelInvariant

end BreadthFirst

end Foundations
