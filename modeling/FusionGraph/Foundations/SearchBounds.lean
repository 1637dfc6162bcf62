import FusionGraph.Foundations.FifoSearch

/-!
# The bounds of a search

Two searches of the same graph that differ in a bound process the same entries
as long as neither is cut off. With a smaller cap on the nodes a search finds a
prefix of what it finds with a larger one (`search_take`), with a smaller depth
limit it finds the entries within that limit (`search_filter`), and more fuel than
there are nodes does not matter (`search_fuel`).
-/

set_option autoImplicit false

namespace Foundations

namespace BreadthFirst

universe u

variable {V : Type u} [DecidableEq V] {successors : V → List V} {limit deep cap more fuel : ℕ}
  {done waiting other later : List (V × ℕ)} {current : ℕ}

/-- What a search finds comes behind the processed entries, and no nearer than
what waits. -/
theorem search_extends (fuel : ℕ) (done waiting : List (V × ℕ)) (successors : V → List V)
    (limit cap : ℕ) :
    ∃ found, search successors limit cap fuel done waiting = done ++ found ∧
      ∀ floor, (∀ entry ∈ waiting, floor ≤ entry.2) → ∀ entry ∈ found, floor ≤ entry.2 := by
  induction fuel generalizing done waiting with
  | zero =>
      refine ⟨[], ?_, by simp⟩
      cases waiting <;> simp [search]
  | succ fuel ih =>
      cases waiting with
      | nil => exact ⟨[], by simp [search], by simp⟩
      | cons entry rest =>
          obtain ⟨v, depth⟩ := entry
          obtain ⟨found, result, above⟩ := ih (done ++ [(v, depth)]) _
          refine ⟨(v, depth) :: found, ?_, ?_⟩
          · rw [search, result, List.append_assoc, List.singleton_append]
          · intro floor low entry member
            have here : floor ≤ depth := low (v, depth) List.mem_cons_self
            rcases List.mem_cons.mp member with rfl | behind
            · exact here
            · refine above floor ?_ entry behind
              intro entry member
              rcases List.mem_append.mp member with inRest | new
              · exact low entry (List.mem_cons_of_mem _ inRest)
              · obtain ⟨w, -, rfl⟩ := List.mem_map.mp new
                exact Nat.le_succ_of_le here

/-- With a cap that is reached, nothing new is found. -/
theorem discovered_of_full {seen : List V} (full : cap ≤ seen.length) (v : V) (depth : ℕ) :
    discovered successors limit cap seen v depth = [] := by
  rw [discovered, Nat.sub_eq_zero_of_le full, List.take_zero, ite_self]

/-- With a smaller cap, a prefix of the new nodes is found. -/
theorem discovered_take (smaller : cap ≤ more) (seen : List V) (v : V) (depth : ℕ) :
    discovered successors limit cap seen v depth =
      (discovered successors limit more seen v depth).take (cap - seen.length) := by
  rw [discovered, discovered]
  split
  · rw [List.take_nil]
  · rw [List.take_take, min_eq_left (Nat.sub_le_sub_right smaller _)]

/-- Processing an entry keeps the list of entries cut off at the cap. -/
theorem cut_discovered (smaller : cap ≤ more) {known whole : List (V × ℕ)}
    (cut : known = whole.take cap) (v : V) (depth : ℕ) :
    known ++ (discovered successors limit cap (known.map Prod.fst) v depth).map
        (fun w => (w, depth + 1)) =
      (whole ++ (discovered successors limit more (whole.map Prod.fst) v depth).map
        fun w => (w, depth + 1)).take cap := by
  by_cases room : whole.length ≤ cap
  · rw [List.take_of_length_le room] at cut
    subst cut
    rw [discovered_take smaller, List.take_append, List.take_of_length_le room, List.length_map,
      List.map_take]
  · have full : cap ≤ (known.map Prod.fst).length := by
      rw [cut, List.length_map, List.length_take]
      omega
    rw [discovered_of_full full, List.map_nil, List.append_nil,
      List.take_append_of_le_length (by omega), cut]

/-- **A smaller cap on the nodes cuts the list of entries off.** -/
theorem search_take (smaller : cap ≤ more)
    (cut : done ++ waiting = (done ++ other).take cap) :
    search successors limit cap fuel done waiting =
      (search successors limit more fuel done other).take cap := by
  have short : done.length ≤ cap := by
    have lengths := congrArg List.length cut
    rw [List.length_append, List.length_take] at lengths
    omega
  induction fuel generalizing done waiting other with
  | zero =>
      have stopped : ∀ entries, search successors limit more 0 done entries = done := by
        intro entries
        cases entries <;> rfl
      rw [stopped, List.take_of_length_le short]
      cases waiting <;> rfl
  | succ fuel ih =>
      cases waiting with
      | nil =>
          obtain ⟨found, result, -⟩ := search_extends (fuel + 1) done other successors limit more
          rw [search]
          -- either the cap is reached, or nothing waits in the other search
          by_cases full : cap ≤ done.length
          · rw [result, List.take_append_of_le_length full, List.take_of_length_le short]
          · cases other with
            | nil => rw [search, List.take_of_length_le short]
            | cons entry rest =>
                have lengths := congrArg List.length cut
                simp only [List.append_nil, List.length_take, List.length_append,
                  List.length_cons] at lengths
                omega
      | cons entry rest =>
          obtain ⟨v, depth⟩ := entry
          have split : (v, depth) :: rest = other.take (cap - done.length) := by
            rw [List.take_append, List.take_of_length_le short] at cut
            exact List.append_cancel_left cut
          cases other with
          | nil =>
              rw [List.take_nil] at split
              cases split
          | cons head others =>
              obtain ⟨room, enough⟩ : ∃ room, cap - done.length = room + 1 := by
                refine Nat.exists_eq_succ_of_ne_zero fun none => ?_
                rw [none, List.take_zero] at split
                cases split
              rw [enough, List.take_succ_cons] at split
              obtain rfl := (List.cons.inj split).1
              rw [search, search]
              refine ih ?_ ?_
              · have next : done ++ (v, depth) :: rest ++ (discovered successors limit cap
                    ((done ++ (v, depth) :: rest).map Prod.fst) v depth).map _ = _ :=
                  cut_discovered smaller cut v depth
                simpa using next
              · rw [List.length_append, List.length_singleton]
                omega

omit [DecidableEq V] in
/-- What is deeper than the limit is dropped. -/
theorem filter_within {found : List (V × ℕ)} (within : ∀ entry ∈ done, entry.2 ≤ limit)
    (beyond : ∀ entry ∈ found, limit < entry.2) :
    (done ++ found).filter (fun entry => decide (entry.2 ≤ limit)) = done := by
  have kept : done.filter (fun entry => decide (entry.2 ≤ limit)) = done :=
    List.filter_eq_self.mpr fun entry member => decide_eq_true (within entry member)
  have dropped : found.filter (fun entry => decide (entry.2 ≤ limit)) = [] := by
    refine List.filter_eq_nil_iff.mpr ?_
    intro entry member low
    exact Nat.not_le_of_lt (beyond entry member) (of_decide_eq_true low)
  rw [List.filter_append, kept, dropped, List.append_nil]

/-- **A smaller depth limit drops the entries beyond it.** The deeper search has
further entries behind the same waiting ones, and only once the limit is reached. -/
theorem search_filter (smaller : limit ≤ deep) (order : FifoOrder current done waiting)
    (within : ∀ entry ∈ done ++ waiting, entry.2 ≤ limit)
    (beyond : ∀ entry ∈ later, limit < entry.2)
    (ready : later = [] ∨ ∀ entry ∈ waiting, limit ≤ entry.2) :
    search successors limit cap fuel done waiting =
      (search successors deep cap fuel done (waiting ++ later)).filter
        fun entry => decide (entry.2 ≤ limit) := by
  induction fuel generalizing current done waiting later with
  | zero =>
      have stopped : ∀ limit entries, search successors limit cap 0 done entries = done := by
        intro limit entries
        cases entries <;> rfl
      have same := filter_within (fun entry member => within entry (List.mem_append_left _ member))
        fun entry (member : entry ∈ []) => absurd member List.not_mem_nil
      rw [List.append_nil] at same
      rw [stopped, stopped, same]
  | succ fuel ih =>
      cases waiting with
      | nil =>
          obtain ⟨found, result, above⟩ := search_extends (fuel + 1) done later successors deep cap
          rw [search, List.nil_append, result]
          refine (filter_within ?_ ?_).symm
          · intro entry member
            exact within entry (List.mem_append_left _ member)
          · intro entry member
            exact above (limit + 1) beyond entry member
      | cons entry rest =>
          obtain ⟨v, depth⟩ := entry
          have near : depth ≤ limit := within (v, depth) (by simp)
          have next : FifoOrder depth (done ++ [(v, depth)])
              (rest ++ (discovered successors limit cap ((done ++ (v, depth) :: rest).map Prod.fst)
                v depth).map fun w => (w, depth + 1)) := order.discover
          have old : ∀ entry ∈ done ++ [(v, depth)] ++ rest, entry.2 ≤ limit := by
            intro entry member
            exact within entry (by simpa using member)
          rw [search, List.cons_append, search]
          by_cases reached : limit ≤ depth
          · -- nothing is found any more, while the deeper search goes on behind
            have nothing : discovered successors limit cap
                ((done ++ (v, depth) :: rest).map Prod.fst) v depth = [] := by
              rw [discovered, if_pos reached]
            rw [nothing, List.map_nil, List.append_nil] at next ⊢
            rw [List.append_assoc]
            refine ih next old ?_ (.inr ?_)
            · intro entry member
              rcases List.mem_append.mp member with before | new
              · exact beyond entry before
              · obtain ⟨w, -, rfl⟩ := List.mem_map.mp new
                exact Nat.lt_succ_of_le reached
            · intro entry member
              exact reached.trans (order.rest_near entry member).1
          · have none : later = [] := by
              rcases ready with none | high
              · exact none
              · exact absurd (high (v, depth) List.mem_cons_self) reached
            have high : ¬ deep ≤ depth := by omega
            have same : discovered successors deep cap
                ((done ++ (v, depth) :: rest).map Prod.fst) v depth =
              discovered successors limit cap
                ((done ++ (v, depth) :: rest).map Prod.fst) v depth := by
              rw [discovered, discovered, if_neg high, if_neg reached]
            rw [none, List.append_nil, same]
            have kept := ih next ?_ (fun entry (member : entry ∈ []) => absurd member
              List.not_mem_nil) (.inl rfl)
            · rwa [List.append_nil] at kept
            · intro entry member
              rw [← List.append_assoc] at member
              rcases List.mem_append.mp member with before | new
              · exact old entry before
              · obtain ⟨w, -, rfl⟩ := List.mem_map.mp new
                exact Nat.lt_of_not_le reached

/-- **More fuel than there are nodes changes nothing.** -/
theorem search_fuel {nodes : List V} (closed : ∀ v ∈ nodes, ∀ w ∈ successors v, w ∈ nodes)
    (order : FifoOrder current done waiting) (inside : ∀ entry ∈ done ++ waiting, entry.1 ∈ nodes)
    (enough : nodes.length ≤ fuel + done.length) (extra : ℕ) :
    search successors limit cap (fuel + extra) done waiting =
      search successors limit cap fuel done waiting := by
  induction fuel generalizing current done waiting with
  | zero =>
      have bound := order.length_le inside
      obtain rfl : waiting = [] := List.length_eq_zero_iff.mp (by omega)
      cases extra <;> rfl
  | succ fuel ih =>
      cases waiting with
      | nil =>
          rw [Nat.succ_add]
          rfl
      | cons entry rest =>
          obtain ⟨v, depth⟩ := entry
          rw [Nat.succ_add, search, search]
          refine ih order.discover (discover_inside closed inside) ?_
          rw [List.length_append, List.length_singleton]
          omega

end BreadthFirst

end Foundations
