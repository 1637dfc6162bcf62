import FusionGraph.Foundations.FifoSearch

/-!
# Searching a graph that changes

While a search runs, edges come and go. It reads the successors of each node once, at
some time, so an edge that is there all the time is found, and an edge that is found was
there at some time.

`ChangingSearch` keeps the two apart: what the search has found are walks of edges that
some time were there (`sometimes`), and it has found the successors of the processed
entries by edges that always were (`always`). Time only takes from the one and adds to the
other, so waiting keeps it (`ChangingSearch.mono`). At the end every node within the
limit along lasting edges is listed, no deeper than along them
(`ChangingSearch.exists_of_walk`).
-/

set_option autoImplicit false

namespace Foundations

namespace BreadthFirst

universe u

variable {V : Type u}

/-- More edges have more walks. -/
theorem Walk.mono {edge other : V → V → Prop} (more : ∀ v w, edge v w → other v w) {n : ℕ}
    {u v : V} (walk : Walk edge n u v) : Walk other n u v := by
  induction walk with
  | refl v => exact .refl v
  | tail _ last ih => exact ih.tail (more _ _ last)

/-- The order of a search of a changing graph. Only a `whole` search, which no cap has cut
short, has found all that it had to. -/
structure ChangingSearch (always sometimes : V → V → Prop) (start : V → Prop) (limit : ℕ)
    (whole : Prop) (current : ℕ) (done waiting : List (V × ℕ)) : Prop
    extends FifoOrder current done waiting where
  sound : ∀ entry ∈ done ++ waiting,
    entry.2 ≤ limit ∧ entry.2 ∈ walkLengths sometimes start entry.1
  starts : whole → ∀ s, start s → (s, 0) ∈ done ++ waiting
  closed : whole → ∀ entry ∈ done, entry.2 < limit → ∀ w, always entry.1 w →
    ∃ k ≤ entry.2 + 1, (w, k) ∈ done ++ waiting

namespace ChangingSearch

variable {always sometimes lasting seen : V → V → Prop} {start : V → Prop} {limit current : ℕ}
  {whole entire : Prop} {done waiting rest : List (V × ℕ)} {v : V} {k : ℕ}

/-- The starts wait at depth 0. -/
theorem of_starts {starts : List V} (nodup : starts.Nodup) (sound : ∀ s ∈ starts, start s)
    (complete : whole → ∀ s, start s → s ∈ starts) :
    ChangingSearch always sometimes start limit whole 0 [] (starts.map fun s => (s, 0)) where
  toFifoOrder := .of_starts nodup
  sound entry member := by
    obtain ⟨s, inStarts, rfl⟩ := List.mem_map.mp member
    exact ⟨Nat.zero_le limit, s, sound s inStarts, .refl s⟩
  starts all s isStart := List.mem_map.mpr ⟨s, complete all s isStart, rfl⟩
  closed := by simp

/-- Waiting keeps what the search has found. -/
theorem mono (search : ChangingSearch always sometimes start limit whole current done waiting)
    (fewer : ∀ v w, lasting v w → always v w) (more : ∀ v w, sometimes v w → seen v w)
    (cut : entire → whole) :
    ChangingSearch lasting seen start limit entire current done waiting where
  toFifoOrder := search.toFifoOrder
  sound entry member := by
    obtain ⟨room, s, isStart, walk⟩ := search.sound entry member
    exact ⟨room, s, isStart, walk.mono more⟩
  starts all := search.starts (cut all)
  closed all entry member room w lasts := search.closed (cut all) entry member room w (fewer _ _ lasts)

/-- Processing the first waiting entry appends its new successors, one step deeper. At the
depth limit there are none. -/
theorem process
    (search : ChangingSearch always sometimes start limit whole current done ((v, k) :: rest))
    {fresh : List V} (fresh_nodup : fresh.Nodup)
    (fresh_new : ∀ w ∈ fresh, w ∉ (done ++ (v, k) :: rest).map Prod.fst)
    (fresh_edge : ∀ w ∈ fresh, k < limit ∧ sometimes v w)
    (covered : whole → k < limit → ∀ w, always v w →
      w ∈ fresh ∨ w ∈ (done ++ (v, k) :: rest).map Prod.fst) :
    ChangingSearch always sometimes start limit whole k (done ++ [(v, k)])
      (rest ++ fresh.map fun w => (w, k + 1)) := by
  have together : (done ++ [(v, k)]) ++ (rest ++ fresh.map fun w => (w, k + 1)) =
      (done ++ (v, k) :: rest) ++ fresh.map fun w => (w, k + 1) := by simp
  refine ⟨search.toFifoOrder.process fresh_nodup fresh_new, ?_, ?_, ?_⟩
  · rw [together]
    intro entry member
    rcases List.mem_append.mp member with old | new
    · exact search.sound entry old
    · obtain ⟨w, inFresh, rfl⟩ := List.mem_map.mp new
      obtain ⟨room, step⟩ := fresh_edge w inFresh
      obtain ⟨-, s, isStart, walk⟩ := search.sound (v, k) (by simp)
      exact ⟨room, s, isStart, walk.tail step⟩
  · rw [together]
    intro all s isStart
    exact List.mem_append_left _ (search.starts all s isStart)
  · rw [together]
    intro all entry member room w step
    rcases List.mem_append.mp member with before | last
    · obtain ⟨n, small, found⟩ := search.closed all entry before room w step
      exact ⟨n, small, List.mem_append_left _ found⟩
    · obtain rfl := List.mem_singleton.mp last
      rcases covered all room w step with new | old
      · exact ⟨k + 1, Nat.le_refl _, List.mem_append_right _ (List.mem_map.mpr ⟨w, new, rfl⟩)⟩
      · obtain ⟨entry, inOld, rfl⟩ := List.mem_map.mp old
        exact ⟨entry.2, search.le_succ entry inOld, List.mem_append_left _ inOld⟩

/-- **A walk of lasting edges within the limit leads to a processed node, at most as
deep**, when nothing waits. -/
theorem exists_of_walk (search : ChangingSearch always sometimes start limit whole current done [])
    (all : whole) {n : ℕ} {s : V} (isStart : start s) (walk : Walk always n s v)
    (room : n ≤ limit) : ∃ k ≤ n, (v, k) ∈ done := by
  induction walk with
  | refl v => exact ⟨0, Nat.le_refl 0, by simpa using search.starts all _ isStart⟩
  | @tail n s v w before last ih =>
      obtain ⟨k, small, found⟩ := ih isStart (by omega)
      obtain ⟨m, bound, next⟩ := search.closed all (v, k) found (by omega : k < limit) w last
      exact ⟨m, by simp only at bound; omega, by simpa using next⟩

/-- When the graph does not change, the search keeps the invariant of a search of it. -/
theorem toFifoInvariant {edge : V → V → Prop}
    (search : ChangingSearch always sometimes start limit whole current done waiting) (all : whole)
    (stays : ∀ v w, edge v w → always v w) (listed : ∀ v w, sometimes v w → edge v w) :
    FifoInvariant edge start limit current done waiting where
  toFifoOrder := search.toFifoOrder
  sound := (search.mono stays listed id).sound
  starts := search.starts all
  closed := (search.mono stays listed id).closed all

/-- A search finds no more nodes than there are. -/
theorem length_le (search : ChangingSearch always sometimes start limit whole current done waiting)
    {nodes : List V} (starts : ∀ s, start s → s ∈ nodes)
    (targets : ∀ v w, sometimes v w → w ∈ nodes) :
    done.length + waiting.length ≤ nodes.length := by
  refine search.toFifoOrder.length_le ?_
  rintro ⟨v, n⟩ member
  obtain ⟨-, s, isStart, walk⟩ := search.sound (v, n) member
  change Walk sometimes n s v at walk
  cases walk with
  | refl v => exact starts _ isStart
  | tail _ last => exact targets _ _ last

end ChangingSearch

end BreadthFirst

end Foundations
