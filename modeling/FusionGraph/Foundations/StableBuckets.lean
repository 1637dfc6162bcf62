import FusionGraph.Foundations.PackedRows
import Mathlib.Data.List.Sort

/-!
# Buckets of a list under a numeric key

The bucket of a key collects the entries with that key, in list order. Sorting
by the key keeps every bucket as it is, because the sort is stable
(`bucket_insertionSort`). A sorted list is the concatenation of its buckets
(`flatten_buckets`), so it is stored as packed rows: the start of a row is the
number of entries with a smaller key (`offset_buckets`), and an entry stands
behind that start by the number of earlier entries with its own key
(`position_of_sorted`). The last fact is why a counting pass with one cursor
for each row leaves a sorted list in place.
-/

set_option autoImplicit false

namespace Foundations

namespace StableBuckets

open PackedRows

universe u

variable {α : Type u} (key : α → ℕ)

/-- The entries with the given key. -/
def bucket (xs : List α) (k : ℕ) : List α := xs.filter fun x => decide (key x = k)

/-- The buckets of the keys below `n`. -/
def buckets (n : ℕ) (xs : List α) : List (List α) := (List.range n).map (bucket key xs)

/-- The entries in the order of their keys. -/
abbrev SortedByKey (xs : List α) : Prop := xs.Pairwise fun a b => key a ≤ key b

/-- The stable sort by the key. -/
def sortByKey (xs : List α) : List α := xs.insertionSort fun a b => key a ≤ key b

@[simp] theorem length_buckets (n : ℕ) (xs : List α) : (buckets key n xs).length = n := by
  simp [buckets]

theorem getElem?_buckets {n k : ℕ} (xs : List α) (bound : k < n) :
    (buckets key n xs)[k]? = some (bucket key xs k) := by
  simp [buckets, bound]

theorem bucket_append (xs ys : List α) (k : ℕ) :
    bucket key (xs ++ ys) k = bucket key xs k ++ bucket key ys k :=
  List.filter_append xs ys

theorem mem_bucket {xs : List α} {k : ℕ} {x : α} : x ∈ bucket key xs k ↔ x ∈ xs ∧ key x = k := by
  simp [bucket]

theorem buckets_succ (n : ℕ) (xs : List α) :
    buckets key (n + 1) xs = buckets key n xs ++ [bucket key xs n] := by
  simp [buckets, List.range_succ]

theorem take_buckets {k n : ℕ} (xs : List α) (ordered : k ≤ n) :
    (buckets key n xs).take k = buckets key k xs := by
  simp only [buckets, ← List.map_take, List.take_range, Nat.min_eq_left ordered]

/-! ## Sorting -/

theorem sortByKey_perm (xs : List α) : (sortByKey key xs).Perm xs :=
  List.perm_insertionSort _ xs

theorem sortByKey_sorted (xs : List α) : SortedByKey key (sortByKey key xs) := by
  have total : Std.Total fun a b : α => key a ≤ key b := ⟨fun a b => Nat.le_total (key a) (key b)⟩
  have transitive : IsTrans α fun a b : α => key a ≤ key b := ⟨fun _ _ _ => Nat.le_trans⟩
  exact List.pairwise_insertionSort _ xs

/-- **Sorting by the key keeps every bucket in its order.** -/
theorem bucket_sortByKey (xs : List α) (k : ℕ) :
    bucket key (sortByKey key xs) k = bucket key xs k := by
  have total : Std.Total fun a b : α => key a ≤ key b := ⟨fun a b => Nat.le_total (key a) (key b)⟩
  have transitive : IsTrans α fun a b : α => key a ≤ key b := ⟨fun _ _ _ => Nat.le_trans⟩
  have equalKeys : (bucket key xs k).Pairwise fun a b => key a ≤ key b :=
    List.pairwise_of_forall_mem_list fun a inA b inB =>
      (((mem_bucket key).mp inA).2.trans ((mem_bucket key).mp inB).2.symm).le
  have kept : (bucket key xs k).Sublist (sortByKey key xs) :=
    List.sublist_insertionSort equalKeys List.filter_sublist
  have inside := kept.filter fun x => decide (key x = k)
  have whole : (bucket key xs k).filter (fun x => decide (key x = k)) = bucket key xs k := by
    simp [bucket]
  rw [whole] at inside
  exact (inside.eq_of_length ((sortByKey_perm key xs).filter _).length_eq.symm).symm

/-! ## A sorted list is the concatenation of its buckets -/

/-- In a sorted list the entries with small keys come first. -/
theorem filter_lt_append_filter_ge {xs : List α} (sorted : SortedByKey key xs) (k : ℕ) :
    xs.filter (fun x => decide (key x < k)) ++ xs.filter (fun x => decide (k ≤ key x)) = xs := by
  induction xs with
  | nil => rfl
  | cons x rest ih =>
      rw [SortedByKey, List.pairwise_cons] at sorted
      by_cases small : key x < k
      · have notLarge : ¬ k ≤ key x := by omega
        simp [small, notLarge, ih sorted.2]
      · have large : k ≤ key x := by omega
        have noneSmall : rest.filter (fun y => decide (key y < k)) = [] :=
          List.filter_eq_nil_iff.mpr fun y member => by
            have above := sorted.1 y member
            simp only [decide_eq_true_eq]
            omega
        have allLarge : rest.filter (fun y => decide (k ≤ key y)) = rest :=
          List.filter_eq_self.mpr fun y member => by
            have above := sorted.1 y member
            simp only [decide_eq_true_eq]
            omega
        simp [small, large, noneSmall, allLarge]

/-- The buckets below `n` hold the entries with keys below `n`, in key order. -/
theorem flatten_buckets_eq_filter {xs : List α} (sorted : SortedByKey key xs) (n : ℕ) :
    (buckets key n xs).flatten = xs.filter fun x => decide (key x < n) := by
  induction n with
  | zero => simp [buckets]
  | succ n ih =>
      rw [buckets_succ, List.flatten_append, List.flatten_singleton, ih]
      have split := filter_lt_append_filter_ge key
        (List.Pairwise.filter (fun x => decide (key x < n + 1)) sorted) n
      rw [← split, List.filter_filter, List.filter_filter, bucket]
      congr 1
      · refine List.filter_congr fun x _ => ?_
        rw [← Bool.decide_and, decide_eq_decide]
        omega
      · refine List.filter_congr fun x _ => ?_
        rw [← Bool.decide_and, decide_eq_decide]
        omega

/-- **A sorted list is the concatenation of its buckets.** -/
theorem flatten_buckets {xs : List α} {n : ℕ} (sorted : SortedByKey key xs)
    (bound : ∀ x ∈ xs, key x < n) : (buckets key n xs).flatten = xs := by
  rw [flatten_buckets_eq_filter key sorted]
  exact List.filter_eq_self.mpr fun x member => decide_eq_true (bound x member)

/-- The buckets hold exactly the entries of the list. -/
theorem flatten_buckets_perm {xs : List α} {n : ℕ} (bound : ∀ x ∈ xs, key x < n) :
    (buckets key n xs).flatten.Perm xs := by
  have sorted : buckets key n xs = buckets key n (sortByKey key xs) :=
    List.map_congr_left fun k _ => (bucket_sortByKey key xs k).symm
  rw [sorted, flatten_buckets key (sortByKey_sorted key xs) fun x member =>
    bound x ((sortByKey_perm key xs).mem_iff.mp member)]
  exact sortByKey_perm key xs

/-- Lists with the same buckets have the same entries. -/
theorem perm_of_bucket_eq {xs ys : List α} (same : ∀ k, bucket key xs k = bucket key ys k) :
    xs.Perm ys := by
  classical
  refine List.perm_iff_count.mpr fun x => ?_
  have own : ∀ zs : List α, (bucket key zs (key x)).count x = zs.count x := fun zs =>
    List.count_filter (decide_eq_true rfl)
  rw [← own xs, ← own ys, same]

/-- A row starts behind the entries with smaller keys. -/
theorem offset_buckets {xs : List α} {k n : ℕ} (sorted : SortedByKey key xs) (ordered : k ≤ n) :
    offset (buckets key n xs) k = xs.countP fun x => decide (key x < k) := by
  rw [offset, take_buckets key xs ordered, flatten_buckets_eq_filter key sorted,
    List.countP_eq_length_filter]

/-- **An entry of a sorted list stands behind the start of its row by the number
of earlier entries with the same key.** -/
theorem position_of_sorted {done rest : List α} {x : α}
    (sorted : SortedByKey key (done ++ x :: rest)) :
    (done ++ x :: rest).countP (fun y => decide (key y < key x)) +
      done.countP (fun y => decide (key y = key x)) = done.length := by
  rw [SortedByKey, List.pairwise_append, List.pairwise_cons] at sorted
  obtain ⟨-, ⟨after, -⟩, before⟩ := sorted
  have noneAfter : (x :: rest).countP (fun y => decide (key y < key x)) = 0 := by
    refine List.countP_eq_zero.mpr fun y member => ?_
    rcases List.mem_cons.mp member with rfl | later
    · simp
    · have above := after y later
      simp only [decide_eq_true_eq]
      omega
  have split : done.length = done.countP (fun y => decide (key y < key x)) +
      done.countP (fun y => decide ¬decide (key y < key x) = true) :=
    List.length_eq_countP_add_countP _
  have equal : done.countP (fun y => decide ¬decide (key y < key x) = true) =
      done.countP (fun y => decide (key y = key x)) := by
    refine List.countP_congr fun y member => ?_
    have below := before y member x List.mem_cons_self
    simp only [decide_eq_true_eq]
    omega
  rw [List.countP_append, noneAfter]
  omega

/-! ## Rows read back as keyed entries -/

section Numbered

variable {α : Type u}

/-- The entries of all rows, each with the number of its row. -/
def numbered : ℕ → List (List α) → List (ℕ × α)
  | _, [] => []
  | first, row :: rows => row.map (Prod.mk first) ++ numbered (first + 1) rows

theorem numbered_append (first : ℕ) (upper lower : List (List α)) :
    numbered first (upper ++ lower) = numbered first upper ++ numbered (first + upper.length) lower := by
  induction upper generalizing first with
  | nil => rfl
  | cons row upper ih =>
      rw [List.cons_append, numbered, ih, numbered, List.append_assoc, List.length_cons]
      congr 3
      omega

theorem map_snd_numbered (first : ℕ) (rows : List (List α)) :
    (numbered first rows).map Prod.snd = rows.flatten := by
  induction rows generalizing first with
  | nil => rfl
  | cons row rows ih => simp [numbered, ih, Function.comp_def]

theorem numbered_eq_flatMap (first : ℕ) (rows : List (List α)) :
    numbered first rows = (List.range rows.length).flatMap fun i =>
      (rows[i]?.getD []).map (Prod.mk (first + i)) := by
  induction rows generalizing first with
  | nil => rfl
  | cons row rows ih =>
      rw [numbered, ih, List.length_cons, List.range_succ_eq_map, List.flatMap_cons, List.flatMap_map]
      congr 1
      refine List.flatMap_congr fun i _ => ?_
      rw [List.getElem?_cons_succ, Nat.add_right_comm, Nat.add_assoc]

theorem bucket_map_mk (row : List α) (i k : ℕ) :
    bucket Prod.fst (row.map (Prod.mk i)) k = if i = k then row.map (Prod.mk i) else [] := by
  by_cases same : i = k <;> simp [bucket, List.filter_map, Function.comp_def, same]

theorem bucket_numbered_of_lt {first k : ℕ} (before : k < first) (rows : List (List α)) :
    bucket Prod.fst (numbered first rows) k = [] := by
  induction rows generalizing first with
  | nil => rfl
  | cons row rows ih =>
      rw [numbered, bucket_append, bucket_map_mk, if_neg before.ne', ih (by omega),
        List.append_nil]

/-- **The bucket of a row number is that row.** -/
theorem bucket_numbered (first k : ℕ) (rows : List (List α)) :
    bucket Prod.fst (numbered first rows) (first + k) =
      (rows[k]?.getD []).map (Prod.mk (first + k)) := by
  induction rows generalizing first k with
  | nil => simp [numbered, bucket]
  | cons row rows ih =>
      rw [numbered, bucket_append, bucket_map_mk]
      cases k with
      | zero => simp [bucket_numbered_of_lt (Nat.lt_succ_self first) rows]
      | succ k =>
        rw [if_neg (by omega), List.nil_append, ← Nat.add_assoc, Nat.add_right_comm, ih,
          List.getElem?_cons_succ]

end Numbered

end StableBuckets

end Foundations
