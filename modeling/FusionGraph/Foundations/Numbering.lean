import Mathlib.Data.List.Basic
import Mathlib.Data.List.Induction
import Mathlib.Data.List.Nodup
import Mathlib.Logic.Function.Basic

/-!
# Keys numbered in the order of their first occurrence

A numbering is a map from keys to numbers and a list of keys that are inverse to
each other. A key that has no number yet gets the next one, and all others keep
theirs (`Numbers.push`). Numbering the keys of a list one after another lists
each key once, at its first occurrence (`List.eraseDups`).
-/

set_option autoImplicit false

namespace Foundations

universe u

variable {α : Type u}

/-- A key has a number exactly when the list has the key at that position. -/
def Numbers (idOf : α → Option ℕ) (keys : List α) : Prop :=
  ∀ key id, idOf key = some id ↔ keys[id]? = some key

namespace Numbers

variable {idOf : α → Option ℕ} {keys : List α}

theorem nil : Numbers (fun _ : α => none) [] := fun key id => by simp

/-- The keys that have a number are the keys of the list. -/
theorem isSome_iff (numbers : Numbers idOf keys) (key : α) : (idOf key).isSome ↔ key ∈ keys := by
  rw [Option.isSome_iff_exists, List.mem_iff_getElem?]
  exact exists_congr fun id => numbers key id

theorem eq_none_iff (numbers : Numbers idOf keys) (key : α) : idOf key = none ↔ key ∉ keys := by
  rw [← numbers.isSome_iff key, Option.not_isSome_iff_eq_none]

/-- No key is listed twice. -/
theorem nodup (numbers : Numbers idOf keys) : keys.Nodup := by
  rw [List.nodup_iff_getElem?_ne_getElem?]
  intro i j earlier inside same
  obtain ⟨key, held⟩ : ∃ key, keys[j]? = some key := ⟨_, List.getElem?_eq_getElem inside⟩
  have first := (numbers key i).mpr (same.trans held)
  have second := (numbers key j).mpr held
  have equal : i = j := Option.some.inj (first.symm.trans second)
  omega

/-- A new key gets the next number. -/
theorem push [DecidableEq α] (numbers : Numbers idOf keys) {key : α} (fresh : key ∉ keys) :
    Numbers (Function.update idOf key (some keys.length)) (keys ++ [key]) := by
  intro other id
  by_cases same : other = key
  · subst same
    rw [Function.update_self, Option.some.injEq]
    constructor
    · rintro rfl
      exact List.getElem?_concat_length
    · intro held
      rcases Nat.lt_or_ge id keys.length with inside | outside
      · rw [List.getElem?_append_left inside] at held
        exact absurd (List.mem_of_getElem? held) fresh
      · rw [List.getElem?_append_right outside] at held
        have last := (List.getElem?_eq_some_iff.mp held).1
        simp only [List.length_singleton] at last
        omega
  · rw [Function.update_of_ne same, numbers]
    rcases Nat.lt_or_ge id keys.length with inside | outside
    · rw [List.getElem?_append_left inside]
    · rw [List.getElem?_append_right outside, List.getElem?_eq_none outside]
      constructor
      · intro held
        cases held
      · intro held
        exact absurd (List.mem_singleton.mp (List.mem_of_getElem? held)) same

end Numbers

/-! ## First occurrences -/

variable [BEq α] [LawfulBEq α]

/-- One more key is listed when it is new. -/
theorem eraseDups_concat (xs : List α) (x : α) :
    (xs ++ [x]).eraseDups = if x ∈ xs then xs.eraseDups else xs.eraseDups ++ [x] := by
  rw [List.eraseDups_append]
  by_cases seen : x ∈ xs
  · simp [List.removeAll, seen]
  · simp [List.removeAll, seen, List.eraseDups_cons]

/-- A key keeps its position when more keys are listed. -/
theorem idxOf_eraseDups_append {xs : List α} {x : α} (seen : x ∈ xs) (ys : List α) :
    (xs ++ ys).eraseDups.idxOf x = xs.eraseDups.idxOf x := by
  rw [List.eraseDups_append, List.idxOf_append_of_mem (List.mem_eraseDups.mpr seen)]

/-- **Keys are listed in the order of their first occurrences.** -/
theorem pairwise_eraseDups (xs : List α) :
    xs.eraseDups.Pairwise fun a b => xs.idxOf a < xs.idxOf b := by
  induction xs using List.reverseRecOn with
  | nil => exact .nil
  | append_singleton xs x ih =>
    have earlier : xs.eraseDups.Pairwise fun a b => (xs ++ [x]).idxOf a < (xs ++ [x]).idxOf b :=
      ih.imp_of_mem fun inA inB ordered => by
        rwa [List.idxOf_append_of_mem (List.mem_eraseDups.mp inA),
          List.idxOf_append_of_mem (List.mem_eraseDups.mp inB)]
    rw [eraseDups_concat]
    by_cases seen : x ∈ xs
    · rwa [if_pos seen]
    · rw [if_neg seen, List.pairwise_append]
      refine ⟨earlier, List.pairwise_singleton _ x, fun a inA b last => ?_⟩
      obtain rfl := List.mem_singleton.mp last
      rw [List.idxOf_append_of_mem (List.mem_eraseDups.mp inA), List.idxOf_append_of_notMem seen]
      exact Nat.lt_of_lt_of_le (List.idxOf_lt_length_of_mem (List.mem_eraseDups.mp inA))
        (Nat.le_add_right _ _)

/-- Of two keys, the one that occurs first is listed first. -/
theorem idxOf_eraseDups_lt_iff {xs : List α} {a b : α} (inA : a ∈ xs) (inB : b ∈ xs) :
    xs.eraseDups.idxOf a < xs.eraseDups.idxOf b ↔ xs.idxOf a < xs.idxOf b := by
  have listedA := List.idxOf_lt_length_of_mem (List.mem_eraseDups.mpr inA)
  have listedB := List.idxOf_lt_length_of_mem (List.mem_eraseDups.mpr inB)
  have ordered := List.pairwise_iff_getElem.mp (pairwise_eraseDups xs)
  constructor
  · intro first
    simpa using ordered _ _ listedA listedB first
  · intro first
    rcases Nat.lt_trichotomy (xs.eraseDups.idxOf a) (xs.eraseDups.idxOf b) with
      before | same | after
    · exact before
    · have equal : a = b := (List.idxOf_inj (List.mem_eraseDups.mpr inA)).mp same
      exact absurd first (equal ▸ Nat.lt_irrefl _)
    · have swapped : xs.idxOf b < xs.idxOf a := by simpa using ordered _ _ listedB listedA after
      omega

end Foundations
