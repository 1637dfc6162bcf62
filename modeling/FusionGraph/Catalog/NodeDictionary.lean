import FusionGraph.Core.Types
import FusionGraph.Foundations.Numbering
import Mathlib.Data.List.AList

/-!
# The node dictionary

A string-keyed graph comes with a dictionary from its keys to the dense node
identifiers. A key gets the next identifier when it is first seen, and keeps it.
-/

set_option autoImplicit false

namespace FusionGraph

open Foundations

/-- A mapping between node keys and dense identifiers. -/
structure NodeDictionary where
  toId : AList (fun _ : String => ℕ)
  keys : List String

namespace NodeDictionary

/-- The empty dictionary. -/
def new : NodeDictionary where
  toId := ∅
  keys := []

/-- The identifier of the key; the next identifier when the key is new. -/
def getOrInsert (self : NodeDictionary) (key : String) : ℕ × NodeDictionary :=
  match self.toId.lookup key with
  | some id => (id, self)
  | none =>
    let id := self.keys.length
    (id, { toId := self.toId.insert key id, keys := self.keys ++ [key] })

/-- The identifier of the key, if the key is there. -/
def idOf (self : NodeDictionary) (key : String) : Option ℕ := self.toId.lookup key

/-- The key of the identifier, if there is one. -/
def keyOf (self : NodeDictionary) (id : ℕ) : Option String :=
  (usizeTryFrom id).bind fun i => self.keys[i]?

/-- The number of keys. -/
def len (self : NodeDictionary) : ℕ := self.keys.length

variable (self : NodeDictionary) (key : String)

/-- A key has the identifier that it was given. -/
theorem idOf_getOrInsert : (self.getOrInsert key).2.idOf key = some (self.getOrInsert key).1 := by
  cases known : self.toId.lookup key with
  | none =>
    simp only [getOrInsert, known, idOf]
    exact AList.lookup_insert self.toId
  | some id => simp only [getOrInsert, known, idOf]

/-- The identifiers of the other keys stay. -/
theorem idOf_getOrInsert_of_ne {other : String} (different : other ≠ key) :
    (self.getOrInsert key).2.idOf other = self.idOf other := by
  cases known : self.toId.lookup key with
  | none =>
    simp only [getOrInsert, known, idOf]
    exact AList.lookup_insert_ne different
  | some id => simp only [getOrInsert, known, idOf]

/-! ## The two directions -/

/-- The identifier of a key is its position in the list of keys. -/
def Interned (self : NodeDictionary) : Prop := Numbers self.idOf self.keys

theorem Interned.new : new.Interned := Numbers.nil

variable {self key}

/-- A key that is there changes nothing. -/
theorem Interned.getOrInsert_of_mem (interned : self.Interned) (known : key ∈ self.keys) :
    self.getOrInsert key = (self.keys.idxOf key, self) := by
  have position := (interned key (self.keys.idxOf key)).mpr (List.getElem?_idxOf known)
  rw [idOf] at position
  simp only [getOrInsert, position]

/-- A new key gets the next identifier. -/
theorem Interned.getOrInsert_of_notMem (interned : self.Interned) (fresh : key ∉ self.keys) :
    (self.getOrInsert key).1 = self.keys.length ∧
      (self.getOrInsert key).2.keys = self.keys ++ [key] ∧
      (self.getOrInsert key).2.Interned := by
  have unknown := (interned.eq_none_iff key).mpr fresh
  rw [idOf] at unknown
  have inserted : (self.getOrInsert key).2.idOf =
      Function.update self.idOf key (some self.keys.length) := by
    funext other
    by_cases same : other = key
    · subst same
      rw [idOf_getOrInsert, Function.update_self]
      simp only [getOrInsert, unknown]
    · rw [idOf_getOrInsert_of_ne self key same, Function.update_of_ne same]
  have listed : (self.getOrInsert key).2.keys = self.keys ++ [key] := by
    simp only [getOrInsert, unknown]
  refine ⟨by simp only [getOrInsert, unknown], listed, ?_⟩
  rw [Interned, inserted, listed]
  exact Numbers.push interned fresh

/-- **A dictionary that lists the first occurrences of some keys lists those of one
more, and the identifier of that key is its position.** -/
theorem Interned.getOrInsert {seen : List String} (interned : self.Interned)
    (listed : self.keys = seen.eraseDups) (key : String) :
    (self.getOrInsert key).2.Interned ∧
      (self.getOrInsert key).2.keys = (seen ++ [key]).eraseDups ∧
      (self.getOrInsert key).1 = (seen ++ [key]).eraseDups.idxOf key := by
  rw [eraseDups_concat]
  by_cases known : key ∈ seen
  · rw [interned.getOrInsert_of_mem (by rw [listed]; exact List.mem_eraseDups.mpr known),
      if_pos known, ← listed]
    exact ⟨interned, rfl, rfl⟩
  · have fresh : key ∉ self.keys := by
      rw [listed]
      exact fun member => known (List.mem_eraseDups.mp member)
    obtain ⟨id, keys, kept⟩ := interned.getOrInsert_of_notMem fresh
    rw [if_neg known, ← listed]
    refine ⟨kept, keys, ?_⟩
    rw [id, List.idxOf_append_of_notMem fresh]
    simp

/-- With fewer keys than `usize` counts, the key of an identifier is the one at its
position. -/
theorem keyOf_eq (self : NodeDictionary) (few : self.len ≤ usizeMax) (id : ℕ) :
    self.keyOf id = self.keys[id]? := by
  rw [keyOf]
  by_cases fits : id ≤ usizeMax
  · rw [usizeTryFrom_of_le fits, Option.bind_some]
  · rw [usizeTryFrom, if_neg fits, Option.bind_none, List.getElem?_eq_none]
    exact Nat.le_trans few (Nat.le_of_not_le fits)

end NodeDictionary

end FusionGraph
