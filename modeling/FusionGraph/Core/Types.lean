import FusionGraph.Foundations.Checked

/-!
# Node identifiers, edge data and errors

Node identifiers are unsigned 64-bit values and the dense indices of the CSR
arrays unsigned 32-bit values; both are natural numbers here, and the places
where the code compares a value with the end of its type keep that comparison.
`usize` has 64 bits.
-/

set_option autoImplicit false

namespace FusionGraph

open Foundations

/-- `u32::MAX`. -/
abbrev u32Max : ℕ := 4294967295

/-- `usize::MAX` on a 64-bit target. -/
abbrev usizeMax : ℕ := 18446744073709551615

/-- `u64::MAX`. -/
abbrev u64Max : ℕ := 18446744073709551615

/-- A value of type `usize`. -/
abbrev Usize := { value : ℕ // value ≤ usizeMax }

/-- `isize::MAX`, the limit of every allocation. -/
abbrev isizeMax : ℕ := 9223372036854775807

/-- The two endpoints of an edge, as the delta layer keys it. -/
abbrev EdgeKey := ℕ × ℕ

instance : LawfulBEq EdgeKey := inferInstance

/-- Edge data stored in the delta layer. -/
structure EdgeData where
  weight : Option Float
  label : Option String

/-- `EdgeData::default()`. -/
def EdgeData.default : EdgeData where
  weight := none
  label := none

/-- The errors of graph construction, of traversal and of the circuit breaker. -/
inductive GraphError where
  | invalidEdge (source target : ℕ)
  | unsupportedGraphSize (reason : String)
  | invalidTraversal (reason : String)
  | circuitOpen
  deriving DecidableEq, Repr

/-- A graph operation that returns, fails with a `GraphError` or aborts. -/
abbrev Outcome (α : Type) := Checked GraphError α

/-- `u32::try_from` of an unsigned value. -/
def u32TryFrom (value : ℕ) : Option ℕ :=
  if value ≤ u32Max then some value else none

/-- `usize::try_from` of an unsigned value. -/
def usizeTryFrom (value : ℕ) : Option ℕ :=
  if value ≤ usizeMax then some value else none

/-- `usize::checked_sub`. -/
def checkedSub (a b : ℕ) : Option ℕ :=
  if b ≤ a then some (a - b) else none

theorem u32TryFrom_of_le {value : ℕ} (fits : value ≤ u32Max) : u32TryFrom value = some value := by
  simp only [u32TryFrom, fits, if_true]

theorem usizeTryFrom_of_le {value : ℕ} (fits : value ≤ usizeMax) :
    usizeTryFrom value = some value := by
  simp only [usizeTryFrom, fits, if_true]

end FusionGraph
