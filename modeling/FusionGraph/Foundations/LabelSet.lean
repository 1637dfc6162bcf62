import Mathlib.Data.List.Nodup

/-!
# Labels that are looked up by their first occurrence

A list of entries with labels is checked for duplicates by putting the labels into
a set one after another (`insertAll`): nothing is repeated exactly when the labels
are distinct (`insertAll_fst_eq_nil_iff`), and the set holds them all
(`mem_insertAll_snd`). With distinct labels a search for the first entry with a
label finds the only one (`resolves_iff`).
-/

set_option autoImplicit false

namespace Foundations

namespace LabelSet

universe u v

variable {α : Type u} {κ : Type v} [DecidableEq κ]

/-- Inserts labels into a set, in order: those that it already had, and the set. -/
def insertAll : List κ → List κ → List κ × List κ
  | [], seen => ([], seen)
  | label :: rest, seen =>
    if label ∈ seen then
      let (repeated, final) := insertAll rest seen
      (label :: repeated, final)
    else insertAll rest (label :: seen)

theorem mem_insertAll_snd {label : κ} (labels seen : List κ) :
    label ∈ (insertAll labels seen).2 ↔ label ∈ labels ∨ label ∈ seen := by
  induction labels generalizing seen with
  | nil => simp [insertAll]
  | cons first rest ih =>
      rw [insertAll]
      split
      · rename_i known
        rw [ih, List.mem_cons]
        constructor
        · exact Or.imp_left .inr
        · rintro ((rfl | later) | before)
          · exact .inr known
          · exact .inl later
          · exact .inr before
      · rw [ih, List.mem_cons, List.mem_cons]
        tauto

/-- **Nothing is repeated exactly when the labels are distinct** and new to the set. -/
theorem insertAll_fst_eq_nil_iff (labels seen : List κ) :
    (insertAll labels seen).1 = [] ↔ labels.Nodup ∧ ∀ label ∈ labels, label ∉ seen := by
  induction labels generalizing seen with
  | nil => simp [insertAll]
  | cons first rest ih =>
      rw [insertAll]
      split
      · rename_i known
        simp [known]
      · rename_i fresh
        rw [ih, List.nodup_cons]
        constructor
        · rintro ⟨distinct, new⟩
          refine ⟨⟨fun again => new first again List.mem_cons_self, distinct⟩, ?_⟩
          rintro label (_ | ⟨_, later⟩)
          · exact fresh
          · exact fun old => new label later (List.mem_cons_of_mem first old)
        · rintro ⟨⟨once, distinct⟩, new⟩
          refine ⟨distinct, fun label later old => ?_⟩
          rcases List.mem_cons.mp old with rfl | before
          · exact once later
          · exact new label (List.mem_cons_of_mem first later) before

/-- The first entry with the label is the only one. -/
def Resolves (key : α → κ) (entries : List α) (label : κ) : Prop :=
  ∃ entry, entries.find? (fun other => key other = label) = some entry ∧
    entries.filter (fun other => key other = label) = [entry]

variable {key : α → κ} {entries : List α} {label : κ}

/-- A label that resolves is the label of an entry. -/
theorem Resolves.mem (resolves : Resolves key entries label) : label ∈ entries.map key := by
  obtain ⟨entry, found, -⟩ := resolves
  have same : key entry = label := by simpa using List.find?_some found
  exact List.mem_map.mpr ⟨entry, List.mem_of_find?_eq_some found, same⟩

/-- **With distinct labels, every label of an entry resolves**, and no other. -/
theorem resolves_iff (distinct : (entries.map key).Nodup) :
    Resolves key entries label ↔ label ∈ entries.map key := by
  refine ⟨Resolves.mem, fun member => ?_⟩
  obtain ⟨entry, inEntries, rfl⟩ := List.mem_map.mp member
  obtain ⟨before, after, rfl⟩ := List.append_of_mem inEntries
  simp only [List.map_append, List.map_cons, List.nodup_append', List.nodup_cons,
    List.disjoint_cons_right] at distinct
  obtain ⟨-, ⟨notAfter, -⟩, notBefore, -⟩ := distinct
  have absent : ∀ other ∈ before, ¬ key other = key entry := fun other inBefore same =>
    notBefore (List.mem_map.mpr ⟨other, inBefore, same⟩)
  have later : ∀ other ∈ after, ¬ key other = key entry := fun other inAfter same =>
    notAfter (List.mem_map.mpr ⟨other, inAfter, same⟩)
  refine ⟨entry, ?_, ?_⟩
  · rw [List.find?_append, List.find?_eq_none.mpr (by simpa using absent)]
    simp
  · rw [List.filter_append, List.filter_cons, List.filter_eq_nil_iff.mpr (by simpa using absent),
      List.filter_eq_nil_iff.mpr (by simpa using later)]
    simp

end LabelSet

end Foundations
