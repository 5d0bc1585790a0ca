/-
  Fields — splitting at a separator without the empty fields at the end, and joining.

  Proved:
  - `intercalate_fields`, `fields_eq_iff`: what the fields keep of a text is the text without
    the separators at its end;
  - `fields_intercalate`, `intercalate_injective`: fields without separators in them, none of
    them empty at the end, are those of their join and told apart by it.
-/

import Mathlib.Data.List.DropRight
import Mathlib.Tactic

namespace Fields

variable {α : Type*} [DecidableEq α] {sep c : α} {t t' f : List α} {fs gs : List (List α)}

/-- The fields between the separators, without the empty ones at the end. -/
def fields (sep : α) (t : List α) : List (List α) := (t.splitOn sep).rdropWhile List.isEmpty

/-- Nothing is empty at the end. -/
def Ended (fs : List (List α)) : Prop := ∀ h : fs ≠ [], fs.getLast h ≠ []

/-! ## Fields of a text -/

theorem fields_nil (sep : α) : fields sep ([] : List α) = [] := by
  unfold fields
  rw [List.splitOn_nil]
  rfl

theorem fields_concat_sep (sep : α) (u : List α) : fields sep (u ++ [sep]) = fields sep u := by
  unfold fields
  rw [List.splitOn_append_cons_self, List.splitOn_nil]
  exact List.rdropWhile_concat_pos _ _ _ rfl

theorem splitOn_concat (hc : c ≠ sep) (u : List α) : ∃ front last, (u ++ [c]).splitOn sep = front ++ [last ++ [c]] := by
  induction u with
  | nil => exact ⟨[], [], List.splitOn_eq_singleton (by simpa using hc.symm)⟩
  | cons d u ih =>
    obtain ⟨front, last, h⟩ := ih
    rw [List.cons_append, List.splitOn_cons_eq_if_modifyHead, h]
    split
    · exact ⟨[] :: front, last, rfl⟩
    · cases front with
      | nil => exact ⟨[], d :: last, rfl⟩
      | cons f front => exact ⟨(d :: f) :: front, last, rfl⟩

/-- A text that does not end with the separator has all its fields. -/
theorem fields_concat (hc : c ≠ sep) (u : List α) : fields sep (u ++ [c]) = (u ++ [c]).splitOn sep := by
  obtain ⟨front, last, h⟩ := splitOn_concat hc u
  unfold fields
  rw [h]
  exact List.rdropWhile_concat_neg _ _ _ (by simp)

theorem intercalate_fields (sep : α) (t : List α) : [sep].intercalate (fields sep t) = t.rdropWhile (· == sep) := by
  induction t using List.reverseRecOn with
  | nil =>
    rw [fields_nil]
    rfl
  | append_singleton u c ih =>
    by_cases hc : c = sep
    · rw [hc, fields_concat_sep, ih, List.rdropWhile_concat_pos _ _ _ (by simp)]
    · rw [fields_concat hc, List.intercalate_splitOn, List.rdropWhile_concat_neg _ _ _ (by simpa using hc)]

theorem fields_rdropWhile (sep : α) (t : List α) : fields sep (t.rdropWhile (· == sep)) = fields sep t := by
  induction t using List.reverseRecOn with
  | nil => rfl
  | append_singleton u c ih =>
    by_cases hc : c = sep
    · rw [hc, fields_concat_sep, List.rdropWhile_concat_pos _ _ _ (by simp), ih]
    · rw [List.rdropWhile_concat_neg _ _ _ (by simpa using hc)]

theorem fields_eq_iff : fields sep t = fields sep t' ↔ t.rdropWhile (· == sep) = t'.rdropWhile (· == sep) := by
  constructor
  · intro h
    rw [← intercalate_fields, h, intercalate_fields]
  · intro h
    rw [← fields_rdropWhile sep t, h, fields_rdropWhile]

theorem ended_fields (sep : α) (t : List α) : Ended (fields sep t) := by
  intro hne
  have hlast := List.rdropWhile_last_not List.isEmpty (t.splitOn sep) hne
  intro hnil
  exact hlast (by rw [List.isEmpty_iff]; exact hnil)

theorem mem_splitOn (h : f ∈ t.splitOn sep) : sep ∉ f := by
  induction t generalizing f with
  | nil =>
    rw [List.splitOn_nil, List.mem_singleton] at h
    rw [h]
    exact List.not_mem_nil
  | cons d t ih =>
    rw [List.splitOn_cons_eq_if_modifyHead] at h
    split at h
    · rcases List.mem_cons.mp h with rfl | h
      · exact List.not_mem_nil
      · exact ih h
    · rename_i hd
      obtain ⟨g, gs, hsplit⟩ := List.exists_cons_of_ne_nil (List.splitOn_ne_nil sep t)
      rw [hsplit] at h ih
      rcases List.mem_cons.mp h with rfl | h
      · intro hmem
        rcases List.mem_cons.mp hmem with rfl | hmem
        · exact hd (by simp)
        · exact ih List.mem_cons_self hmem
      · exact ih (List.mem_cons_of_mem g h)

theorem subset_splitOn (h : f ∈ t.splitOn sep) : f ⊆ t := by
  induction t generalizing f with
  | nil =>
    rw [List.splitOn_nil, List.mem_singleton] at h
    rw [h]
    exact List.Subset.refl _
  | cons d t ih =>
    rw [List.splitOn_cons_eq_if_modifyHead] at h
    split at h
    · rcases List.mem_cons.mp h with rfl | h
      · exact List.nil_subset _
      · exact List.subset_cons_of_subset d (ih h)
    · obtain ⟨g, gs, hsplit⟩ := List.exists_cons_of_ne_nil (List.splitOn_ne_nil sep t)
      rw [hsplit] at h ih
      rcases List.mem_cons.mp h with rfl | h
      · exact List.cons_subset_cons d (ih List.mem_cons_self)
      · exact List.subset_cons_of_subset d (ih (List.mem_cons_of_mem g h))

theorem subset_fields (h : f ∈ fields sep t) : f ⊆ t := subset_splitOn ((List.rdropWhile_prefix _ _).subset h)

theorem mem_fields (h : f ∈ fields sep t) : sep ∉ f := mem_splitOn ((List.rdropWhile_prefix _ _).subset h)

/-- A text without separators is its own only field. -/
theorem fields_of_notMem (h : sep ∉ t) : fields sep t = if t = [] then [] else [t] := by
  unfold fields
  rw [List.splitOn_eq_singleton h, List.rdropWhile_singleton]
  simp only [List.isEmpty_iff]

/-! ## Joining -/

theorem fields_intercalate (hf : ∀ f ∈ fs, sep ∉ f) (he : Ended fs) : fields sep ([sep].intercalate fs) = fs := by
  by_cases hne : fs = []
  · rw [hne]
    exact fields_nil sep
  · unfold fields
    rw [List.splitOn_intercalate sep hf hne, List.rdropWhile_eq_self_iff]
    intro hl hlast
    exact he hl (List.isEmpty_iff.mp hlast)

theorem intercalate_injective (hf : ∀ f ∈ fs, sep ∉ f) (hg : ∀ g ∈ gs, sep ∉ g) (hfs : Ended fs) (hgs : Ended gs)
    (h : [sep].intercalate fs = [sep].intercalate gs) : fs = gs := by
  rw [← fields_intercalate hf hfs, h, fields_intercalate hg hgs]

end Fields
