/-
  Extents — sets of numbers as lists of extents, each a start and a count.

  Proved, for any extents:
  - `Maximal.gap`: behind a maximal extent there is a gap;
  - `Maximal.length_le`: no list of extents for the same set is shorter than one of maximal
    extents.
-/

import Mathlib.Data.List.Nodup
import Mathlib.Tactic

namespace Extents

/-- The numbers of the extents. -/
def Covers (es : List (Nat × Nat)) (n : Nat) : Prop := ∃ e ∈ es, e.1 ≤ n ∧ n < e.1 + e.2

/-- Extents in increasing order, none of them empty, and no two of them overlap or touch. -/
structure Maximal (es : List (Nat × Nat)) : Prop where
  pos : ∀ e ∈ es, 1 ≤ e.2
  apart : es.Pairwise fun e e' => e.1 + e.2 < e'.1

variable {es ds : List (Nat × Nat)} {e e' : Nat × Nat}

theorem Maximal.covers_start (h : Maximal es) (he : e ∈ es) : Covers es e.1 := by
  have hpos := h.pos e he
  exact ⟨e, he, Nat.le_refl _, by omega⟩

/-- One of two extents is in front of the other. -/
theorem Maximal.trichotomy (h : Maximal es) (he : e ∈ es) (he' : e' ∈ es) :
    e = e' ∨ e.1 + e.2 < e'.1 ∨ e'.1 + e'.2 < e.1 := by
  by_cases heq : e = e'
  · exact Or.inl heq
  · have hsymm : Std.Symm fun a b : Nat × Nat => a.1 + a.2 < b.1 ∨ b.1 + b.2 < a.1 := ⟨fun _ _ => Or.symm⟩
    have hpair : es.Pairwise fun a b => a.1 + a.2 < b.1 ∨ b.1 + b.2 < a.1 := h.apart.imp Or.inl
    exact Or.inr (hpair.forall he he' heq)

/-- The number behind an extent is in none. -/
theorem Maximal.gap (h : Maximal es) (he : e ∈ es) : ¬ Covers es (e.1 + e.2) := by
  rintro ⟨d, hd, hle, hlt⟩
  rcases h.trichotomy he hd with rfl | hlt' | hlt'
  · omega
  · omega
  · omega

theorem Maximal.nodup (h : Maximal es) : es.Nodup :=
  h.apart.imp fun {a b} hab heq => by
    rw [heq] at hab
    omega

/-- An extent of the same set that holds the starts of two of them holds the gap between. -/
theorem Maximal.start_injective (h : Maximal es) (hset : ∀ n, Covers es n ↔ Covers ds n) {d : Nat × Nat} (hd : d ∈ ds)
    (he : e ∈ es) (he' : e' ∈ es) (hcov : d.1 ≤ e.1 ∧ e.1 < d.1 + d.2) (hcov' : d.1 ≤ e'.1 ∧ e'.1 < d.1 + d.2) : e = e' := by
  rcases h.trichotomy he he' with heq | hlt | hlt
  · exact heq
  · exact absurd ((hset _).mpr ⟨d, hd, by omega, by omega⟩) (h.gap he)
  · exact absurd ((hset _).mpr ⟨d, hd, by omega, by omega⟩) (h.gap he')

/-- To each maximal extent the one that holds its start. -/
theorem Maximal.length_le (h : Maximal es) (hset : ∀ n, Covers es n ↔ Covers ds n) : es.length ≤ ds.length := by
  have hholds : ∀ e ∈ es, ∃ d ∈ ds, d.1 ≤ e.1 ∧ e.1 < d.1 + d.2 := fun e he => (hset _).mp (h.covers_start he)
  choose! d hd hcov using hholds
  have hinj : ∀ a ∈ es, ∀ b ∈ es, d a = d b → a = b := by
    intro a ha b hb hab
    exact h.start_injective hset (hd a ha) ha hb (hcov a ha) (hab ▸ hcov b hb)
  have hnodup : (es.map d).Nodup := h.nodup.map_on hinj
  have hsubset : es.map d ⊆ ds := by
    intro x hx
    obtain ⟨a, ha, rfl⟩ := List.mem_map.mp hx
    exact hd a ha
  have hlen := (List.subperm_of_subset hnodup hsubset).length_le
  rwa [List.length_map] at hlen

end Extents
