/-
  Records — the elements of a sequence that are not below any in front of them.

  Proved, for any linear order and any relation that holds of smaller elements too:
  - `isChain_above_iff`: each record is in the relation to the next iff each element is
    below one in front of it or in the relation to all of them.
-/

import Mathlib.Tactic

namespace Records

variable {α : Type} [LinearOrder α] {R : α → α → Prop}

/-- The records, when `m` is the last one so far. -/
def above (m : α) : List α → List α
  | [] => []
  | t :: ts => if t < m then above m ts else t :: above t ts

/-- Behind `front` each element is below one in front of it or in `R` to all of them. -/
def Clear (R : α → α → Prop) (front ts : List α) : Prop :=
  ∀ before t after, ts = before ++ t :: after → (∃ a ∈ front ++ before, t < a) ∨ ∀ a ∈ front ++ before, R a t

theorem clear_nil (front : List α) : Clear R front [] := by
  intro before t after h
  cases before <;> cases h

theorem clear_cons (front : List α) (t : α) (ts : List α) :
    Clear R front (t :: ts) ↔ ((∃ a ∈ front, t < a) ∨ ∀ a ∈ front, R a t) ∧ Clear R (front ++ [t]) ts := by
  constructor
  · intro h
    refine ⟨by simpa using h [] t ts rfl, fun before u after hts => ?_⟩
    have hu := h (t :: before) u after (by rw [hts, List.cons_append])
    rwa [List.append_cons] at hu
  · rintro ⟨ht, hts⟩ before u after h
    cases before with
    | nil =>
      obtain ⟨rfl, rfl⟩ := List.cons.inj h
      rwa [List.append_nil]
    | cons b before =>
      obtain ⟨rfl, rfl⟩ := List.cons.inj h
      rw [List.append_cons]
      exact hts before u after rfl

variable (hR : ∀ a b c, a ≤ b → R b c → R a c)
include hR

theorem isChain_behind {front : List α} {m : α} (hm : m ∈ front) (hmax : ∀ a ∈ front, a ≤ m) (ts : List α) :
    (m :: above m ts).IsChain R ↔ Clear R front ts := by
  induction ts generalizing front m with
  | nil => exact ⟨fun _ => clear_nil front, fun _ => .singleton m⟩
  | cons t ts ih =>
    have hin : ∀ {a}, a ∈ front ++ [t] ↔ a ∈ front ∨ a = t := by simp
    rw [clear_cons]
    by_cases ht : t < m
    · have hfront : ∀ a ∈ front ++ [t], a ≤ m := by
        intro a ha
        rcases hin.mp ha with ha | rfl
        · exact hmax a ha
        · exact ht.le
      rw [above, if_pos ht, ih (hin.mpr (Or.inl hm)) hfront]
      exact ⟨fun h => ⟨Or.inl ⟨m, hm, ht⟩, h⟩, fun h => h.2⟩
    · have hle : m ≤ t := not_lt.mp ht
      have hfront : ∀ a ∈ front ++ [t], a ≤ t := by
        intro a ha
        rcases hin.mp ha with ha | rfl
        · exact (hmax a ha).trans hle
        · exact le_refl a
      -- nothing in front is above `t`, and `m` stands for all of it
      have hall : ((∃ a ∈ front, t < a) ∨ ∀ a ∈ front, R a t) ↔ R m t := by
        constructor
        · rintro (⟨a, ha, hlt⟩ | h)
          · exact absurd ((hmax a ha).trans hle) (not_le.mpr hlt)
          · exact h m hm
        · exact fun h => Or.inr fun a ha => hR a m t (hmax a ha) h
      rw [above, if_neg ht, List.isChain_cons_cons, ih (hin.mpr (Or.inr rfl)) hfront, hall]

theorem isChain_above_iff {m : α} {ts : List α} (hts : ∀ t ∈ ts, m ≤ t) :
    (above m ts).IsChain R ↔ Clear R [] ts := by
  cases ts with
  | nil => exact ⟨fun _ => clear_nil [], fun _ => .nil⟩
  | cons t ts =>
    rw [above, if_neg (not_lt.mpr (hts t List.mem_cons_self)), clear_cons,
      isChain_behind hR (List.mem_singleton.mpr rfl) (fun a ha => (List.mem_singleton.mp ha).le) ts]
    exact ⟨fun h => ⟨Or.inr nofun, h⟩, fun h => h.2⟩

end Records
