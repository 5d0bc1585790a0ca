/-
  Ascent — climbing from key to key along a partial map until a key has no next.

  Proved, for any keys:
  - `climb_ends_iff`: a climb ends iff its key is accessible against the map;
  - `wellFounded_iff`: where finitely many keys have a next, every climb ends iff no key
    comes back to itself.
-/

import Mathlib.Tactic
import Mathlib.Order.WellFoundedSet

namespace Ascent

variable {κ σ β : Type} {next : κ → Option κ}

/-- `l` is the key behind `k`. -/
def Up (next : κ → Option κ) (k l : κ) : Prop := next k = some l

/-- The recursion that climbs, with `s` gathered on the way; no value when the fuel runs out. -/
def climb (next : κ → Option κ) (stop : κ → σ → β) (go : κ → σ → σ) : Nat → κ → σ → Option β
  | 0, _, _ => none
  | n + 1, k, s =>
    match next k with
    | none => some (stop k s)
    | some l => climb next stop go n l (go k s)

variable {stop : κ → σ → β} {go : κ → σ → σ} {k : κ} {s : σ}

theorem climb_ends_iff : (∃ n, (climb next stop go n k s).isSome) ↔ Acc (fun l k => Up next k l) k := by
  constructor
  · rintro ⟨n, hn⟩
    induction n generalizing k s with
    | zero => cases hn
    | succ n ih =>
      refine Acc.intro k fun l hl => ?_
      rw [climb, show next k = some l from hl] at hn
      exact ih hn
  · intro hacc
    induction hacc generalizing s with
    | intro k _ ih =>
      cases hk : next k with
      | none => exact ⟨1, by rw [climb, hk]; rfl⟩
      | some l =>
        obtain ⟨n, hn⟩ := ih l hk
        exact ⟨n + 1, by rw [climb, hk]; exact hn⟩

theorem not_acc_of_self (hk : Up next k k) : ¬ Acc (fun l k => Up next k l) k := by
  intro hacc
  induction hacc with
  | intro k _ ih => exact ih k hk hk

/-- No key comes back to itself. -/
def Acyclic (next : κ → Option κ) : Prop := ∀ k, ¬ Relation.TransGen (Up next) k k

theorem acyclic_of_wellFounded (hwf : WellFounded fun l k => Up next k l) : Acyclic next := fun k hcyc =>
  hwf.transGen.irrefl.irrefl k (Relation.transGen_swap.mp hcyc)

theorem acyclic_of_rank (rank : κ → Nat) (h : ∀ k l, next k = some l → rank l < rank k) : Acyclic next :=
  acyclic_of_wellFounded (Subrelation.wf (fun {l k} hk => h k l hk) (measure rank).wf)

theorem wellFounded_iff {keys : List κ} (hkeys : ∀ k, next k ≠ none → k ∈ keys) :
    (WellFounded fun l k => Up next k l) ↔ Acyclic next := by
  refine ⟨acyclic_of_wellFounded, fun hacyclic => ⟨fun k => ?_⟩⟩
  have hstrict : IsStrictOrder κ (Relation.TransGen fun l k => Up next k l) := {
    irrefl := fun k hcyc => hacyclic k (Relation.transGen_swap.mp hcyc)
    trans := fun _ _ _ => Relation.TransGen.trans }
  have hon : {k | k ∈ keys}.WellFoundedOn (Relation.TransGen fun l k => Up next k l) := (List.finite_toSet keys).wellFoundedOn
  have top : ∀ k, k ∉ keys → Acc (fun l k => Up next k l) k := fun k hk => Acc.intro k fun l hl =>
    absurd (hkeys k (by rw [show next k = some l from hl]; exact nofun)) hk
  by_cases hk : k ∈ keys
  · refine hon.induction hk fun k _ ih => Acc.intro k fun l hl => ?_
    by_cases hl' : l ∈ keys
    · exact ih l hl' (Relation.TransGen.single hl)
    · exact top l hl'
  · exact top k hk

end Ascent
