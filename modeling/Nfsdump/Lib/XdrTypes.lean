/-
  XdrTypes — types of External Data Representation whose variable-length members have names,
  and where these lie in a stream of units.

  A type is laid out from some unit of a stream of `len` bytes; what a union holds depends on
  its discriminant. A member is announced when everything in front of it is there, and its
  number of bytes, whether or not the bytes are.

  Proved, for any stream:
  - `Ends.le`: a type that is all there ends in the stream;
  - `Announces.declares`: what is announced is a member that the type declares, within its bound.
-/

import Mathlib.Tactic

namespace Xdr

inductive Ty (μ : Type) where
  | void
  /-- What a union holds for a discriminant it has no arm for. -/
  | never
  | units (k : Nat)
  /-- At most `max` bytes behind their number; `extra` more are kept of them. -/
  | counted (m : μ) (max extra : Nat)
  | seq (a b : Ty μ)
  | union (arms : UInt32 → Ty μ)

namespace Ty

variable {μ : Type}

/-- Laid out from unit `i` the type is all there and ends in front of unit `j`. -/
def Ends (w : Nat → UInt32) (len : Nat) : Ty μ → Nat → Nat → Prop
  | .void, i, j => j = i
  | .never, _, _ => False
  | .units k, i, j => j = i + k ∧ 4 * j ≤ len
  | .counted _ max _, i, j => (w i).toNat ≤ max ∧ j = i + 1 + ((w i).toNat + 3) / 4 ∧ 4 * j ≤ len
  | .seq a b, i, j => ∃ k, Ends w len a i k ∧ Ends w len b k j
  | .union arms, i, j => 4 * (i + 1) ≤ len ∧ Ends w len (arms (w i)) (i + 1) j

/-- Laid out from unit `i` member `m` has `n` bytes, which is within its bound, and `extra`
    more are kept of it. -/
def Announces (w : Nat → UInt32) (len : Nat) : Ty μ → Nat → μ → Nat → Nat → Prop
  | .counted m max extra, i, m', n, extra' => m' = m ∧ extra' = extra ∧ n = (w i).toNat ∧ n ≤ max ∧ 4 * (i + 1) ≤ len
  | .seq a b, i, m, n, extra => Announces w len a i m n extra ∨ ∃ k, Ends w len a i k ∧ Announces w len b k m n extra
  | .union arms, i, m, n, extra => 4 * (i + 1) ≤ len ∧ Announces w len (arms (w i)) (i + 1) m n extra
  | _, _, _, _, _ => False

def Declares : Ty μ → μ → Nat → Nat → Prop
  | .counted m max extra, m', max', extra' => m' = m ∧ max' = max ∧ extra' = extra
  | .seq a b, m, max, extra => a.Declares m max extra ∨ b.Declares m max extra
  | .union arms, m, max, extra => ∃ d, (arms d).Declares m max extra
  | _, _, _, _ => False

variable {w : Nat → UInt32} {len : Nat}

theorem Ends.le {t : Ty μ} : ∀ {i j : Nat}, t.Ends w len i j → 4 * i ≤ len → 4 * j ≤ len := by
  induction t with
  | void => intro i j h hi; exact h ▸ hi
  | never => intro i j h; exact h.elim
  | units k => intro i j h _; exact h.2
  | counted m max extra => intro i j h _; exact h.2.2
  | seq a b iha ihb =>
    intro i j h hi
    obtain ⟨k, ha, hb⟩ := h
    exact ihb hb (iha ha hi)
  | union arms ih =>
    intro i j h _
    exact ih _ h.2 h.1

theorem Announces.declares {t : Ty μ} : ∀ {i : Nat} {m : μ} {n extra : Nat}, t.Announces w len i m n extra →
    ∃ max, t.Declares m max extra ∧ n ≤ max := by
  induction t with
  | void => intro i m n extra h; exact h.elim
  | never => intro i m n extra h; exact h.elim
  | units k => intro i m n extra h; exact h.elim
  | counted m max extra =>
    intro i m' n extra' h
    obtain ⟨hm, hextra, -, hmax, -⟩ := h
    exact ⟨max, ⟨hm, rfl, hextra⟩, hmax⟩
  | seq a b iha ihb =>
    intro i m n extra h
    rcases h with h | ⟨k, -, h⟩
    · obtain ⟨max, hd, hle⟩ := iha h
      exact ⟨max, .inl hd, hle⟩
    · obtain ⟨max, hd, hle⟩ := ihb h
      exact ⟨max, .inr hd, hle⟩
  | union arms ih =>
    intro i m n extra h
    obtain ⟨max, hd, hle⟩ := ih _ h.2
    exact ⟨max, ⟨_, hd⟩, hle⟩

end Ty

end Xdr
