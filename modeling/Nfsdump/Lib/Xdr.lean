/-
  Xdr — the encodings of External Data Representation, in units of four bytes.

  A type's encoding is a list of units; on the wire a unit is four bytes, the most
  significant first. Opaque data are packed into units, the last one filled with zeros.

  Proved, for any values:
  - `wire_pack`, `pack_wire`: packed data are the data and less than a unit of zeros, and the
    units on the wire are their own packing;
  - `at_append`, `upto_append`: what lies where when encodings stand behind each other, and
    when they are cut.
-/

import Mathlib.Tactic

namespace Xdr

/-! ## Units -/

/-- A unit's bytes. -/
def octets (w : UInt32) : List UInt8 :=
  [UInt8.ofNat (w.toNat / 2 ^ 24), UInt8.ofNat (w.toNat / 2 ^ 16), UInt8.ofNat (w.toNat / 2 ^ 8), UInt8.ofNat w.toNat]

def unit (a b c d : UInt8) : UInt32 :=
  UInt32.ofNat (a.toNat * 2 ^ 24 + b.toNat * 2 ^ 16 + c.toNat * 2 ^ 8 + d.toNat)

theorem unit_toNat (a b c d : UInt8) :
    (unit a b c d).toNat = a.toNat * 2 ^ 24 + b.toNat * 2 ^ 16 + c.toNat * 2 ^ 8 + d.toNat := by
  have ha := a.toNat_lt
  have hb := b.toNat_lt
  have hc := c.toNat_lt
  have hd := d.toNat_lt
  rw [unit, UInt32.toNat_ofNat', Nat.mod_eq_of_lt (by omega)]

@[simp] theorem octets_unit (a b c d : UInt8) : octets (unit a b c d) = [a, b, c, d] := by
  have ha := a.toNat_lt
  have hb := b.toNat_lt
  have hc := c.toNat_lt
  have hd := d.toNat_lt
  have byte : ∀ (n : Nat) (x : UInt8), n % 256 = x.toNat → UInt8.ofNat n = x := fun n x h => by
    apply UInt8.toNat.inj
    rw [UInt8.toNat_ofNat', h]
  rw [octets, unit_toNat, byte _ a (by omega), byte _ b (by omega), byte _ c (by omega), byte _ d (by omega)]

@[simp] theorem octets_length (w : UInt32) : (octets w).length = 4 := rfl

/-- What units are on the wire. -/
def wire (ws : List UInt32) : List UInt8 := ws.flatMap octets

@[simp] theorem wire_nil : wire [] = [] := rfl
@[simp] theorem wire_cons (w : UInt32) (ws : List UInt32) : wire (w :: ws) = octets w ++ wire ws := rfl
@[simp] theorem wire_append (xs ys : List UInt32) : wire (xs ++ ys) = wire xs ++ wire ys := List.flatMap_append

@[simp] theorem wire_length (ws : List UInt32) : (wire ws).length = 4 * ws.length := by
  induction ws with
  | nil => rfl
  | cons w ws ih => rw [wire_cons, List.length_append, ih, octets_length, List.length_cons]; omega

/-! ## Opaque data -/

def pack : List UInt8 → List UInt32
  | [] => []
  | [a] => [unit a 0 0 0]
  | [a, b] => [unit a b 0 0]
  | [a, b, c] => [unit a b c 0]
  | a :: b :: c :: d :: rest => unit a b c d :: pack rest

/-- The zeros behind `n` bytes. -/
def padding (n : Nat) : List UInt8 := List.replicate ((4 - n % 4) % 4) 0

@[simp] theorem pack_length (bs : List UInt8) : (pack bs).length = (bs.length + 3) / 4 := by
  induction bs using pack.induct with
  | case1 => rfl
  | case2 => simp [pack]
  | case3 => simp [pack]
  | case4 => simp [pack]
  | case5 a b c d rest ih => simp only [pack, List.length_cons, ih]; omega

theorem wire_pack (bs : List UInt8) : wire (pack bs) = bs ++ padding bs.length := by
  induction bs using pack.induct with
  | case1 => rfl
  | case2 a => simp [pack, padding]
  | case3 a b => simp [pack, padding]
  | case4 a b c => simp [pack, padding]
  | case5 a b c d rest ih =>
    have hlen : (a :: b :: c :: d :: rest).length = rest.length + 4 := rfl
    rw [pack, wire_cons, octets_unit, ih, hlen, padding, padding, Nat.add_mod_right]
    rfl

theorem unit_octets (w : UInt32) :
    unit (UInt8.ofNat (w.toNat / 2 ^ 24)) (UInt8.ofNat (w.toNat / 2 ^ 16)) (UInt8.ofNat (w.toNat / 2 ^ 8)) (UInt8.ofNat w.toNat) = w := by
  have hw := w.toNat_lt
  apply UInt32.toNat.inj
  rw [unit_toNat]
  simp only [UInt8.toNat_ofNat']
  omega

/-- Units on the wire are their own packing. -/
theorem pack_wire (ws : List UInt32) : pack (wire ws) = ws := by
  induction ws with
  | nil => rfl
  | cons w ws ih =>
    rw [wire_cons]
    unfold octets
    rw [List.cons_append, List.cons_append, List.cons_append, List.cons_append, List.nil_append, pack, unit_octets, ih]

/-! ## Types -/

/-- `unsigned hyper`. -/
def hyper (v : UInt64) : List UInt32 := [UInt32.ofNat (v.toNat / 2 ^ 32), UInt32.ofNat v.toNat]

/-- `opaque<>` and `string<>`. -/
def counted (bs : List UInt8) : List UInt32 := UInt32.ofNat bs.length :: pack bs

/-- A union over a `bool` whose false arm is void. -/
def optionally {α : Type} (enc : α → List UInt32) : Option α → List UInt32
  | none => [0]
  | some a => 1 :: enc a

/-- A variable-length array. -/
def array {α : Type} (enc : α → List UInt32) (as : List α) : List UInt32 :=
  UInt32.ofNat as.length :: as.flatMap enc

/-- A list linked by optional pointers. -/
def linked {α : Type} (enc : α → List UInt32) : List α → List UInt32
  | [] => [0]
  | a :: as => 1 :: (enc a ++ linked enc as)

@[simp] theorem hyper_length (v : UInt64) : (hyper v).length = 2 := rfl

@[simp] theorem counted_length (bs : List UInt8) : (counted bs).length = 1 + (bs.length + 3) / 4 := by
  rw [counted, List.length_cons, pack_length, Nat.add_comm]

theorem optionally_pos {α : Type} (enc : α → List UInt32) (a : Option α) : 0 < (optionally enc a).length := by
  cases a <;> simp [optionally]

/-! ## What lies where -/

/-- The units `us` lie at `i`. -/
def At (w : Nat → UInt32) (i : Nat) (us : List UInt32) : Prop := ∀ j (h : j < us.length), w (i + j) = us[j]

variable {w : Nat → UInt32} {i : Nat}

@[simp] theorem at_nil : At w i [] := fun _ h => absurd h (Nat.not_lt_zero _)

@[simp] theorem at_cons {u : UInt32} {us : List UInt32} : At w i (u :: us) ↔ w i = u ∧ At w (i + 1) us := by
  constructor
  · intro h
    refine ⟨h 0 (by simp), fun j hj => ?_⟩
    have := h (j + 1) (by simpa using hj)
    rwa [List.getElem_cons_succ, ← Nat.add_assoc, Nat.add_right_comm] at this
  · rintro ⟨h0, h⟩ j hj
    cases j with
    | zero => exact h0
    | succ j =>
      have := h j (by simpa using hj)
      rwa [List.getElem_cons_succ, ← Nat.add_assoc, Nat.add_right_comm]

theorem at_append {us vs : List UInt32} : At w i (us ++ vs) ↔ At w i us ∧ At w (i + us.length) vs := by
  induction us generalizing i with
  | nil => simp
  | cons u us ih => simp only [List.cons_append, at_cons, ih, List.length_cons, and_assoc, Nat.add_assoc, Nat.add_comm 1]

/-- Of the units `us` at `i`, those in front of `n` are there. -/
def Upto (w : Nat → UInt32) (n i : Nat) (us : List UInt32) : Prop := ∀ j (h : j < us.length), i + j < n → w (i + j) = us[j]

variable {n : Nat}

@[simp] theorem upto_nil : Upto w n i [] := fun _ h => absurd h (Nat.not_lt_zero _)

@[simp] theorem upto_cons {u : UInt32} {us : List UInt32} : Upto w n i (u :: us) ↔ (i < n → w i = u) ∧ Upto w n (i + 1) us := by
  constructor
  · intro h
    refine ⟨fun hi => h 0 (by simp) hi, fun j hj hn => ?_⟩
    have := h (j + 1) (by simpa using hj) (by omega)
    rwa [List.getElem_cons_succ, ← Nat.add_assoc, Nat.add_right_comm] at this
  · rintro ⟨h0, h⟩ j hj hn
    cases j with
    | zero => exact h0 hn
    | succ j =>
      have := h j (by simpa using hj) (by omega)
      rwa [List.getElem_cons_succ, ← Nat.add_assoc, Nat.add_right_comm]

theorem upto_append {us vs : List UInt32} : Upto w n i (us ++ vs) ↔ Upto w n i us ∧ Upto w n (i + us.length) vs := by
  induction us generalizing i with
  | nil => simp
  | cons u us ih =>
    simp only [List.cons_append, upto_cons, ih, List.length_cons, and_assoc, Nat.add_assoc, Nat.add_comm 1]

/-- What is there of units that are cut. -/
theorem At.upto {us : List UInt32} {k : Nat} (h : At w i (us.take k)) : Upto w (i + k) i us := fun j hj hn => by
  have := h j (by rw [List.length_take]; omega)
  rwa [List.getElem_take] at this

end Xdr
