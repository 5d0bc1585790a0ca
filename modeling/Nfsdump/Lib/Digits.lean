/-
  Digits — numerals of a fixed width.

  `fixed b k n` is the `k` digits of `n` to the base `b`, zeros in front. A decimal fraction
  is digits, a point and digits.

  Proved, for any base above 1:
  - `fixed_add`, `toDigits_mul_add`: a numeral is the numerals of its high and low parts;
  - `pad_toDigits`: a numeral filled with zeros has a fixed width;
  - `fixed_injective`, `padded_injective`: up to base 16 a numeral of a fixed width, or filled
    with zeros up to one, determines its number.
  Of decimal fractions:
  - `reads_iff`: two numerals with a point between them read as a sum of units and parts iff
    there are no parts or their numeral has all its digits;
  - `Reads.units`: what stands in front of the point are the whole units.
-/

import Mathlib.Tactic

namespace Digits

variable {b k j x y n m : Nat}

/-- What holds of each character of a text is decided along the text, not over all characters. -/
instance (priority := high) decidableText (P : Char → Prop) [DecidablePred P] (t : List Char) : Decidable (∀ c ∈ t, P c) :=
  List.decidableBAll P t

instance (priority := high) decidableSome (P : Char → Prop) [DecidablePred P] (t : List Char) : Decidable (∃ c ∈ t, P c) :=
  List.decidableBEx P t

def fixed (b : Nat) : Nat → Nat → List Char
  | 0, _ => []
  | k + 1, n => fixed b k (n / b) ++ [(n % b).digitChar]

@[simp] theorem fixed_length (b k n : Nat) : (fixed b k n).length = k := by
  induction k generalizing n with
  | zero => rfl
  | succ k ih => rw [fixed, List.length_append, ih]; rfl

theorem fixed_zero (b k : Nat) : fixed b k 0 = List.replicate k '0' := by
  induction k with
  | zero => rfl
  | succ k ih => rw [fixed, Nat.zero_div, ih, Nat.zero_mod, List.replicate_succ']; rfl

/-- The quotient and the remainder of a number in two parts, one digit off the lower one. -/
theorem div_parts (hb : 0 < b) (x y k : Nat) : (x * b ^ (k + 1) + y) / b = x * b ^ k + y / b := by
  rw [pow_succ, ← mul_assoc, Nat.add_comm, Nat.add_mul_div_right _ _ hb, Nat.add_comm]

theorem mod_parts (x y k : Nat) : (x * b ^ (k + 1) + y) % b = y % b := by
  rw [pow_succ, ← mul_assoc, Nat.add_comm, Nat.add_mul_mod_self_right]

theorem div_lt_pow (h : y < b ^ (k + 1)) : y / b < b ^ k := by
  rw [pow_succ, Nat.mul_comm] at h
  exact Nat.div_lt_of_lt_mul h

theorem fixed_add (hb : 0 < b) (hy : y < b ^ k) : fixed b (j + k) (x * b ^ k + y) = fixed b j x ++ fixed b k y := by
  induction k generalizing y with
  | zero =>
    have hy0 : y = 0 := by rw [pow_zero] at hy; omega
    subst hy0
    simp [fixed]
  | succ k ih =>
    rw [← Nat.add_assoc, fixed, div_parts hb, mod_parts, ih (div_lt_pow hy), fixed, List.append_assoc]

theorem toDigits_mul_add (hb : 1 < b) (hx : 0 < x) (hy : y < b ^ k) :
    Nat.toDigits b (x * b ^ k + y) = Nat.toDigits b x ++ fixed b k y := by
  induction k generalizing y with
  | zero =>
    have hy0 : y = 0 := by rw [pow_zero] at hy; omega
    subst hy0
    simp [fixed]
  | succ k ih =>
    have hle : b ≤ x * b ^ (k + 1) + y := by
      have hpow : b ≤ b ^ (k + 1) := Nat.le_self_pow (Nat.succ_ne_zero k) b
      have hmul : b ^ (k + 1) ≤ x * b ^ (k + 1) := Nat.le_mul_of_pos_left _ hx
      omega
    rw [Nat.toDigits_of_base_le hb hle, div_parts (by omega), mod_parts, ih (div_lt_pow hy), fixed, List.append_assoc]

theorem pad_toDigits (hb : 1 < b) (hk : 0 < k) (hn : n < b ^ k) :
    List.replicate (k - (Nat.toDigits b n).length) '0' ++ Nat.toDigits b n = fixed b k n := by
  induction k generalizing n with
  | zero => omega
  | succ k ih =>
    by_cases hlt : n < b
    · rw [Nat.toDigits_of_lt_base hlt, fixed, Nat.div_eq_of_lt hlt, fixed_zero, Nat.mod_eq_of_lt hlt]
      rfl
    · have hk' : 0 < k := by
        refine Nat.pos_of_ne_zero fun h0 => hlt ?_
        subst h0
        simpa using hn
      rw [Nat.toDigits_of_base_le hb (Nat.le_of_not_lt hlt), fixed, ← ih hk' (div_lt_pow hn), List.length_append,
        List.length_singleton, Nat.add_sub_add_right, List.append_assoc]

/-! ## Digits up to base 16 -/

theorem digitChar_injective (hn : n < 16) (hm : m < 16) (h : n.digitChar = m.digitChar) : n = m := by
  interval_cases n <;> interval_cases m <;> first | rfl | exact absurd h (by decide)

theorem fixed_injective (hb : b ≤ 16) (hn : n < b ^ k) (hm : m < b ^ k) (h : fixed b k n = fixed b k m) : n = m := by
  induction k generalizing n m with
  | zero => rw [pow_zero] at hn hm; omega
  | succ k ih =>
    have hpos : 0 < b := Nat.pos_of_ne_zero fun h0 => by subst h0; simp at hn
    obtain ⟨hdiv, hmod⟩ := List.append_inj' h rfl
    have hq := ih (div_lt_pow hn) (div_lt_pow hm) hdiv
    have hr : n % b = m % b := digitChar_injective (lt_of_lt_of_le (Nat.mod_lt _ hpos) hb)
      (lt_of_lt_of_le (Nat.mod_lt _ hpos) hb) (List.singleton_inj.mp hmod)
    rw [← Nat.div_add_mod n b, ← Nat.div_add_mod m b, hq, hr]

theorem toDigits_injective (hb : 1 < b) (hb' : b ≤ 16) (h : Nat.toDigits b n = Nat.toDigits b m) : n = m := by
  obtain ⟨k, hk⟩ : ∃ k, n < b ^ k ∧ m < b ^ k :=
    ⟨n + m, lt_of_le_of_lt (Nat.le_add_right n m) (Nat.lt_pow_self hb), lt_of_le_of_lt (Nat.le_add_left m n) (Nat.lt_pow_self hb)⟩
  have hk0 : n < b ^ (k + 1) ∧ m < b ^ (k + 1) := by
    have hle : b ^ k ≤ b ^ (k + 1) := Nat.pow_le_pow_right (by omega) (Nat.le_succ k)
    omega
  apply fixed_injective hb' hk0.1 hk0.2
  rw [← pad_toDigits hb (Nat.succ_pos k) hk0.1, ← pad_toDigits hb (Nat.succ_pos k) hk0.2, h]

/-- Numerals filled with zeros up to a width. -/
theorem padded_injective (hb : 1 < b) (hb' : b ≤ 16) (hk : 0 < k)
    (h : List.replicate (k - (Nat.toDigits b n).length) '0' ++ Nat.toDigits b n =
      List.replicate (k - (Nat.toDigits b m).length) '0' ++ Nat.toDigits b m) : n = m := by
  have hlen := congrArg List.length h
  simp only [List.length_append, List.length_replicate] at hlen
  -- both have the width `w`
  obtain ⟨w, hw⟩ : ∃ w, w = k - (Nat.toDigits b n).length + (Nat.toDigits b n).length := ⟨_, rfl⟩
  have hfix : ∀ x, k - (Nat.toDigits b x).length + (Nat.toDigits b x).length = w →
      x < b ^ w ∧ List.replicate (k - (Nat.toDigits b x).length) '0' ++ Nat.toDigits b x = fixed b w x := by
    intro x hx
    have hlt : x < b ^ w := (Nat.length_toDigits_le_iff hb (by omega)).mp (by omega)
    rw [← pad_toDigits hb (by omega) hlt]
    exact ⟨hlt, by rw [show k - (Nat.toDigits b x).length = w - (Nat.toDigits b x).length by omega]⟩
  obtain ⟨hn, hn'⟩ := hfix n hw.symm
  obtain ⟨hm, hm'⟩ := hfix m (hlen ▸ hw.symm)
  exact fixed_injective hb' hn hm (hn'.symm.trans (h.trans hm'))

/-- A digit of a numeral. -/
theorem mem_toDigits (hb : 1 < b) {c : Char} (h : c ∈ Nat.toDigits b n) : ∃ d < b, c = d.digitChar := by
  induction n using Nat.strong_induction_on with
  | _ n ih =>
    rcases Nat.lt_or_ge n b with hlt | hge
    · rw [Nat.toDigits_of_lt_base hlt, List.mem_singleton] at h
      exact ⟨n, hlt, h⟩
    · rw [Nat.toDigits_of_base_le hb hge, List.mem_append, List.mem_singleton] at h
      rcases h with h | h
      · exact ih (n / b) (Nat.div_lt_self (by omega) hb) h
      · exact ⟨n % b, Nat.mod_lt _ (by omega), h⟩

theorem mem_fixed (hb : 0 < b) {c : Char} (h : c ∈ fixed b k n) : ∃ d < b, c = d.digitChar := by
  induction k generalizing n with
  | zero => cases h
  | succ k ih =>
    rw [fixed, List.mem_append, List.mem_singleton] at h
    rcases h with h | h
    · exact ih h
    · exact ⟨n % b, Nat.mod_lt _ hb, h⟩

/-! ## Decimal fractions -/

/-- The text reads as `n` parts, `10 ^ k` to the unit. -/
def Reads (k n : Nat) (cs : List Char) : Prop :=
  ∃ units parts, cs = units ++ '.' :: parts ∧ units ≠ [] ∧ parts ≠ [] ∧ (∀ c ∈ units ++ parts, c.isDigit) ∧
    Nat.ofDigitChars 10 (units ++ parts) 0 * 10 ^ k = n * 10 ^ parts.length

theorem Reads.isDigit {cs : List Char} (h : Reads k n cs) {c : Char} (hc : c ∈ cs) : c.isDigit ∨ c = '.' := by
  obtain ⟨units, parts, rfl, -, -, hdig, -⟩ := h
  rw [List.mem_append, List.mem_cons] at hc
  rcases hc with hc | hc | hc
  · exact Or.inl (hdig c (List.mem_append_left _ hc))
  · exact Or.inr hc
  · exact Or.inl (hdig c (List.mem_append_right _ hc))

/-- Where the point of a fraction is. -/
theorem point_unique {a a' f f' : List Char} (ha : ∀ c ∈ a, c ≠ '.') (ha' : ∀ c ∈ a', c ≠ '.')
    (h : a ++ '.' :: f = a' ++ '.' :: f') : a = a' ∧ f = f' := by
  induction a generalizing a' with
  | nil => cases a' with
    | nil => exact ⟨rfl, List.tail_eq_of_cons_eq h⟩
    | cons c a' => exact absurd (List.head_eq_of_cons_eq h).symm (ha' c (by simp))
  | cons c a ih => cases a' with
    | nil => exact absurd (List.head_eq_of_cons_eq h) (ha c (by simp))
    | cons c' a' =>
      rw [List.forall_mem_cons] at ha ha'
      rw [List.cons_append, List.cons_append, List.cons.injEq] at h
      obtain ⟨h1, h2⟩ := ih ha.2 ha'.2 h.2
      exact ⟨by rw [h.1, h1], h2⟩

theorem ne_point_of_isDigit {c : Char} (h : c.isDigit) : c ≠ '.' := by
  rintro rfl
  exact absurd h (by decide)

theorem isDigit_toDigits {c : Char} (h : c ∈ Nat.toDigits 10 n) : c.isDigit :=
  Nat.isDigit_of_mem_toDigits (by decide) (by decide) h

/-- Units and parts, each a numeral without zeros in front. -/
theorem reads_iff : Reads k (x * 10 ^ k + y) (Nat.toDigits 10 x ++ '.' :: Nat.toDigits 10 y) ↔
    y = 0 ∨ (Nat.toDigits 10 y).length = k := by
  have hval : Nat.ofDigitChars 10 (Nat.toDigits 10 x ++ Nat.toDigits 10 y) 0 = x * 10 ^ (Nat.toDigits 10 y).length + y := by
    rw [Nat.ofDigitChars_append, Nat.ofDigitChars_toDigits (by decide) (by decide), Nat.ofDigitChars_eq_ofDigitChars_zero,
      Nat.ofDigitChars_toDigits (by decide) (by decide), Nat.mul_comm]
  have heq : (x * 10 ^ (Nat.toDigits 10 y).length + y) * 10 ^ k = (x * 10 ^ k + y) * 10 ^ (Nat.toDigits 10 y).length ↔
      y = 0 ∨ (Nat.toDigits 10 y).length = k := by
    have hl : (x * 10 ^ (Nat.toDigits 10 y).length + y) * 10 ^ k =
        x * 10 ^ (Nat.toDigits 10 y).length * 10 ^ k + y * 10 ^ k := by ring
    have hr : (x * 10 ^ k + y) * 10 ^ (Nat.toDigits 10 y).length =
        x * 10 ^ (Nat.toDigits 10 y).length * 10 ^ k + y * 10 ^ (Nat.toDigits 10 y).length := by ring
    rw [hl, hr, Nat.add_left_cancel_iff]
    constructor
    · intro h
      rcases Nat.eq_zero_or_pos y with h0 | hpos
      · exact Or.inl h0
      · exact Or.inr (Nat.pow_right_injective (le_refl 2 |>.trans (by decide)) (Nat.eq_of_mul_eq_mul_left hpos h)).symm
    · rintro (rfl | h)
      · rw [Nat.zero_mul, Nat.zero_mul]
      · rw [h]
  constructor
  · rintro ⟨units, parts, hcs, -, -, hdig, hread⟩
    obtain ⟨rfl, rfl⟩ := point_unique (fun c hc => ne_point_of_isDigit (isDigit_toDigits hc))
      (fun c hc => ne_point_of_isDigit (hdig c (List.mem_append_left _ hc))) hcs
    rw [hval] at hread
    exact heq.mp hread
  · intro h
    refine ⟨_, _, rfl, Nat.toDigits_ne_nil, Nat.toDigits_ne_nil, fun c hc => ?_, ?_⟩
    · rcases List.mem_append.mp hc with hc | hc <;> exact isDigit_toDigits hc
    · rw [hval]
      exact heq.mpr h

theorem ofDigitChars_lt {cs : List Char} (h : ∀ c ∈ cs, c.isDigit) : Nat.ofDigitChars 10 cs 0 < 10 ^ cs.length := by
  induction cs with
  | nil => exact Nat.one_pos
  | cons c cs ih =>
    rw [List.forall_mem_cons] at h
    have hc : c.toNat - '0'.toNat < 10 := by
      have hle := (Char.isDigit_iff_toNat.mp h.1).2
      rw [show '9'.toNat = 57 from rfl] at hle
      rw [show '0'.toNat = 48 from rfl]
      omega
    have hrest := ih h.2
    rw [Nat.ofDigitChars_cons, Nat.ofDigitChars_eq_ofDigitChars_zero, List.length_cons, pow_succ, Nat.mul_zero, Nat.zero_add]
    have hmul : 10 ^ cs.length * (c.toNat - '0'.toNat) ≤ 10 ^ cs.length * 9 := Nat.mul_le_mul_left _ (by omega)
    omega

theorem Reads.units {cs : List Char} (h : Reads k n cs) : ∃ units parts, cs = units ++ '.' :: parts ∧ units ≠ [] ∧
    (∀ c ∈ units, c.isDigit) ∧ Nat.ofDigitChars 10 units 0 = n / 10 ^ k := by
  obtain ⟨units, parts, rfl, hunits, -, hdig, hval⟩ := h
  have hfront : ∀ c ∈ units, c.isDigit := fun c hc => hdig c (List.mem_append_left _ hc)
  have hlt := ofDigitChars_lt fun c hc => hdig c (List.mem_append_right units hc)
  refine ⟨units, parts, rfl, hunits, hfront, ?_⟩
  rw [Nat.ofDigitChars_append, Nat.ofDigitChars_eq_ofDigitChars_zero] at hval
  have hpos : 0 < 10 ^ parts.length := Nat.pow_pos (by decide)
  -- the parts are less than a unit, at whatever scale both are read
  have hlow : Nat.ofDigitChars 10 units 0 * 10 ^ k ≤ n := by
    apply Nat.le_of_mul_le_mul_right _ hpos
    calc Nat.ofDigitChars 10 units 0 * 10 ^ k * 10 ^ parts.length
        = 10 ^ parts.length * Nat.ofDigitChars 10 units 0 * 10 ^ k := by ring
      _ ≤ (10 ^ parts.length * Nat.ofDigitChars 10 units 0 + Nat.ofDigitChars 10 parts 0) * 10 ^ k :=
          Nat.mul_le_mul_right _ (Nat.le_add_right _ _)
      _ = n * 10 ^ parts.length := hval
  have hhigh : n < (Nat.ofDigitChars 10 units 0 + 1) * 10 ^ k := by
    apply Nat.lt_of_mul_lt_mul_right (a := 10 ^ parts.length)
    calc n * 10 ^ parts.length
        = (10 ^ parts.length * Nat.ofDigitChars 10 units 0 + Nat.ofDigitChars 10 parts 0) * 10 ^ k := hval.symm
      _ < (10 ^ parts.length * Nat.ofDigitChars 10 units 0 + 10 ^ parts.length) * 10 ^ k :=
          Nat.mul_lt_mul_of_pos_right (Nat.add_lt_add_left hlt _) (Nat.pow_pos (by decide))
      _ = (Nat.ofDigitChars 10 units 0 + 1) * 10 ^ k * 10 ^ parts.length := by ring
  exact (Nat.div_eq_of_lt_le hlow hhigh).symm

theorem Reads.unique {cs : List Char} (h : Reads k n cs) (h' : Reads k m cs) : n = m := by
  obtain ⟨units, parts, rfl, -, -, hdig, hval⟩ := h
  obtain ⟨units', parts', hcs, -, -, hdig', hval'⟩ := h'
  obtain ⟨rfl, rfl⟩ := point_unique (fun c hc => ne_point_of_isDigit (hdig c (List.mem_append_left _ hc)))
    (fun c hc => ne_point_of_isDigit (hdig' c (List.mem_append_left _ hc))) hcs
  exact Nat.eq_of_mul_eq_mul_right (Nat.pow_pos (by decide)) (hval.symm.trans hval')

end Digits
