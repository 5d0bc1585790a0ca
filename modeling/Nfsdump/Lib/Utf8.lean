/-
  Utf8 — texts as bytes, and bytes as texts.

  `encode` is what a text is written as. Bytes that are read need not be the encoding of a text:
  where `decode` finds no character, it puts U+FFFD for the longest part that one could begin
  with, at least one byte. `WellFormed` bytes are read without a replacement.

  Proved:
  - `decode_encode`: what is written is read back;
  - `wellFormed_iff`: the well-formed bytes are the encodings;
  - `wellFormed_around`: a byte below 128 is a character of its own, wherever it stands;
  - `decode_ascii`, `decode_eq_ascii`: bytes below 128 are read as they are, and nothing else is
    read as these characters.
-/

import Mathlib.Data.List.Basic

namespace Utf8

def encode (cs : List Char) : List UInt8 := cs.flatMap String.utf8EncodeChar

/-- The character that the bytes begin with. -/
def first? (bs : List UInt8) : Option Char := (bs.take 4).toByteArray.utf8DecodeChar? 0

def REPLACEMENT : Char := '\uFFFD'

/-- Whether `c` may stand behind `b` at the front of a character. -/
def follows (b c : UInt8) : Bool :=
  if 0xC2 ≤ b ∧ b ≤ 0xF4 then
    (if b = 0xE0 then 0xA0 else if b = 0xF0 then 0x90 else 0x80) ≤ c ∧ c ≤ (if b = 0xED then 0x9F else if b = 0xF4 then 0x8F else 0xBF)
  else false

/-- How many bytes one replacement stands for. -/
def illFormed : List UInt8 → Nat
  | b :: c :: rest =>
    if follows b c then
      match rest with
      | d :: _ => if 0xF0 ≤ b ∧ 0x80 ≤ d ∧ d ≤ 0xBF then 3 else 2
      | [] => 2
    else 1
  | _ => 1

/-- `skip` bytes are part of the character in front of them. -/
def decodeFrom : Nat → List UInt8 → List Char
  | _, [] => []
  | skip + 1, _ :: bs => decodeFrom skip bs
  | 0, b :: bs =>
    match first? (b :: bs) with
    | some c => c :: decodeFrom (c.utf8Size - 1) bs
    | none => REPLACEMENT :: decodeFrom (illFormed (b :: bs) - 1) bs

def decode (bs : List UInt8) : List Char := decodeFrom 0 bs

def WellFormed (bs : List UInt8) : Prop := encode (decode bs) = bs

instance (bs : List UInt8) : Decidable (WellFormed bs) := inferInstanceAs (Decidable (_ = _))

/-! ## One character -/

variable {b : UInt8} {bs as : List UInt8} {c : Char} {cs : List Char}

theorem encode_append (cs ds : List Char) : encode (cs ++ ds) = encode cs ++ encode ds := List.flatMap_append

theorem encode_cons (c : Char) (cs : List Char) : encode (c :: cs) = String.utf8EncodeChar c ++ encode cs := rfl

theorem length_encodeChar_pos (c : Char) : 0 < (String.utf8EncodeChar c).length := by
  rw [String.length_utf8EncodeChar]
  exact c.utf8Size_pos

theorem first?_append (c : Char) (bs : List UInt8) : first? (String.utf8EncodeChar c ++ bs) = some c := by
  have hlen : (String.utf8EncodeChar c).length ≤ 4 := by
    rw [String.length_utf8EncodeChar]
    exact c.utf8Size_le_four
  rw [first?, List.take_append, List.take_of_length_le hlen, List.toByteArray_append]
  exact ByteArray.utf8DecodeChar?_utf8EncodeChar_append

theorem first?_eq_some (h : first? bs = some c) : ∃ rest, bs = String.utf8EncodeChar c ++ rest := by
  obtain ⟨l, hl⟩ := ByteArray.exists_of_utf8DecodeChar?_eq_some h
  have htake : bs.take 4 = String.utf8EncodeChar c ++ l.data.toList := by
    have hdata := congrArg (fun a : ByteArray => a.data.toList) hl
    simpa using hdata
  refine ⟨l.data.toList ++ bs.drop 4, ?_⟩
  rw [← List.append_assoc, ← htake, List.take_append_drop]

theorem decodeFrom_eq (skip : Nat) (bs : List UInt8) : decodeFrom skip bs = decode (bs.drop skip) := by
  induction skip generalizing bs with
  | zero => rfl
  | succ skip ih =>
    cases bs with
    | nil => rfl
    | cons b bs => exact ih bs

theorem decode_char (c : Char) (bs : List UInt8) : decode (String.utf8EncodeChar c ++ bs) = c :: decode bs := by
  have hfirst := first?_append c bs
  have hlen := String.length_utf8EncodeChar c
  cases hc : String.utf8EncodeChar c with
  | nil => exact absurd (congrArg List.length hc) (Nat.ne_of_gt (length_encodeChar_pos c))
  | cons b as =>
    rw [hc] at hfirst hlen
    rw [List.cons_append] at hfirst ⊢
    rw [decode, decodeFrom, hfirst]
    dsimp only
    rw [decodeFrom_eq, ← hlen, List.length_cons, Nat.add_sub_cancel, List.drop_left]

theorem decode_none (h : first? (b :: bs) = none) : REPLACEMENT ∈ decode (b :: bs) := by
  rw [decode, decodeFrom, h]
  exact List.mem_cons_self

/-! ## What is written is read back -/

theorem decode_encode (cs : List Char) : decode (encode cs) = cs := by
  induction cs with
  | nil => rfl
  | cons c cs ih => rw [encode_cons, decode_char, ih]

theorem wellFormed_encode (cs : List Char) : WellFormed (encode cs) := by rw [WellFormed, decode_encode]

theorem wellFormed_iff : WellFormed bs ↔ ∃ cs, encode cs = bs := by
  constructor
  · exact fun h => ⟨_, h⟩
  · rintro ⟨cs, rfl⟩
    exact wellFormed_encode cs

/-- Bytes are well-formed iff nothing is replaced, but for the replacements that they encode. -/
theorem wellFormed_of_notMem (bs : List UInt8) (h : REPLACEMENT ∉ decode bs) : WellFormed bs := by
  induction hn : bs.length using Nat.strongRecOn generalizing bs with
  | _ n ih =>
    cases bs with
    | nil => rfl
    | cons b bs =>
      rcases hfirst : first? (b :: bs) with _ | c
      · exact absurd (decode_none hfirst) h
      · obtain ⟨rest, hrest⟩ := first?_eq_some hfirst
        have hlen := congrArg List.length hrest
        have hpos := length_encodeChar_pos c
        rw [List.length_append] at hlen
        rw [hrest, decode_char, List.mem_cons, not_or] at h
        rw [hrest, WellFormed, decode_char, encode_cons, ih rest.length (by omega) rest h.2 rfl]

/-! ## Bytes below 128 -/

theorem high_byte {n k : Nat} (hk : 128 ≤ k) (hn : n + k < 256) : ¬ UInt8.ofNat (n + k) < 128 := by
  rw [UInt8.lt_iff_toNat_lt, UInt8.toNat_ofNat', Nat.mod_eq_of_lt hn]
  exact Nat.not_lt.mpr (by show 128 ≤ n + k; omega)

/-- In the bytes of a character one below 128 is the only one. -/
theorem encodeChar_of_mem (hb : b < 128) (h : b ∈ String.utf8EncodeChar c) : String.utf8EncodeChar c = [b] := by
  have high : ∀ (v k m : Nat), 0 < m → 128 ≤ k → m + k ≤ 256 → b ≠ UInt8.ofNat (v % m + k) := by
    rintro v k m hm hk hle rfl
    have hlt := Nat.mod_lt v hm
    exact high_byte hk (by omega) hb
  unfold String.utf8EncodeChar at h ⊢
  dsimp only at h ⊢
  split at h
  · next hv => rw [if_pos hv, List.mem_singleton.mp h]
  split at h
  · simp only [List.mem_cons, List.not_mem_nil, or_false] at h
    rcases h with h | h
    · exact absurd h (high _ _ _ (by decide) (by decide) (by decide))
    · exact absurd h (high _ _ _ (by decide) (by decide) (by decide))
  split at h
  · simp only [List.mem_cons, List.not_mem_nil, or_false] at h
    rcases h with h | h | h
    · exact absurd h (high _ _ _ (by decide) (by decide) (by decide))
    · exact absurd h (high _ _ _ (by decide) (by decide) (by decide))
    · exact absurd h (high _ _ _ (by decide) (by decide) (by decide))
  · simp only [List.mem_cons, List.not_mem_nil, or_false] at h
    rcases h with h | h | h | h
    · exact absurd h (high _ _ _ (by decide) (by decide) (by decide))
    · exact absurd h (high _ _ _ (by decide) (by decide) (by decide))
    · exact absurd h (high _ _ _ (by decide) (by decide) (by decide))
    · exact absurd h (high _ _ _ (by decide) (by decide) (by decide))

theorem toNat_char (hb : b < 128) : (Char.ofNat b.toNat).toNat = b.toNat := by
  have hlt : b.toNat < 128 := hb
  rw [Char.ofNat, dif_pos (Or.inl (by omega))]
  rfl

theorem encode_byte (hb : b < 128) : encode [Char.ofNat b.toNat] = [b] := by
  have hlt : b.toNat < 128 := hb
  have hval : (Char.ofNat b.toNat).val.toNat = b.toNat := toNat_char hb
  rw [encode_cons, String.utf8EncodeChar]
  simp only [hval]
  rw [if_pos (by omega), UInt8.ofNat_toNat]
  rfl

theorem decode_cons (hb : b < 128) (bs : List UInt8) : decode (b :: bs) = Char.ofNat b.toNat :: decode bs := by
  have hchar := decode_char (Char.ofNat b.toNat) bs
  have hbyte := encode_byte hb
  rw [encode_cons, encode, List.flatMap_nil, List.append_nil] at hbyte
  rwa [hbyte] at hchar

/-- A byte below 128 is a character of its own. -/
theorem wellFormed_around (hb : b < 128) : WellFormed (as ++ b :: bs) ↔ WellFormed as ∧ WellFormed bs := by
  constructor
  · intro h
    obtain ⟨cs, hcs⟩ := wellFormed_iff.mp h
    clear h
    induction cs generalizing as with
    | nil => exact absurd (congrArg List.length hcs) (by simp [encode])
    | cons c cs ih =>
      rw [encode_cons] at hcs
      rcases List.append_eq_append_iff.mp hcs with ⟨front, has, hrest⟩ | ⟨tail, hc, hrest⟩
      · obtain ⟨hfront, hbs⟩ := ih hrest
        refine ⟨?_, hbs⟩
        rw [has, WellFormed, decode_char, encode_cons, hfront]
      · cases tail with
        | nil =>
          rw [List.append_nil] at hc
          rw [List.nil_append] at hrest
          have hnil : encode cs = [] ++ b :: bs := hrest.symm
          obtain ⟨-, hbs⟩ := ih hnil
          refine ⟨?_, hbs⟩
          rw [← hc, ← List.append_nil (String.utf8EncodeChar c)]
          exact wellFormed_encode [c]
        | cons b' tail =>
          obtain ⟨rfl, hbs⟩ := List.cons.inj hrest
          have hone := encodeChar_of_mem hb (hc ▸ List.mem_append_right _ List.mem_cons_self)
          have has : as = [] ∧ tail = [] := by simpa [List.append_eq_singleton_iff] using hc.symm.trans hone
          rw [has.1, hbs, has.2]
          exact ⟨rfl, wellFormed_encode cs⟩
  · rintro ⟨has, hbs⟩
    refine wellFormed_iff.mpr ⟨decode as ++ ([Char.ofNat b.toNat] ++ decode bs), ?_⟩
    rw [encode_append, encode_append, has, hbs, encode_byte hb]
    rfl

theorem wellFormed_ascii_append (has : ∀ b ∈ as, b < 128) : WellFormed (as ++ bs) ↔ WellFormed bs := by
  induction as with
  | nil => rfl
  | cons b as ih =>
    rw [List.forall_mem_cons] at has
    have hfront : WellFormed ([] ++ b :: (as ++ bs)) ↔ WellFormed [] ∧ WellFormed (as ++ bs) := wellFormed_around has.1
    rw [ih has.2] at hfront
    exact hfront.trans (and_iff_right rfl)

theorem decode_ascii (h : ∀ b ∈ bs, b < 128) : decode bs = bs.map fun b => Char.ofNat b.toNat := by
  induction bs with
  | nil => rfl
  | cons b bs ih =>
    rw [List.forall_mem_cons] at h
    rw [decode_cons h.1, ih h.2]
    rfl

theorem wellFormed_ascii (h : ∀ b ∈ bs, b < 128) : WellFormed bs := by
  rw [← List.append_nil bs, wellFormed_ascii_append h]
  rfl

/-- Characters below 128 are read of their own bytes only. -/
theorem decode_eq_ascii (h : ∀ b ∈ as, b < 128) : decode bs = as.map (fun b => Char.ofNat b.toNat) ↔ bs = as := by
  rw [← decode_ascii h]
  constructor
  · intro heq
    have hnot : REPLACEMENT ∉ decode bs := by
      rw [heq, decode_ascii h, List.mem_map]
      rintro ⟨b, hb, hchar⟩
      have hnat := toNat_char (h b hb)
      rw [hchar] at hnat
      have hlt : b.toNat < 128 := h b hb
      exact absurd (hnat ▸ hlt) (by decide)
    rw [← wellFormed_of_notMem bs hnot, heq, wellFormed_ascii h]
  · intro heq
    rw [heq]

end Utf8
