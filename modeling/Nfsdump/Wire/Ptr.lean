/-
  Nfsdump.Wire.Ptr — pointers into the 32-bit address space the program is built for
  (`-m32`), and the big-endian fields read through them.

  A pointer is its address and the bytes found from it on. Offsets are 32-bit and wrap,
  as the program's pointer arithmetic does, so offset `-4` is the word in front. The bytes
  of a captured packet are the first `caplen` of them; what lies outside is whatever is
  there.
-/

import Mathlib.Tactic

namespace Nfsdump.Wire

structure Ptr where
  addr : UInt32
  byte : UInt32 → UInt8

/-- The big-endian value of a string of bytes. -/
def be (bs : List UInt8) : Nat := bs.foldl (fun a b => a * 256 + b.toNat) 0

/-- The four bytes of a word in network order. -/
def be32 (n : Nat) : List UInt8 :=
  [UInt8.ofNat (n / 2 ^ 24), UInt8.ofNat (n / 2 ^ 16), UInt8.ofNat (n / 2 ^ 8), UInt8.ofNat n]

/-- The two bytes of a half word in network order. -/
def be16 (n : Nat) : List UInt8 := [UInt8.ofNat (n / 2 ^ 8), UInt8.ofNat n]

namespace Ptr

def add (p : Ptr) (n : UInt32) : Ptr := ⟨p.addr + n, fun i => p.byte (n + i)⟩

/-- `ntohs` of the two bytes at `n`. -/
def half (p : Ptr) (n : UInt32) : UInt32 := UInt32.ofNat (be [p.byte n, p.byte (n + 1)])

/-- `ntohl` of the word at `n`. -/
def word (p : Ptr) (n : UInt32) : UInt32 :=
  UInt32.ofNat (be [p.byte n, p.byte (n + 1), p.byte (n + 2), p.byte (n + 3)])

def bytes (p : Ptr) (n : UInt32) : List UInt8 := (List.range n.toNat).map fun i => p.byte (UInt32.ofNat i)

/-- `memcpy (dst + d, src, len)`. -/
def memcpy (dst : Ptr) (d : UInt32) (src : Ptr) (len : UInt32) : Ptr :=
  { dst with byte := fun i => if i - d < len then src.byte (i - d) else dst.byte i }

/-- The bytes `bs` lie at `p`. -/
def Holds (p : Ptr) (bs : List UInt8) : Prop := ∀ i (h : i < bs.length), p.byte (UInt32.ofNat i) = bs[i]

/-- An object of `n` bytes at `p` does not reach the end of the address space. -/
def Fits (p : Ptr) (n : Nat) : Prop := p.addr.toNat + n < 2 ^ 32

/-- The bytes `bs` alone, at address 0. -/
def ofBytes (bs : List UInt8) : Ptr := ⟨0, fun i => bs.getD i.toNat 0⟩

/-- The bytes `bs` alone, somewhere. -/
def placed (addr : UInt32) (bs : List UInt8) : Ptr := ⟨addr, fun i => bs.getD i.toNat 0⟩

end Ptr

/-! ## Big-endian values -/

theorem be_pair (a b : UInt8) : be [a, b] = a.toNat * 256 + b.toNat := by simp [be]

theorem be_quad (a b c d : UInt8) :
    be [a, b, c, d] = a.toNat * 2 ^ 24 + b.toNat * 2 ^ 16 + c.toNat * 2 ^ 8 + d.toNat := by
  simp [be]; omega

theorem be_be32 {n : Nat} (h : n < 2 ^ 32) : be (be32 n) = n := by
  unfold be32
  rw [be_quad]
  simp only [UInt8.toNat_ofNat']
  omega

theorem be_be16 {n : Nat} (h : n < 2 ^ 16) : be (be16 n) = n := by
  unfold be16
  rw [be_pair]
  simp only [UInt8.toNat_ofNat']
  omega

@[simp] theorem be32_length (n : Nat) : (be32 n).length = 4 := rfl

theorem toNat_ofNat_lt {n : Nat} (h : n < 2 ^ 32) : (UInt32.ofNat n).toNat = n := by
  rw [UInt32.toNat_ofNat']; exact Nat.mod_eq_of_lt h

theorem add_sub_self (a b : UInt32) : a + b - a = b := by rw [UInt32.add_comm, UInt32.add_sub_cancel]

theorem eq_ofNat {d : UInt32} {n : Nat} (h : d.toNat = n) : d = UInt32.ofNat n := by
  rw [← h]; exact UInt32.ofNat_toNat.symm

theorem ofNat_sub_ofNat {a b : Nat} (hb : b ≤ a) (ha : a < 2 ^ 32) : UInt32.ofNat a - UInt32.ofNat b = UInt32.ofNat (a - b) := by
  apply UInt32.toNat.inj
  rw [UInt32.toNat_sub, toNat_ofNat_lt ha, toNat_ofNat_lt (by omega), toNat_ofNat_lt (by omega)]
  omega

/-- A property of bytes holds if it does of the 256 numbers. -/
theorem byte_forall {P : UInt8 → Prop} (h : ∀ n < 256, P (UInt8.ofNat n)) (v : UInt8) : P v := by
  have := h v.toNat v.toNat_lt
  rwa [UInt8.ofNat_toNat] at this

namespace Ptr

/-! ## Reading through a pointer -/

@[simp] theorem add_addr (p : Ptr) (n : UInt32) : (p.add n).addr = p.addr + n := rfl
@[simp] theorem add_byte (p : Ptr) (n i : UInt32) : (p.add n).byte i = p.byte (n + i) := rfl

@[simp] theorem add_add (p : Ptr) (m n : UInt32) : (p.add m).add n = p.add (m + n) := by
  simp only [add, UInt32.add_assoc]

@[simp] theorem add_zero (p : Ptr) : p.add 0 = p := by
  simp only [add, UInt32.add_zero, UInt32.zero_add]

theorem word_add (p : Ptr) (m n : UInt32) : (p.add m).word n = p.word (m + n) := by
  simp only [word, add_byte, UInt32.add_assoc]

theorem half_lt (p : Ptr) (n : UInt32) : (p.half n).toNat < 65536 := by
  have h1 := (p.byte n).toNat_lt
  have h2 := (p.byte (n + 1)).toNat_lt
  rw [half, be_pair, toNat_ofNat_lt (by omega)]
  omega

/-! ## Bytes at a pointer -/

theorem Fits.of_addr {p q : Ptr} {n : Nat} (hq : q.Fits n) (h : p.addr = q.addr) : p.Fits n := by
  show p.addr.toNat + n < 2 ^ 32
  rw [h]; exact hq

theorem holds_nil (p : Ptr) : p.Holds [] := fun _ h => absurd h (Nat.not_lt_zero _)

theorem holds_append {p : Ptr} {xs ys : List UInt8} :
    p.Holds (xs ++ ys) ↔ p.Holds xs ∧ (p.add (UInt32.ofNat xs.length)).Holds ys := by
  constructor
  · intro h
    refine ⟨fun i hi => ?_, fun i hi => ?_⟩
    · have := h i (by rw [List.length_append]; omega)
      rwa [List.getElem_append_left hi] at this
    · have := h (xs.length + i) (by rw [List.length_append]; omega)
      rw [List.getElem_append_right (Nat.le_add_right _ _), UInt32.ofNat_add] at this
      simpa using this
  · rintro ⟨hx, hy⟩ i hi
    by_cases hlt : i < xs.length
    · rw [List.getElem_append_left hlt]; exact hx i hlt
    · have hi' : i - xs.length < ys.length := by rw [List.length_append] at hi; omega
      rw [List.getElem_append_right (by omega), ← hy _ hi', add_byte, ← UInt32.ofNat_add]
      congr 2; omega

theorem holds_left {p : Ptr} {xs ys : List UInt8} (h : p.Holds (xs ++ ys)) : p.Holds xs := (holds_append.mp h).1

theorem Holds.take {p : Ptr} {bs : List UInt8} (h : p.Holds bs) (k : Nat) : p.Holds (bs.take k) := by
  rw [← List.take_append_drop k bs] at h
  exact holds_left h

theorem Holds.drop {p : Ptr} {bs : List UInt8} (h : p.Holds bs) {k : Nat} (hk : k ≤ bs.length) :
    (p.add (UInt32.ofNat k)).Holds (bs.drop k) := by
  rw [← List.take_append_drop k bs, holds_append, List.length_take, Nat.min_eq_left hk] at h
  exact h.2

theorem ofBytes_holds {bs : List UInt8} (h : bs.length ≤ 2 ^ 32) : (ofBytes bs).Holds bs := fun i hi => by
  simp only [ofBytes, toNat_ofNat_lt (Nat.lt_of_lt_of_le hi h), List.getD_eq_getElem?_getD, List.getElem?_eq_getElem hi,
    Option.getD_some]

theorem placed_holds {bs : List UInt8} (h : bs.length ≤ 2 ^ 32) (addr : UInt32) : (placed addr bs).Holds bs :=
  ofBytes_holds h

theorem Holds.byte {p : Ptr} {bs : List UInt8} (h : p.Holds bs) {i : UInt32} (hi : i.toNat < bs.length) :
    p.byte i = bs[i.toNat] := by
  have := h i.toNat hi
  rwa [UInt32.ofNat_toNat] at this

/-- A word inside `bs` does not depend on where `bs` is. -/
theorem Holds.word_eq {p q : Ptr} {bs : List UInt8} (hp : p.Holds bs) (hq : q.Holds bs) {x : UInt32}
    (hx : x.toNat + 4 ≤ bs.length) (hlt : bs.length < 2 ^ 32) : p.word x = q.word x := by
  have step : ∀ k : UInt32, k.toNat < 4 → (x + k).toNat < bs.length := fun k hk => by
    rw [UInt32.toNat_add]; omega
  have at' : ∀ k : UInt32, k.toNat < 4 → p.byte (x + k) = q.byte (x + k) := fun k hk => by
    rw [hp.byte (step k hk), hq.byte (step k hk)]
  have h0 := at' 0 (by decide)
  rw [UInt32.add_zero] at h0
  simp only [word, h0, at' 1 (by decide), at' 2 (by decide), at' 3 (by decide)]

theorem word_of_holds {p : Ptr} {a b c d : UInt8} {rest : List UInt8} (h : p.Holds (a :: b :: c :: d :: rest)) :
    p.word 0 = UInt32.ofNat (be [a, b, c, d]) := by
  have h0 := h 0 (by simp)
  have h1 := h 1 (by simp)
  have h2 := h 2 (by simp)
  have h3 := h 3 (by simp)
  simp only [UInt32.reduceOfNat, List.getElem_cons_zero, List.getElem_cons_succ] at h0 h1 h2 h3
  simp only [word, UInt32.zero_add, h0, h1, h2, h3]

theorem byte_at {p : Ptr} (xs : List UInt8) {b : UInt8} {ys : List UInt8} (h : p.Holds (xs ++ b :: ys)) :
    p.byte (UInt32.ofNat xs.length) = b := by
  have := h xs.length (by simp)
  simpa using this

theorem half_at {p : Ptr} (xs : List UInt8) {n : Nat} {ys : List UInt8} (h : p.Holds (xs ++ (be16 n ++ ys))) (hn : n < 2 ^ 16) :
    p.half (UInt32.ofNat xs.length) = UInt32.ofNat n := by
  have h0 := byte_at xs (show p.Holds (xs ++ UInt8.ofNat (n / 2 ^ 8) :: UInt8.ofNat n :: ys) from h)
  have hsecond : p.Holds ((xs ++ [UInt8.ofNat (n / 2 ^ 8)]) ++ UInt8.ofNat n :: ys) := by simpa [be16] using h
  have h1 := byte_at _ hsecond
  rw [List.length_append, UInt32.ofNat_add] at h1
  rw [half, h0, show p.byte (UInt32.ofNat xs.length + 1) = _ from h1, ← be16, be_be16 hn]

theorem word_at {p : Ptr} (xs : List UInt8) {n : Nat} {ys : List UInt8} (h : p.Holds (xs ++ (be32 n ++ ys))) (hn : n < 2 ^ 32) :
    p.word (UInt32.ofNat xs.length) = UInt32.ofNat n := by
  have := word_of_holds (p := p.add (UInt32.ofNat xs.length)) (holds_append.mp h).2
  rw [word_add, UInt32.add_zero] at this
  rw [this, ← be32, be_be32 hn]

theorem bytes_of_holds {p : Ptr} {bs : List UInt8} (h : p.Holds bs) {n : UInt32} (hn : n.toNat = bs.length) :
    p.bytes n = bs := by
  refine List.ext_getElem (by simp [bytes, hn]) fun i h1 h2 => ?_
  simp only [bytes, List.getElem_map, List.getElem_range]
  exact h i h2

/-- Bytes copied to behind what a buffer holds extend it. -/
theorem memcpy_holds {dst src : Ptr} {xs ys : List UInt8} {d len : UInt32} (hd : dst.Holds xs) (hs : src.Holds ys)
    (hoff : d.toNat = xs.length) (hlen : len.toNat = ys.length) (hfit : xs.length + ys.length < 2 ^ 32) :
    (dst.memcpy d src len).Holds (xs ++ ys) := by
  obtain rfl := eq_ofNat hoff
  refine holds_append.mpr ⟨fun i hi => ?_, fun i hi => ?_⟩
  · have hlt : ¬ UInt32.ofNat i - UInt32.ofNat xs.length < len := by
      rw [UInt32.lt_iff_toNat_lt, UInt32.toNat_sub, toNat_ofNat_lt (by omega), toNat_ofNat_lt (by omega), hlen]
      omega
    simp only [memcpy, hlt, if_false]
    exact hd i hi
  · have hlt : UInt32.ofNat i < len := by
      rw [UInt32.lt_iff_toNat_lt, toNat_ofNat_lt (by omega), hlen]; exact hi
    simp only [add_byte, memcpy, add_sub_self, hlt, if_true]
    exact hs i hi

end Ptr

end Nfsdump.Wire
