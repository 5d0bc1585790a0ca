/-
  Nfsdump.Wire.SameBytes — what is read at one address of two memories that differ in front
  of it.

  Offsets wrap: the bytes in front of a pointer are the last ones behind it. `SameBytes`
  leaves those out. `getRpcHeader` moves into them only along a credential that claims a
  negative length (`getRpcHeader_same`).
-/

import Nfsdump.Wire.Placement

namespace Nfsdump.Wire

/-- `p` and `q` are one address, and the next `k` bytes are the same. -/
structure SameBytes (k : Nat) (p q : Ptr) : Prop where
  addr : p.addr = q.addr
  byte : ∀ i : UInt32, i.toNat < k → p.byte i = q.byte i

variable {k : Nat} {p q r : Ptr}

namespace SameBytes

theorem symm (h : SameBytes k p q) : SameBytes k q p := ⟨h.addr.symm, fun i hi => (h.byte i hi).symm⟩

theorem trans (h : SameBytes k p q) (h' : SameBytes k q r) : SameBytes k p r :=
  ⟨h.addr.trans h'.addr, fun i hi => (h.byte i hi).trans (h'.byte i hi)⟩

theorem add (h : SameBytes k p q) {n : UInt32} {j : Nat} (hj : n.toNat + j ≤ k) (hk : k ≤ 2 ^ 32) :
    SameBytes j (p.add n) (q.add n) := by
  refine ⟨by rw [Ptr.add_addr, Ptr.add_addr, h.addr], fun i hi => h.byte _ ?_⟩
  rw [UInt32.toNat_add]
  omega

theorem half (h : SameBytes k p q) {n : UInt32} (hn : n.toNat + 2 ≤ k) (hk : k ≤ 2 ^ 32) : p.half n = q.half n := by
  have h1 : p.byte (n + 1) = q.byte (n + 1) := h.byte _ (by
    rw [UInt32.toNat_add, show (1 : UInt32).toNat = 1 from rfl]
    omega)
  unfold Ptr.half
  rw [h.byte n (by omega), h1]

theorem word (h : SameBytes k p q) {n : UInt32} (hn : n.toNat + 4 ≤ k) (hk : k ≤ 2 ^ 32) : p.word n = q.word n := by
  have hb : ∀ j : UInt32, j.toNat < 4 → p.byte (n + j) = q.byte (n + j) := fun j hj => h.byte _ (by
    rw [UInt32.toNat_add]
    omega)
  unfold Ptr.word
  rw [h.byte n (by omega), hb 1 (by decide), hb 2 (by decide), hb 3 (by decide)]

theorem holds (h : SameBytes k p q) {bs : List UInt8} (hq : q.Holds bs) (hbs : bs.length ≤ k) (hk : k ≤ 2 ^ 32) : p.Holds bs := by
  intro i hi
  rw [h.byte _ (by rw [toNat_ofNat_lt (by omega)]; omega)]
  exact hq i hi

theorem memcpy (h : SameBytes k p q) (dst : Ptr) (d : UInt32) {len : UInt32} (hlen : len.toNat ≤ k) :
    dst.memcpy d p len = dst.memcpy d q len := by
  unfold Ptr.memcpy
  congr 1
  funext i
  split
  · rename_i hi
    exact h.byte _ (Nat.lt_of_lt_of_le (UInt32.lt_iff_toNat_lt.mp hi) hlen)
  · rfl

end SameBytes

/-- The message is not a call that claims a negative length for its credential. -/
def SaneCredential (bp : Ptr) : Prop := bp.word 4 = CALL → (bp.word 28).toNat < 2 ^ 31

theorem authBytes_le {len : UInt32} (h : len.toNat < 2 ^ 31) : (authBytes len).toNat ≤ len.toNat + 11 := by
  rw [authBytes, UInt32.toNat_mul, UInt32.toNat_div, UInt32.toNat_add, show (11 : UInt32).toNat = 11 from rfl,
    show (4 : UInt32).toNat = 4 from rfl]
  omega

theorem getRpcHeader_same (h : SameBytes 0xB0000000 p q) (hs : SaneCredential p) (n : UInt32) :
    (getRpcHeader p n (-1) (-1)).rc = (getRpcHeader q n (-1) (-1)).rc ∧
      (getRpcHeader p n (-1) (-1)).dir = (getRpcHeader q n (-1) (-1)).dir := by
  have fixed : ∀ x : UInt32, x.toNat ≤ 28 → q.word x = p.word x := fun x hx => h.symm.word (by omega) (by decide)
  have hauth : (get_auth (q.add 24) (-1) (-1)).rc = (get_auth (p.add 24) (-1) (-1)).rc := by
    rw [get_auth_rc, get_auth_rc, Ptr.word_add, Ptr.word_add, fixed (24 + 0) (by decide)]
  unfold getRpcHeader
  simp only
  rw [fixed 4 (by decide), fixed 8 (by decide), fixed 12 (by decide), fixed (24 + 4) (by decide), fixed (12 + 4) (by decide),
    h.addr, hauth]
  by_cases hcall : p.word 4 = CALL
  · -- the verifier's length stands behind the credential
    have hlen := authBytes_le (hs hcall)
    have hshort := hs hcall
    have hverf : q.word (24 + authBytes (p.word (24 + 4)) + 4) = p.word (24 + authBytes (p.word (24 + 4)) + 4) := by
      refine h.symm.word ?_ (by decide)
      rw [UInt32.toNat_add, UInt32.toNat_add, show (24 : UInt32).toNat = 24 from rfl, show (4 : UInt32).toNat = 4 from rfl,
        show (24 : UInt32) + 4 = 28 from rfl]
      omega
    rw [if_pos hcall, if_pos hcall, hverf]
    split
    · exact ⟨rfl, rfl⟩
    split
    · exact ⟨rfl, rfl⟩
    split
    · exact ⟨rfl, rfl⟩
    split
    · exact ⟨rfl, rfl⟩
    · exact ⟨rfl, rfl⟩
  · rw [if_neg hcall, if_neg hcall]
    split
    · split
      · exact ⟨rfl, rfl⟩
      · exact ⟨rfl, rfl⟩
    · exact ⟨rfl, rfl⟩

end Nfsdump.Wire
