/-
  Nfsdump.Wire.Declared — the length a header declares by its length words, in integers
  without bound, and the one `getRpcHeader` returns (nfsrecord.c).

  The result is the declared length up to multiples of 2^32, so a length word near 2^32 is
  taken for a short one. Proved (`declared_iff`): what is accepted has the length it declares
  and ends in front of the end of the address space, iff the tests in the way refuse the
  header, or the declared length does not wrap, or wraps to what no header can be.
-/

import Nfsdump.Wire.Placement

namespace Nfsdump.Wire

variable {bp : Ptr} {maxlen : UInt32}

/-- 24 bytes, the credential and the verifier of a call; 12 bytes and the verifier of a reply. -/
def declared (bp : Ptr) : Nat :=
  if bp.word 4 = CALL then 24 + authSize (bp.word 28) + authSize (bp.word (24 + authBytes (bp.word 28) + 4))
  else 12 + authSize (bp.word 16)

/-- The header passes the tests of `getRpcHeader` and `get_auth`. -/
def Passes (bp : Ptr) (maxlen : UInt32) : Prop :=
  let max_ptr := bp.addr + 4 * (maxlen / 4)
  (bp.word 4 = CALL ∧ bp.word 8 = RPC_VERSION ∧ (bp.word 12 = NFS_PROGRAM ∨ bp.word 12 = MOUNT_PROGRAM) ∧
      bp.addr + 28 < max_ptr ∧ bp.addr + (24 + authBytes (bp.word 28) + 4) < max_ptr ∧ bp.word 24 = AUTH_UNIX) ∨
    (bp.word 4 = REPLY ∧ bp.addr + 16 < max_ptr)

instance (bp : Ptr) (maxlen : UInt32) : Decidable (Passes bp maxlen) := inferInstanceAs (Decidable (_ ∨ _))

theorem authBytes_wraps (len : UInt32) : (authBytes len).toNat = authSize len % 2 ^ 32 := by
  have hlen := len.toNat_lt
  rw [authBytes, authSize, UInt32.toNat_mul, UInt32.toNat_div, UInt32.toNat_add]
  show 4 * ((len.toNat + 11) % 2 ^ 32 / 4) % 2 ^ 32 = _
  omega

theorem declared_wraps (bp : Ptr) : UInt32.ofNat (declared bp) =
    if bp.word 4 = CALL then 24 + authBytes (bp.word 28) + authBytes (bp.word (24 + authBytes (bp.word 28) + 4))
    else 12 + authBytes (bp.word 16) := by
  have size : ∀ len, UInt32.ofNat (authSize len) = authBytes len := by
    intro len
    apply UInt32.toNat.inj
    rw [authBytes_wraps, UInt32.toNat_ofNat']
  unfold declared
  split
  · rw [UInt32.ofNat_add, UInt32.ofNat_add, size, size]
    rfl
  · rw [UInt32.ofNat_add, size]
    rfl

theorem not_passes_rc (h : ¬ Passes bp maxlen) (euid egid : Int32) : (getRpcHeader bp maxlen euid egid).rc = -1 := by
  unfold Passes at h
  obtain ⟨hc, hr⟩ := not_or.mp h
  unfold getRpcHeader
  simp only
  by_cases hcall : bp.word 4 = CALL
  · rw [if_pos hcall]
    split
    · rfl
    rename_i hours
    rw [not_or, not_not, not_and_or, not_not, not_not] at hours
    split
    · rfl
    rename_i hcred
    split
    · rfl
    rename_i hverf
    rw [get_auth_rc, Ptr.word_add, UInt32.add_zero]
    by_cases hunix : bp.word 24 = AUTH_UNIX
    · exact absurd ⟨hcall, hours.1, hours.2, UInt32.not_le.mp hcred, UInt32.not_le.mp hverf, hunix⟩ hc
    · rw [if_neg hunix, if_pos (by decide)]
  · rw [if_neg hcall]
    split
    · rename_i hreply
      split
      · rfl
      · rename_i hverf
        exact absurd ⟨hreply, UInt32.not_le.mp hverf⟩ hr
    · rfl

theorem passes_rc (h : Passes bp maxlen) (euid egid : Int32) :
    (getRpcHeader bp maxlen euid egid).rc = (UInt32.ofNat (declared bp)).toInt32 := by
  rw [declared_wraps]
  unfold getRpcHeader
  simp only
  rcases h with ⟨hcall, hvers, hprog, hcred, hverf, hunix⟩ | ⟨hreply, hverf⟩
  · have hours : ¬ (bp.word 8 ≠ RPC_VERSION ∨ (bp.word 12 ≠ NFS_PROGRAM ∧ bp.word 12 ≠ MOUNT_PROGRAM)) := by
      rw [not_or, not_not, not_and_or, not_not, not_not]
      exact ⟨hvers, hprog⟩
    have hauth : ¬ (get_auth (bp.add 24) euid egid).rc ≠ 0 := by
      rw [get_auth_rc, Ptr.word_add, UInt32.add_zero, if_pos hunix]
      exact fun hno => hno rfl
    have hcred' : ¬ bp.addr + (24 + 4) ≥ bp.addr + 4 * (maxlen / 4) := UInt32.not_le.mpr hcred
    have hverf' : ¬ bp.addr + (24 + authBytes (bp.word (24 + 4)) + 4) ≥ bp.addr + 4 * (maxlen / 4) := UInt32.not_le.mpr hverf
    rw [if_pos hcall, if_pos hcall, if_neg hours, if_neg hcred', if_neg hverf', if_neg hauth]
    rfl
  · have hncall : ¬ bp.word 4 = CALL := by
      rw [hreply]
      decide
    have hverf' : ¬ bp.addr + (12 + 4) ≥ bp.addr + 4 * (maxlen / 4) := UInt32.not_le.mpr hverf
    rw [if_neg hncall, if_neg hncall, if_pos hreply, if_neg hverf']
    rfl

/-- An accepted header has the length it declares, and the pointers to its parts did not wrap. -/
def Exact (bp : Ptr) (rc : Int32) : Prop := 0 < rc → rc.toInt = declared bp ∧ bp.addr.toNat + declared bp < 2 ^ 32

theorem declared_iff (bp : Ptr) (maxlen : UInt32) (euid egid : Int32) :
    Exact bp (getRpcHeader bp maxlen euid egid).rc ↔
      (Passes bp maxlen → (declared bp < 2 ^ 31 ∧ bp.addr.toNat + declared bp < 2 ^ 32) ∨
        declared bp % 2 ^ 32 = 0 ∨ 2 ^ 31 ≤ declared bp % 2 ^ 32) := by
  by_cases hp : Passes bp maxlen
  swap
  · refine iff_of_true (fun hpos => ?_) fun h => absurd h hp
    rw [not_passes_rc hp] at hpos
    exact absurd hpos (by decide)
  unfold Exact
  rw [passes_rc hp, Int32.lt_iff_toInt_lt, toInt_ofNat_bmod]
  generalize declared bp = len
  have hzero : (0 : Int32).toInt = 0 := rfl
  rw [hzero]
  have hlow : len % 2 ^ 32 < 2 ^ 31 → (len : Int).bmod (2 ^ 32) = (len % 2 ^ 32 : Nat) := by
    intro h
    rw [Int.bmod_def]
    omega
  have hhigh : 2 ^ 31 ≤ len % 2 ^ 32 → (len : Int).bmod (2 ^ 32) < 0 := by
    intro h
    rw [Int.bmod_def]
    omega
  by_cases hr : len % 2 ^ 32 < 2 ^ 31
  · rw [hlow hr]
    constructor
    · intro h _
      by_cases h0 : len % 2 ^ 32 = 0
      · exact Or.inr (Or.inl h0)
      · obtain ⟨heq, haddr⟩ := h (by omega)
        exact Or.inl ⟨by omega, haddr⟩
    · intro h hpos
      rcases h hp with ⟨hlt, haddr⟩ | h0 | hge
      · exact ⟨by omega, haddr⟩
      · omega
      · omega
  · have hneg := hhigh (by omega)
    exact iff_of_true (fun hpos => absurd hpos (by omega)) fun _ => Or.inr (Or.inr (by omega))

/-- A credential length near 2^32 that is taken for none at all. -/
def wrappedCred : List UInt8 :=
  be32 7 ++ be32 0 ++ be32 2 ++ be32 100003 ++ be32 3 ++ be32 1 ++ be32 1 ++ be32 (2 ^ 32 - 11) ++ List.replicate 32 0

theorem wrapped_cred_accepted :
    (getRpcHeader (Ptr.ofBytes wrappedCred) 64 (-1) (-1)).rc = 24 ∧
      ¬ Exact (Ptr.ofBytes wrappedCred) (getRpcHeader (Ptr.ofBytes wrappedCred) 64 (-1) (-1)).rc := by
  have hrc : (getRpcHeader (Ptr.ofBytes wrappedCred) 64 (-1) (-1)).rc = 24 := by decide
  refine ⟨hrc, fun h => ?_⟩
  rw [hrc] at h
  exact absurd (h (by decide)).1 (by decide)

end Nfsdump.Wire
