/-
  Nfsdump.Wire.Placement — what `getRpcHeader` makes of a message does not depend on where
  the message lies, nor on how much more of the packet follows it.

  A message is accepted when its header, read from the message alone, ends inside it
  (`Accepted`). `getRpcHeader_placed`: then the same header length and direction come out at
  every address and under every limit that leaves room for the message.
  `getRpcHeader_inside`: what comes out for a message whose header ends inside it, accepted
  or not, with a limit at the message's end.
-/

import Nfsdump.Wire.RpcHeader

namespace Nfsdump.Wire

variable {m : List UInt8} {p : Ptr} {n x : UInt32}

/-! ## The bound tests -/

theorem authBytes_mod4 (len : UInt32) : (authBytes len).toNat % 4 = 0 := by
  rw [authBytes, UInt32.toNat_mul]
  show 4 * ((len + 11) / 4).toNat % 2 ^ 32 % 4 = 0
  omega

theorem end_toNat (n : UInt32) : (4 * (n / 4)).toNat = 4 * (n.toNat / 4) := by
  have hn := n.toNat_lt
  rw [UInt32.toNat_mul, UInt32.toNat_div]
  show 4 * (n.toNat / 4) % 2 ^ 32 = _
  omega

/-- A word in front of the last one passes the test, wherever the message is. -/
theorem not_past_end (hfit : p.Fits n.toNat) (hx : x.toNat < 4 * (n.toNat / 4)) :
    ¬ p.addr + x ≥ p.addr + 4 * (n / 4) := by
  have hfit' : p.addr.toNat + n.toNat < 2 ^ 32 := hfit
  rw [ge_iff_le, UInt32.le_iff_toNat_le, UInt32.toNat_add, UInt32.toNat_add, end_toNat]
  omega

/-- At address 0 nothing else passes it. -/
theorem past_end_zero (h : ¬ (0 : UInt32) + x ≥ 0 + 4 * (n / 4)) : x.toNat < 4 * (n.toNat / 4) := by
  rw [UInt32.zero_add, UInt32.zero_add, ge_iff_le, UInt32.le_iff_toNat_le, end_toNat] at h
  omega

/-! ## The header of a message -/

/-- The header read from the message alone. -/
def header (m : List UInt8) : RpcHeader := getRpcHeader (Ptr.ofBytes m) (UInt32.ofNat m.length) (-1) (-1)

/-- The message has a header `getRpcHeader` accepts and `k` bytes or more behind it. -/
def Accepted (k : Nat) (m : List UInt8) : Prop :=
  0 < (header m).rc ∧ (header m).rc.toUInt32.toNat + k ≤ m.length

instance (k : Nat) (m : List UInt8) : Decidable (Accepted k m) := inferInstanceAs (Decidable (_ ∧ _))

/-- A word that passes the test in the message alone passes it everywhere and is the same. -/
theorem word_placed (hp : p.Holds m) (hlen : m.length ≤ n.toNat) (hfit : p.Fits n.toNat) (h4 : x.toNat % 4 = 0)
    (h : ¬ (Ptr.ofBytes m).addr + x ≥ (Ptr.ofBytes m).addr + 4 * (UInt32.ofNat m.length / 4)) :
    ¬ p.addr + x ≥ p.addr + 4 * (n / 4) ∧ p.word x = (Ptr.ofBytes m).word x ∧ x.toNat + 4 ≤ m.length := by
  have hm : m.length < 2 ^ 32 := Nat.lt_of_le_of_lt hlen n.toNat_lt
  have hin := past_end_zero h
  rw [toNat_ofNat_lt hm] at hin
  refine ⟨not_past_end hfit (by omega), hp.word_eq (Ptr.ofBytes_holds (Nat.le_of_lt hm)) (by omega) hm, by omega⟩

theorem add_mod4 {a b : UInt32} (ha : a.toNat % 4 = 0) (hb : b.toNat % 4 = 0) : (a + b).toNat % 4 = 0 := by
  rw [UInt32.toNat_add]; omega

theorem get_auth_rc (p : Ptr) (euid egid : Int32) : (get_auth p euid egid).rc = if p.word 0 = AUTH_UNIX then 0 else -1 := by
  unfold get_auth
  by_cases h : p.word 0 = AUTH_UNIX
  · rw [if_neg (not_not.mpr h), if_pos h]
  · rw [if_pos h, if_neg h]

/-- The fixed words in front of a message's first `k` bytes. -/
theorem fixed_words (hp : p.Holds m) (hm : m.length < 2 ^ 32) {k : Nat} (hk : k ≤ m.length) :
    ∀ x : UInt32, x.toNat + 4 ≤ k → p.word x = (Ptr.ofBytes m).word x := fun _ hx =>
  hp.word_eq (Ptr.ofBytes_holds (Nat.le_of_lt hm)) (Nat.le_trans hx hk) hm

/-- The header length and the direction of a message with a header are the same wherever it
    lies. -/
theorem getRpcHeader_placed (hp : p.Holds m) (hlen : m.length ≤ n.toNat) (hfit : p.Fits n.toNat) (h : 0 < (header m).rc) :
    (getRpcHeader p n (-1) (-1)).rc = (header m).rc ∧ (getRpcHeader p n (-1) (-1)).dir = (header m).dir := by
  have hm : m.length < 2 ^ 32 := Nat.lt_of_le_of_lt hlen n.toNat_lt
  have neg : ¬ (0 : Int32) < -1 := by decide
  unfold header getRpcHeader at h ⊢
  simp only at h ⊢
  by_cases hcall : (Ptr.ofBytes m).word 4 = CALL
  · rw [if_pos hcall] at h ⊢
    split at h
    · exact absurd h neg
    rename_i hvers
    rw [if_neg hvers]
    split at h
    · exact absurd h neg
    rename_i hcred
    rw [if_neg hcred]
    obtain ⟨ecred, wcred, lcred⟩ := word_placed hp hlen hfit (by decide) hcred
    have fixed := fixed_words hp hm (Nat.le_of_add_right_le lcred)
    rw [fixed 4 (by decide), if_pos hcall, fixed 8 (by decide), fixed 12 (by decide), if_neg hvers, if_neg ecred, wcred]
    split at h
    · exact absurd h neg
    rename_i hverf
    rw [if_neg hverf]
    obtain ⟨everf, wverf, _⟩ := word_placed hp hlen hfit
      (add_mod4 (add_mod4 (by decide) (authBytes_mod4 _)) (by decide)) hverf
    rw [if_neg everf, wverf]
    split at h
    · exact absurd h neg
    rename_i hauth
    rw [if_neg hauth]
    have hauth' : ¬ (get_auth (p.add 24) (-1) (-1)).rc ≠ 0 := by
      rw [get_auth_rc] at hauth ⊢
      rw [Ptr.word_add] at hauth ⊢
      rwa [fixed (24 + 0) (by decide)]
    rw [if_neg hauth']
    exact ⟨rfl, rfl⟩
  · rw [if_neg hcall] at h ⊢
    split at h
    · rename_i hreply
      rw [if_pos hreply]
      split at h
      · exact absurd h neg
      rename_i hverf
      rw [if_neg hverf]
      obtain ⟨everf, wverf, lverf⟩ := word_placed hp hlen hfit (by decide) hverf
      have fixed := fixed_words hp hm (Nat.le_of_add_right_le lverf)
      rw [fixed 4 (by decide), if_neg hcall, if_pos hreply, if_neg everf, wverf]
      exact ⟨rfl, rfl⟩
    · exact absurd h neg

/-! ## Complete messages -/

/-- The bytes of an `opaque_auth`: flavor, length, and the body padded to whole words. -/
def authSize (len : UInt32) : Nat := 8 + 4 * ((len.toNat + 3) / 4)

/-- Where a call's verifier starts. -/
def verfOffset (m : List UInt8) : Nat := 24 + authSize ((Ptr.ofBytes m).word 28)

def headerLength (m : List UInt8) : Nat :=
  if (Ptr.ofBytes m).word 4 = CALL then verfOffset m + authSize ((Ptr.ofBytes m).word (UInt32.ofNat (verfOffset m + 4)))
  else 12 + authSize ((Ptr.ofBytes m).word 16)

/-- A call with at least one byte of arguments, or a reply with at least its two status words. -/
def Complete (m : List UInt8) : Prop :=
  ((Ptr.ofBytes m).word 4 = CALL ∧ headerLength m + 1 ≤ m.length) ∨
    ((Ptr.ofBytes m).word 4 = REPLY ∧ headerLength m + 8 ≤ m.length)

instance (m : List UInt8) : Decidable (Complete m) := inferInstanceAs (Decidable (_ ∨ _))

/-- A call `getRpcHeader` takes, or any reply. -/
def Taken (m : List UInt8) : Prop :=
  (Ptr.ofBytes m).word 4 = CALL → (Ptr.ofBytes m).word 8 = RPC_VERSION ∧
    ((Ptr.ofBytes m).word 12 = NFS_PROGRAM ∨ (Ptr.ofBytes m).word 12 = MOUNT_PROGRAM) ∧
    (Ptr.ofBytes m).word 24 = AUTH_UNIX

instance (m : List UInt8) : Decidable (Taken m) := inferInstanceAs (Decidable (_ → _))

theorem authBytes_eq {len : UInt32} (h : authSize len < 2 ^ 32) : authBytes len = UInt32.ofNat (authSize len) := by
  unfold authSize at h ⊢
  apply UInt32.toNat.inj
  rw [toNat_ofNat_lt h, authBytes, UInt32.toNat_mul, UInt32.toNat_div, UInt32.toNat_add]
  show 4 * ((len.toNat + 11) % 2 ^ 32 / 4) % 2 ^ 32 = _
  omega

theorem toInt_ofNat_bmod (n : Nat) : (UInt32.ofNat n).toInt32.toInt = (n : Int).bmod (2 ^ 32) := BitVec.toInt_ofNat' n

theorem toInt_of_length {n : Nat} (hn : n < 2 ^ 31) : (UInt32.ofNat n).toInt32.toInt = n := by
  rw [toInt_ofNat_bmod]
  exact Int.bmod_eq_of_le (by omega) (by omega)

theorem Complete.length_lt (hm : Complete m) : headerLength m < m.length := by
  rcases hm with ⟨_, h⟩ | ⟨_, h⟩
  · omega
  · omega

theorem headerLength_call (h : (Ptr.ofBytes m).word 4 = CALL) : 40 ≤ headerLength m := by
  unfold headerLength verfOffset authSize
  rw [if_pos h]
  omega

theorem authSize_mod4 (len : UInt32) : authSize len % 4 = 0 := by unfold authSize; omega

/-- A word of the message passes the bound test. -/
theorem word_inside (hfit : p.Fits n.toNat) (hn : n.toNat = m.length) (h4 : x.toNat % 4 = 0)
    (hx : x.toNat + 4 ≤ m.length) : ¬ p.addr + x ≥ p.addr + 4 * (n / 4) := not_past_end hfit (by omega)

/-- A call or a reply with a header that ends inside it. -/
def HeaderInside (m : List UInt8) : Prop :=
  ((Ptr.ofBytes m).word 4 = CALL ∨ (Ptr.ofBytes m).word 4 = REPLY) ∧ headerLength m ≤ m.length

theorem Complete.headerInside (hm : Complete m) : HeaderInside m := by
  have hlen := hm.length_lt
  rcases hm with ⟨hcall, _⟩ | ⟨hreply, _⟩
  · exact ⟨Or.inl hcall, by omega⟩
  · exact ⟨Or.inr hreply, by omega⟩

theorem getRpcHeader_inside (hp : p.Holds m) (hfit : p.Fits n.toNat) (hn : n.toNat = m.length) (hm : HeaderInside m) :
    (getRpcHeader p n (-1) (-1)).rc = (if Taken m then (UInt32.ofNat (headerLength m)).toInt32 else -1) ∧
      (getRpcHeader p n (-1) (-1)).dir = (Ptr.ofBytes m).word 4 := by
  have hlt : m.length < 2 ^ 32 := by rw [← hn]; exact n.toNat_lt
  have words : ∀ x : UInt32, x.toNat + 4 ≤ m.length → p.word x = (Ptr.ofBytes m).word x := fixed_words hp hlt (Nat.le_refl _)
  unfold getRpcHeader
  simp only
  obtain ⟨hdir, hm⟩ := hm
  rcases hdir with hcall | hreply
  · have hhl : headerLength m = verfOffset m + authSize ((Ptr.ofBytes m).word (UInt32.ofNat (verfOffset m + 4))) :=
      if_pos hcall
    have hv : verfOffset m = 24 + authSize ((Ptr.ofBytes m).word 28) := rfl
    have h8 : ∀ len, 8 ≤ authSize len := fun len => Nat.le_add_right _ _
    have hv8 := h8 ((Ptr.ofBytes m).word 28)
    have hv4 := authSize_mod4 ((Ptr.ofBytes m).word 28)
    have hh8 := h8 ((Ptr.ofBytes m).word (UInt32.ofNat (verfOffset m + 4)))
    have fixed : ∀ x : UInt32, x.toNat ≤ 28 → p.word x = (Ptr.ofBytes m).word x := fun x hx => words x (by omega)
    have hverf : (24 : UInt32) + authBytes ((Ptr.ofBytes m).word 28) = UInt32.ofNat (verfOffset m) := by
      rw [authBytes_eq (by omega), hv, UInt32.ofNat_add]
      rfl
    have hverf4 : UInt32.ofNat (verfOffset m) + 4 = UInt32.ofNat (verfOffset m + 4) := (UInt32.ofNat_add _ _).symm
    rw [fixed 4 (by decide), if_pos hcall, fixed 8 (by decide), fixed 12 (by decide), fixed (24 + 4) (by decide),
      show (24 : UInt32) + 4 = 28 from rfl, hverf, hverf4, words _ (by rw [toNat_ofNat_lt (by omega)]; omega),
      get_auth_rc, Ptr.word_add, fixed (24 + 0) (by decide), show (24 : UInt32) + 0 = 24 from rfl]
    by_cases hbad : (Ptr.ofBytes m).word 8 ≠ RPC_VERSION ∨
        ((Ptr.ofBytes m).word 12 ≠ NFS_PROGRAM ∧ (Ptr.ofBytes m).word 12 ≠ MOUNT_PROGRAM)
    · have hnot : ¬ Taken m := fun ht => by
        obtain ⟨h1, h2, _⟩ := ht hcall
        exact hbad.elim (fun h => h h1) fun h => h2.elim h.1 h.2
      rw [if_pos hbad, if_neg hnot]
      exact ⟨rfl, rfl⟩
    rw [if_neg hbad, if_neg (word_inside hfit hn (by decide) (by show 28 + 4 ≤ _; omega)),
      if_neg (word_inside hfit hn (by rw [toNat_ofNat_lt (by omega)]; omega) (by rw [toNat_ofNat_lt (by omega)]; omega))]
    by_cases hauth : (Ptr.ofBytes m).word 24 = AUTH_UNIX
    · have ht : Taken m := fun _ => by
        rw [not_or, not_not, not_and_or, not_not, not_not] at hbad
        exact ⟨hbad.1, hbad.2, hauth⟩
      rw [if_pos hauth, if_neg (by decide), if_pos ht]
      refine ⟨?_, rfl⟩
      rw [hhl, authBytes_eq (by omega), ← UInt32.ofNat_add]
    · have hnot : ¬ Taken m := fun ht => hauth (ht hcall).2.2
      rw [if_neg hauth, if_pos (by decide), if_neg hnot]
      exact ⟨rfl, rfl⟩
  · have hncall : ¬ (Ptr.ofBytes m).word 4 = CALL := by rw [hreply]; decide
    have hhl : headerLength m = 12 + authSize ((Ptr.ofBytes m).word 16) := if_neg hncall
    have h8 : 8 ≤ authSize ((Ptr.ofBytes m).word 16) := Nat.le_add_right _ _
    have ht : Taken m := fun h => absurd h hncall
    rw [words 4 (by show 4 + 4 ≤ _; omega), if_neg hncall, if_pos hreply, words (12 + 4) (by show 16 + 4 ≤ _; omega),
      show (12 : UInt32) + 4 = 16 from rfl, if_neg (word_inside hfit hn (by decide) (by show 16 + 4 ≤ _; omega)),
      if_pos ht, hhl, UInt32.ofNat_add, authBytes_eq (by omega)]
    exact ⟨rfl, rfl⟩

theorem getRpcHeader_complete (hp : p.Holds m) (hfit : p.Fits n.toNat) (hn : n.toNat = m.length) (hm : Complete m) :
    (getRpcHeader p n (-1) (-1)).rc = (if Taken m then (UInt32.ofNat (headerLength m)).toInt32 else -1) ∧
      (getRpcHeader p n (-1) (-1)).dir = (Ptr.ofBytes m).word 4 := getRpcHeader_inside hp hfit hn hm.headerInside

end Nfsdump.Wire
