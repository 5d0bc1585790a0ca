/-
  Nfsdump.Wire.Measure — RPC headers as they are laid out on the wire, and what
  `getRpcHeader` makes of them (nfsrecord.c).

  A call is six words, the credential and the verifier; the credential's body holds a
  machine name of any length, padded like the bodies themselves.

  Proved (`getRpcHeader_measures`): of a call or an accepted reply that is all there, in any
  limit, the length of the header, the direction and the credential's ids are read.
-/

import Nfsdump.Lib.Xdr
import Nfsdump.Wire.Placement

namespace Nfsdump.Wire

open Xdr

def MSG_ACCEPTED : UInt32 := 0

/-! ## The layout -/

structure OpaqueAuth where
  flavor : UInt32
  body : List UInt8
  bound : body.length ≤ 400

def OpaqueAuth.xdr (a : OpaqueAuth) : List UInt32 := a.flavor :: counted a.body

structure AuthUnix where
  stamp : UInt32
  machinename : List UInt8
  uid : UInt32
  gid : UInt32
  gids : List UInt32
  name_le : machinename.length ≤ 255
  gids_le : gids.length ≤ 16

/-- The body of the credential. -/
def AuthUnix.parms (a : AuthUnix) : List UInt32 :=
  a.stamp :: (counted a.machinename ++ (a.uid :: a.gid :: array (fun g => [g]) a.gids))

theorem array_words_length (gs : List UInt32) : (array (fun g => [g]) gs).length = 1 + gs.length := by
  rw [array, List.length_cons, List.length_flatMap]
  simp [Nat.add_comm]

theorem AuthUnix.parms_length (a : AuthUnix) : a.parms.length = 5 + (a.machinename.length + 3) / 4 + a.gids.length := by
  unfold AuthUnix.parms
  simp only [List.length_cons, List.length_append, counted_length, array_words_length]
  omega

def AuthUnix.auth (a : AuthUnix) : OpaqueAuth where
  flavor := AUTH_UNIX
  body := wire a.parms
  bound := by
    have hname := a.name_le
    have hgids := a.gids_le
    rw [wire_length, a.parms_length]
    omega

structure CallHeader where
  xid : UInt32
  prog : UInt32
  vers : UInt32
  proc : UInt32
  cred : AuthUnix
  verf : OpaqueAuth
  ours : prog = NFS_PROGRAM ∨ prog = MOUNT_PROGRAM

def CallHeader.xdr (c : CallHeader) : List UInt32 :=
  c.xid :: CALL :: RPC_VERSION :: c.prog :: c.vers :: c.proc :: (c.cred.auth.xdr ++ c.verf.xdr)

/-- Up to `accept_stat`. -/
structure ReplyHeader where
  xid : UInt32
  verf : OpaqueAuth

def ReplyHeader.xdr (r : ReplyHeader) : List UInt32 := r.xid :: REPLY :: MSG_ACCEPTED :: r.verf.xdr

/-! ## Units in memory -/

variable {p : Ptr} {maxlen : UInt32} {us : List UInt32}

/-- The unit `j` behind a pointer. -/
def unitAt (p : Ptr) (j : Nat) : UInt32 := p.word (UInt32.ofNat (4 * j))

theorem at_of_wire (h : p.Holds (wire us)) : At (unitAt p) 0 us := by
  intro j hj
  have hsplit : wire us = wire (us.take j) ++ (be32 (us[j]).toNat ++ wire (us.drop (j + 1))) := by
    conv_lhs => rw [← List.take_append_drop j us, List.drop_eq_getElem_cons hj]
    rw [wire_append, wire_cons]
    rfl
  rw [hsplit] at h
  have hword := Ptr.word_at (wire (us.take j)) h (UInt32.toNat_lt _)
  have hlen : (wire (us.take j)).length = 4 * j := by rw [wire_length, List.length_take, Nat.min_eq_left (by omega)]
  rw [hlen, UInt32.ofNat_toNat] at hword
  rw [Nat.zero_add]
  exact hword

/-- A unit in front of the limit passes the bound test. -/
theorem unit_inside (hfit : p.Fits maxlen.toNat) {j : Nat} (hj : 4 * j + 4 ≤ maxlen.toNat) :
    ¬ p.addr + UInt32.ofNat (4 * j) ≥ p.addr + 4 * (maxlen / 4) := by
  have hmax := maxlen.toNat_lt
  exact not_past_end hfit (by rw [toNat_ofNat_lt (by omega)]; omega)

theorem OpaqueAuth.xdr_length (a : OpaqueAuth) : a.xdr.length = 2 + (a.body.length + 3) / 4 := by
  unfold OpaqueAuth.xdr
  rw [List.length_cons, counted_length]
  omega

/-- The pointer moves past the flavor, the length and the body. -/
theorem authBytes_measures (a : OpaqueAuth) : authBytes (UInt32.ofNat a.body.length) = UInt32.ofNat (4 * a.xdr.length) := by
  have hbound := a.bound
  have hlen : (UInt32.ofNat a.body.length).toNat = a.body.length := toNat_ofNat_lt (by omega)
  have hsize : authSize (UInt32.ofNat a.body.length) = 4 * a.xdr.length := by
    rw [authSize, hlen, a.xdr_length]
    omega
  rw [authBytes_eq (by rw [hsize, a.xdr_length]; omega), hsize]

/-! ## What is read of it -/

/-- The length of the machine name, in words. -/
theorem words_of_length {n : Nat} (hn : n < 2 ^ 32) :
    (if UInt32.ofNat n % 4 ≠ 0 then UInt32.ofNat n / 4 + 1 else UInt32.ofNat n / 4) = UInt32.ofNat ((n + 3) / 4) := by
  have h4 : (4 : UInt32).toNat = 4 := rfl
  have hrest : UInt32.ofNat n % 4 = 0 ↔ n % 4 = 0 := by
    rw [← UInt32.toNat_inj, UInt32.toNat_mod, toNat_ofNat_lt hn]
    rfl
  apply UInt32.toNat.inj
  rw [toNat_ofNat_lt (by omega)]
  split
  · rename_i h
    rw [ne_eq, hrest] at h
    rw [UInt32.toNat_add, UInt32.toNat_div, toNat_ofNat_lt hn, h4]
    show (n / 4 + 1) % 2 ^ 32 = _
    omega
  · rename_i h
    rw [not_ne_iff, hrest] at h
    rw [UInt32.toNat_div, toNat_ofNat_lt hn, h4]
    omega

theorem get_auth_measures {a : AuthUnix} (h : At (unitAt p) 6 a.auth.xdr) (euid egid : Int32) :
    get_auth (p.add 24) euid egid = ⟨0, a.uid.toInt32, a.gid.toInt32, none⟩ := by
  have hname := a.name_le
  unfold OpaqueAuth.xdr AuthUnix.auth counted at h
  rw [pack_wire] at h
  unfold AuthUnix.parms counted at h
  simp only [at_cons, at_append, List.cons_append] at h
  obtain ⟨hflavor, -, -, hlen, -, huid, hgid, -⟩ := h
  rw [pack_length] at huid hgid
  have hword24 : p.word (24 + 0) = AUTH_UNIX := hflavor
  have hword36 : p.word (24 + 12) = UInt32.ofNat a.machinename.length := hlen
  have hpi : (24 : UInt32) + (16 + 4 * UInt32.ofNat ((a.machinename.length + 3) / 4)) =
      UInt32.ofNat (4 * (10 + (a.machinename.length + 3) / 4)) := by
    rw [Nat.mul_add, UInt32.ofNat_add, UInt32.ofNat_mul 4 ((a.machinename.length + 3) / 4), ← UInt32.add_assoc]
    rfl
  have hpi4 : (24 : UInt32) + (16 + 4 * UInt32.ofNat ((a.machinename.length + 3) / 4) + 4) =
      UInt32.ofNat (4 * (10 + (a.machinename.length + 3) / 4 + 1)) := by
    rw [← UInt32.add_assoc, hpi, Nat.mul_add 4 _ 1, UInt32.ofNat_add]
    rfl
  unfold get_auth
  simp only [Ptr.word_add]
  rw [hword24, hword36, words_of_length (by omega), hpi, hpi4, if_neg (not_not.mpr rfl)]
  show Auth.mk 0 (unitAt p _).toInt32 (unitAt p _).toInt32 none = _
  rw [huid, hgid]

theorem OpaqueAuth.xdr_le (a : OpaqueAuth) : 2 ≤ a.xdr.length ∧ a.xdr.length ≤ 102 := by
  have hbound := a.bound
  rw [a.xdr_length]
  omega

theorem CallHeader.xdr_length (c : CallHeader) : c.xdr.length = 6 + c.cred.auth.xdr.length + c.verf.xdr.length := by
  unfold CallHeader.xdr
  simp only [List.length_cons, List.length_append]
  omega

theorem ReplyHeader.xdr_length (r : ReplyHeader) : r.xdr.length = 3 + r.verf.xdr.length := by
  unfold ReplyHeader.xdr
  simp only [List.length_cons]
  omega

/-- Past the opaque that starts at unit `i`. -/
theorem past_auth {i : Nat} {a : OpaqueAuth} (h : At (unitAt p) i a.xdr) :
    UInt32.ofNat (4 * i) + authBytes (unitAt p (i + 1)) = UInt32.ofNat (4 * (i + a.xdr.length)) := by
  have hlen : unitAt p (i + 1) = UInt32.ofNat a.body.length := by
    unfold OpaqueAuth.xdr counted at h
    simp only [at_cons] at h
    exact h.2.1
  rw [hlen, authBytes_measures, Nat.mul_add, UInt32.ofNat_add]

theorem getRpcHeader_call (hfit : p.Fits maxlen.toNat) (c : CallHeader) (hp : p.Holds (wire c.xdr))
    (hall : (wire c.xdr).length ≤ maxlen.toNat) (euid egid : Int32) :
    getRpcHeader p maxlen euid egid =
      ⟨(UInt32.ofNat (wire c.xdr).length).toInt32, CALL, c.cred.uid.toInt32, c.cred.gid.toInt32, none⟩ := by
  have hat := at_of_wire hp
  obtain ⟨hcred, -⟩ := c.cred.auth.xdr_le
  obtain ⟨hverf, -⟩ := c.verf.xdr_le
  rw [wire_length, c.xdr_length] at hall ⊢
  unfold CallHeader.xdr at hat
  simp only [at_cons, at_append, Nat.zero_add, Nat.reduceAdd] at hat
  obtain ⟨-, hdir, hvers, hprog, -, -, hatc, hatv⟩ := hat
  have hbad : ¬ (p.word 8 ≠ RPC_VERSION ∨ (p.word 12 ≠ NFS_PROGRAM ∧ p.word 12 ≠ MOUNT_PROGRAM)) := by
    have h8 : p.word 8 = RPC_VERSION := hvers
    have h12 : p.word 12 = c.prog := hprog
    rw [h8, h12]
    rcases c.ours with h | h
    · exact fun hno => hno.elim (fun h8 => h8 rfl) fun h12 => h12.1 h
    · exact fun hno => hno.elim (fun h8 => h8 rfl) fun h12 => h12.2 h
  have htest : ¬ p.addr + (24 + 4) ≥ p.addr + 4 * (maxlen / 4) := unit_inside hfit (by omega : 4 * 7 + 4 ≤ maxlen.toNat)
  have hafter : (24 : UInt32) + authBytes (p.word (24 + 4)) = UInt32.ofNat (4 * (6 + c.cred.auth.xdr.length)) := past_auth hatc
  have hnext : UInt32.ofNat (4 * (6 + c.cred.auth.xdr.length)) + 4 = UInt32.ofNat (4 * (6 + c.cred.auth.xdr.length + 1)) := by
    rw [Nat.mul_add 4 _ 1, UInt32.ofNat_add]
    rfl
  have hend := past_auth hatv
  unfold unitAt at hend
  unfold getRpcHeader
  simp only
  rw [show p.word 4 = CALL from hdir, if_pos rfl, if_neg hbad, if_neg htest, hafter, hnext,
    if_neg (unit_inside hfit (by omega)), get_auth_measures hatc, if_neg fun hno => hno rfl, hend]

theorem getRpcHeader_reply (hfit : p.Fits maxlen.toNat) (r : ReplyHeader) (accept_stat : UInt32)
    (hp : p.Holds (wire (r.xdr ++ [accept_stat])))
    (hall : (wire (r.xdr ++ [accept_stat])).length ≤ maxlen.toNat) (euid egid : Int32) :
    getRpcHeader p maxlen euid egid = ⟨(UInt32.ofNat (wire r.xdr).length).toInt32, REPLY, euid, egid, none⟩ := by
  have hat := at_of_wire hp
  obtain ⟨hverf, -⟩ := r.verf.xdr_le
  rw [wire_length, List.length_append, List.length_singleton, r.xdr_length] at hall
  rw [wire_length, r.xdr_length]
  rw [at_append] at hat
  replace hat := hat.1
  unfold ReplyHeader.xdr at hat
  simp only [at_cons, Nat.zero_add, Nat.reduceAdd] at hat
  obtain ⟨-, hdir, -, hatv⟩ := hat
  have htest : ¬ p.addr + (12 + 4) ≥ p.addr + 4 * (maxlen / 4) := unit_inside hfit (by omega : 4 * 4 + 4 ≤ maxlen.toNat)
  have hend : (12 : UInt32) + authBytes (p.word (12 + 4)) = UInt32.ofNat (4 * (3 + r.verf.xdr.length)) := past_auth hatv
  unfold getRpcHeader
  simp only
  rw [show p.word 4 = REPLY from hdir, if_neg (by decide), if_pos rfl, if_neg htest, hend]

/-- Headers are measured, and the credential's ids are read. -/
theorem getRpcHeader_measures (hfit : p.Fits maxlen.toNat) (euid egid : Int32) :
    (∀ c : CallHeader, p.Holds (wire c.xdr) → (wire c.xdr).length ≤ maxlen.toNat →
      (getRpcHeader p maxlen euid egid).rc.toInt = (wire c.xdr).length ∧ (getRpcHeader p maxlen euid egid).dir = CALL ∧
        (getRpcHeader p maxlen euid egid).euid = c.cred.uid.toInt32 ∧ (getRpcHeader p maxlen euid egid).egid = c.cred.gid.toInt32) ∧
    ∀ (r : ReplyHeader) (accept_stat : UInt32), p.Holds (wire (r.xdr ++ [accept_stat])) →
      (wire (r.xdr ++ [accept_stat])).length ≤ maxlen.toNat →
        (getRpcHeader p maxlen euid egid).rc.toInt = (wire r.xdr).length ∧ (getRpcHeader p maxlen euid egid).dir = REPLY := by
  constructor
  · intro c hp hall
    obtain ⟨-, hcred⟩ := c.cred.auth.xdr_le
    obtain ⟨-, hverf⟩ := c.verf.xdr_le
    rw [getRpcHeader_call hfit c hp hall]
    refine ⟨toInt_of_length ?_, rfl, rfl, rfl⟩
    rw [wire_length, c.xdr_length]
    omega
  · intro r accept_stat hp hall
    obtain ⟨-, hverf⟩ := r.verf.xdr_le
    rw [getRpcHeader_reply hfit r accept_stat hp hall]
    refine ⟨toInt_of_length ?_, rfl⟩
    rw [wire_length, r.xdr_length]
    omega

/-- A call with a machine name of five bytes and two groups. -/
def sampleCall : CallHeader where
  xid := 7
  prog := NFS_PROGRAM
  vers := 3
  proc := 1
  cred := ⟨99, [104, 111, 115, 116, 49], 1000, 100, [100, 27], by decide, by decide⟩
  verf := ⟨0, [1, 2, 3], by decide⟩
  ours := Or.inl rfl

def sampleReply : ReplyHeader := ⟨7, ⟨0, [1, 2, 3], by decide⟩⟩

theorem getRpcHeader_measures_sample :
    ((getRpcHeader (Ptr.ofBytes (wire sampleCall.xdr)) 100 (-1) (-1)).rc.toInt = 80 ∧
      (getRpcHeader (Ptr.ofBytes (wire sampleCall.xdr)) 100 (-1) (-1)).euid = 1000) ∧
      (getRpcHeader (Ptr.ofBytes (wire (sampleReply.xdr ++ [0]))) 100 (-1) (-1)).rc.toInt = 24 := by
  have hcall : (Ptr.ofBytes (wire sampleCall.xdr)).Fits (100 : UInt32).toNat := by unfold Ptr.Fits; decide
  have hreply : (Ptr.ofBytes (wire (sampleReply.xdr ++ [0]))).Fits (100 : UInt32).toNat := by unfold Ptr.Fits; decide
  have hc := (getRpcHeader_measures hcall (-1) (-1)).1 sampleCall (Ptr.ofBytes_holds (by decide)) (by decide)
  have hr := (getRpcHeader_measures hreply (-1) (-1)).2 sampleReply 0 (Ptr.ofBytes_holds (by decide)) (by decide)
  exact ⟨⟨hc.1, hc.2.2.1⟩, hr.1⟩

end Nfsdump.Wire
