/-
  Nfsdump.Decode.MemStream — the memory stream of the XDR library, and the routines for the
  fields that WRITE's arguments are taken by.

  A primitive that lacks bytes fails and consumes none. An opaque is a length word, which is
  consumed whatever it says, its bytes, and what fills their last unit; a hyper is two words,
  taken one after the other.

  Proved, for any memory and any number of bytes left:
  - `fh3_short`, `fh3_broken`, `fh3_unfilled`, `fh3_stands`: where a handle leaves the stream;
  - `hyper_stop`: a hyper that fails leaves less than a word.
-/

import Nfsdump.Decode.Words
import Nfsdump.Decode.Xdr

namespace Nfsdump.Decode

open Wire

/-! ## The library -/

def xdrmem_getint32 : XdrProc UInt32 := fun xdr =>
  if xdr.handy < 4 then (none, xdr) else (some (xdr.ptr.word 0), ⟨xdr.ptr.add 4, xdr.handy - 4⟩)

def xdrmem_getbytes (len : UInt32) : XdrProc {bs : List UInt8 // bs.length = len.toNat} := fun xdr =>
  if xdr.handy < len then (none, xdr)
  else (some ⟨xdr.ptr.bytes len, by simp [Ptr.bytes]⟩, ⟨xdr.ptr.add len, xdr.handy - len⟩)

/-- A routine behind another, unless that one failed. -/
def andThen {α β : Type} (x : XdrProc α) (f : α → XdrProc β) : XdrProc β := fun xdr =>
  match x xdr with
  | (some a, xdr) => f a xdr
  | (none, xdr) => (none, xdr)

def xdr_opaque (cnt : UInt32) : XdrProc {bs : List UInt8 // bs.length = cnt.toNat} :=
  if h : cnt = 0 then fun xdr => (some ⟨[], by simp [h]⟩, xdr)
  else andThen (xdrmem_getbytes cnt) fun bs =>
    if cnt % 4 = 0 then fun xdr => (some bs, xdr)
    else andThen (xdrmem_getbytes (4 - cnt % 4)) fun _ xdr => (some bs, xdr)

def xdr_bytes (maxsize : UInt32) : XdrProc {bs : List UInt8 // bs.length ≤ maxsize.toNat} :=
  andThen xdrmem_getint32 fun nodesize =>
    if h : maxsize < nodesize then fun xdr => (none, xdr)
    else andThen (nodesize |> xdr_opaque) fun bs xdr =>
      (some ⟨bs.1, bs.2.le.trans (UInt32.le_iff_toNat_le.mp (UInt32.not_lt.mp h))⟩, xdr)

def xdr_u_hyper : XdrProc UInt64 :=
  andThen xdrmem_getint32 fun hi => andThen xdrmem_getint32 fun lo xdr =>
    (some (UInt64.ofNat (hi.toNat * 2 ^ 32 + lo.toNat)), xdr)

/-- `opaque data<NFS3_FHSIZE>`. -/
def xdr_nfs_fh3 : XdrProc NfsFh3 := andThen (xdr_bytes 64) fun bs xdr => (some ⟨bs.1, bs.2⟩, xdr)

/-- The routines of `lib` that take WRITE's arguments are the library's. -/
structure MemStream (lib : XdrLib) : Prop where
  nfs_fh3 : lib.nfs_fh3 = xdr_nfs_fh3
  offset3 : lib.offset3 = xdr_u_hyper
  count3 : lib.count3 = xdrmem_getint32
  stable_how : lib.stable_how = xdrmem_getint32

/-! ## Primitives -/

section Primitives

variable {p : Ptr} {len n : UInt32}

theorem getint32_stop (h : len.toNat < 4) : xdrmem_getint32 ⟨p, len⟩ = (none, ⟨p, len⟩) :=
  if_pos (UInt32.lt_iff_toNat_lt.mpr h)

theorem getint32_pass (h : 4 ≤ len.toNat) : xdrmem_getint32 ⟨p, len⟩ = (some (p.word 0), ⟨p.add 4, len - 4⟩) :=
  if_neg fun hlt => absurd (UInt32.lt_iff_toNat_lt.mp hlt) (Nat.not_lt.mpr (show (4 : UInt32).toNat ≤ _ from h))

theorem getbytes_stop (h : len.toNat < n.toNat) : xdrmem_getbytes n ⟨p, len⟩ = (none, ⟨p, len⟩) :=
  if_pos (UInt32.lt_iff_toNat_lt.mpr h)

theorem getbytes_pass (h : n.toNat ≤ len.toNat) :
    ∃ bs, xdrmem_getbytes n ⟨p, len⟩ = (some bs, ⟨p.add n, len - n⟩) :=
  ⟨_, if_neg fun hlt => absurd (UInt32.lt_iff_toNat_lt.mp hlt) (Nat.not_lt.mpr h)⟩

theorem andThen_some {α β : Type} {x : XdrProc α} {f : α → XdrProc β} {xdr xdr' : XDR} {a : α}
    (h : x xdr = (some a, xdr')) : andThen x f xdr = f a xdr' := by rw [andThen, h]

theorem andThen_none {α β : Type} {x : XdrProc α} {f : α → XdrProc β} {xdr xdr' : XDR}
    (h : x xdr = (none, xdr')) : andThen x f xdr = (none, xdr') := by rw [andThen, h]

/-- What is left of `len` bytes behind `n`. -/
theorem left_toNat (h : n.toNat ≤ len.toNat) : (len - n).toNat = len.toNat - n.toNat :=
  UInt32.toNat_sub_of_le _ _ (UInt32.le_iff_toNat_le.mpr h)

theorem hyper_pass (h : 8 ≤ len.toNat) : ∃ v, xdr_u_hyper ⟨p, len⟩ = (some v, ⟨p.add 8, len - 8⟩) := by
  have hleft : (len - 4).toNat = len.toNat - 4 := left_toNat (show (4 : UInt32).toNat ≤ _ from Nat.le_trans (by decide) h)
  have hsum : len - 4 - 4 = len - 8 := by grind
  refine ⟨UInt64.ofNat ((p.word 0).toNat * 2 ^ 32 + ((p.add 4).word 0).toNat), ?_⟩
  rw [xdr_u_hyper, andThen_some (getint32_pass (by omega)), andThen_some (getint32_pass (by omega)), hsum, Ptr.add_add]
  rfl

theorem hyper_stop (h : len.toNat < 8) : ∃ q r, xdr_u_hyper ⟨p, len⟩ = (none, ⟨q, r⟩) ∧ r.toNat < 4 := by
  by_cases h4 : len.toNat < 4
  · exact ⟨p, len, andThen_none (getint32_stop h4), h4⟩
  · have hleft : (len - 4).toNat = len.toNat - 4 := left_toNat (show (4 : UInt32).toNat ≤ _ from Nat.not_lt.mp h4)
    refine ⟨p.add 4, len - 4, ?_, by omega⟩
    rw [xdr_u_hyper, andThen_some (getint32_pass (by omega)), andThen_none (getint32_stop (by omega))]

end Primitives

/-! ## Handles -/

section Handles

variable {p : Ptr} {len : UInt32}

theorem fh3_short (h : len.toNat < 4) : xdr_nfs_fh3 ⟨p, len⟩ = (none, ⟨p, len⟩) :=
  andThen_none (andThen_none (getint32_stop h))

/-- The length is too much, for a handle or for what is left: it alone is consumed. -/
theorem fh3_broken (h4 : 4 ≤ len.toNat) (h : 64 < (p.word 0).toNat ∨ len.toNat < (p.word 0).toNat + 4) :
    xdr_nfs_fh3 ⟨p, len⟩ = (none, ⟨p.add 4, len - 4⟩) := by
  have hleft : (len - 4).toNat = len.toNat - 4 := left_toNat (show (4 : UInt32).toNat ≤ _ from h4)
  refine andThen_none ?_
  rw [xdr_bytes, andThen_some (getint32_pass h4)]
  by_cases hmax : (64 : UInt32) < p.word 0
  · rw [dif_pos hmax]
  · have hn : (p.word 0).toNat ≤ 64 := UInt32.le_iff_toNat_le.mp (UInt32.not_lt.mp hmax)
    have hne : p.word 0 ≠ 0 := by
      intro h0
      rw [h0, show (0 : UInt32).toNat = 0 from rfl] at h
      omega
    rw [dif_neg hmax]
    refine andThen_none ?_
    unfold xdr_opaque
    rw [dif_neg hne]
    exact andThen_none (getbytes_stop (by omega))

/-- The bytes of a whole opaque, their last unit filled. -/
def filled (cnt : UInt32) : UInt32 := 4 * UInt32.ofNat (opaqueWords cnt)

theorem filled_toNat {cnt : UInt32} (h : 4 * opaqueWords cnt ≤ len.toNat) : (filled cnt).toNat = 4 * opaqueWords cnt := by
  have hlt := len.toNat_lt
  rw [filled, UInt32.toNat_mul, toNat_ofNat_lt (by omega), show (4 : UInt32).toNat = 4 from rfl]
  omega

theorem mod_four (cnt : UInt32) : (cnt % 4).toNat = cnt.toNat % 4 := by rw [UInt32.toNat_mod]; rfl

theorem rndup_toNat (cnt : UInt32) : (4 - cnt % 4).toNat = 4 - cnt.toNat % 4 := by
  have hle : cnt % 4 ≤ 4 := by
    rw [UInt32.le_iff_toNat_le, mod_four, show (4 : UInt32).toNat = 4 from rfl]
    omega
  rw [UInt32.toNat_sub_of_le _ _ hle, mod_four]
  rfl

theorem opaque_pass {cnt : UInt32} (h : 4 * opaqueWords cnt ≤ len.toNat) :
    ∃ bs, xdr_opaque cnt ⟨p, len⟩ = (some bs, ⟨p.add (filled cnt), len - filled cnt⟩) := by
  have hfill := filled_toNat h
  have hmod := mod_four cnt
  have hlt := len.toNat_lt
  unfold opaqueWords at h hfill
  unfold xdr_opaque
  by_cases h0 : cnt = 0
  · subst h0
    rw [dif_pos rfl, show filled 0 = 0 from rfl, Ptr.add_zero, UInt32.sub_zero]
    exact ⟨_, rfl⟩
  · obtain ⟨bs, hbs⟩ : ∃ bs, xdrmem_getbytes cnt ⟨p, len⟩ = (some bs, _) := getbytes_pass (by omega)
    have hleft : (len - cnt).toNat = len.toNat - cnt.toNat := left_toNat (by omega)
    rw [dif_neg h0, andThen_some hbs]
    refine ⟨bs, ?_⟩
    by_cases hunit : cnt % 4 = 0
    · have hz : cnt.toNat % 4 = 0 := by rw [← hmod, hunit]; rfl
      have heq : filled cnt = cnt := UInt32.toNat.inj (by omega)
      rw [if_pos hunit, heq]
    · have hnz : cnt.toNat % 4 ≠ 0 := fun hz => hunit (UInt32.toNat.inj (hmod.trans hz))
      have hpad := rndup_toNat cnt
      have heq : cnt + (4 - cnt % 4) = filled cnt := UInt32.toNat.inj (by rw [UInt32.toNat_add, hpad]; omega)
      obtain ⟨crud, hcrud⟩ : ∃ bs, xdrmem_getbytes (4 - cnt % 4) ⟨p.add cnt, len - cnt⟩ = (some bs, _) := getbytes_pass (by omega)
      have hrest : len - cnt - (4 - cnt % 4) = len - filled cnt := by rw [← heq]; grind
      rw [if_neg hunit, andThen_some hcrud, Ptr.add_add, heq, hrest]

/-- The bytes are there, but not what fills their last unit. -/
theorem opaque_unfilled {cnt : UInt32} (h : cnt.toNat ≤ len.toNat) (hshort : len.toNat < 4 * opaqueWords cnt) :
    ∃ q r, xdr_opaque cnt ⟨p, len⟩ = (none, ⟨q, r⟩) ∧ r.toNat < 4 := by
  have hmod := mod_four cnt
  unfold opaqueWords at hshort
  have h0 : cnt ≠ 0 := by
    intro h0
    rw [h0, show (0 : UInt32).toNat = 0 from rfl] at hshort
    omega
  have hunit : cnt % 4 ≠ 0 := by
    intro hunit
    rw [hunit, show (0 : UInt32).toNat = 0 from rfl] at hmod
    omega
  have hpad := rndup_toNat cnt
  obtain ⟨bs, hbs⟩ : ∃ bs, xdrmem_getbytes cnt ⟨p, len⟩ = (some bs, _) := getbytes_pass h
  have hleft : (len - cnt).toNat = len.toNat - cnt.toNat := left_toNat h
  refine ⟨p.add cnt, len - cnt, ?_, by omega⟩
  unfold xdr_opaque
  rw [dif_neg h0, andThen_some hbs, if_neg hunit, andThen_none (getbytes_stop (by omega))]

/-- The length is a handle's and its bytes follow: what is then left depends on what fills them. -/
theorem fh3_stands (hn : (p.word 0).toNat ≤ 64) (h : (p.word 0).toNat + 4 ≤ len.toNat) :
    (4 * handleSize (wordAt p) 0 ≤ len.toNat ∧
      ∃ f, xdr_nfs_fh3 ⟨p, len⟩ = (some f, ⟨cur p (handleSize (wordAt p) 0), len - 4 * UInt32.ofNat (handleSize (wordAt p) 0)⟩)) ∨
    (len.toNat < 4 * handleSize (wordAt p) 0 ∧ ∃ q r, xdr_nfs_fh3 ⟨p, len⟩ = (none, ⟨q, r⟩) ∧ r.toNat < 4) := by
  have hword : wordAt p 0 = p.word 0 := rfl
  have hleft : (len - 4).toNat = len.toNat - 4 := left_toNat (show (4 : UInt32).toNat ≤ _ from Nat.le_of_add_left_le h)
  have hmax : ¬ (64 : UInt32) < p.word 0 := UInt32.not_lt.mpr (UInt32.le_iff_toNat_le.mpr hn)
  have hbytes : xdr_bytes 64 ⟨p, len⟩ = andThen (p.word 0 |> xdr_opaque) (fun bs xdr =>
      (some ⟨bs.1, bs.2.le.trans (UInt32.le_iff_toNat_le.mp (UInt32.not_lt.mp hmax))⟩, xdr)) ⟨p.add 4, len - 4⟩ := by
    rw [xdr_bytes, andThen_some (getint32_pass (Nat.le_of_add_left_le h)), dif_neg hmax]
  rw [handleSize, hword]
  by_cases hfit : 4 * opaqueWords (p.word 0) ≤ len.toNat - 4
  · obtain ⟨bs, hbs⟩ : ∃ bs, xdr_opaque (p.word 0) ⟨p.add 4, len - 4⟩ = (some bs, _) := opaque_pass (hfit.trans hleft.ge)
    refine Or.inl ⟨by omega, ⟨bs.1, bs.2.le.trans hn⟩, ?_⟩
    rw [xdr_nfs_fh3, andThen_some (hbytes.trans (andThen_some hbs)), Ptr.add_add]
    have hsum : 4 + filled (p.word 0) = 4 * UInt32.ofNat (1 + opaqueWords (p.word 0)) := by
      rw [filled, UInt32.ofNat_add, UInt32.mul_add]
      rfl
    have hrest : len - 4 - filled (p.word 0) = len - 4 * UInt32.ofNat (1 + opaqueWords (p.word 0)) := by rw [← hsum]; grind
    rw [hsum, hrest]
    rfl
  · obtain ⟨q, r, hbs, hr⟩ : ∃ q r, xdr_opaque (p.word 0) ⟨p.add 4, len - 4⟩ = (none, ⟨q, r⟩) ∧ r.toNat < 4 :=
      opaque_unfilled (by omega) (by omega)
    exact Or.inr ⟨by omega, q, r, andThen_none (hbytes.trans (andThen_none hbs)), hr⟩

end Handles

end Nfsdump.Decode
