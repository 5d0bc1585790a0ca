/-
  Nfsdump.Decode.WriteCall — the NFSv3 WRITE call, whose arguments `nfs_v3_print_call`
  takes one at a time.

  Each of the four decoders starts where the one in front left the stream, also when that
  one failed, and sets `got_all` anew: the last one alone decides whether SHORT PACKET is
  printed. With less than 8 bytes behind the handle's decoder all that follow fail.

  Proved, for the memory stream of `MemStream`:
  - `results_failed`, `results_stands`: what the decoders return behind a broken handle, and
    behind one whose bytes are there;
  - `write_reported_iff`: a broken call is reported, nothing behind the break is printed and
    nothing of it accounted iff the call has less than 12 bytes or its handle's length is at
    most 64 and that many bytes follow it;
  - `write_broken_handle`: a call whose handle is 65 bytes long passes for a whole one.
-/

import Nfsdump.Decode.MemStream
import Nfsdump.Decode.Volumes

namespace Nfsdump.Decode

open Wire

/-- What the decoders of WRITE's arguments return, each on the stream the one in front leaves. -/
structure WriteResults where
  file : Option NfsFh3
  offset : Option UInt64
  count : Option UInt32
  how : Option UInt32

def XdrLib.writeResults (lib : XdrLib) (xdr : XDR) : WriteResults :=
  let (file, xdr) := lib.nfs_fh3 xdr
  let (offset, xdr) := lib.offset3 xdr
  let (count, xdr) := lib.count3 xdr
  ⟨file, offset, count, (lib.stable_how xdr).1⟩

/-! ## What is printed and added -/

def fhPieces (f : NfsFh3) : List Piece := [.lit "fh", .lit " "] ++ (f.data.map (fun b => .x0 2 b.toUInt32) ++ [.lit " "])

def offPieces (v : UInt64) : List Piece :=
  [.lit "off", .lit " "] ++ uint64Pieces (UInt32.ofNat (v.toNat / 2 ^ 32)) (UInt32.ofNat v.toNat)

def countPieces (n : UInt32) : List Piece := [.lit "count ", .x n, .lit " "]

def howPieces (how : UInt32) : List Piece := [.lit "stable ", .c (stableLetter how), .lit " "]

def WriteResults.pieces (r : WriteResults) : List Piece :=
  r.file.elim [] fhPieces ++ (r.offset.elim [] offPieces ++ (r.count.elim [] countPieces ++ r.how.elim [] howPieces))

theorem says_ifGot {α : Type} {r : Option α} {k : α → Dec Unit} {ps : α → List Piece} (h : ∀ a, Says (k a) (ps a) ()) :
    Says (ifGot r k) (r.elim [] ps) r.isSome := by
  cases r with
  | none => exact says_pure false
  | some a =>
    have := (h a).bind (f := fun _ => pure true) (says_pure true)
    rwa [List.append_nil] at this

section Printed

variable {o : Opts} {b : Args} {lib : XdrLib} {p : Ptr} {len xid op : UInt32} {dir : Direction}

theorem says_fh (f : NfsFh3) : Says (print_fh3_x f "fh") (fhPieces f) () :=
  (says_fprintf _).bind ((says_fprintf _).bind (says_fprintf _))

theorem says_off (v : UInt64) : Says (print_uint64_x v (some "off")) (offPieces v) () :=
  (says_fprintf _).bind (says_fprintf _)

theorem says_count (n : UInt32) :
    Says (fprintf [.lit "count ", .x n, .lit " "] >>= fun _ => volume3 .call n) (countPieces n) () := by
  have hvolume : Says (volume3 .call n) [] () := ⟨rfl, rfl⟩
  have := (says_fprintf [.lit "count ", .x n, .lit " "]).bind (f := fun _ => volume3 .call n) hvolume
  rwa [List.append_nil] at this

theorem says_writeArgs (xdr : XDR) :
    Says (printWriteArgs lib xdr) (lib.writeResults xdr).pieces (lib.writeResults xdr).how.isSome :=
  (says_ifGot says_fh).bind <| (says_ifGot says_off).bind <| (says_ifGot says_count).bind <| says_ifGot fun _ => says_fprintf _

theorem says_short (got_all : Bool) :
    Says (Trace.when (!got_all) (fprintf [.lit "SHORT PACKET"]) >>= fun _ => (pure 0 : Dec Int32))
      (if got_all then [] else [.lit "SHORT PACKET"]) 0 := by
  cases got_all with
  | true => exact says_pure 0
  | false => exact (says_fprintf _).bind (f := fun _ => pure 0) (says_pure 0)

/-- The line of a WRITE call. -/
theorem says_write_call : Says (nfs_v3_print_call o b lib Proc3.write.number xid p len)
    ([.lit "C3 ", .x0 8 xid, .lit " ", .x0 2 Proc3.write.number, .lit " "] ++ ([.lit "write", .lit " "] ++
      ((lib.writeResults ⟨p, len⟩).pieces ++
        if (lib.writeResults ⟨p, len⟩).how.isSome then [] else [.lit "SHORT PACKET"]))) 0 := by
  have hbump : ∀ t, Says (bump3 .call t) [] () := fun t => ⟨rfl, rfl⟩
  rw [nfs_v3_print_call, Proc3.ofNumber_number]
  have hargs : Says (printWriteArgs lib ⟨p, len⟩) _ _ := says_writeArgs ⟨p, len⟩
  refine (hbump _).silent ((says_fprintf _).bind ?_)
  exact (hbump _).silent ((says_fprintf _).bind (hargs.bind (says_short _)))

theorem added_writeArgs (xdr : XDR) : Trace.seen (Act.added3 dir) (printWriteArgs lib xdr) =
    if .call = dir then (lib.writeResults xdr).count.toList else [] := by
  have hfile : Plain (ifGot (lib.nfs_fh3 xdr).1 fun f => print_fh3_x f "fh") := plain_ifGot _ fun f => (textual_fh3_x f _).plain
  have hoff : ∀ xdr, Plain (ifGot (lib.offset3 xdr).1 fun v => print_uint64_x v (some "off")) := fun _ =>
    plain_ifGot _ fun v => (textual_uint64_x v _).plain
  have hhow : ∀ r, Plain (ifGot r print_stable_how_x) := fun r => plain_ifGot r fun how => (textual_stable_how_x how).plain
  rw [printWriteArgs]
  dsimp only
  rw [hfile.added3_bind (says_ifGot says_fh).1, (hoff _).added3_bind (says_ifGot says_off).1,
    added3_bind_plain _ fun _ => hhow _]
  show Trace.seen (Act.added3 dir) (ifGot (lib.writeResults xdr).count _) = _
  cases (lib.writeResults xdr).count with
  | none => cases dir <;> rfl
  | some n => cases dir <;> rfl

theorem added_v3_call : Trace.seen (Act.added3 dir) (nfs_v3_print_call o b lib op xid p len) =
    if Proc3.ofNumber op = some .write ∧ .call = dir then (lib.writeResults ⟨p, len⟩).count.toList else [] := by
  rw [nfs_v3_print_call, added3_bump, added3_fprintf]
  cases hq : Proc3.ofNumber op with
  | none => simp [Plain.added3]
  | some q =>
    dsimp only
    rw [added3_bump, added3_fprintf, added3_bind_plain _ fun a => by simp]
    by_cases hwrite : q = .write
    · subst hwrite
      rw [printCallArgs, added_writeArgs]
      simp
    · rw [(plain_callArgs _ hwrite).added3, if_neg]
      rintro ⟨hq', -⟩
      exact hwrite (Option.some.inj hq')

end Printed

/-! ## What the decoders return -/

section Results

variable {lib : XdrLib} {p q : Ptr} {len r : UInt32}

/-- Behind the handle each field needs its own bytes and those in front of it. -/
theorem results_tail (hlib : MemStream lib) {file : Option NfsFh3} (hfile : xdr_nfs_fh3 ⟨p, len⟩ = (file, ⟨q, r⟩)) :
    (lib.writeResults ⟨p, len⟩).file = file ∧
    ((lib.writeResults ⟨p, len⟩).offset.isSome ↔ 8 ≤ r.toNat) ∧
    (lib.writeResults ⟨p, len⟩).count = (if 12 ≤ r.toNat then some (q.word 8) else none) ∧
    ((lib.writeResults ⟨p, len⟩).how.isSome ↔ 16 ≤ r.toNat) := by
  simp only [XdrLib.writeResults, hlib.nfs_fh3, hlib.offset3, hlib.count3, hlib.stable_how, hfile]
  by_cases h8 : 8 ≤ r.toNat
  · obtain ⟨v, hv⟩ : ∃ v, xdr_u_hyper ⟨q, r⟩ = (some v, _) := hyper_pass h8
    have hleft : (r - 8).toNat = r.toNat - 8 := left_toNat (show (8 : UInt32).toNat ≤ _ from h8)
    rw [hv]
    by_cases h12 : 12 ≤ r.toNat
    · have hleft' : (r - 8 - 4).toNat = r.toNat - 12 := by
        rw [left_toNat (show (4 : UInt32).toNat ≤ _ from by rw [hleft]; exact Nat.le_sub_of_add_le h12), hleft]
        exact Nat.sub_sub _ 8 4
      have hcount := getint32_pass (p := q.add 8) (show 4 ≤ (r - 8).toNat by omega)
      rw [Ptr.word_add, UInt32.add_zero] at hcount
      rw [hcount, if_pos h12]
      refine ⟨trivial, by simpa using h8, rfl, ?_⟩
      by_cases h16 : 16 ≤ r.toNat
      · rw [getint32_pass (by omega)]
        simpa using h16
      · rw [getint32_stop (by omega)]
        simpa using h16
    · rw [getint32_stop (by omega), if_neg h12]
      refine ⟨trivial, by simpa using h8, rfl, ?_⟩
      rw [getint32_stop (by omega)]
      simp only [Option.isSome_none, Bool.false_eq_true, false_iff]
      omega
  · obtain ⟨q', r', hoff, hr'⟩ : ∃ q' r', xdr_u_hyper ⟨q, r⟩ = (none, ⟨q', r'⟩) ∧ r'.toNat < 4 := hyper_stop (by omega)
    rw [hoff, getint32_stop hr', if_neg (by omega)]
    refine ⟨trivial, by simpa using h8, rfl, ?_⟩
    simp only [getint32_stop hr', Option.isSome_none, Bool.false_eq_true, false_iff]
    omega

/-- Less than 12 bytes, or the handle's length is at most 64 and that many bytes follow it. -/
def HandleStands (p : Ptr) (actual_len : UInt32) : Prop :=
  actual_len.toNat < 12 ∨ ((p.word 0).toNat ≤ 64 ∧ (p.word 0).toNat + 4 ≤ actual_len.toNat)

instance (p : Ptr) (actual_len : UInt32) : Decidable (HandleStands p actual_len) :=
  inferInstanceAs (Decidable (_ ∨ _))

/-- A handle that stands decodes, or it is not all there and leaves too little for an offset. -/
theorem fh3_of_stands (h : HandleStands p len) :
    ((wordAt p 0).toNat ≤ 64 ∧ 4 * handleSize (wordAt p) 0 ≤ len.toNat ∧ ∃ f,
      xdr_nfs_fh3 ⟨p, len⟩ = (some f, ⟨cur p (handleSize (wordAt p) 0), len - 4 * UInt32.ofNat (handleSize (wordAt p) 0)⟩)) ∨
    (((wordAt p 0).toNat ≤ 64 → len.toNat < 4 * handleSize (wordAt p) 0) ∧
      ∃ q r, xdr_nfs_fh3 ⟨p, len⟩ = (none, ⟨q, r⟩) ∧ r.toNat < 8) := by
  have hword : wordAt p 0 = p.word 0 := rfl
  have hsize : (p.word 0).toNat + 4 ≤ 4 * handleSize (wordAt p) 0 := by
    rw [handleSize, hword]
    unfold opaqueWords
    omega
  by_cases h4 : len.toNat < 4
  · exact Or.inr ⟨fun _ => by omega, p, len, fh3_short h4, by omega⟩
  by_cases hthere : (p.word 0).toNat ≤ 64 ∧ (p.word 0).toNat + 4 ≤ len.toNat
  · rcases fh3_stands hthere.1 hthere.2 with hf | ⟨hshort, q, r, hf, hr⟩
    · exact Or.inl ⟨hthere.1, hf⟩
    · exact Or.inr ⟨fun _ => hshort, q, r, hf, by omega⟩
  · have hleft : (len - 4).toNat = len.toNat - 4 := left_toNat (show (4 : UInt32).toNat ≤ _ from Nat.not_lt.mp h4)
    have h12 : len.toNat < 12 := h.resolve_right hthere
    refine Or.inr ⟨fun h64 => ?_, _, _, fh3_broken (by omega) (by omega), by omega⟩
    rw [hword] at h64
    omega

/-- A broken handle fails alone. -/
theorem results_broken (hlib : MemStream lib) (h : ¬ HandleStands p len) :
    (lib.writeResults ⟨p, len⟩).file = none ∧ (lib.writeResults ⟨p, len⟩).offset.isSome ∧
    (lib.writeResults ⟨p, len⟩).count = (if 16 ≤ len.toNat then some (p.word 12) else none) := by
  unfold HandleStands at h
  have hleft : (len - 4).toNat = len.toNat - 4 := left_toNat (show (4 : UInt32).toNat ≤ _ from by
    rw [show (4 : UInt32).toNat = 4 from rfl]; omega)
  obtain ⟨hfile, hoff, hcount, -⟩ := results_tail hlib (fh3_broken (p := p) (show 4 ≤ len.toNat by omega) (by omega))
  refine ⟨hfile, hoff.mpr (by omega), ?_⟩
  rw [hcount, Ptr.word_add, hleft]
  by_cases h16 : 16 ≤ len.toNat
  · rw [if_pos (by omega), if_pos h16]
    rfl
  · rw [if_neg (by omega), if_neg h16]

end Results

/-! ## Broken calls -/

/-- The call is reported as cut iff a field fails to decode, no field is printed behind one
    that failed, and the count is accounted only behind a handle and an offset. -/
structure Reported (r : WriteResults) (x : Dec Int32) : Prop where
  short : .lit "SHORT PACKET" ∈ out x ↔ ¬ (r.file.isSome ∧ r.offset.isSome ∧ r.count.isSome ∧ r.how.isSome)
  offset : .lit "off" ∈ out x → r.file.isSome
  count : .lit "count " ∈ out x → r.file.isSome ∧ r.offset.isSome
  how : .lit "stable " ∈ out x → r.file.isSome ∧ r.offset.isSome ∧ r.count.isSome
  account : ∀ s : NfsV3Stat, (tally3 s x).pair .call =
    if r.file.isSome ∧ r.offset.isSome then carryAll (s.pair .call) r.count.toList else s.pair .call

section Reported

variable {o : Opts} {b : Args} {lib : XdrLib} {p : Ptr} {len xid : UInt32}

/-- The labels among the fields. -/
theorem lit_mem_pieces (r : WriteResults) (s : String) (hs : s ≠ " ") : .lit s ∈ r.pieces ↔
    (r.file.isSome ∧ s = "fh") ∨ (r.offset.isSome ∧ s = "off") ∨ (r.count.isSome ∧ s = "count ") ∨
    (r.how.isSome ∧ s = "stable ") := by
  have huint64 : ∀ hi lo, .lit s ∉ uint64Pieces hi lo := fun hi lo => by
    unfold uint64Pieces
    split <;> simp [hs]
  obtain ⟨file, offset, count, how⟩ := r
  cases file <;> cases offset <;> cases count <;> cases how <;>
    simp [WriteResults.pieces, fhPieces, offPieces, countPieces, howPieces, hs, huint64]

theorem write_lits (s : String) (hs : s ≠ " ") (hc : s ≠ "C3 ") (hw : s ≠ "write") :
    .lit s ∈ out (nfs_v3_print_call o b lib Proc3.write.number xid p len) ↔
      .lit s ∈ (lib.writeResults ⟨p, len⟩).pieces ∨
      ((lib.writeResults ⟨p, len⟩).how = none ∧ s = "SHORT PACKET") := by
  rw [says_write_call.2]
  cases (lib.writeResults ⟨p, len⟩).how <;> simp [hs, hc, hw]

theorem write_account (s : NfsV3Stat) :
    (tally3 s (nfs_v3_print_call o b lib Proc3.write.number xid p len)).pair .call =
      carryAll (s.pair .call) (lib.writeResults ⟨p, len⟩).count.toList := by
  rw [pair_tally3, added_v3_call, if_pos ⟨Proc3.ofNumber_number _, rfl⟩]

/-- Fields that decode only behind one another are reported as they should be. -/
theorem reported_of_sequence (hoff : (lib.writeResults ⟨p, len⟩).offset.isSome → (lib.writeResults ⟨p, len⟩).file.isSome)
    (hcount : (lib.writeResults ⟨p, len⟩).count.isSome → (lib.writeResults ⟨p, len⟩).offset.isSome)
    (hhow : (lib.writeResults ⟨p, len⟩).how.isSome → (lib.writeResults ⟨p, len⟩).count.isSome) :
    Reported (lib.writeResults ⟨p, len⟩) (nfs_v3_print_call o b lib Proc3.write.number xid p len) := by
  constructor
  · rw [write_lits _ (by decide) (by decide) (by decide), lit_mem_pieces _ _ (by decide)]
    simp only [String.reduceEq, and_false, or_false, false_or, and_true]
    constructor
    · rintro hnone ⟨-, -, -, hsome⟩
      rw [hnone] at hsome
      cases hsome
    · intro h
      refine Option.not_isSome_iff_eq_none.mp fun hsome => h ?_
      exact ⟨hoff (hcount (hhow hsome)), hcount (hhow hsome), hhow hsome, hsome⟩
  · intro h
    rw [write_lits _ (by decide) (by decide) (by decide), lit_mem_pieces _ _ (by decide)] at h
    exact hoff (by simpa using h)
  · intro h
    rw [write_lits _ (by decide) (by decide) (by decide), lit_mem_pieces _ _ (by decide)] at h
    have hsome : (lib.writeResults ⟨p, len⟩).count.isSome := by simpa using h
    exact ⟨hoff (hcount hsome), hcount hsome⟩
  · intro h
    rw [write_lits _ (by decide) (by decide) (by decide), lit_mem_pieces _ _ (by decide)] at h
    have hsome : (lib.writeResults ⟨p, len⟩).how.isSome := by simpa using h
    exact ⟨hoff (hcount (hhow hsome)), hcount (hhow hsome), hhow hsome⟩
  · intro s
    rw [write_account]
    by_cases hfile : (lib.writeResults ⟨p, len⟩).file.isSome ∧ (lib.writeResults ⟨p, len⟩).offset.isSome
    · rw [if_pos hfile]
    · have hnone : (lib.writeResults ⟨p, len⟩).count = none :=
        Option.not_isSome_iff_eq_none.mp fun hsome => hfile ⟨hoff (hcount hsome), hcount hsome⟩
      rw [if_neg hfile, hnone]
      rfl

/-- Behind a broken handle an offset is printed. -/
theorem not_reported_of_broken (hlib : MemStream lib) (h : ¬ HandleStands p len) :
    ¬ Reported (lib.writeResults ⟨p, len⟩) (nfs_v3_print_call o b lib Proc3.write.number xid p len) := by
  intro hrep
  obtain ⟨hfile, hoff, -⟩ := results_broken hlib h
  have hprinted : .lit "off" ∈ out (nfs_v3_print_call o b lib Proc3.write.number xid p len) := by
    rw [write_lits _ (by decide) (by decide) (by decide), lit_mem_pieces _ _ (by decide)]
    exact .inl (.inr (.inl ⟨hoff, rfl⟩))
  have hsome := hrep.offset hprinted
  rw [hfile] at hsome
  cases hsome

/-- A broken WRITE call is reported and not accounted iff its handle stands. -/
theorem write_reported_iff (o : Opts) (b : Args) (lib : XdrLib) (hlib : MemStream lib) (xid : UInt32) (p : Ptr)
    (actual_len : UInt32) :
    Reported (lib.writeResults ⟨p, actual_len⟩) (nfs_v3_print_call o b lib Proc3.write.number xid p actual_len) ↔
      HandleStands p actual_len := by
  constructor
  · intro h
    by_contra hbroken
    exact not_reported_of_broken hlib hbroken h
  · intro h
    obtain ⟨file, q, r, hfh, hr⟩ : ∃ file q r, xdr_nfs_fh3 ⟨p, actual_len⟩ = (file, ⟨q, r⟩) ∧ (file = none → r.toNat < 8) := by
      rcases fh3_of_stands h with ⟨-, -, f, hf⟩ | ⟨-, q, r, hf, hr⟩
      · exact ⟨_, _, _, hf, nofun⟩
      · exact ⟨_, q, r, hf, fun _ => hr⟩
    obtain ⟨hfile, hoff, hcount, hhow⟩ := results_tail hlib hfh
    apply reported_of_sequence
    · intro hsome
      rw [hfile]
      refine Option.isSome_iff_ne_none.mpr fun hnone => ?_
      have h8 := hoff.mp hsome
      have hlt := hr hnone
      omega
    · intro hsome
      rw [hcount, Option.isSome_ite] at hsome
      exact hoff.mpr (by omega)
    · intro hsome
      rw [hcount, if_pos (by have := hhow.mp hsome; omega)]
      rfl

/-- The library's routines for WRITE's arguments, the others failing. -/
def XdrLib.memStream : XdrLib :=
  { XdrLib.short with nfs_fh3 := xdr_nfs_fh3, offset3 := xdr_u_hyper, count3 := xdrmem_getint32, stable_how := xdrmem_getint32 }

theorem memStream : MemStream XdrLib.memStream := ⟨rfl, rfl, rfl, rfl⟩

/-- A call cut behind a handle of 4 bytes is reported. -/
theorem write_cut_reported : Reported (XdrLib.memStream.writeResults ⟨.placed 4096 [0, 0, 0, 4, 1, 2, 3, 4], 8⟩)
    (nfs_v3_print_call ⟨true, false, false, fun _ => []⟩ ⟨0x8049000, by decide⟩ XdrLib.memStream Proc3.write.number 0
      (.placed 4096 [0, 0, 0, 4, 1, 2, 3, 4]) 8) :=
  (write_reported_iff _ _ _ memStream _ _ _).mpr (.inl (by decide))

/-- A handle of 65 bytes is taken for none, and what is behind its length for the other fields. -/
theorem write_broken_handle : ¬ Reported (XdrLib.memStream.writeResults ⟨.placed 4096 [0, 0, 0, 65], 88⟩)
    (nfs_v3_print_call ⟨true, false, false, fun _ => []⟩ ⟨0x8049000, by decide⟩ XdrLib.memStream Proc3.write.number 0
      (.placed 4096 [0, 0, 0, 65]) 88) :=
  not_reported_of_broken memStream (by decide)

end Reported

end Nfsdump.Decode
