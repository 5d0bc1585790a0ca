/-
  Nfsdump.Decode.Text — what a printer does besides counting.

  Printing a string or a decoded structure only reads bytes and writes text: it reads no
  word of the payload (`Textual`). A decoder reads words too, and counts nothing (`Plain`).
-/

import Nfsdump.Decode.V2
import Nfsdump.Decode.V3

namespace Nfsdump.Decode

open Wire

def Act.IsText : Act → Prop
  | .byte _ => True
  | .put _ => True
  | _ => False

@[simp] theorem isText_byte (a : UInt32) : (Act.byte a).IsText := trivial
@[simp] theorem isText_put (c : Piece) : (Act.put c).IsText := trivial

abbrev Textual {α : Type} (x : Dec α) : Prop := Trace.Only Act.IsText x

variable {o : Opts} {b : Args} {lib : XdrLib}

/-! ## Strings -/

@[simp] theorem textual_printDigest (str : Ptr) (len : UInt32) : Textual (printDigest o str len) := by
  simp [printDigest]

@[simp] theorem textual_printComponent (str : Ptr) (len : UInt32) : Textual (printComponent o str len) := by
  simp [printComponent]

@[simp] theorem textual_path_segment (str : Ptr) (len : UInt32) : Textual (print_path_segment o str len) := by
  simp [print_path_segment]

@[simp] theorem textual_printRaw (str : Ptr) (k : Nat) : ∀ i, Textual (printRaw str k i) := by
  induction k with
  | zero => intro i; simp [printRaw]
  | succ k ih => intro i; simp [printRaw, ih]

@[simp] theorem textual_printSegments (str : Ptr) (k : Nat) : ∀ i seg, Textual (printSegments o str k i seg) := by
  induction k with
  | zero => intro i seg; simp [printSegments]
  | succ k ih => intro i seg; simp [printSegments, ih]

@[simp] theorem textual_print_string (str : Ptr) (len : UInt32) : Textual (print_string o str len) := by
  simp [print_string, printQuoted]

@[simp] theorem textual_cstr (s : List UInt8) : Textual (printCstr o b s) := textual_print_string _ _

/-! ## Structures -/

@[simp] theorem textual_printStatus (status : UInt32) : Textual (printStatus status) := by simp [printStatus]

@[simp] theorem textual_fh3_x (f : NfsFh3) (s : String) : Textual (print_fh3_x f s) := by simp [print_fh3_x]

@[simp] theorem textual_uint64_x (v : UInt64) (label : Option String) : Textual (print_uint64_x v label) := by
  cases label <;> simp [print_uint64_x, printLabel, fprintfUint64]

@[simp] theorem textual_diropargs3_x (d : Diropargs3) (s t : String) : Textual (print_diropargs3_x o b d s t) := by
  simp [print_diropargs3_x]

@[simp] theorem textual_sattr3_x (s : Sattr3) : Textual (print_sattr3_x s) := by
  have word : ∀ label w, Textual (printSet label w) := fun label w => by cases w <;> simp [printSet]
  have time : ∀ label t, Textual (printSetTime label t) := fun label t => by
    cases t <;> simp [printSetTime, print_nfstime3_x, fprintfTime3]
  have size : Textual (printSetSize s.size) := by cases s.size <;> simp [printSetSize]
  simp [print_sattr3_x, word, time, size]

@[simp] theorem textual_createhow3_x (how : Createhow3) : Textual (print_createhow3_x how) := by
  cases how <;> simp [print_createhow3_x]

@[simp] theorem textual_sattrguard3_x (g : Option Nfstime3) : Textual (print_sattrguard3_x g) := by
  cases g <;> simp [print_sattrguard3_x, print_nfstime3_x, fprintfTime3]

@[simp] theorem textual_stable_how_x (how : UInt32) : Textual (print_stable_how_x how) := by simp [print_stable_how_x]

/-! ## Listings -/

@[simp] theorem textual_printEntries (es : List Entry3) : ∀ k, Textual (printEntries o b es k) := by
  induction es with
  | nil => intro k; simp [printEntries]
  | cons entry es ih => intro k; simp [printEntries, printNumbered, ih]

@[simp] theorem textual_printEntriesplus (es : List Entryplus3) : ∀ k, Textual (printEntriesplus o b es k) := by
  induction es with
  | nil => intro k; simp [printEntriesplus]
  | cons entry es ih =>
    intro k
    have handle : Textual (printNameHandle k entry.name_handle) := by cases entry.name_handle <;> simp [printNameHandle]
    simp [printEntriesplus, printNumbered, handle, ih]

@[simp] theorem textual_printListing {ε : Type} {entries : List ε → Nat → Dec Unit} (res : Option (Dirlist3 ε))
    (h : ∀ es k, Textual (entries es k)) : Textual (printListing entries res) := by
  cases res <;> simp [printListing, h]

/-! ## Decoders -/

def Act.IsPlain : Act → Prop
  | .word _ => True
  | .byte _ => True
  | .put _ => True
  | _ => False

@[simp] theorem isPlain_word (a : UInt32) : (Act.word a).IsPlain := trivial
@[simp] theorem isPlain_byte (a : UInt32) : (Act.byte a).IsPlain := trivial
@[simp] theorem isPlain_put (c : Piece) : (Act.put c).IsPlain := trivial

abbrev Plain {α : Type} (x : Dec α) : Prop := Trace.Only Act.IsPlain x

theorem Textual.plain {α : Type} {x : Dec α} (h : Textual x) : Plain x := h.mono fun a ha => by
  cases a <;> first | exact trivial | exact ha.elim

section Decoders

variable {p e : Ptr} {print : Bool}

@[simp] theorem plain_printStatus (status : UInt32) : Plain (printStatus status) := (textual_printStatus status).plain

@[simp] theorem plain_print_string (str : Ptr) (len : UInt32) : Plain (print_string o str len) :=
  (textual_print_string str len).plain

@[simp] theorem plain_printWords (k : Nat) : ∀ i, Plain (printWords p k i) := by
  induction k with
  | zero => intro i; simp [printWords]
  | succ k ih => intro i; simp [printWords, ih]

@[simp] theorem plain_uint32_val (val : Option UInt32) : Plain (print_uint32_val p e print val) := by
  cases val <;> simp [print_uint32_val]

@[simp] theorem plain_uint32 : Plain (print_uint32 p e print) := by simp [print_uint32]

@[simp] theorem plain_uint64 : Plain (print_uint64 p e print) := by simp [print_uint64, fprintfUint64]

@[simp] theorem plain_nfstime3 : Plain (print_nfstime3 p e print) := by simp [print_nfstime3, fprintfTime3]

@[simp] theorem plain_stable3 : Plain (print_stable3 p e print) := by simp [print_stable3]

@[simp] theorem plain_fh3 : Plain (print_fh3 p e print) := by simp [print_fh3]

@[simp] theorem plain_fn3 : Plain (print_fn3 o p e print) := by simp [print_fn3]

@[simp] theorem plain_printFields (fs : List (String × Scalar)) : ∀ p, Plain (printFields fs p e print) := by
  induction fs with
  | nil => intro p; simp [printFields]
  | cons f fs ih =>
    intro p
    obtain ⟨label, s⟩ := f
    cases s <;> simp [printFields, Scalar.print, ih]

@[simp] theorem plain_fattr3 : Plain (print_fattr3 p e print) := by simp [print_fattr3]

@[simp] theorem plain_post_op_attr3 : Plain (print_post_op_attr3 p e print) := by simp [print_post_op_attr3]

@[simp] theorem plain_post_op_fh3 : Plain (print_post_op_fh3 p e print) := by simp [print_post_op_fh3]

@[simp] theorem plain_wcc_data3 : Plain (print_wcc_data3 p e print) := by
  simp [print_wcc_data3, printBefore, print_pre_op_attr3]

@[simp] theorem plain_opaque (n : UInt32) : Plain <| print_opaque p e print n := by
  unfold print_opaque
  simp

@[simp] theorem plain_fn2 (s : String) : Plain (print_fn2 o p e print s) := by simp [print_fn2]

@[simp] theorem plain_fh2 (s : String) : Plain (print_fh2 p e print s) := by simp [print_fh2]

@[simp] theorem plain_diropargs2 (s t : String) : Plain (print_diropargs2 o p e print s t) := by
  simp [print_diropargs2]

@[simp] theorem plain_nfstime2 : Plain (print_nfstime2 p e print) := by simp [print_nfstime2, fprintfTime2]

@[simp] theorem plain_sattr2 : Plain (print_sattr2 p e print) := by simp [print_sattr2, printSet2, printSetTime2]

@[simp] theorem plain_printLabelled (ls : List String) : ∀ i, Plain (printLabelled p ls i) := by
  induction ls with
  | nil => intro i; simp [printLabelled]
  | cons l ls ih => intro i; simp [printLabelled, ih]

@[simp] theorem plain_fattr2 : Plain (print_fattr2 p e print) := by simp [print_fattr2]

@[simp] theorem plain_ifGot {α : Type} (r : Option α) {k : α → Dec Unit} (hk : ∀ a, Plain (k a)) : Plain (ifGot r k) := by
  cases r <;> simp [ifGot, hk]

end Decoders

/-! ## Messages

  Only WRITE's arguments and READ's results have something to count. -/

section Messages

variable {p e : Ptr}

theorem plain_callArgs (xdr : XDR) {q : Proc3} (hq : q ≠ .write) : Plain (printCallArgs o b lib xdr q) := by
  cases q <;> first | exact absurd rfl hq | simp [printCallArgs, print_access3_x, Textual.plain]

theorem plain_printResult (len count : UInt32) {status : UInt32} {q : Proc3} (hq : q ≠ .read ∨ status ≠ NFS3_OK) :
    Plain (printResult o b lib p e len status count q) := by
  cases q <;> simp_all [printResult, printCreated, Textual.plain]

theorem plain_printArgs2 (count : UInt32) {q : Proc2} (hq : q ≠ .write) : Plain (printArgs2 o p e count q) := by
  cases q <;> first | exact absurd rfl hq | simp [printArgs2, printReadArgs2, print_cookie2]

theorem plain_printBody2 (count : UInt32) {status : UInt32} {q : Proc2} (hq : q ≠ .read ∨ status ≠ NFS_OK) :
    Plain (printBody2 o p e status count q) := by
  cases q <;> simp_all [printBody2, printResult2, print_diropokres2, print_statfsokres2]

end Messages

/-! ## A printer leaves the other version's block alone -/

@[simp] theorem counts2_put (c : Piece) : (Act.put c).counts2 = none := rfl
@[simp] theorem counts3_put (c : Piece) : (Act.put c).counts3 = none := rfl

abbrev Spares2 {α : Type} (x : Dec α) : Prop := Trace.Only (fun a => a.counts2 = none) x
abbrev Spares3 {α : Type} (x : Dec α) : Prop := Trace.Only (fun a => a.counts3 = none) x

theorem Plain.spares2 {α : Type} {x : Dec α} (h : Plain x) : Spares2 x := h.mono fun a ha => by
  cases a <;> first | rfl | exact ha.elim

theorem Plain.spares3 {α : Type} {x : Dec α} (h : Plain x) : Spares3 x := h.mono fun a ha => by
  cases a <;> first | rfl | exact ha.elim

theorem Textual.spares2 {α : Type} {x : Dec α} (h : Textual x) : Spares2 x := h.plain.spares2

@[simp] theorem spares2_bump3 (dir : Direction) (t : Tally Proc3) : Spares2 (bump3 dir t) :=
  Trace.only_emit.mpr fun _ ha => List.mem_singleton.mp ha ▸ rfl

@[simp] theorem spares2_volume3 (dir : Direction) (n : UInt32) : Spares2 (volume3 dir n) :=
  Trace.only_emit.mpr fun _ ha => List.mem_singleton.mp ha ▸ rfl

@[simp] theorem spares3_bump2 (dir : Direction) (t : Tally Proc2) : Spares3 (bump2 dir t) :=
  Trace.only_emit.mpr fun _ ha => List.mem_singleton.mp ha ▸ rfl

@[simp] theorem spares3_volume2 (dir : Direction) (n : UInt32) : Spares3 (volume2 dir n) :=
  Trace.only_emit.mpr fun _ ha => List.mem_singleton.mp ha ▸ rfl

@[simp] theorem spares2_ifGot {α : Type} (r : Option α) {k : α → Dec Unit} (hk : ∀ a, Spares2 (k a)) : Spares2 (ifGot r k) := by
  cases r <;> simp [ifGot, hk]

section Printers

variable {p : Ptr} {op xid len status count : UInt32}

theorem spares2_callArgs (xdr : XDR) (q : Proc3) : Spares2 (printCallArgs o b lib xdr q) := by
  by_cases hq : q = .write
  · subst hq
    simp [printCallArgs, printWriteArgs, Textual.spares2]
  · exact (plain_callArgs xdr hq).spares2

theorem spares2_printResult {e : Ptr} (q : Proc3) : Spares2 (printResult o b lib p e len status count q) := by
  by_cases hq : q = .read
  · subst hq
    simp [printResult, printReadOk, Plain.spares2]
  · exact (plain_printResult len count (.inl hq)).spares2

theorem spares3_printArgs2 {e : Ptr} (q : Proc2) : Spares3 (printArgs2 o p e count q) := by
  by_cases hq : q = .write
  · subst hq
    simp [printArgs2, printWriteArgs2, Plain.spares3]
  · exact (plain_printArgs2 count hq).spares3

theorem spares3_printBody2 {e : Ptr} (q : Proc2) : Spares3 (printBody2 o p e status count q) := by
  by_cases hq : q = .read
  · subst hq
    simp [printBody2, printResult2, printReadOk2, Plain.spares3]
  · exact (plain_printBody2 count (.inl hq)).spares3

theorem v3_call_spares2 : Spares2 (nfs_v3_print_call o b lib op xid p len) := by
  rw [nfs_v3_print_call]
  cases Proc3.ofNumber op with
  | none => simp
  | some q => simp [spares2_callArgs]

theorem v3_resp_spares2 : Spares2 (nfs_v3_print_resp o b lib op xid p len status count) := by
  rw [nfs_v3_print_resp]
  cases Proc3.ofNumber op with
  | none => simp [printReply]
  | some q => simp [printReply, spares2_printResult, Textual.spares2]

theorem v2_call_spares3 : Spares3 (nfs_v2_print_call o op xid p len count) := by
  rw [nfs_v2_print_call]
  cases Proc2.ofNumber op with
  | none => simp
  | some q => simp [spares3_printArgs2]

theorem v2_resp_spares3 : Spares3 (nfs_v2_print_resp o op xid p len status count) := by
  rw [nfs_v2_print_resp]
  cases Proc2.ofNumber op with
  | none => simp
  | some q => simp [spares3_printBody2, printStatus2]

end Printers

end Nfsdump.Decode
