/-
  Nfsdump.Decode.Volumes — the bytes read and written: the pairs of a byte counter and the
  megabytes carried out of it, and what a printer adds to them.

  Proved:
  - `pair_tally3`, `pair_tally2`: a printer's run carries what it adds into the pairs;
  - `carry_small`, `carry_total`: a carry leaves less than a megabyte, and the sum, in 52 bits;
  - `added_v3_call` .. `added_v2_resp`: what each printer adds.
-/

import Nfsdump.Decode.Text
import Nfsdump.Decode.Words

namespace Nfsdump.Decode

open Wire

variable {o : Opts} {b : Args} {lib : XdrLib}

/-! ## Pairs -/

/-- The bytes and megabytes read (replies) or written (calls). -/
def NfsStat.pair {π : Type} (s : NfsStat π) : Direction → UInt32 × UInt32
  | .call => (s.write_b, s.write_m)
  | .reply => (s.read_b, s.read_m)

/-- What an update adds to a direction's pair. -/
def Count.added {π : Type} (dir : Direction) : Count π → Option UInt32
  | .volume dir' n => if dir' = dir then some n else none
  | .bump _ _ => none

def Act.added3 (dir : Direction) (a : Act) : Option UInt32 := a.counts3.bind (Count.added dir)
def Act.added2 (dir : Direction) (a : Act) : Option UInt32 := a.counts2.bind (Count.added dir)

/-- A pair after the counts `ns`. -/
def carryAll (bm : UInt32 × UInt32) (ns : List UInt32) : UInt32 × UInt32 := ns.foldl (fun bm n => carry bm.1 bm.2 n) bm

theorem pair_apply {π : Type} [DecidableEq π] (s : NfsStat π) (c : Count π) (dir : Direction) :
    (c.apply s).pair dir = carryAll (s.pair dir) (c.added dir).toList := by
  cases c with
  | bump dir' t => cases dir <;> cases dir' <;> rfl
  | volume dir' n => cases dir <;> cases dir' <;> rfl

theorem pair_foldl {π : Type} [DecidableEq π] (cs : List (Count π)) (dir : Direction) : ∀ s : NfsStat π,
    (cs.foldl Count.apply s).pair dir = carryAll (s.pair dir) (cs.filterMap (Count.added dir)) := by
  induction cs with
  | nil => intro s; rfl
  | cons c cs ih =>
    intro s
    rw [List.foldl_cons, ih, pair_apply, List.filterMap_cons]
    cases c.added dir <;> rfl

theorem pair_tally3 {α : Type} (s : NfsV3Stat) (x : Dec α) (dir : Direction) :
    (tally3 s x).pair dir = carryAll (s.pair dir) (Trace.seen (Act.added3 dir) x) := by
  rw [tally3, pair_foldl, Trace.seen, Trace.seen, List.filterMap_filterMap]
  rfl

theorem pair_tally2 {α : Type} (s : NfsV2Stat) (x : Dec α) (dir : Direction) :
    (tally2 s x).pair dir = carryAll (s.pair dir) (Trace.seen (Act.added2 dir) x) := by
  rw [tally2, pair_foldl, Trace.seen, Trace.seen, List.filterMap_filterMap]
  rfl

/-! ## A carry -/

section Carry

variable {b m n : UInt32}

theorem carry_small : (carry b m n).1.toNat < 2 ^ 20 := by
  have hmb : (1024 * 1024 : UInt32).toNat = 2 ^ 20 := rfl
  rw [carry]
  by_cases h : b + n ≥ 1024 * 1024
  · rw [if_pos h, UInt32.toNat_mod, hmb]
    exact Nat.mod_lt _ (by decide)
  · rw [if_neg h]
    exact hmb ▸ UInt32.lt_iff_toNat_lt.mp (UInt32.not_le.mp h)

/-- The bytes are added in 32 bits, the megabytes kept in 32. -/
theorem carry_total : (carry b m n).2.toNat * 2 ^ 20 + (carry b m n).1.toNat =
    (m.toNat * 2 ^ 20 + (b.toNat + n.toNat) % 2 ^ 32) % 2 ^ 52 := by
  have hmb : (1024 * 1024 : UInt32).toNat = 2 ^ 20 := rfl
  have hsum : (b + n).toNat = (b.toNat + n.toNat) % 2 ^ 32 := UInt32.toNat_add ..
  have hm := m.toNat_lt
  rw [carry]
  by_cases h : b + n ≥ 1024 * 1024
  · rw [if_pos h, UInt32.toNat_mod, UInt32.toNat_add, UInt32.toNat_div, hmb, hsum]
    omega
  · have hlt : (b + n).toNat < 2 ^ 20 := hmb ▸ UInt32.lt_iff_toNat_lt.mp (UInt32.not_le.mp h)
    rw [if_neg h]
    dsimp only
    omega

/-- Nothing is added by a count of 0. -/
theorem carry_zero (hb : b.toNat < 2 ^ 20) : carry b m 0 = (b, m) := by
  have h : ¬ b + 0 ≥ 1024 * 1024 := by
    rw [UInt32.add_zero]
    exact UInt32.not_le.mpr (UInt32.lt_iff_toNat_lt.mpr hb)
  rw [carry]
  rw [if_neg h, UInt32.add_zero]

end Carry

/-! ## What a printer adds -/

section Printers

variable {p : Ptr} {n i : Nat} {op xid len status count : UInt32} {dir : Direction}

theorem Plain.added3 {α : Type} {x : Dec α} (h : Plain x) : Trace.seen (Act.added3 dir) x = [] :=
  Trace.seen_eq_nil fun a ha => congrArg (Option.bind · (Count.added dir)) (h.spares3 a ha)

theorem Plain.added2 {α : Type} {x : Dec α} (h : Plain x) : Trace.seen (Act.added2 dir) x = [] :=
  Trace.seen_eq_nil fun a ha => congrArg (Option.bind · (Count.added dir)) (h.spares2 a ha)

/-- Behind a decoder that leaves `a`. -/
theorem Plain.added3_bind {α β : Type} {x : Dec α} {f : α → Dec β} {a : α} (h : Plain x) (hv : x.val = some a) :
    Trace.seen (Act.added3 dir) (x >>= f) = Trace.seen (Act.added3 dir) (f a) := by
  rw [Trace.seen_bind_some _ f hv, h.added3, List.nil_append]

theorem Plain.added2_bind {α β : Type} {x : Dec α} {f : α → Dec β} {a : α} (h : Plain x) (hv : x.val = some a) :
    Trace.seen (Act.added2 dir) (x >>= f) = Trace.seen (Act.added2 dir) (f a) := by
  rw [Trace.seen_bind_some _ f hv, h.added2, List.nil_append]

/-- In front of what only reads and writes. -/
theorem added3_bind_plain {α β : Type} (x : Dec α) {f : α → Dec β} (h : ∀ a, Plain (f a)) :
    Trace.seen (Act.added3 dir) (x >>= f) = Trace.seen (Act.added3 dir) x := by
  cases hv : x.val with
  | none => rw [Trace.seen_bind_none _ f hv]
  | some a => rw [Trace.seen_bind_some _ f hv, (h a).added3, List.append_nil]

theorem added2_bind_plain {α β : Type} (x : Dec α) {f : α → Dec β} (h : ∀ a, Plain (f a)) :
    Trace.seen (Act.added2 dir) (x >>= f) = Trace.seen (Act.added2 dir) x := by
  cases hv : x.val with
  | none => rw [Trace.seen_bind_none _ f hv]
  | some a => rw [Trace.seen_bind_some _ f hv, (h a).added2, List.append_nil]

@[simp] theorem added3_fprintf {α : Type} (ps : List Piece) (f : Unit → Dec α) :
    Trace.seen (Act.added3 dir) (fprintf ps >>= f) = Trace.seen (Act.added3 dir) (f ()) :=
  Plain.added3_bind (by simp) rfl

@[simp] theorem added2_fprintf {α : Type} (ps : List Piece) (f : Unit → Dec α) :
    Trace.seen (Act.added2 dir) (fprintf ps >>= f) = Trace.seen (Act.added2 dir) (f ()) :=
  Plain.added2_bind (by simp) rfl

@[simp] theorem added3_bump {α : Type} (d : Direction) (t : Tally Proc3) (f : Unit → Dec α) :
    Trace.seen (Act.added3 dir) (bump3 d t >>= f) = Trace.seen (Act.added3 dir) (f ()) := Trace.seen_emit_bind _ _ _

@[simp] theorem added2_bump {α : Type} (d : Direction) (t : Tally Proc2) (f : Unit → Dec α) :
    Trace.seen (Act.added2 dir) (bump2 d t >>= f) = Trace.seen (Act.added2 dir) (f ()) := Trace.seen_emit_bind _ _ _

theorem added3_volume {α : Type} (d : Direction) (c : UInt32) (f : Unit → Dec α) :
    Trace.seen (Act.added3 dir) (volume3 d c >>= f) = (if d = dir then [c] else []) ++ Trace.seen (Act.added3 dir) (f ()) := by
  rw [volume3, Trace.seen_emit_bind]
  cases d <;> cases dir <;> rfl

theorem added2_volume {α : Type} (d : Direction) (c : UInt32) (f : Unit → Dec α) :
    Trace.seen (Act.added2 dir) (volume2 d c >>= f) = (if d = dir then [c] else []) ++ Trace.seen (Act.added2 dir) (f ()) := by
  rw [volume2, Trace.seen_emit_bind]
  cases d <;> cases dir <;> rfl

/-! ### Replies and v2 calls -/

/-- What a printer's `count` holds when it is added, `i` being the word's place in a payload of
    `n` words and `count` what was in it: the word right behind the payload is still taken. -/
def countLocal (p : Ptr) (n : Nat) (count : UInt32) (i : Nat) : UInt32 := if i ≤ n then wordAt p i else count

/-- The cursor at word `i`, or NULL if that is beyond the end. -/
def Reached (p : Ptr) (n i : Nat) (q : Ptr) : Prop := q = cur p i ∨ (q = .null ∧ n < i)

theorem reached_val (h : Mapped p n) {q : Ptr} (hq : Reached p n i q) (hi : i ≤ n + 1000) :
    ∃ r, (print_uint32_val q (cur p n) true (some count)).val = some (r, some (countLocal p n count i)) := by
  rcases hq with rfl | ⟨rfl, hn⟩
  · by_cases hn : i ≤ n
    · exact ⟨_, by rw [uint32_val_pass h hn, countLocal, if_pos hn]; rfl⟩
    · exact ⟨_, by rw [uint32_val_stop h (Nat.not_le.mp hn) hi, countLocal, if_neg hn]; rfl⟩
  · exact ⟨.null, by rw [uint32_val_null, countLocal, if_neg (by omega)]; rfl⟩

/-- One word further. -/
theorem reached_uint32 (h : Mapped p n) {q : Ptr} (hq : Reached p n i q) (hi : i ≤ n + 1000) :
    ∃ r, (print_uint32 q (cur p n) true).val = some r ∧ Reached p n (i + 1) r := by
  rw [print_uint32]
  rcases hq with rfl | ⟨rfl, hn⟩
  · by_cases hn : i ≤ n
    · exact ⟨_, by rw [uint32_val_pass h hn]; rfl, .inl rfl⟩
    · exact ⟨_, by rw [uint32_val_stop h (Nat.not_le.mp hn) hi]; rfl, .inr ⟨rfl, by omega⟩⟩
  · exact ⟨_, by rw [uint32_val_null]; rfl, .inr ⟨rfl, by omega⟩⟩

theorem added_readOk {q r e : Ptr} {c : UInt32} (h : (print_uint32_val q e true (some count)).val = some (r, some c)) :
    Trace.seen (Act.added3 dir) (printReadOk q e count) = if .reply = dir then [c] else [] := by
  have hrest : Plain (fprintf [.lit "eof "] >>= fun _ => print_uint32 r e true) := by simp
  rw [printReadOk, added3_fprintf, (plain_uint32_val _).added3_bind h]
  dsimp only
  rw [Option.getD_some, added3_volume, hrest.added3, List.append_nil]

theorem attrSize_le (w : Nat → UInt32) (i : Nat) : 0 < attrSize w i ∧ attrSize w i ≤ 22 := by unfold attrSize; split <;> omega

theorem reached_attr3 (h : Mapped p n) :
    ∃ q, (print_post_op_attr3 p (cur p n) true).val = some q ∧ Reached p n (attrSize (wordAt p) 0) q := by
  have hsize := attrSize_le (wordAt p) 0
  have hval : (print_post_op_attr3 (cur p 0) (cur p n) true).val = _ := post_op_attr3_val h (by omega)
  rw [cur_zero, Nat.zero_add] at hval
  refine ⟨_, hval, ?_⟩
  by_cases hthere : attrSize (wordAt p) 0 ≤ n ∨ (0 = n ∧ wordAt p 0 = 0)
  · rw [if_pos hthere]
    exact .inl rfl
  · rw [if_neg hthere]
    exact .inr ⟨rfl, by omega⟩

theorem added_v3_resp (h : Mapped p (len.toNat / 4)) :
    Trace.seen (Act.added3 dir) (nfs_v3_print_resp o b lib op xid p len status count) =
      if Proc3.ofNumber op = some .read ∧ status = NFS3_OK ∧ .reply = dir
      then [countLocal p (len.toNat / 4) count (attrSize (wordAt p) 0)] else [] := by
  rw [nfs_v3_print_resp, cur_end, added3_fprintf, added3_bump, added3_bind_plain _ fun a => by simp]
  cases hq : Proc3.ofNumber op with
  | none => simp [printReply, Plain.added3]
  | some q =>
    have hstatus : Plain (Trace.when (q ≠ .null) (printStatus status)) := by simp
    have hend : (Trace.when (q ≠ .null) (printStatus status)).val = some () := by
      by_cases hn : q = .null
      · simp [hn]
      · simp [hn, printStatus]
    rw [printReply, added3_bump, added3_fprintf, hstatus.added3_bind hend]
    by_cases hread : q = .read ∧ status = NFS3_OK
    · obtain ⟨rfl, hok⟩ := hread
      have hsize := attrSize_le (wordAt p) 0
      obtain ⟨q, hattr, hq⟩ := reached_attr3 h
      obtain ⟨r, hcount⟩ := reached_val h hq (by omega)
      rw [printResult, plain_post_op_attr3.added3_bind hattr, if_pos hok, added_readOk hcount]
      simp [hok]
    · have hplain : Plain (printResult o b lib p (cur p (len.toNat / 4)) len status count q) :=
        plain_printResult len count (not_and_or.mp hread)
      rw [hplain.added3, if_neg]
      rintro ⟨hq', hok, -⟩
      exact hread ⟨Option.some.inj hq', hok⟩

theorem deref_val {q : Ptr} (hq : q.addr ≠ 0) (i : UInt32) : (deref q i).val = some (q.word (4 * i)) := if_neg hq

theorem printLabelled_val {q : Ptr} (hq : q.addr ≠ 0) (ls : List String) : ∀ i, (printLabelled q ls i).val = some () := by
  induction ls with
  | nil => intro i; rfl
  | cons l ls ih =>
    intro i
    rw [printLabelled, Trace.val_bind _ (deref_val hq i), val_fprintf_bind, ih]

theorem nfstime2_val {q : Ptr} (hq : q.addr ≠ 0) (e : Ptr) : ∃ r, (print_nfstime2 q e true).val = some r := by
  rw [print_nfstime2]
  by_cases hstop : q.addr = 0 ∨ e < q.skip 2
  · exact ⟨.null, by rw [if_pos hstop]; rfl⟩
  · refine ⟨q.skip 2, ?_⟩
    rw [if_neg hstop, Trace.when_true, Trace.val_bind (a := ())]
    · rfl
    · rw [Trace.val_bind _ (deref_val hq 0), Trace.val_bind _ (deref_val hq 1)]
      rfl

theorem reached_fattr2 (h : Mapped p n) : ∃ q, (print_fattr2 p (cur p n) true).val = some q ∧ Reached p n 17 q := by
  have hnull : p.addr ≠ 0 := cur_zero p ▸ cur_ne_null h (i := 0) (by omega)
  rw [print_fattr2, if_neg hnull, show p.skip 17 = cur p 17 from rfl]
  by_cases hn : 17 ≤ n
  · obtain ⟨ra, ha⟩ := nfstime2_val (cur_ne_null h (i := 11) (by omega)) (cur p n)
    obtain ⟨rm, hm⟩ := nfstime2_val (cur_ne_null h (i := 13) (by omega)) (cur p n)
    obtain ⟨rc, hc⟩ := nfstime2_val (cur_ne_null h (i := 15) (by omega)) (cur p n)
    refine ⟨cur p 17, ?_, .inl rfl⟩
    rw [if_neg (by rw [cur_lt h (by omega) (by omega)]; omega), Trace.when_true, Trace.val_bind (a := ())]
    · rfl
    · rw [Trace.val_bind _ (printLabelled_val hnull _ 0), val_fprintf_bind, show p.skip 11 = cur p 11 from rfl,
        Trace.val_bind _ ha, val_fprintf_bind, show p.skip 13 = cur p 13 from rfl, Trace.val_bind _ hm, val_fprintf_bind,
        show p.skip 15 = cur p 15 from rfl, Trace.val_bind _ hc]
      rfl
  · refine ⟨.null, ?_, .inr ⟨rfl, by omega⟩⟩
    rw [if_pos ((cur_lt h (by omega) (by omega)).mpr (by omega))]
    rfl

theorem reached_fh2 (h : Mapped p n) (str : String) :
    ∃ q, (print_fh2 p (cur p n) true str).val = some q ∧ Reached p n 8 q := by
  have hnull : p.addr ≠ 0 := cur_zero p ▸ cur_ne_null h (i := 0) (by omega)
  rw [print_fh2, val_fprintfIf_bind, show NFS_FHSIZE / 4 = 8 from rfl, print_opaque, if_neg hnull,
    show p.skip 8 = cur p 8 from rfl]
  by_cases hn : 8 ≤ n
  · have hwords : (printWords p 8 0).val = some () := cur_zero p ▸ printWords_val h (i := 0) (by omega) 8
    refine ⟨cur p 8, ?_, .inl rfl⟩
    rw [if_neg (by rw [cur_lt h (by omega) (by omega)]; omega), Trace.when_true, Trace.val_bind (a := ())]
    · rfl
    · rw [show (8 : UInt32).toNat = 8 from rfl, Trace.val_bind _ hwords]
      rfl
  · refine ⟨.null, ?_, .inr ⟨rfl, by omega⟩⟩
    rw [if_pos ((cur_lt h (by omega) (by omega)).mpr (by omega))]
    rfl

/-- WRITE's tail, from the cursor at word 8. -/
theorem added_writeArgs2 (h : Mapped p n) {q : Ptr} (hq : Reached p n 8 q) :
    Trace.seen (Act.added2 dir) (printWriteArgs2 q (cur p n) count) =
      if .call = dir then [countLocal p n count 10] else [] := by
  obtain ⟨q1, hbegoff, hq1⟩ := reached_uint32 h hq (by omega)
  obtain ⟨q2, hoffset, hq2⟩ := reached_uint32 h hq1 (by omega)
  obtain ⟨q3, hcount⟩ := reached_val h hq2 (by omega)
  rw [printWriteArgs2, added2_fprintf, plain_uint32.added2_bind hbegoff, added2_fprintf, plain_uint32.added2_bind hoffset,
    added2_fprintf, (plain_uint32_val _).added2_bind hcount]
  dsimp only
  rw [Option.getD_some, added2_volume]
  exact List.append_nil _

theorem added_v2_call (h : Mapped p (len.toNat / 4)) :
    Trace.seen (Act.added2 dir) (nfs_v2_print_call o op xid p len count) =
      if Proc2.ofNumber op = some .write ∧ .call = dir then [countLocal p (len.toNat / 4) count 10] else [] := by
  rw [nfs_v2_print_call, cur_end, added2_bump, added2_fprintf]
  cases hq : Proc2.ofNumber op with
  | none => simp [Plain.added2]
  | some q =>
    dsimp only
    rw [added2_bump, added2_fprintf, added2_bind_plain _ fun a => by simp]
    by_cases hwrite : q = .write
    · subst hwrite
      obtain ⟨r, hfh, hr⟩ := reached_fh2 h "fh"
      rw [printArgs2, (plain_fh2 _).added2_bind hfh, added_writeArgs2 h hr]
      simp
    · rw [(plain_printArgs2 count hwrite).added2, if_neg]
      rintro ⟨hq', -⟩
      exact hwrite (Option.some.inj hq')

theorem added_v2_resp (h : Mapped p (len.toNat / 4)) :
    Trace.seen (Act.added2 dir) (nfs_v2_print_resp o op xid p len status count) =
      if Proc2.ofNumber op = some .read ∧ status = NFS_OK ∧ .reply = dir
      then [countLocal p (len.toNat / 4) count 17] else [] := by
  rw [nfs_v2_print_resp, cur_end, added2_fprintf, added2_bump]
  cases hq : Proc2.ofNumber op with
  | none => simp [Plain.added2]
  | some q =>
    have hstatus : Plain (Trace.when q.hasStatus (printStatus2 status)) := by simp [printStatus2]
    have hend : (Trace.when q.hasStatus (printStatus2 status)).val = some () := by cases q.hasStatus <;> rfl
    dsimp only
    rw [added2_bump, added2_fprintf, hstatus.added2_bind hend, added2_bind_plain _ fun a => by simp]
    by_cases hread : q = .read ∧ status = NFS_OK
    · obtain ⟨rfl, hok⟩ := hread
      obtain ⟨q1, hattr, hq1⟩ := reached_fattr2 h
      obtain ⟨q2, hcount⟩ := reached_val h hq1 (by omega)
      rw [printBody2, if_pos hok, printResult2, printReadOk2, plain_fattr2.added2_bind hattr, added2_fprintf,
        (plain_uint32_val _).added2_bind hcount]
      dsimp only
      rw [Option.getD_some, added2_volume]
      simp [hok]
    · have hplain : Plain (printBody2 o p (cur p (len.toNat / 4)) status count q) :=
        plain_printBody2 count (not_and_or.mp hread)
      rw [hplain.added2, if_neg]
      rintro ⟨hq', hok, -⟩
      exact hread ⟨Option.some.inj hq', hok⟩

end Printers

end Nfsdump.Decode
