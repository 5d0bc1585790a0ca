/-
  Nfsdump.Decode.Cuts — which cut replies `nfs_v3_print_resp` flags.

  The printer returns -1 iff the cursor it ends with is NULL. Each decoder decides that by
  its own test, and the ones in front of a 32-bit word and of a flag let the first word
  behind the payload through. The listings are decoded beside the cursor.

  Proved, for every result, every cut of it and whatever lies behind the cut:
  - `attr_if_val` ..: where a chain of decoders leaves the cursor;
  - `cut_judged_iff`: a cut reply is flagged, and one that is cut behind what its branch
    decodes is not, iff the cut is none of those `Misjudged` names.
-/

import Nfsdump.Decode.Render3

namespace Nfsdump.Decode

open Wire Xdr

/-! ## Chains of decoders -/

section Chains

variable {p : Ptr} {n i : Nat} {print : Bool} {c : Prop} [Decidable c]

/-- A cursor, or NULL unless `c`. -/
def curIf (p : Ptr) (c : Prop) [Decidable c] (i : Nat) : Ptr := if c then cur p i else .null

theorem curIf_ne_null (h : Mapped p n) (hi : c → i ≤ n + 1000) : (curIf p c i).addr ≠ 0 ↔ c := by
  unfold curIf
  by_cases hc : c
  · simp [hc, cur_ne_null h (hi hc)]
  · simp [hc]

theorem attr_if_val (h : Mapped p n) (hi : c → i ≤ n + 800) :
    (print_post_op_attr3 (curIf p c i) (cur p n) print).val =
      some (curIf p (c ∧ (i + attrSize (wordAt p) i ≤ n ∨ (i = n ∧ wordAt p i = 0))) (i + attrSize (wordAt p) i)) := by
  unfold curIf
  by_cases hc : c
  · rw [if_pos hc, post_op_attr3_val h (hi hc)]
    simp only [hc, true_and]
  · rw [if_neg hc, post_op_attr3_null, if_neg (fun hx => hc hx.1)]
    rfl

theorem uint32_if_val (h : Mapped p n) (hi : c → i ≤ n + 900) :
    (print_uint32 (curIf p c i) (cur p n) true).val = some (curIf p (c ∧ i ≤ n) (i + 1)) := by
  unfold curIf
  by_cases hc : c
  · by_cases hn : i ≤ n
    · rw [if_pos hc, if_pos ⟨hc, hn⟩, print_uint32, uint32_val_pass h hn]
      rfl
    · rw [if_pos hc, if_neg (fun hx => hn hx.2), print_uint32, uint32_val_stop h (by omega) (by have := hi hc; omega)]
      rfl
  · rw [if_neg hc, if_neg (fun hx => hc hx.1), print_uint32, uint32_val_null]
    rfl

theorem stable3_if_val (h : Mapped p n) (hi : c → i ≤ n + 900) :
    (print_stable3 (curIf p c i) (cur p n) true).val = some (curIf p (c ∧ i < n) (i + 1)) := by
  unfold curIf
  by_cases hc : c
  · by_cases hn : i < n
    · rw [if_pos hc, if_pos ⟨hc, hn⟩, stable3_pass h hn]
    · rw [if_pos hc, if_neg (fun hx => hn hx.2), stable3_stop h (by omega) (by have := hi hc; omega)]
      rfl
  · rw [if_neg hc, if_neg (fun hx => hc hx.1), stable3_null]
    rfl

theorem readOk_if_val (h : Mapped p n) (hi : c → i ≤ n + 800) (count : UInt32) :
    (printReadOk (curIf p c i) (cur p n) count).val = some (curIf p (c ∧ i + 1 ≤ n) (i + 2)) := by
  have hnull : ∀ e, (printReadOk .null e count).val = some .null := by
    intro e
    rw [printReadOk, val_fprintf_bind, uint32_val_null, pure_bind]
    simp only [print_uint32, uint32_val_null, pure_bind]
    rfl
  unfold curIf
  by_cases hc : c
  · have hle := hi hc
    rw [if_pos hc]
    by_cases hn : i ≤ n
    · have hval : (print_uint32_val (cur p i) (cur p n) true (some count)).val = some (cur p (i + 1), some (wordAt p i)) := by
        rw [uint32_val_pass h hn]; rfl
      have hnext := uint32_if_val (c := True) (i := i + 1) h (fun _ => by omega)
      simp only [curIf, if_true, true_and] at hnext
      rw [printReadOk, val_fprintf_bind, Trace.val_bind _ hval, Trace.val_bind (a := ()) _ rfl, val_fprintf_bind, hnext]
      simp only [hc, true_and]
    · rw [if_neg (fun hx => hn (by omega)), printReadOk, val_fprintf_bind, uint32_val_stop h (by omega) (by omega), pure_bind]
      rfl
  · rw [if_neg hc, if_neg (fun hx => hc hx.1), hnull]

end Chains

/-! ## The flag -/

/-- A printer that returns 0 when `complete`, else -1 with SHORT PACKET at the end of the line. -/
def Judges (x : Dec Int32) (complete : Prop) : Prop :=
  (complete → x.val = some 0) ∧ (¬ complete → x.val = some (-1) ∧ [.lit "SHORT PACKET"] <:+ out x)

section Flag

variable {o : Opts} {b : Args} {lib : XdrLib} {p : Ptr} {actual_len status count xid : UInt32} {q : Proc3} {C : Prop}

theorem resp_eq : nfs_v3_print_resp o b lib q.number xid p actual_len status count =
    (do
      fprintf [.lit "R3 ", .x0 8 xid, .lit " ", .x0 2 q.number, .lit " "]
      bump3 .reply .total
      bump3 .reply (.proc q)
      fprintf [.lit q.name, .lit " "]
      Trace.when (q ≠ .null) (printStatus status)
      let new_p ← printResult o b lib (cur p 0) (cur p (actual_len.toNat / 4)) actual_len status count q
      if new_p.addr = 0 then
        fprintf [.lit "SHORT PACKET"]
        return -1
      else return 0) := by
  rw [nfs_v3_print_resp, cur_end, cur_zero, Proc3.ofNumber_number, printReply]
  simp only [bind_assoc]

theorem when_val (c : Bool) : (Trace.when c (printStatus status)).val = some () := by cases c <;> rfl

theorem judges_of_val {c : Prop} [Decidable c] {k : Nat} (h : Mapped p (actual_len.toNat / 4))
    (hval : (printResult o b lib (cur p 0) (cur p (actual_len.toNat / 4)) actual_len status count q).val = some (curIf p c k))
    (hk : c → k ≤ actual_len.toNat / 4 + 1000) :
    Judges (nfs_v3_print_resp o b lib q.number xid p actual_len status count) C ↔ (c ↔ C) := by
  have hc := curIf_ne_null h hk
  have hend : (nfs_v3_print_resp o b lib q.number xid p actual_len status count).val =
      some (if (curIf p c k).addr = 0 then -1 else 0) := by
    rw [resp_eq, val_fprintf_bind, Trace.val_bind (a := ()) _ rfl, Trace.val_bind (a := ()) _ rfl, val_fprintf_bind,
      Trace.val_bind _ (when_val _), Trace.val_bind _ hval]
    by_cases h0 : (curIf p c k).addr = 0
    · rw [if_pos h0, if_pos h0]; rfl
    · rw [if_neg h0, if_neg h0]; rfl
  have hsuffix : (curIf p c k).addr = 0 →
      [.lit "SHORT PACKET"] <:+ out (nfs_v3_print_resp o b lib q.number xid p actual_len status count) := by
    intro h0
    rw [resp_eq, out_fprintf_bind, out_bind (a := ()) _ rfl, out_bind (a := ()) _ rfl, out_fprintf_bind,
      out_bind _ (when_val _), out_bind _ hval, if_pos h0, out_fprintf_bind, out_pure, List.append_nil]
    simp only [← List.append_assoc]
    exact List.suffix_append _ _
  rw [Judges, hend]
  by_cases hcc : c
  · have hne := hc.mpr hcc
    rw [if_neg hne]
    simp [hcc]
  · have h0 : (curIf p c k).addr = 0 := not_not.mp (mt hc.mp hcc)
    rw [if_pos h0]
    simp only [hcc, false_iff]
    constructor
    · intro hj hC
      have := hj.1 hC
      simp at this
    · intro hC
      exact ⟨fun hx => absurd hx hC, fun _ => ⟨trivial, hsuffix h0⟩⟩

theorem judges_crash
    (hval : (printResult o b lib (cur p 0) (cur p (actual_len.toNat / 4)) actual_len status count q).val = none) :
    ¬ Judges (nfs_v3_print_resp o b lib q.number xid p actual_len status count) C := by
  have hend : (nfs_v3_print_resp o b lib q.number xid p actual_len status count).val = none := by
    rw [resp_eq, val_fprintf_bind, Trace.val_bind (a := ()) _ rfl, Trace.val_bind (a := ()) _ rfl, val_fprintf_bind,
      Trace.val_bind _ (when_val _), Trace.bind_none _ hval]
  rw [Judges, hend]
  rintro ⟨h1, h2⟩
  by_cases hC : C
  · exact nomatch h1 hC
  · exact nomatch (h2 hC).1

end Flag

/-! ## What a cut leaves of sizes -/

section Sizes

variable {p : Ptr} {n i : Nat}

theorem attrSize_upto {a : Option Fattr3} (hu : Upto (wordAt p) n i (post_op_attr a)) (hi : i < n) :
    attrSize (wordAt p) i = (post_op_attr a).length := by
  obtain _ | a := a
  · rw [attrSize, if_pos ((upto_cons.mp hu).1 hi)]; rfl
  · rw [attrSize, if_neg (by rw [(upto_cons.mp hu).1 hi]; decide)]; rfl

theorem handleSize_upto {f : NfsFh3} (hu : Upto (wordAt p) n i f.xdr) (hi : i < n) :
    handleSize (wordAt p) i = f.xdr.length := by
  rw [handleSize, (upto_cons.mp hu).1 hi, opaqueWords_pack _ f.length_lt, NfsFh3.xdr, counted, List.length_cons, Nat.add_comm]

theorem wccAfter_upto {d : WccData} (hu : Upto (wordAt p) n i d.xdr) (hi : i < n) :
    wccAfter (wordAt p) i = i + (optionally WccAttr.xdr d.before).length := by
  obtain ⟨hbefore, -⟩ := upto_append.mp hu
  obtain ⟨_ | a, after⟩ := d
  · rw [wccAfter, if_pos ((upto_cons.mp hbefore).1 hi)]; rfl
  · rw [wccAfter, if_neg (by rw [(upto_cons.mp hbefore).1 hi]; decide)]; rfl

theorem NfsFh3.xdr_length (f : NfsFh3) : f.xdr.length = 1 + (f.data.length + 3) / 4 ∧ f.xdr.length ≤ 17 := by
  have hle := f.le
  rw [NfsFh3.xdr, counted_length]
  omega

theorem attrSize_cases (w : Nat → UInt32) (i : Nat) : (w i = 0 ∧ attrSize w i = 1) ∨ (w i ≠ 0 ∧ attrSize w i = 22) := by
  unfold attrSize
  by_cases h : w i = 0 <;> simp [h]

end Sizes

/-! ## Cuts -/

def Result.size {α β : Type} (ok : α → Nat) (fail : β → Nat) : Result α β → Nat
  | .resok a => ok a
  | .resfail _ _ b => fail b

/-- How many words of a result its branch decodes. -/
def Reply3.decoded (o : Opts) : Reply3 → Nat
  | .null | .rename _ | .link _ | .fsstat _ | .fsinfo _ | .pathconf _ => 0
  | .getattr res => res.size (·.xdr.length) (fun _ => 0)
  | .setattr res => res.size (·.xdr.length) (fun _ => 0)
  | .lookup res => res.size (·.xdr.length) (fun _ => 0)
  | .access res => res.size (·.xdr.length) (fun a => (post_op_attr a).length)
  | .readlink res => res.size (·.xdr.length) (fun a => (post_op_attr a).length)
  | .read res => res.size (fun r => (post_op_attr r.file_attributes).length + 2) (fun a => (post_op_attr a).length)
  | .write res => res.size (fun r => r.file_wcc.xdr.length + 2) (·.xdr.length)
  | .create res | .mkdir res | .symlink res | .mknod res =>
    res.size (fun r => (post_op_fh3 r.obj).length + (post_op_attr r.obj_attributes).length) (fun _ => 0)
  | .remove res | .rmdir res => res.size (·.xdr.length) (·.xdr.length)
  | .commit res => res.size (·.file_wcc.xdr.length) (·.xdr.length)
  | .readdir res =>
    res.size (fun r => if o.omitReaddirContents then (post_op_attr r.dir_attributes).length else (r.xdr Entry3.xdr).length)
      (fun a => (post_op_attr a).length)
  | .readdirp res =>
    res.size (fun r => if o.omitReaddirContents then (post_op_attr r.dir_attributes).length else (r.xdr Entryplus.xdr).length)
      (fun a => (post_op_attr a).length)
  | .mnt res => res.size (·.fhandle.xdr.length) (fun _ => 0)

/-- The payload is empty, and the word behind it 0: a flag that says nothing follows. -/
def ZeroBehind (p : Ptr) (n : Nat) : Prop := n = 0 ∧ wordAt p 0 = 0

instance (p : Ptr) (n : Nat) : Decidable (ZeroBehind p n) := inferInstanceAs (Decidable (n = 0 ∧ wordAt p 0 = 0))

/-- The attributes before an operation are cut: what is behind them is read through NULL. -/
def CutsBefore (p : Ptr) (n : Nat) : Prop := wordAt p 0 ≠ 0 ∧ n < 7

/-- The second flag is behind the payload, and 0. -/
def ZeroSecond (p : Ptr) (n : Nat) : Prop := n ≤ wccAfter (wordAt p) 0 ∧ wordAt p (wccAfter (wordAt p) 0) = 0

/-- Part of a listing is missing, all of it behind the directory's attributes. -/
def CutsListing {ε : Type} (o : Opts) (enc : ε → List UInt32) (r : READDIR3resok ε) (n : Nat) : Prop :=
  o.omitReaddirContents = false ∧ (post_op_attr r.dir_attributes).length ≤ n ∧ n < (r.xdr enc).length

/-- The cuts of a result, in front of word `n`, that the printer does not judge right. -/
def Misjudged (o : Opts) (p : Ptr) (n : Nat) : Reply3 → Prop
  | .setattr (.resok _) | .write (.resfail _ _ _) | .remove _ | .rmdir _ | .commit _ => CutsBefore p n ∨ ZeroSecond p n
  | .write (.resok _) => CutsBefore p n
  | .lookup (.resok r) =>
    n = r.object.xdr.length + (post_op_attr r.obj_attributes).length ∧ wordAt p n = 0
  | .access (.resok r) => n + 1 = r.xdr.length
  | .read (.resok r) => n = (post_op_attr r.file_attributes).length + 1
  -- an empty path, to be hashed, and a slash behind it
  | .readlink (.resok r) => r.data = [] ∧ o.RAWNAMES = false ∧ n = r.xdr.length ∧ (cur p n).byte 0 = SLASH
  | .access (.resfail _ _ _) | .readlink (.resfail _ _ _) | .read (.resfail _ _ _) => ZeroBehind p n
  -- a handle is looked at only when a word follows its length
  | .create (.resok r) | .mkdir (.resok r) | .symlink (.resok r) | .mknod (.resok r) =>
    n = (post_op_fh3 r.obj).length ∧ n ≠ 2 ∧ wordAt p n = 0
  | .readdir (.resok r) => ZeroBehind p n ∨ CutsListing o Entry3.xdr r n
  | .readdirp (.resok r) => ZeroBehind p n ∨ CutsListing o Entryplus.xdr r n
  | .readdir (.resfail _ _ _) | .readdirp (.resfail _ _ _) => ZeroBehind p n
  | .mnt (.resok r) => n = 1 ∧ r.fhandle.data = []
  | _ => False

section Judgements

variable {o : Opts} {b : Args} {lib : XdrLib} {p : Ptr} {actual_len status count xid : UInt32} {q : Proc3} {n : Nat}

/-! ### Data around an operation -/

theorem wcc_val_if (h : Mapped p n) (hb : ¬ CutsBefore p n) :
    (print_wcc_data3 (cur p 0) (cur p n) true).val =
      some (curIf p (wordAt p (wccAfter (wordAt p) 0) = 0 ∨ wccAfter (wordAt p) 0 + 22 ≤ n) (wccSize (wordAt p) 0)) := by
  have hfirst : wordAt p 0 = 0 ∨ 0 + 7 ≤ n := by
    by_cases hw : wordAt p 0 = 0
    · exact Or.inl hw
    · exact Or.inr (by_contra fun hn => hb ⟨hw, by omega⟩)
  rw [wcc_data3_val h (Nat.zero_le n), if_pos hfirst, Nat.zero_add]
  rfl

theorem wcc_crash (h : Mapped p n) (hb : CutsBefore p n) : (print_wcc_data3 (cur p 0) (cur p n) true).val = none := by
  have hfirst : ¬ (wordAt p 0 = 0 ∨ 0 + 7 ≤ n) := by
    rintro (hw | hn)
    · exact hb.1 hw
    · have := hb.2; omega
  rw [wcc_data3_val h (Nat.zero_le n), if_neg hfirst]

theorem wccSize_sum (w : Nat → UInt32) : wccSize w 0 = wccAfter w 0 + attrSize w (wccAfter w 0) := by
  rw [wccSize, Nat.sub_zero]

theorem wccAfter_cases (w : Nat → UInt32) : (w 0 = 0 ∧ wccAfter w 0 = 1) ∨ (w 0 ≠ 0 ∧ wccAfter w 0 = 7) := by
  unfold wccAfter
  by_cases h : w 0 = 0 <;> simp [h]

/-- The end of the data, when the payload does not end in front of the second flag. -/
theorem wcc_length {d : WccData} (hu : Upto (wordAt p) n 0 d.xdr) (hn : wccAfter (wordAt p) 0 < n) :
    d.xdr.length = wccSize (wordAt p) 0 := by
  have hj := wccAfter_upto hu (by omega)
  have hafter := (upto_append.mp hu).2
  rw [← hj] at hafter
  rw [wccSize_sum, attrSize_upto hafter hn, hj, WccData.xdr, List.length_append, Nat.zero_add]

theorem wcc_length_gt {d : WccData} (hu : Upto (wordAt p) n 0 d.xdr) (hn : n ≤ wccAfter (wordAt p) 0) : n < d.xdr.length := by
  have hpos := d.xdr_pos
  by_cases h0 : n = 0
  · omega
  · have hj := wccAfter_upto hu (by omega)
    have hattr : 0 < (post_op_attr d.after).length := optionally_pos _ _
    rw [WccData.xdr, List.length_append]
    omega

theorem judges_wcc (h : Mapped p (actual_len.toNat / 4)) {d : WccData} (hu : Upto (wordAt p) (actual_len.toNat / 4) 0 d.xdr)
    (hq : printResult o b lib (cur p 0) (cur p (actual_len.toNat / 4)) actual_len status count q =
      print_wcc_data3 (cur p 0) (cur p (actual_len.toNat / 4)) true) :
    Judges (nfs_v3_print_resp o b lib q.number xid p actual_len status count) (d.xdr.length ≤ actual_len.toNat / 4) ↔
      ¬ (CutsBefore p (actual_len.toNat / 4) ∨ ZeroSecond p (actual_len.toNat / 4)) := by
  by_cases hb : CutsBefore p (actual_len.toNat / 4)
  · exact iff_of_false (judges_crash (by rw [hq, wcc_crash h hb])) fun hx => hx (Or.inl hb)
  · have hattr := attrSize_cases (wordAt p) (wccAfter (wordAt p) 0)
    have hsum := wccSize_sum (wordAt p)
    have hcases := wccAfter_cases (wordAt p)
    rw [judges_of_val h (by rw [hq, wcc_val_if h hb]) (by intro hc; omega)]
    simp only [hb, false_or, ZeroSecond]
    by_cases hcut : actual_len.toNat / 4 ≤ wccAfter (wordAt p) 0
    · have hgt := wcc_length_gt hu hcut
      constructor
      · rintro hiff ⟨-, hz⟩
        have := hiff.mp (Or.inl hz)
        omega
      · intro hz
        exact iff_of_false (fun hx => hx.elim (fun h0 => hz ⟨hcut, h0⟩) (fun hx => by omega)) (by omega)
    · have hlen := wcc_length hu (by omega)
      refine iff_of_true ?_ (fun hx => hcut hx.1)
      rw [hlen]
      rcases hattr with ⟨h0, h1⟩ | ⟨h0, h1⟩
      · exact iff_of_true (Or.inl h0) (by omega)
      · constructor
        · rintro (hz | hle)
          · exact absurd hz h0
          · omega
        · intro hle
          exact Or.inr (by omega)

theorem judges_write (h : Mapped p (actual_len.toNat / 4)) {d : WccData} (hu : Upto (wordAt p) (actual_len.toNat / 4) 0 d.xdr)
    (hq : printResult o b lib (cur p 0) (cur p (actual_len.toNat / 4)) actual_len status count q =
      print_wcc_data3 (cur p 0) (cur p (actual_len.toNat / 4)) true >>= fun new_p =>
        fprintf [.lit "count "] >>= fun _ => print_uint32 new_p (cur p (actual_len.toNat / 4)) true >>= fun new_p =>
          fprintf [.lit "stable "] >>= fun _ => print_stable3 new_p (cur p (actual_len.toNat / 4)) true) :
    Judges (nfs_v3_print_resp o b lib q.number xid p actual_len status count) (d.xdr.length + 2 ≤ actual_len.toNat / 4) ↔
      ¬ CutsBefore p (actual_len.toNat / 4) := by
  by_cases hb : CutsBefore p (actual_len.toNat / 4)
  · refine iff_of_false (judges_crash ?_) fun hx => hx hb
    rw [hq, Trace.bind_none _ (wcc_crash h hb)]
  · have hattr := attrSize_cases (wordAt p) (wccAfter (wordAt p) 0)
    have hsum := wccSize_sum (wordAt p)
    have hcases := wccAfter_cases (wordAt p)
    have hval := wcc_val_if h hb
    have hcount := uint32_if_val h (i := wccSize (wordAt p) 0)
      (c := wordAt p (wccAfter (wordAt p) 0) = 0 ∨ wccAfter (wordAt p) 0 + 22 ≤ actual_len.toNat / 4) (by intro hc; omega)
    have hstable := stable3_if_val h (i := wccSize (wordAt p) 0 + 1)
      (c := (wordAt p (wccAfter (wordAt p) 0) = 0 ∨ wccAfter (wordAt p) 0 + 22 ≤ actual_len.toNat / 4) ∧
        wccSize (wordAt p) 0 ≤ actual_len.toNat / 4) (by rintro ⟨-, hc⟩; omega)
    rw [judges_of_val h (by rw [hq, Trace.val_bind _ hval, val_fprintf_bind, Trace.val_bind _ hcount, val_fprintf_bind, hstable])
      (by rintro ⟨⟨-, hc⟩, -⟩; omega)]
    refine iff_of_true ?_ hb
    by_cases hcut : actual_len.toNat / 4 ≤ wccAfter (wordAt p) 0
    · have hgt := wcc_length_gt hu hcut
      exact iff_of_false (fun hx => by omega) (by omega)
    · have hlen := wcc_length hu (by omega)
      rw [hlen]
      constructor
      · rintro ⟨-, hlt⟩; omega
      · intro hle
        refine ⟨⟨?_, by omega⟩, by omega⟩
        rcases hattr with ⟨h0, -⟩ | ⟨-, h1⟩
        · exact Or.inl h0
        · exact Or.inr (by omega)

/-! ### Attributes and what follows them -/

theorem attr_val (h : Mapped p n) (print : Bool) :
    (print_post_op_attr3 (cur p 0) (cur p n) print).val =
      some (curIf p (attrSize (wordAt p) 0 ≤ n ∨ ZeroBehind p n) (attrSize (wordAt p) 0)) := by
  have hval : (print_post_op_attr3 (curIf p True 0) (cur p n) print).val = _ := attr_if_val h (fun _ => Nat.zero_le _)
  have hzero : 0 = n ∧ wordAt p 0 = 0 ↔ ZeroBehind p n := and_congr_left fun _ => eq_comm
  simp only [true_and, Nat.zero_add, hzero] at hval
  exact hval

/-- Attributes are all there iff they are not cut. -/
theorem attr_there {a : Option Fattr3} (hu : Upto (wordAt p) n 0 (post_op_attr a)) :
    attrSize (wordAt p) 0 ≤ n ↔ (post_op_attr a).length ≤ n := by
  have hpos : 0 < (post_op_attr a).length := optionally_pos _ _
  by_cases hn : 0 < n
  · rw [attrSize_upto hu hn]
  · have := attrSize_cases (wordAt p) 0
    omega

/-- Whether attributes are let through does not depend on what is behind the cut, but for
    a flag there. -/
theorem attr_ends {a : Option Fattr3} {k : Nat} (hu : Upto (wordAt p) n k (post_op_attr a)) :
    (k + attrSize (wordAt p) k ≤ n ∨ (k = n ∧ wordAt p k = 0)) ↔
      (k + (post_op_attr a).length ≤ n ∨ (k = n ∧ wordAt p k = 0)) := by
  have hpos : 0 < (post_op_attr a).length := optionally_pos _ _
  have hsize := attrSize_cases (wordAt p) k
  by_cases hk : k < n
  · rw [attrSize_upto hu hk]
  · exact or_congr_left (by omega)

/-- Attributes are what a branch decodes last. -/
theorem judges_last_attr {c C M : Prop} [Decidable c] {k : Nat} (h : Mapped p (actual_len.toNat / 4)) {a : Option Fattr3}
    (hu : Upto (wordAt p) (actual_len.toNat / 4) k (post_op_attr a)) (hk : c → k ≤ actual_len.toNat / 4 + 800) {print : Bool}
    (hq : (printResult o b lib (cur p 0) (cur p (actual_len.toNat / 4)) actual_len status count q).val =
      (print_post_op_attr3 (curIf p c k) (cur p (actual_len.toNat / 4)) print).val)
    (hC : C ↔ c ∧ k + (post_op_attr a).length ≤ actual_len.toNat / 4)
    (hM : M ↔ c ∧ actual_len.toNat / 4 = k ∧ wordAt p k = 0) :
    Judges (nfs_v3_print_resp o b lib q.number xid p actual_len status count) C ↔ ¬ M := by
  have hpos : 0 < (post_op_attr a).length := optionally_pos _ _
  have hsmall := attrSize_cases (wordAt p) k
  rw [judges_of_val h (by rw [hq, attr_if_val h hk]) (by rintro ⟨hc, -⟩; have := hk hc; omega), attr_ends hu, hC, hM]
  constructor
  · rintro hiff ⟨hc, hn, hz⟩
    have := (hiff.mp ⟨hc, Or.inr ⟨hn.symm, hz⟩⟩).2
    omega
  · intro hz
    refine and_congr_right fun hc => ⟨fun hx => hx.resolve_right fun hy => hz ⟨hc, hy.1.symm, hy.2⟩, Or.inl⟩

theorem judges_attr (h : Mapped p (actual_len.toNat / 4)) {a : Option Fattr3}
    (hu : Upto (wordAt p) (actual_len.toNat / 4) 0 (post_op_attr a)) {print : Bool}
    (hq : (printResult o b lib (cur p 0) (cur p (actual_len.toNat / 4)) actual_len status count q).val =
      (print_post_op_attr3 (cur p 0) (cur p (actual_len.toNat / 4)) print).val) :
    Judges (nfs_v3_print_resp o b lib q.number xid p actual_len status count)
      ((post_op_attr a).length ≤ actual_len.toNat / 4) ↔ ¬ ZeroBehind p (actual_len.toNat / 4) := by
  have hattr := attrSize_cases (wordAt p) 0
  have hpos : 0 < (post_op_attr a).length := optionally_pos _ _
  rw [judges_of_val h (by rw [hq, attr_val h]) (by intro _; omega), attr_there hu]
  constructor
  · rintro hiff ⟨h0, hz⟩
    have := hiff.mp (Or.inr ⟨h0, hz⟩)
    omega
  · intro hz
    exact ⟨fun hx => hx.resolve_right hz, Or.inl⟩

/-- What is in front of the cut behind attributes tells their size. -/
theorem attr_size {a : Option Fattr3} (hu : Upto (wordAt p) n 0 (post_op_attr a)) :
    (n = 0 ∧ 1 ≤ attrSize (wordAt p) 0) ∨ (0 < n ∧ attrSize (wordAt p) 0 = (post_op_attr a).length) := by
  have hsize := attrSize_cases (wordAt p) 0
  by_cases hn : 0 < n
  · exact Or.inr ⟨hn, attrSize_upto hu hn⟩
  · exact Or.inl (by omega)

theorem judges_access (h : Mapped p (actual_len.toNat / 4)) {a : Option Fattr3}
    (hu : Upto (wordAt p) (actual_len.toNat / 4) 0 (post_op_attr a))
    (hq : printResult o b lib (cur p 0) (cur p (actual_len.toNat / 4)) actual_len status count q =
      print_post_op_attr3 (cur p 0) (cur p (actual_len.toNat / 4)) false >>= fun new_p =>
        fprintf [.lit "acc "] >>= fun _ => print_uint32 new_p (cur p (actual_len.toNat / 4)) true) :
    Judges (nfs_v3_print_resp o b lib q.number xid p actual_len status count)
      ((post_op_attr a).length + 1 ≤ actual_len.toNat / 4) ↔ ¬ actual_len.toNat / 4 + 1 = (post_op_attr a).length + 1 := by
  have hsize := attr_size hu
  have hsmall := attrSize_cases (wordAt p) 0
  have hpos : 0 < (post_op_attr a).length := optionally_pos _ _
  have hacc := uint32_if_val h (i := attrSize (wordAt p) 0)
    (c := attrSize (wordAt p) 0 ≤ actual_len.toNat / 4 ∨ ZeroBehind p (actual_len.toNat / 4)) (by intro _; omega)
  rw [judges_of_val h (by rw [hq, Trace.val_bind _ (attr_val h false), val_fprintf_bind, hacc]) (by rintro ⟨-, hc⟩; omega)]
  have hiff : ((attrSize (wordAt p) 0 ≤ actual_len.toNat / 4 ∨ ZeroBehind p (actual_len.toNat / 4)) ∧
      attrSize (wordAt p) 0 ≤ actual_len.toNat / 4) ↔ attrSize (wordAt p) 0 ≤ actual_len.toNat / 4 :=
    and_iff_right_of_imp Or.inl
  rw [hiff]
  omega

theorem judges_read (h : Mapped p (actual_len.toNat / 4)) {a : Option Fattr3}
    (hu : Upto (wordAt p) (actual_len.toNat / 4) 0 (post_op_attr a))
    (hq : printResult o b lib (cur p 0) (cur p (actual_len.toNat / 4)) actual_len status count q =
      print_post_op_attr3 (cur p 0) (cur p (actual_len.toNat / 4)) true >>= fun new_p =>
        printReadOk new_p (cur p (actual_len.toNat / 4)) count) :
    Judges (nfs_v3_print_resp o b lib q.number xid p actual_len status count)
      ((post_op_attr a).length + 2 ≤ actual_len.toNat / 4) ↔ ¬ actual_len.toNat / 4 = (post_op_attr a).length + 1 := by
  have hsize := attr_size hu
  have hsmall := attrSize_cases (wordAt p) 0
  have hpos : 0 < (post_op_attr a).length := optionally_pos _ _
  have hread := readOk_if_val h (i := attrSize (wordAt p) 0)
    (c := attrSize (wordAt p) 0 ≤ actual_len.toNat / 4 ∨ ZeroBehind p (actual_len.toNat / 4)) (by intro _; omega) count
  rw [judges_of_val h (by rw [hq, Trace.val_bind _ (attr_val h true), hread]) (by rintro ⟨-, hc⟩; omega)]
  have hiff : ((attrSize (wordAt p) 0 ≤ actual_len.toNat / 4 ∨ ZeroBehind p (actual_len.toNat / 4)) ∧
      attrSize (wordAt p) 0 + 1 ≤ actual_len.toNat / 4) ↔ attrSize (wordAt p) 0 + 1 ≤ actual_len.toNat / 4 :=
    and_iff_right_of_imp fun hx => Or.inl (by omega)
  rw [hiff]
  omega

/-! ### Handles -/

/-- A handle in the payload does not wrap. -/
theorem not_wraps_upto (h : Mapped p n) {i : Nat} {f : NfsFh3} (hu : Upto (wordAt p) n i f.xdr) (hi : i < n) :
    ¬ HandleWraps p i := by
  have htop := h.top
  have hlen := f.xdr_length
  have hsize := handleSize_upto hu hi
  rw [handleSize] at hsize
  unfold HandleWraps
  omega

theorem fh3_val_if (h : Mapped p n) {f : NfsFh3} (hu : Upto (wordAt p) n 0 f.xdr) :
    (print_fh3 (cur p 0) (cur p n) true).val = some (curIf p (2 ≤ n ∧ f.xdr.length ≤ n) f.xdr.length) := by
  rw [fh3_val h (Nat.zero_le _) fun hn => not_wraps_upto h hu (by omega)]
  simp only [Nat.zero_add, curIf]
  by_cases hn : 2 ≤ n
  · rw [handleSize_upto hu (by omega)]
  · rw [if_neg (fun hx => hn hx.1), if_neg (fun hx => hn hx.1)]

theorem judges_lookup (h : Mapped p (actual_len.toNat / 4)) {r : LOOKUP3resok}
    (hu : Upto (wordAt p) (actual_len.toNat / 4) 0 r.xdr)
    (hq : printResult o b lib (cur p 0) (cur p (actual_len.toNat / 4)) actual_len status count q =
      fprintf [.lit "fh "] >>= fun _ => print_fh3 (cur p 0) (cur p (actual_len.toNat / 4)) true >>= fun new_p =>
        print_post_op_attr3 new_p (cur p (actual_len.toNat / 4)) true >>= fun new_p =>
          print_post_op_attr3 new_p (cur p (actual_len.toNat / 4)) false) :
    Judges (nfs_v3_print_resp o b lib q.number xid p actual_len status count) (r.xdr.length ≤ actual_len.toNat / 4) ↔
      ¬ (actual_len.toNat / 4 = r.object.xdr.length + (post_op_attr r.obj_attributes).length ∧
        wordAt p (actual_len.toNat / 4) = 0) := by
  simp only [LOOKUP3resok.xdr, upto_append, Nat.zero_add, List.length_append] at hu ⊢
  obtain ⟨⟨hfh, hobj⟩, hdir⟩ := hu
  have hlen := r.object.xdr_length
  have hA : 0 < (post_op_attr r.obj_attributes).length := optionally_pos _ _
  have hB : 0 < (post_op_attr r.dir_attributes).length := optionally_pos _ _
  have hval := fh3_val_if h hfh
  have hattr1 : (print_post_op_attr3 (curIf p _ _) _ true).val = _ := attr_if_val h
    (c := 2 ≤ actual_len.toNat / 4 ∧ r.object.xdr.length ≤ actual_len.toNat / 4) (i := r.object.xdr.length) (by omega)
  have hsmall := attrSize_cases (wordAt p) r.object.xdr.length
  have hresult := (congrArg Trace.val hq).trans ((val_fprintf_bind _ _).trans
    ((Trace.val_bind _ hval).trans (Trace.val_bind _ hattr1)))
  by_cases hcut : r.object.xdr.length < actual_len.toNat / 4
  · rw [attrSize_upto hobj hcut] at hresult
    refine judges_last_attr h hdir ?_ hresult ?_ ?_
    · rintro ⟨-, hc | hc⟩ <;> omega
    · constructor
      · intro hle
        exact ⟨⟨by omega, Or.inl (by omega)⟩, hle⟩
      · exact And.right
    · constructor
      · rintro ⟨hn, hz⟩
        rw [hn] at hz
        exact ⟨⟨by omega, Or.inl (by omega)⟩, hn, hz⟩
      · rintro ⟨-, hn, hz⟩
        rw [hn]
        exact ⟨rfl, hz⟩
  · rw [judges_of_val h (hresult.trans (attr_if_val h (by omega))) (by omega)]
    refine iff_of_true (iff_of_false (fun hx => ?_) (by omega)) (fun hx => by omega)
    obtain ⟨-, hx | hx⟩ := hx <;> omega

theorem fh3_length (f : Option NfsFh3) : (f = none ∧ (post_op_fh3 f).length = 1) ∨ (f ≠ none ∧ 2 ≤ (post_op_fh3 f).length) := by
  obtain _ | f := f
  · exact Or.inl ⟨rfl, rfl⟩
  · have hlen := f.xdr_length
    refine Or.inr ⟨nofun, ?_⟩
    show 2 ≤ f.xdr.length + 1
    omega

/-- Behind an optional handle, some of whose words are in the payload. -/
theorem post_op_fh3_val_if (h : Mapped p n) {f : Option NfsFh3} (hu : Upto (wordAt p) n 0 (post_op_fh3 f)) (hn : 0 < n) :
    (print_post_op_fh3 (cur p 0) (cur p n) true).val =
      some (curIf p ((post_op_fh3 f).length ≤ n ∧ (f ≠ none → 3 ≤ n)) (post_op_fh3 f).length) := by
  obtain _ | f := f
  · have hflag : wordAt p 0 = 0 := (upto_cons.mp hu).1 hn
    have hsize : optHandleSize (wordAt p) 0 = 1 := if_pos hflag
    rw [post_op_fh3_val h (Nat.zero_le n) (fun h0 => absurd hflag h0), if_pos (Or.inl hflag), hsize, curIf,
      if_pos ⟨hn, fun hx => absurd rfl hx⟩]
    rfl
  · obtain ⟨hfl, hfh⟩ := upto_cons.mp hu
    have hflag : wordAt p 0 ≠ 0 := by rw [hfl hn]; decide
    have hlen : (post_op_fh3 (some f)).length = f.xdr.length + 1 := rfl
    rw [post_op_fh3_val h (Nat.zero_le n) (fun _ h3 => not_wraps_upto h hfh (by omega)), optHandleSize, if_neg hflag, curIf]
    by_cases h3 : 3 ≤ n
    · rw [handleSize_upto hfh (by omega), hlen]
      simp only [hflag, false_or, Nat.zero_add, h3, true_and, Nat.add_comm 1, implies_true, and_true]
    · rw [if_neg, if_neg]
      · exact fun hx => h3 (hx.2 (by simp))
      · rintro (h0 | ⟨h0, -⟩)
        · exact hflag h0
        · omega

/-- With no word captured the cursor is behind the end, or NULL. -/
theorem post_op_fh3_val_zero (h : Mapped p n) (hn : n = 0) :
    (print_post_op_fh3 (cur p 0) (cur p n) true).val = some (curIf p (wordAt p 0 = 0) 1) := by
  subst hn
  rw [post_op_fh3_val h (Nat.le_refl 0) (fun _ h3 => absurd h3 (by omega)), curIf]
  by_cases h0 : wordAt p 0 = 0
  · rw [if_pos (Or.inl h0), if_pos h0, optHandleSize, if_pos h0]
  · rw [if_neg h0, if_neg]
    rintro (hx | ⟨hx, -⟩)
    · exact h0 hx
    · omega

theorem judges_created (h : Mapped p (actual_len.toNat / 4)) {r : CREATE3resok}
    (hu : Upto (wordAt p) (actual_len.toNat / 4) 0 (post_op_fh3 r.obj ++ post_op_attr r.obj_attributes))
    (hq : printResult o b lib (cur p 0) (cur p (actual_len.toNat / 4)) actual_len status count q =
      fprintf [.lit "fh "] >>= fun _ => print_post_op_fh3 (cur p 0) (cur p (actual_len.toNat / 4)) true >>= fun new_p =>
        print_post_op_attr3 new_p (cur p (actual_len.toNat / 4)) true) :
    Judges (nfs_v3_print_resp o b lib q.number xid p actual_len status count)
      ((post_op_fh3 r.obj).length + (post_op_attr r.obj_attributes).length ≤ actual_len.toNat / 4) ↔
      ¬ (actual_len.toNat / 4 = (post_op_fh3 r.obj).length ∧ actual_len.toNat / 4 ≠ 2 ∧ wordAt p (actual_len.toNat / 4) = 0) := by
  rw [upto_append, Nat.zero_add] at hu
  obtain ⟨hfh, hattr⟩ := hu
  have hA : 0 < (post_op_attr r.obj_attributes).length := optionally_pos _ _
  have hlen := fh3_length r.obj
  have hvals := (congrArg Trace.val hq).trans (val_fprintf_bind _ _)
  by_cases hn : 0 < actual_len.toNat / 4
  · refine judges_last_attr h hattr (by omega) (hvals.trans (Trace.val_bind _ (post_op_fh3_val_if h hfh hn))) ?_ ?_
    · refine ⟨fun hle => ⟨⟨by omega, fun hx => ?_⟩, hle⟩, And.right⟩
      rcases hlen with ⟨h0, -⟩ | ⟨-, h2⟩
      · exact absurd h0 hx
      · omega
    · constructor
      · rintro ⟨h1, h2, hz⟩
        refine ⟨⟨by omega, fun hx => ?_⟩, h1, by rwa [← h1]⟩
        rcases hlen with ⟨h0, -⟩ | ⟨-, h3⟩
        · exact absurd h0 hx
        · omega
      · rintro ⟨⟨-, h3⟩, h1, hz⟩
        refine ⟨h1, fun h2 => ?_, by rwa [h1]⟩
        rcases hlen with ⟨-, h4⟩ | ⟨h0, -⟩
        · omega
        · have := h3 h0
          omega
  · have h0 : actual_len.toNat / 4 = 0 := by omega
    rw [judges_of_val h ((hvals.trans (Trace.val_bind _ (post_op_fh3_val_zero h h0))).trans (attr_if_val h (by omega)))
      (by omega)]
    refine iff_of_true (iff_of_false (fun hx => ?_) (by omega)) (fun hx => by omega)
    obtain ⟨-, hx | hx⟩ := hx <;> omega

/-- MNT looks at a handle alone. -/
theorem judges_mnt (h : Mapped p (actual_len.toNat / 4)) {f : NfsFh3} (hu : Upto (wordAt p) (actual_len.toNat / 4) 0 f.xdr)
    (hq : printResult o b lib (cur p 0) (cur p (actual_len.toNat / 4)) actual_len status count q =
      fprintf [.lit "fh "] >>= fun _ => print_fh3 (cur p 0) (cur p (actual_len.toNat / 4)) true) :
    Judges (nfs_v3_print_resp o b lib q.number xid p actual_len status count) (f.xdr.length ≤ actual_len.toNat / 4) ↔
      ¬ (actual_len.toNat / 4 = 1 ∧ f.data = []) := by
  have hlen := f.xdr_length
  have hempty : f.data = [] ↔ f.data.length = 0 := List.length_eq_zero_iff.symm
  rw [judges_of_val h (((congrArg Trace.val hq).trans (val_fprintf_bind _ _)).trans (fh3_val_if h hu)) (by omega), hempty]
  omega

theorem judges_getattr (h : Mapped p (actual_len.toNat / 4))
    (hq : printResult o b lib (cur p 0) (cur p (actual_len.toNat / 4)) actual_len status count q =
      print_fattr3 (cur p 0) (cur p (actual_len.toNat / 4)) true) :
    Judges (nfs_v3_print_resp o b lib q.number xid p actual_len status count) (21 ≤ actual_len.toNat / 4) := by
  refine (judges_of_val (c := 21 ≤ actual_len.toNat / 4) (k := 21) h ?_ (by omega)).mpr Iff.rfl
  rw [hq, fattr3_val h (Nat.zero_le _)]
  simp only [Nat.zero_add]
  rfl

/-- A branch that leaves the cursor where it is. -/
theorem judges_nothing (h : Mapped p (actual_len.toNat / 4))
    (hq : printResult o b lib (cur p 0) (cur p (actual_len.toNat / 4)) actual_len status count q = pure (cur p 0)) :
    Judges (nfs_v3_print_resp o b lib q.number xid p actual_len status count) (0 ≤ actual_len.toNat / 4) := by
  refine (judges_of_val (c := True) (k := 0) h ?_ (by omega)).mpr (by simp)
  rw [hq]
  rfl

/-! ### Paths -/

/-- A path some of which is cut leaves NULL. -/
theorem fn3_cut (h : Mapped p n) {c : Prop} [Decidable c] {k : Nat} (hk : c → k ≤ n + 900)
    (hw : k + 1 ≤ n → ¬ HandleWraps p k) (hcut : n < k + handleSize (wordAt p) k) :
    (print_fn3 o (curIf p c k) (cur p n) true).val = some (curIf p False 0) := by
  unfold curIf
  by_cases hc : c
  · rw [if_pos hc, fn3_val h (hk hc) hw, if_neg (by omega), if_neg id]
  · rw [if_neg hc, fn3_null, if_neg id]
    rfl

theorem judges_readlink {r : READLINK3resok} (h : Mapped p r.xdr.length) (hcut : actual_len.toNat / 4 ≤ r.xdr.length)
    (hlies : (cur p 0).Holds (wire (r.xdr.take (actual_len.toNat / 4))))
    (hq : printResult o b lib (cur p 0) (cur p (actual_len.toNat / 4)) actual_len status count q =
      print_post_op_attr3 (cur p 0) (cur p (actual_len.toNat / 4)) false >>= fun new_p =>
        fprintf [.lit "name "] >>= fun _ => print_fn3 o new_p (cur p (actual_len.toNat / 4)) true) :
    Judges (nfs_v3_print_resp o b lib q.number xid p actual_len status count) (r.xdr.length ≤ actual_len.toNat / 4) ↔
      ¬ (r.data = [] ∧ o.RAWNAMES = false ∧ actual_len.toNat / 4 = r.xdr.length ∧
        (cur p (actual_len.toNat / 4)).byte 0 = SLASH) := by
  have htop := h.top
  have hm : Mapped p (actual_len.toNat / 4) := ⟨h.pos, by omega⟩
  have hu := (at_of_holds hlies).upto
  have hlen : r.xdr.length = (post_op_attr r.symlink_attributes).length + (1 + (r.data.length + 3) / 4) := by
    rw [READLINK3resok.xdr, List.length_append, counted_length]
  rw [READLINK3resok.xdr, Nat.zero_add, upto_append, Nat.zero_add] at hu
  obtain ⟨hattr, hpath⟩ := hu
  have hsize := attr_size hattr
  have hsmall := attrSize_cases (wordAt p) 0
  have hL : 0 < (post_op_attr r.symlink_attributes).length := optionally_pos _ _
  have hvals := ((congrArg Trace.val hq).trans (Trace.val_bind _ (attr_val hm false))).trans (val_fprintf_bind _ _)
  have hhandle : (post_op_attr r.symlink_attributes).length < actual_len.toNat / 4 →
      handleSize (wordAt p) (post_op_attr r.symlink_attributes).length = 1 + (r.data.length + 3) / 4 := by
    intro hn
    rw [handleSize, (upto_cons.mp hpath).1 hn, opaqueWords_pack _ r.lt, pack_length]
  by_cases hpart : actual_len.toNat / 4 < r.xdr.length
  · have hfn3 := fn3_cut (o := o) (k := attrSize (wordAt p) 0)
      (c := attrSize (wordAt p) 0 ≤ actual_len.toNat / 4 ∨ ZeroBehind p (actual_len.toNat / 4)) hm (by intro _; omega) ?_ ?_
    · rw [judges_of_val hm (hvals.trans hfn3) (by omega)]
      exact iff_of_true (iff_of_false id (by omega)) (fun hx => by omega)
    · intro hn
      have hL' : attrSize (wordAt p) 0 = (post_op_attr r.symlink_attributes).length := by omega
      have hown := hhandle (by omega)
      rw [handleSize] at hown
      rw [hL']
      unfold HandleWraps
      omega
    · by_cases hn : (post_op_attr r.symlink_attributes).length < actual_len.toNat / 4
      · have hown := hhandle hn
        rw [show attrSize (wordAt p) 0 = (post_op_attr r.symlink_attributes).length by omega, hown]
        omega
      · have hown : 1 ≤ handleSize (wordAt p) (attrSize (wordAt p) 0) := Nat.le_add_right _ _
        omega
  · have hN : actual_len.toNat / 4 = r.xdr.length := by omega
    have hL' : attrSize (wordAt p) 0 = (post_op_attr r.symlink_attributes).length := by omega
    have hown := hhandle (by omega)
    have hwrap : ¬ HandleWraps p (post_op_attr r.symlink_attributes).length := by
      rw [handleSize] at hown
      unfold HandleWraps
      omega
    rw [List.take_of_length_le (by omega), READLINK3resok.xdr] at hlies
    have hdata := holds_behind _ hlies
    rw [Nat.zero_add] at hdata
    have hname := nameAt_of_holds hm hdata (by rw [counted_length]; omega)
    have hword : wordAt p (post_op_attr r.symlink_attributes).length = UInt32.ofNat r.data.length :=
      (at_cons.mp (at_of_holds hdata)).1
    have hfn3 := fn3_val (o := o) hm (i := (post_op_attr r.symlink_attributes).length) (by omega) (fun _ => hwrap)
    rw [if_pos (by omega), hword] at hfn3
    have hres : (printResult o b lib (cur p 0) (cur p (actual_len.toNat / 4)) actual_len status count q).val =
        (print_fn3 o (cur p (post_op_attr r.symlink_attributes).length) (cur p (actual_len.toNat / 4)) true).val := by
      rw [hvals, curIf, if_pos (Or.inl (by omega)), hL']
    by_cases hbad : r.data = [] ∧ o.RAWNAMES = false ∧ (cur p ((post_op_attr r.symlink_attributes).length + 1)).byte 0 = SLASH
    · obtain ⟨hdata0, hraw, hslash⟩ := hbad
      have hpos : (post_op_attr r.symlink_attributes).length + 1 = actual_len.toNat / 4 := by
        rw [hdata0] at hlen
        simp only [List.length_nil] at hlen
        omega
      have hcrash := print_string_crash (o := o) (cur_ne_null hm (by omega)) (by
        show (cur p ((post_op_attr r.symlink_attributes).length + 1)).addr.toNat + 1 < 2 ^ 32
        rw [cur_addr hm (by omega)]
        omega) hraw hslash
      rw [hdata0, show UInt32.ofNat ([] : List UInt8).length = 0 from rfl, hcrash] at hfn3
      refine iff_of_false (judges_crash (hres.trans hfn3)) fun hx => hx ⟨hdata0, hraw, hN, ?_⟩
      rw [← hpos]
      exact hslash
    · have hprinted := says_print_string (o := o) hname fun h0 h1 h2 => hbad ⟨h0, h1, h2⟩
      rw [hprinted.1] at hfn3
      have hend : (print_fn3 o (cur p (post_op_attr r.symlink_attributes).length) (cur p (actual_len.toNat / 4)) true).val =
          some (curIf p True ((post_op_attr r.symlink_attributes).length +
            handleSize (wordAt p) (post_op_attr r.symlink_attributes).length)) := hfn3
      rw [judges_of_val hm (hres.trans hend) (by omega)]
      refine iff_of_true (iff_of_true trivial (by omega)) fun hx => hbad ⟨hx.1, hx.2.1, ?_⟩
      have hpos : (post_op_attr r.symlink_attributes).length + 1 = actual_len.toNat / 4 := by
        rw [hx.1] at hlen
        simp only [List.length_nil] at hlen
        omega
      rw [hpos]
      exact hx.2.2.2

/-! ### Listings -/

theorem cstr_val {s : List UInt8} (h : b.addr.toNat + s.length < 2 ^ 32) : (printCstr o b s).val = some () := (says_cstr h).1

theorem entries_val {es : List Entry3} (h : ∀ e ∈ es, b.addr.toNat + e.name.length < 2 ^ 32) :
    ∀ k, (printEntries o b es k).val = some () := by
  induction es with
  | nil => intro k; rfl
  | cons e es ih =>
    intro k
    obtain ⟨he, hes⟩ := List.forall_mem_cons.mp h
    rw [printEntries, Trace.val_bind (a := ()) _ rfl, Trace.val_bind (a := ()) _ rfl, Trace.val_bind (a := ()) _ rfl,
      Trace.val_bind _ (cstr_val he), Trace.val_bind (a := ()) _ rfl, Trace.val_bind (a := ()) _ rfl]
    exact ih hes _

theorem entriesplus_val {es : List Entryplus3} (h : ∀ e ∈ es, b.addr.toNat + e.name.length < 2 ^ 32) :
    ∀ k, (printEntriesplus o b es k).val = some () := by
  induction es with
  | nil => intro k; rfl
  | cons e es ih =>
    intro k
    obtain ⟨he, hes⟩ := List.forall_mem_cons.mp h
    have hhandle : (printNameHandle k e.name_handle).val = some () := by cases e.name_handle <;> rfl
    rw [printEntriesplus, Trace.val_bind (a := ()) _ rfl, Trace.val_bind (a := ()) _ rfl, Trace.val_bind (a := ()) _ rfl,
      Trace.val_bind _ (cstr_val he), Trace.val_bind (a := ()) _ rfl, Trace.val_bind (a := ()) _ rfl,
      Trace.val_bind _ hhandle]
    exact ih hes _

theorem listing_val {ε : Type} {entries : List ε → Nat → Dec Unit} {res : Option (Dirlist3 ε)}
    (h : ∀ d, res = some d → (entries d.entries 0).val = some ()) : (printListing entries res).val = some () := by
  cases res with
  | none => rfl
  | some d => exact h d rfl

theorem judges_listing {ε : Type} {enc : ε → List UInt32} (h : Mapped p (actual_len.toNat / 4)) {r : READDIR3resok ε}
    (hu : Upto (wordAt p) (actual_len.toNat / 4) 0 (post_op_attr r.dir_attributes)) {f : Dec Unit} (hf : f.val = some ())
    (hq : printResult o b lib (cur p 0) (cur p (actual_len.toNat / 4)) actual_len status count q =
      if !o.omitReaddirContents ∧ status = NFS3_OK then
        print_post_op_attr3 (cur p 0) (cur p (actual_len.toNat / 4)) true >>= fun new_p => f >>= fun _ => pure new_p
      else print_post_op_attr3 (cur p 0) (cur p (actual_len.toNat / 4)) true) :
    Judges (nfs_v3_print_resp o b lib q.number xid p actual_len status count)
      ((if o.omitReaddirContents then (post_op_attr r.dir_attributes).length else (r.xdr enc).length) ≤ actual_len.toNat / 4) ↔
      ¬ (ZeroBehind p (actual_len.toNat / 4) ∨ CutsListing o enc r (actual_len.toNat / 4)) := by
  have hsmall := attrSize_cases (wordAt p) 0
  have hL : 0 < (post_op_attr r.dir_attributes).length := optionally_pos _ _
  have hW : (post_op_attr r.dir_attributes).length < (r.xdr enc).length := by
    simp only [READDIR3resok.xdr, List.length_append, List.length_singleton]
    omega
  have hval : (printResult o b lib (cur p 0) (cur p (actual_len.toNat / 4)) actual_len status count q).val =
      some (curIf p (attrSize (wordAt p) 0 ≤ actual_len.toNat / 4 ∨ ZeroBehind p (actual_len.toNat / 4)) (attrSize (wordAt p) 0)) := by
    rw [hq]
    by_cases hc : (!o.omitReaddirContents) = true ∧ status = NFS3_OK
    · rw [if_pos hc, Trace.val_bind _ (attr_val h true), Trace.val_bind _ hf]
      rfl
    · rw [if_neg hc, attr_val h]
  rw [judges_of_val h hval (by intro _; omega), attr_there hu, CutsListing]
  cases homit : o.omitReaddirContents with
  | true =>
    simp only [if_true, Bool.true_eq_false, false_and, or_false]
    constructor
    · intro hiff hz
      have h1 := hiff.mp (Or.inr hz)
      have h2 := hz.1
      omega
    · intro hz
      exact ⟨fun hx => hx.resolve_right hz, Or.inl⟩
  | false =>
    simp only [Bool.false_eq_true, if_false, true_and]
    constructor
    · rintro hiff (hz | hcut)
      · have h1 := hiff.mp (Or.inr hz)
        have h2 := hz.1
        omega
      · have h1 := hiff.mp (Or.inl hcut.1)
        omega
    · intro hz
      refine ⟨fun hx => ?_, fun hx => Or.inl (by omega)⟩
      by_contra hlt
      exact hz (hx.elim (fun hle => Or.inr ⟨hle, by omega⟩) Or.inl)

/-! ### The dispatcher -/

/-- The generated routine of a listing fails exactly on incomplete input, and what it decodes
    lies in memory. -/
def Listed (lib : XdrLib) (b : Args) (p : Ptr) (actual_len : UInt32) : Reply3 → Prop
  | .readdir (.resok r) =>
    (lib.READDIR3resok ⟨p, actual_len / 4 * 4⟩).1 =
      (if (r.xdr Entry3.xdr).length ≤ actual_len.toNat / 4 then some ⟨r.entries, if r.eof then 1 else 0⟩ else none) ∧
    ∀ e ∈ r.entries, b.addr.toNat + e.name.length < 2 ^ 32
  | .readdirp (.resok r) =>
    (lib.READDIRPLUS3resok ⟨p, actual_len / 4 * 4⟩).1 =
      (if (r.xdr Entryplus.xdr).length ≤ actual_len.toNat / 4 then some ⟨r.entries.map (·.entry), if r.eof then 1 else 0⟩
        else none) ∧
    ∀ e ∈ r.entries, b.addr.toNat + e.entry.name.length < 2 ^ 32
  | _ => True

/-- A cut reply is flagged, and one cut behind what its branch decodes is not, iff the cut is
    none of those the printer misjudges. -/
theorem cut_judged_iff (o : Opts) (b : Args) (lib : XdrLib) (r : Reply3) (xid : UInt32) (p : Ptr) (actual_len count : UInt32)
    (h : Mapped p r.body.length) (hcut : actual_len.toNat / 4 ≤ r.body.length)
    (hlies : p.Holds (wire (r.body.take (actual_len.toNat / 4)))) (hlist : Listed lib b p actual_len r) :
    Judges (nfs_v3_print_resp o b lib r.proc.number xid p actual_len r.status count) (r.decoded o ≤ actual_len.toNat / 4) ↔
      ¬ Misjudged o p (actual_len.toNat / 4) r := by
  have htop := h.top
  have hm : Mapped p (actual_len.toNat / 4) := ⟨h.pos, by omega⟩
  have hlies0 : (cur p 0).Holds (wire (r.body.take (actual_len.toNat / 4))) := by rwa [cur_zero]
  have hu := (at_of_holds hlies0).upto
  rw [Nat.zero_add] at hu
  have nothing : ∀ {q : Proc3} {s : UInt32},
      printResult o b lib (cur p 0) (cur p (actual_len.toNat / 4)) actual_len s count q = pure (cur p 0) →
      (Judges (nfs_v3_print_resp o b lib q.number xid p actual_len s count) (0 ≤ actual_len.toNat / 4) ↔ ¬ False) :=
    fun hq => iff_of_true (judges_nothing hm hq) id
  have plain : ∀ {s : UInt32} {f : Ptr → Dec Ptr} {x : Dec Ptr}, s ≠ NFS3_OK →
      (x >>= fun new_p => if s = NFS3_OK then f new_p else pure new_p) = x := by
    intro s f x hs
    simp only [if_neg hs, bind_pure]
  cases r with
  | null | rename | link | fsstat | fsinfo | pathconf => exact nothing rfl
  | getattr res =>
    obtain a | ⟨s, hs, u⟩ := res
    · exact iff_of_true (judges_getattr hm rfl) id
    · exact nothing (if_neg hs)
  | setattr res =>
    obtain d | ⟨s, hs, d⟩ := res
    · exact judges_wcc hm hu rfl
    · exact nothing (if_neg hs)
  | lookup res =>
    obtain r | ⟨s, hs, a⟩ := res
    · exact judges_lookup hm hu rfl
    · exact nothing (if_neg hs)
  | access res =>
    obtain r | ⟨s, hs, a⟩ := res
    · have hlen : r.xdr.length = (post_op_attr r.obj_attributes).length + 1 := List.length_append
      show Judges _ (r.xdr.length ≤ _) ↔ ¬ (_ = r.xdr.length)
      rw [hlen]
      exact judges_access hm (upto_append.mp hu).1 rfl
    · exact judges_attr hm hu (congrArg Trace.val (plain hs))
  | readlink res =>
    obtain r | ⟨s, hs, a⟩ := res
    · exact judges_readlink h hcut hlies0 rfl
    · exact judges_attr hm hu (congrArg Trace.val (plain hs))
  | read res =>
    obtain r | ⟨s, hs, a⟩ := res
    · exact judges_read hm (upto_append.mp (upto_append.mp hu).1).1 rfl
    · exact judges_attr hm hu (congrArg Trace.val (plain hs))
  | write res =>
    obtain r | ⟨s, hs, d⟩ := res
    · exact judges_write hm (upto_append.mp (upto_append.mp hu).1).1 rfl
    · exact judges_wcc hm hu (plain hs)
  | create res | mkdir res | symlink res | mknod res =>
    obtain r | ⟨s, hs, d⟩ := res
    · exact judges_created hm (upto_append.mp hu).1 rfl
    · exact nothing (if_neg hs)
  | remove res | rmdir res => obtain d | ⟨s, hs, d⟩ := res <;> exact judges_wcc hm hu rfl
  | commit res =>
    obtain r | ⟨s, hs, d⟩ := res
    · exact judges_wcc hm (upto_append.mp hu).1 rfl
    · exact judges_wcc hm hu rfl
  | readdir res =>
    obtain r | ⟨s, hs, a⟩ := res
    · obtain ⟨hlib, hfit⟩ := hlist
      refine judges_listing hm (upto_append.mp (upto_append.mp (upto_append.mp hu).1).1).1 (listing_val fun d hd => ?_) rfl
      rw [cur_zero, hlib] at hd
      split at hd
      · obtain rfl := Option.some.inj hd
        exact entries_val hfit 0
      · cases hd
    · exact judges_attr hm hu (congrArg Trace.val (if_neg fun hx => hs hx.2))
  | readdirp res =>
    obtain r | ⟨s, hs, a⟩ := res
    · obtain ⟨hlib, hfit⟩ := hlist
      refine judges_listing hm (upto_append.mp (upto_append.mp (upto_append.mp hu).1).1).1 (listing_val fun d hd => ?_) rfl
      rw [cur_zero, hlib] at hd
      split at hd
      · obtain rfl := Option.some.inj hd
        refine entriesplus_val (fun e he => ?_) 0
        obtain ⟨e', he', rfl⟩ := List.mem_map.mp he
        exact hfit e' he'
      · cases hd
    · exact judges_attr hm hu (congrArg Trace.val (if_neg fun hx => hs hx.2))
  | mnt res =>
    obtain r | ⟨s, hs, u⟩ := res
    · exact judges_mnt hm (upto_append.mp hu).1 rfl
    · exact nothing (if_neg hs)

/-- An ACCESS reply cut in front of its rights passes for a whole one. -/
theorem cut_access_not_flagged :
    ¬ Judges (nfs_v3_print_resp ⟨true, false, false, fun _ => []⟩ ⟨0x8049000, by decide⟩ XdrLib.short 4 7
        (Ptr.placed 0x8050000 [0, 0, 0, 0]) 4 NFS3_OK 0)
      ((Reply3.access (.resok ⟨none, 31⟩)).decoded ⟨true, false, false, fun _ => []⟩ ≤ 1) := by
  intro hj
  have hflag := (hj.2 (by decide)).1
  exact absurd hflag (by decide)

/-- A directory's attributes. -/
def directoryReply : Reply3 :=
  .getattr (.resok ⟨2, 0x1ed, 3, 1000, 100, 4096, 4096, ⟨0, 0⟩, 0x801, 7, ⟨100, 0⟩, ⟨200, 0⟩, ⟨300, 0⟩⟩)

/-- The ACCESS reply whole, and another reply whole and cut behind its tenth word. -/
theorem replies_judged :
    Judges (nfs_v3_print_resp ⟨true, false, false, fun _ => []⟩ ⟨0x8049000, by decide⟩ XdrLib.short 4 7
        (Ptr.placed 0x8050000 [0, 0, 0, 0, 0, 0, 0, 31]) 8 NFS3_OK 0)
      ((Reply3.access (.resok ⟨none, 31⟩)).decoded ⟨true, false, false, fun _ => []⟩ ≤ 2) ∧
    Judges (nfs_v3_print_resp ⟨true, false, false, fun _ => []⟩ ⟨0x8049000, by decide⟩ XdrLib.short 1 7
        (Ptr.placed 0x8050000 (wire directoryReply.body)) 84 NFS3_OK 0) (21 ≤ 21) ∧
    Judges (nfs_v3_print_resp ⟨true, false, false, fun _ => []⟩ ⟨0x8049000, by decide⟩ XdrLib.short 1 7
        (Ptr.placed 0x8050000 (wire (directoryReply.body.take 10))) 40 NFS3_OK 0) (21 ≤ 10) :=
  ⟨(cut_judged_iff ⟨true, false, false, fun _ => []⟩ ⟨0x8049000, by decide⟩ XdrLib.short (.access (.resok ⟨none, 31⟩)) 7
      (Ptr.placed 0x8050000 [0, 0, 0, 0, 0, 0, 0, 31]) 8 0 ⟨by decide, by decide⟩ (by decide)
      (Ptr.placed_holds (by decide) _) trivial).mpr (by show ¬ (_ = _); decide),
    (cut_judged_iff ⟨true, false, false, fun _ => []⟩ ⟨0x8049000, by decide⟩ XdrLib.short directoryReply 7
      (Ptr.placed 0x8050000 (wire directoryReply.body)) 84 0 ⟨by decide, by decide⟩ (by decide)
      (Ptr.placed_holds (by decide) _) trivial).mpr id,
    (cut_judged_iff ⟨true, false, false, fun _ => []⟩ ⟨0x8049000, by decide⟩ XdrLib.short directoryReply 7
      (Ptr.placed 0x8050000 (wire (directoryReply.body.take 10))) 40 0 ⟨by decide, by decide⟩ (by decide)
      (Ptr.placed_holds (by decide) _) trivial).mpr id⟩

end Judgements

end Nfsdump.Decode
