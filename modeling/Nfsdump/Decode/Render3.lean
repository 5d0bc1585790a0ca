/-
  Nfsdump.Decode.Render3 — the line of a reply, from its result.

  `Reply3.text` is written from the structures of nfs_prot.x: labels, and the fields of
  these names. Times are cut to microseconds.

  Proved, for every memory that holds an encoded result:
  - `says_fattr3` .. `says_wcc_data3`: a decoder prints the fields of its structure and
    leaves the cursor behind it;
  - `resp_decodes`: `nfs_v3_print_resp` returns 0 and prints the line.
-/

import Nfsdump.Decode.Names
import Nfsdump.Decode.Tokens

namespace Nfsdump.Decode

open Wire Xdr

/-! ## Values -/

inductive Value where
  | word (w : UInt32)
  | hyper (v : UInt64)
  | time (t : Nfstime3)
  | stable (how : UInt32)

def Value.text : Value → List Char
  | .word w => hex w.toNat
  | .hyper v => hex v.toNat
  | .time t => dec t.seconds.toNat ++ '.' :: padLeft 6 '0' (dec (t.nseconds.toNat / 1000))
  | .stable how => [Char.ofNat (stableLetter how).toNat]

def Value.pieces : Value → List Piece
  | .word w => [.x w, .lit " "]
  | .hyper v => uint64Pieces (UInt32.ofNat (v.toNat / 2 ^ 32)) (UInt32.ofNat v.toNat)
  | .time t => time3Pieces t.seconds t.nseconds
  | .stable how => [.c (stableLetter how), .lit " "]

theorem text_value (v : Value) : Decode.text v.pieces = v.text ++ [' '] := by
  cases v with
  | word w => rfl
  | hyper v =>
    have hlt := v.toNat_lt
    have hhi : (UInt32.ofNat (v.toNat / 2 ^ 32)).toNat = v.toNat / 2 ^ 32 := toNat_ofNat_lt (by omega)
    have hlo : (UInt32.ofNat v.toNat).toNat = v.toNat % 2 ^ 32 := UInt32.toNat_ofNat'
    rw [Value.pieces, Value.text, uint64Pieces]
    by_cases h0 : UInt32.ofNat (v.toNat / 2 ^ 32) = 0
    · have hsmall : v.toNat / 2 ^ 32 = 0 := by rw [← hhi, h0]; rfl
      rw [if_neg (not_not.mpr h0)]
      simp only [text_cons, text_nil, Piece.text, hlo, List.append_nil]
      rw [Nat.mod_eq_of_lt (by omega)]
      rfl
    · have hpos : 0 < v.toNat / 2 ^ 32 := by
        refine Nat.pos_of_ne_zero fun hz => h0 ?_
        rw [hz]
        rfl
      have hparts : hex v.toNat = hex (v.toNat / 2 ^ 32) ++ Digits.fixed 16 8 (v.toNat % 2 ^ 32) := by
        have hdigits := Digits.toDigits_mul_add (b := 16) (k := 8) (x := v.toNat / 2 ^ 32) (y := v.toNat % 2 ^ 32)
          (by decide) hpos (Nat.mod_lt _ (by decide))
        have hsum : v.toNat / 2 ^ 32 * 16 ^ 8 + v.toNat % 2 ^ 32 = v.toNat := by omega
        rw [hsum] at hdigits
        exact hdigits
      have hpad : padLeft 8 '0' (hex (v.toNat % 2 ^ 32)) = Digits.fixed 16 8 (v.toNat % 2 ^ 32) :=
        Digits.pad_toDigits (by decide) (by decide) (Nat.mod_lt _ (by decide))
      rw [if_pos h0]
      simp only [text_cons, text_nil, Piece.text, hlo, hhi, hpad, hparts, List.append_nil, List.append_assoc]
      rfl
  | time t =>
    have hus : (t.nseconds / 1000).toNat = t.nseconds.toNat / 1000 := UInt32.toNat_div ..
    simp only [Value.pieces, time3Pieces, text_cons, text_nil, Piece.text, hus, Value.text, List.append_nil]
    simp
  | stable how => rfl

/-! ## Fields -/

def labelled (fs : List (String × Value)) : List Piece := fs.flatMap fun f => .lit f.1 :: f.2.pieces

def labelledText (fs : List (String × Value)) : List Char := fs.flatMap fun f => f.1.toList ++ f.2.text ++ [' ']

theorem text_labelled (fs : List (String × Value)) : text (labelled fs) = labelledText fs := by
  induction fs with
  | nil => rfl
  | cons f fs ih =>
    rw [labelled, List.flatMap_cons, text_append, text_cons, text_value]
    show _ ++ text (labelled fs) = _ ++ labelledText fs
    rw [ih, ← List.append_assoc]
    rfl

def Fattr3.fields (a : Fattr3) : List (String × Value) :=
  [("ftype ", .word a.type), ("mode ", .word a.mode), ("nlink ", .word a.nlink), ("uid ", .word a.uid),
   ("gid ", .word a.gid), ("size ", .hyper a.size), ("used ", .hyper a.used), ("rdev ", .word a.rdev.specdata1),
   ("rdev2 ", .word a.rdev.specdata2), ("fsid ", .hyper a.fsid), ("fileid ", .hyper a.fileid), ("atime ", .time a.atime),
   ("mtime ", .time a.mtime), ("ctime ", .time a.ctime)]

def attrFields : Option Fattr3 → List (String × Value)
  | some a => a.fields
  | none => []

def WccAttr.fields (a : WccAttr) : List (String × Value) :=
  [("pre-size ", .hyper a.size), ("pre-mtime ", .time a.mtime), ("pre-ctime ", .time a.ctime)]

def WccData.fields (d : WccData) : List (String × Value) :=
  (match d.before with
    | some a => a.fields
    | none => []) ++ attrFields d.after

section Decoders

variable {p : Ptr} {n i : Nat} {print : Bool}

theorem fieldPieces_fattr3 {a : Fattr3} (h : At (wordAt p) i a.xdr) :
    fieldPieces (wordAt p) fattr3Fields i = labelled a.fields := by
  simp only [Fattr3.xdr, Nfstime3.xdr, Specdata3.xdr, hyper, List.cons_append, List.nil_append, at_cons, at_nil, and_true,
    Nat.add_assoc, Nat.reduceAdd] at h
  simp only [fieldPieces, fattr3Fields, Scalar.pieces, Scalar.size, Nat.add_assoc, Nat.reduceAdd, labelled, Fattr3.fields,
    List.flatMap_cons, List.flatMap_nil, Value.pieces, h]

theorem fieldPieces_wccAttr {a : WccAttr} (h : At (wordAt p) i a.xdr) :
    fieldPieces (wordAt p) preOpAttr3Fields i = labelled a.fields := by
  simp only [WccAttr.xdr, Nfstime3.xdr, hyper, List.cons_append, List.nil_append, at_cons, at_nil, and_true,
    Nat.add_assoc, Nat.reduceAdd] at h
  simp only [fieldPieces, preOpAttr3Fields, Scalar.pieces, Scalar.size, Nat.add_assoc, Nat.reduceAdd, labelled, WccAttr.fields,
    List.flatMap_cons, List.flatMap_nil, Value.pieces, h]

theorem says_fattr3 (h : Mapped p n) {a : Fattr3} (hat : At (wordAt p) i a.xdr) (hi : i + 21 ≤ n) :
    Says (print_fattr3 (cur p i) (cur p n) print) (if print then labelled a.fields else []) (cur p (i + 21)) := by
  constructor
  · rw [fattr3_val h (by omega), if_pos hi]
  · rw [fattr3_out h hi, fieldPieces_fattr3 hat]

theorem attrSize_eq {a : Option Fattr3} (hat : At (wordAt p) i (post_op_attr a)) :
    attrSize (wordAt p) i = (post_op_attr a).length := by
  obtain _ | a := a
  · obtain ⟨hflag, -⟩ := at_cons.mp hat
    rw [attrSize, if_pos hflag]; rfl
  · obtain ⟨hflag, -⟩ := at_cons.mp hat
    rw [attrSize, if_neg (by rw [hflag]; decide)]; rfl

theorem says_post_op_attr3 (h : Mapped p n) {a : Option Fattr3} (hat : At (wordAt p) i (post_op_attr a))
    (hi : i + (post_op_attr a).length ≤ n) :
    Says (print_post_op_attr3 (cur p i) (cur p n) print) (if print then labelled (attrFields a) else [])
      (cur p (i + (post_op_attr a).length)) := by
  have hsize := attrSize_eq hat
  constructor
  · rw [post_op_attr3_val h (by omega), if_pos (Or.inl (by omega)), hsize]
  · rw [post_op_attr3_out h (by omega)]
    obtain _ | a := a
    · obtain ⟨hflag, -⟩ := at_cons.mp hat
      rw [if_neg fun hx => hx.2 hflag]
      cases print <;> rfl
    · obtain ⟨hflag, hattr⟩ := at_cons.mp hat
      rw [fieldPieces_fattr3 hattr]
      have hne : wordAt p i ≠ 0 := by rw [hflag]; decide
      simp only [hne, ne_eq, not_false_eq_true, and_true]
      rfl

theorem wccAfter_eq {d : WccData} (hat : At (wordAt p) i d.xdr) :
    wccAfter (wordAt p) i = i + (optionally WccAttr.xdr d.before).length := by
  obtain ⟨hbefore, -⟩ := at_append.mp hat
  obtain ⟨before, after⟩ := d
  obtain _ | a := before
  · obtain ⟨hflag, -⟩ := at_cons.mp hbefore
    rw [wccAfter, if_pos hflag]; rfl
  · obtain ⟨hflag, -⟩ := at_cons.mp hbefore
    rw [wccAfter, if_neg (by rw [hflag]; decide)]; rfl

theorem wccSize_eq {d : WccData} (hat : At (wordAt p) i d.xdr) : wccSize (wordAt p) i = d.xdr.length := by
  have hafter := (at_append.mp hat).2
  rw [wccSize, wccAfter_eq hat, attrSize_eq hafter, WccData.xdr, List.length_append]
  omega

theorem says_wcc_data3 (h : Mapped p n) {d : WccData} (hat : At (wordAt p) i d.xdr) (hi : i + d.xdr.length ≤ n) :
    Says (print_wcc_data3 (cur p i) (cur p n) true) (labelled d.fields) (cur p (i + d.xdr.length)) := by
  have hsize := wccSize_eq hat
  have hj := wccAfter_eq hat
  obtain ⟨hbefore, hafter⟩ := at_append.mp hat
  rw [← hj] at hafter
  have hpos : 0 < attrSize (wordAt p) (wccAfter (wordAt p) i) := by unfold attrSize; split <;> omega
  have hsum : wccSize (wordAt p) i = wccAfter (wordAt p) i - i + attrSize (wordAt p) (wccAfter (wordAt p) i) := rfl
  have hfirst : wordAt p i = 0 ∨ i + 7 ≤ n := by
    by_cases hw : wordAt p i = 0
    · exact Or.inl hw
    · rw [wccAfter, if_neg hw] at hsum hpos
      exact Or.inr (by omega)
  have hsecond : wordAt p (wccAfter (wordAt p) i) = 0 ∨ wccAfter (wordAt p) i + 22 ≤ n := by
    by_cases hw : wordAt p (wccAfter (wordAt p) i) = 0
    · exact Or.inl hw
    · rw [attrSize, if_neg hw] at hsum
      exact Or.inr (by omega)
  constructor
  · rw [wcc_data3_val h (by omega), if_pos hfirst, if_pos hsecond, hsize]
  · rw [wcc_data3_out h (by omega), if_pos rfl, WccData.fields, labelled, List.flatMap_append]
    obtain ⟨before, after⟩ := d
    congr 1
    · obtain _ | a := before
      · rw [if_neg (not_not.mpr (at_cons.mp hbefore).1)]
        rfl
      · obtain ⟨hflag, hattr⟩ := at_cons.mp hbefore
        rw [if_pos (by rw [hflag]; decide), fieldPieces_wccAttr hattr]
        rfl
    · obtain _ | a := after
      · rw [if_neg (not_not.mpr (at_cons.mp hafter).1)]
        rfl
      · obtain ⟨hflag, hattr⟩ := at_cons.mp hafter
        rw [if_pos (by rw [hflag]; decide), fieldPieces_fattr3 hattr]
        rfl

theorem says_post_op_fh3 (h : Mapped p n) {f : Option NfsFh3} (hat : At (wordAt p) i (post_op_fh3 f))
    (hi : i + (post_op_fh3 f).length + 1 ≤ n) :
    Says (print_post_op_fh3 (cur p i) (cur p n) true) (match f with | some f => handlePieces f | none => [])
      (cur p (i + (post_op_fh3 f).length)) := by
  rw [post_op_fh3_pass h (by omega)]
  refine (says_read _ _).silent ?_
  obtain _ | f := f
  · rw [if_neg (not_not.mpr (at_cons.mp hat).1)]
    exact says_pure _
  · obtain ⟨hflag, hlies⟩ := at_cons.mp hat
    have hlen : (post_op_fh3 (some f)).length = f.xdr.length + 1 := rfl
    have hpos : 1 ≤ f.xdr.length := by rw [NfsFh3.xdr, counted_length]; omega
    rw [if_pos (by rw [hflag]; decide), hlen, Nat.add_comm f.xdr.length, ← Nat.add_assoc]
    exact says_fh3 ⟨h, hlies, by omega, by omega⟩

theorem says_uint32 (h : Mapped p n) (hi : i ≤ n) :
    Says (print_uint32 (cur p i) (cur p n) true) [.x (wordAt p i), .lit " "] (cur p (i + 1)) := by
  rw [print_uint32, uint32_val_pass h hi]
  exact ⟨rfl, rfl⟩

theorem says_stable3 (h : Mapped p n) (hi : i < n) :
    Says (print_stable3 (cur p i) (cur p n) true) [.c (stableLetter (wordAt p i)), .lit " "] (cur p (i + 1)) := by
  rw [stable3_pass h hi]
  exact ⟨rfl, rfl⟩

theorem says_readOk (h : Mapped p n) (hi : i + 1 ≤ n) (count : UInt32) :
    Says (printReadOk (cur p i) (cur p n) count)
      [.lit "count ", .x (wordAt p i), .lit " ", .lit "eof ", .x (wordAt p (i + 1)), .lit " "] (cur p (i + 2)) := by
  have hcount : Says (print_uint32_val (cur p i) (cur p n) true (some count)) [.x (wordAt p i), .lit " "]
      (cur p (i + 1), some (wordAt p i)) := by
    rw [uint32_val_pass h (by omega)]
    exact ⟨rfl, rfl⟩
  have hvolume : Says (volume3 .reply (wordAt p i)) [] () := ⟨rfl, rfl⟩
  exact (says_fprintf [.lit "count "]).bind (hcount.bind (hvolume.bind ((says_fprintf [.lit "eof "]).bind (says_uint32 h hi))))

/-- Units in memory are words, and the bytes of packed data. -/
theorem at_of_holds {us : List UInt32} (h : (cur p i).Holds (wire us)) : At (wordAt p) i us := by
  intro j hj
  have hsplit : wire us = wire (us.take j) ++ (be32 (us[j]).toNat ++ wire (us.drop (j + 1))) := by
    conv_lhs => rw [← List.take_append_drop j us, List.drop_eq_getElem_cons hj]
    rw [wire_append, wire_cons]
    rfl
  rw [hsplit] at h
  have hword := Ptr.word_at (wire (us.take j)) h (UInt32.toNat_lt _)
  have hlen : (wire (us.take j)).length = 4 * j := by rw [wire_length, List.length_take, Nat.min_eq_left (by omega)]
  rw [hlen, UInt32.ofNat_mul, show UInt32.ofNat 4 = 4 from rfl, cur_word, UInt32.ofNat_toNat] at hword
  exact hword

theorem holds_behind (front : List UInt32) {us : List UInt32} (h : (cur p i).Holds (wire (front ++ us))) :
    (cur p (i + front.length)).Holds (wire us) := by
  rw [wire_append, Ptr.holds_append, wire_length, UInt32.ofNat_mul] at h
  rw [← cur_skip]
  exact h.2

/-- A name in the payload. -/
theorem nameAt_of_holds (h : Mapped p n) {bs : List UInt8} (hlies : (cur p i).Holds (wire (counted bs)))
    (hi : i + (counted bs).length ≤ n) : NameAt (cur p (i + 1)) bs := by
  have htop := h.top
  have hlen : (counted bs).length = 1 + (bs.length + 3) / 4 := counted_length bs
  have hdata : (cur p (i + 1)).Holds (bs ++ padding bs.length) := by
    rw [← wire_pack]
    exact holds_behind [_] hlies
  refine ⟨cur_ne_null h (by omega), ?_, Ptr.holds_left hdata⟩
  show (cur p (i + 1)).addr.toNat + bs.length < 2 ^ 32
  rw [cur_addr h (by omega)]
  omega

/-- A name that is all there: its length is read, and it is printed. -/
theorem fn3_there {o : Opts} (h : Mapped p n) {bs : List UInt8} (hlies : (cur p i).Holds (wire (counted bs)))
    (hi : i + (counted bs).length ≤ n) :
    print_fn3 o (cur p i) (cur p n) true =
      (⟨[.word (cur p i).addr], some (UInt32.ofNat bs.length)⟩ : Dec UInt32) >>= fun s_len =>
        print_string o (cur p (i + 1)) s_len >>= fun _ => pure (cur p (i + (counted bs).length)) := by
  have htop := h.top
  have hlen : (counted bs).length = 1 + (bs.length + 3) / 4 := counted_length bs
  have hname := nameAt_of_holds h hlies hi
  have hword : wordAt p i = UInt32.ofNat bs.length := (at_cons.mp (at_of_holds hlies)).1
  have hsize : handleSize (wordAt p) i = (counted bs).length := by
    rw [handleSize, hword, opaqueWords_pack _ hname.length_lt, pack_length, hlen]
  have hwrap : ¬ HandleWraps p i := by
    have hle : i + handleSize (wordAt p) i ≤ n := by omega
    unfold HandleWraps
    unfold handleSize at hle
    omega
  have hend : cur p (i + 1 + (pack bs).length) = cur p (i + (counted bs).length) := by
    rw [pack_length, hlen, Nat.add_assoc]
  rw [fn3_pass h (by omega), Trace.bind_some _ (show _ = some (wordAt p i) from rfl),
    Trace.bind_some _ (show _ = some (UInt32.ofNat bs.length) from rfl),
    if_neg (mt (opaque_end h (by omega) hwrap).mp (by omega)), Trace.when_true, cur_skip, hword,
    opaqueWords_pack _ hname.length_lt, hend]

theorem says_fn3 {o : Opts} (h : Mapped p n) {bs : List UInt8} (hlies : (cur p i).Holds (wire (counted bs)))
    (hi : i + (counted bs).length ≤ n) (hend : bs = [] → o.RAWNAMES = false → (cur p (i + 1)).byte 0 ≠ SLASH) :
    Says (print_fn3 o (cur p i) (cur p n) true) (quoted o bs) (cur p (i + (counted bs).length)) := by
  rw [fn3_there h hlies hi, ← List.append_nil (quoted o bs)]
  exact (says_read _ _).silent ((says_print_string (nameAt_of_holds h hlies hi) hend).bind (says_pure _))

/-- A decoded string is printed up to its first NUL. -/
theorem says_cstr {o : Opts} {b : Args} {s : List UInt8} (h : b.addr.toNat + s.length < 2 ^ 32) :
    Says (printCstr o b s) (quoted o (s.takeWhile (· ≠ 0))) () := by
  have hle : (s.takeWhile (· ≠ 0)).length ≤ s.length := (List.takeWhile_prefix _).length_le
  have hname : NameAt (b.cstr s) (s.takeWhile (· ≠ 0)) := by
    refine ⟨b.addr_ne, ?_, fun i hi => ?_⟩
    · show b.addr.toNat + (s.takeWhile (· ≠ 0)).length < 2 ^ 32
      omega
    · have hs : i < s.length := by omega
      have hget := (List.takeWhile_prefix (fun c : UInt8 => decide (c ≠ 0)) (l := s)).getElem hi
      show s.getD (UInt32.ofNat i).toNat 0 = _
      rw [toNat_ofNat_lt (by omega), List.getD_eq_getElem?_getD, List.getElem?_eq_getElem hs, Option.getD_some, hget]
  refine (says_print_string hname fun hempty _ => ?_)
  show s.getD 0 0 ≠ SLASH
  cases s with
  | nil => decide
  | cons c rest =>
    rw [List.getD_cons_zero]
    rintro rfl
    rw [List.takeWhile_cons_of_pos (by decide)] at hempty
    exact absurd hempty (by simp)

end Decoders

/-! ## Lines -/

def Result.render {α β : Type} (ok : α → List Char) (fail : β → List Char) : Result α β → List Char
  | .resok a => ok a
  | .resfail _ _ b => fail b

def attrText (a : Option Fattr3) : List Char := labelledText (attrFields a)

/-- A handle in a reply: its bytes and their padding. -/
def handleText (f : NfsFh3) : List Char := hexBytes (f.data ++ padding f.data.length) ++ [' ']

def LOOKUP3resok.text (r : LOOKUP3resok) : List Char := "fh ".toList ++ handleText r.object ++ attrText r.obj_attributes

def ACCESS3resok.text (r : ACCESS3resok) : List Char := labelledText [("acc ", .word r.access)]

def READLINK3resok.text (o : Opts) (r : READLINK3resok) : List Char := "name ".toList ++ Decode.text (quoted o r.data)

def READ3resok.text (r : READ3resok) : List Char :=
  attrText r.file_attributes ++ labelledText [("count ", .word r.count), ("eof ", .word r.eof)]

def WRITE3resok.text (r : WRITE3resok) : List Char :=
  labelledText r.file_wcc.fields ++ labelledText [("count ", .word r.count), ("stable ", .stable r.committed)]

def CREATE3resok.text (r : CREATE3resok) : List Char :=
  "fh ".toList ++ (match r.obj with | some f => handleText f | none => []) ++ attrText r.obj_attributes

def wccText (d : WccData) : List Char := labelledText d.fields

/-- What is printed of a result, listings apart. -/
def Reply3.text (o : Opts) : Reply3 → List Char
  | .null => []
  | .getattr res => res.render (fun a => labelledText a.fields) (fun _ => [])
  | .setattr res => res.render wccText (fun _ => [])
  | .lookup res => res.render LOOKUP3resok.text (fun _ => [])
  | .access res => res.render ACCESS3resok.text (fun _ => [])
  | .readlink res => res.render (READLINK3resok.text o) (fun _ => [])
  | .read res => res.render READ3resok.text attrText
  | .write res => res.render WRITE3resok.text wccText
  | .create res | .mkdir res | .symlink res | .mknod res => res.render CREATE3resok.text (fun _ => [])
  | .remove res | .rmdir res => res.render wccText wccText
  | .commit res => res.render (fun r => wccText r.file_wcc) wccText
  | .mnt res => res.render (fun r => "fh ".toList ++ handleText r.fhandle) (fun _ => [])
  | .rename _ | .link _ | .fsstat _ | .fsinfo _ | .pathconf _ => []
  | .readdir res => res.render (fun r => attrText r.dir_attributes) attrText
  | .readdirp res => res.render (fun r => attrText r.dir_attributes) attrText

/-- A listing's entries are decoded. -/
def Reply3.Lists : Reply3 → Prop
  | .readdir _ | .readdirp _ => True
  | _ => False

/-- The path a READLINK result holds. -/
def Reply3.path : Reply3 → Option (List UInt8)
  | .readlink (.resok r) => some r.data
  | _ => none

/-- A printer ends with `a`, having written `cs`. -/
def Tells {α : Type} (x : Dec α) (cs : List Char) (a : α) : Prop := x.val = some a ∧ Decode.text (out x) = cs

theorem Says.tells {α : Type} {x : Dec α} {ps : List Piece} {a : α} {cs : List Char} (h : Says x ps a)
    (hps : Decode.text ps = cs) : Tells x cs a := ⟨h.1, by rw [h.2, hps]⟩

theorem Tells.bind {α β : Type} {x : Dec α} {f : α → Dec β} {cs ds : List Char} {a : α} {b : β} (hx : Tells x cs a)
    (hf : Tells (f a) ds b) : Tells (x >>= f) (cs ++ ds) b := by
  constructor
  · rw [Trace.val_bind f hx.1, hf.1]
  · rw [out_bind f hx.1, text_append, hx.2, hf.2]

theorem tells_fprintf (ps : List Piece) : Tells (fprintf ps) (Decode.text ps) () := (says_fprintf ps).tells rfl

theorem tells_bump3 (dir : Direction) (t : Tally Proc3) : Tells (bump3 dir t) [] () := ⟨rfl, rfl⟩

section Lines

variable {o : Opts} {b : Args} {lib : XdrLib} {p : Ptr} {n : Nat} {actual_len count : UInt32}

theorem WccData.xdr_pos (d : WccData) : 0 < d.xdr.length := by
  rw [WccData.xdr, List.length_append]
  exact Nat.add_pos_left (optionally_pos _ _) _

theorem tells_created (h : Mapped p n) {res : Result CREATE3resok WccData}
    (hlies : (cur p 0).Holds (wire (res.xdr CREATE3resok.xdr WccData.xdr)))
    (hn : (res.xdr CREATE3resok.xdr WccData.xdr).length ≤ n) :
    ∃ k ≤ n, Tells (printCreated res.status (cur p 0) (cur p n)) (res.render CREATE3resok.text fun _ => []) (cur p k) := by
  obtain r | ⟨s, hs, d⟩ := res
  · have hat := at_of_holds hlies
    have hd := r.dir_wcc.xdr_pos
    simp only [Result.xdr, CREATE3resok.xdr, at_append, List.length_append] at hat hn
    obtain ⟨⟨hfh, hattr⟩, -⟩ := hat
    refine ⟨_, ?_, ((says_fprintf _).bind ((says_post_op_fh3 h hfh (by omega)).bind
      (says_post_op_attr3 h hattr (by omega)))).tells ?_⟩
    · omega
    · obtain ⟨_ | f, a, d⟩ := r <;>
        simp [Result.render, CREATE3resok.text, handleText, text_handlePieces, attrText, text_labelled, Piece.text]
  · refine ⟨0, Nat.zero_le _, ?_⟩
    rw [printCreated, Result.status, if_neg hs]
    exact (says_pure _).tells rfl

theorem tells_result (h : Mapped p n) (r : Reply3) (hlists : ¬ r.Lists) (hpath : r.path ≠ some [])
    (hlies : (cur p 0).Holds (wire r.body)) (hn : r.body.length ≤ n) :
    ∃ k ≤ n, Tells (printResult o b lib (cur p 0) (cur p n) actual_len r.status count r.proc) (r.text o) (cur p k) := by
  have nothing : ∀ {f : Dec Ptr}, f = pure (cur p 0) → ∃ k ≤ n, Tells f [] (cur p k) := fun hf =>
    ⟨0, Nat.zero_le _, hf ▸ (says_pure _).tells rfl⟩
  have wcc : ∀ {d : WccData}, At (wordAt p) 0 d.xdr → d.xdr.length ≤ n →
      ∃ k ≤ n, Tells (print_wcc_data3 (cur p 0) (cur p n) true) (wccText d) (cur p k) := fun hd hle =>
    ⟨_, by rwa [Nat.zero_add], (says_wcc_data3 h hd (by rwa [Nat.zero_add])).tells (text_labelled _)⟩
  have other : ∀ {s : UInt32} {x : Dec Ptr} {q : Ptr}, s ≠ NFS3_OK → Says (if s = NFS3_OK then x else pure q) [] q := by
    intro s x q hs
    rw [if_neg hs]
    exact says_pure _
  have hat := at_of_holds hlies
  cases r with
  | null | rename | link | fsstat | fsinfo | pathconf => exact nothing rfl
  | getattr res =>
    obtain a | ⟨s, hs, u⟩ := res
    · exact ⟨21, hn, (says_fattr3 h hat (by rw [Nat.zero_add]; exact hn)).tells (text_labelled _)⟩
    · exact nothing (if_neg hs)
  | setattr res =>
    obtain d | ⟨s, hs, d⟩ := res
    · exact wcc hat hn
    · exact nothing (if_neg hs)
  | lookup res =>
    obtain r | ⟨s, hs, a⟩ := res
    · have ha : 0 < (post_op_attr r.obj_attributes).length := optionally_pos _ _
      have hpos : 1 ≤ r.object.xdr.length := by rw [NfsFh3.xdr, counted_length]; omega
      simp only [Reply3.body, Result.xdr, LOOKUP3resok.xdr, at_append, List.length_append, ← Nat.add_assoc] at hat hn
      obtain ⟨⟨hfh, hobj⟩, hdir⟩ := hat
      refine ⟨_, ?_, ((says_fprintf [.lit "fh "]).bind ((says_fh3 ⟨h, hfh, by omega, by omega⟩).bind
        ((says_post_op_attr3 h hobj (by omega)).bind (says_post_op_attr3 h hdir (by omega))))).tells ?_⟩
      · omega
      · simp [Reply3.text, Result.render, LOOKUP3resok.text, handleText, text_handlePieces, attrText, text_labelled, Piece.text]
    · exact nothing (if_neg hs)
  | access res =>
    obtain r | ⟨s, hs, a⟩ := res
    · simp only [Reply3.body, Result.xdr, ACCESS3resok.xdr, at_append, at_cons, at_nil, and_true, List.length_append,
        List.length_singleton] at hat hn
      refine ⟨_, ?_, ((says_post_op_attr3 h hat.1 (by omega)).bind ((says_fprintf [.lit "acc "]).bind
        (says_uint32 h (by omega)))).tells ?_⟩
      · omega
      · rw [hat.2]
        simp [Reply3.text, Result.render, ACCESS3resok.text, labelledText, Value.text, Piece.text]
    · exact ⟨_, by rwa [Nat.zero_add], ((says_post_op_attr3 h hat (by rwa [Nat.zero_add])).bind (other hs)).tells rfl⟩
  | readlink res =>
    obtain r | ⟨s, hs, a⟩ := res
    · have hname := holds_behind _ hlies
      simp only [Reply3.body, Result.xdr, READLINK3resok.xdr, at_append, List.length_append] at hat hn
      have hne : r.data ≠ [] := fun h0 => hpath (congrArg some h0)
      refine ⟨_, ?_, ((says_post_op_attr3 h hat.1 (by omega)).bind ((says_fprintf [.lit "name "]).bind
        (says_fn3 h hname (by omega) fun h0 => absurd h0 hne))).tells ?_⟩
      · omega
      · simp [Reply3.text, Result.render, READLINK3resok.text, Piece.text]
    · exact ⟨_, by rwa [Nat.zero_add], ((says_post_op_attr3 h hat (by rwa [Nat.zero_add])).bind (other hs)).tells rfl⟩
  | read res =>
    obtain r | ⟨s, hs, a⟩ := res
    · simp only [Reply3.body, Result.xdr, READ3resok.xdr, at_append, at_cons, at_nil, and_true, List.length_append,
        List.length_cons, List.length_nil] at hat hn
      obtain ⟨⟨hattr, hcount, heof⟩, -⟩ := hat
      refine ⟨_, ?_, ((says_post_op_attr3 h hattr (by omega)).bind (says_readOk h (by omega) count)).tells ?_⟩
      · omega
      · rw [hcount, heof]
        simp [Reply3.text, Result.render, READ3resok.text, attrText, text_labelled, labelledText, Value.text, Piece.text]
    · refine ⟨_, by rwa [Nat.zero_add], ((says_post_op_attr3 h hat (by rwa [Nat.zero_add])).bind (other hs)).tells ?_⟩
      rw [List.append_nil]
      exact text_labelled _
  | write res =>
    obtain r | ⟨s, hs, d⟩ := res
    · simp only [Reply3.body, Result.xdr, WRITE3resok.xdr, at_append, at_cons, at_nil, and_true, List.length_append,
        List.length_cons, List.length_nil] at hat hn
      obtain ⟨⟨hwcc, hcount, hstable⟩, -⟩ := hat
      refine ⟨_, ?_, ((says_wcc_data3 h hwcc (by omega)).bind ((says_fprintf [.lit "count "]).bind
        ((says_uint32 h (by omega)).bind ((says_fprintf [.lit "stable "]).bind (says_stable3 h (by omega)))))).tells ?_⟩
      · omega
      · rw [hcount, hstable]
        simp [Reply3.text, Result.render, WRITE3resok.text, text_labelled, labelledText, Value.text, Piece.text]
    · refine ⟨_, by rwa [Nat.zero_add], ((says_wcc_data3 h hat (by rwa [Nat.zero_add])).bind (other hs)).tells ?_⟩
      rw [List.append_nil]
      exact text_labelled _
  | create res | mkdir res | symlink res | mknod res => exact tells_created h hlies hn
  | remove res | rmdir res =>
    obtain d | ⟨s, hs, d⟩ := res
    · exact wcc hat hn
    · exact wcc hat hn
  | commit res =>
    obtain r | ⟨s, hs, d⟩ := res
    · simp only [Reply3.body, Result.xdr, COMMIT3resok.xdr, at_append, List.length_append] at hat hn
      exact wcc hat.1 (by omega)
    · exact wcc hat hn
  | readdir res | readdirp res => exact absurd trivial hlists
  | mnt res =>
    obtain r | ⟨s, hs, u⟩ := res
    · simp only [Reply3.body, Result.xdr, Mountres3_ok.xdr, at_append, List.length_append, array, List.length_cons] at hat hn
      have hpos : 1 ≤ r.fhandle.xdr.length := by rw [NfsFh3.xdr, counted_length]; omega
      refine ⟨_, ?_, ((says_fprintf [.lit "fh "]).bind (says_fh3 ⟨h, hat.1, by omega, by omega⟩)).tells ?_⟩
      · omega
      · simp [Reply3.text, Result.render, handleText, text_handlePieces, Piece.text]
    · exact nothing (if_neg hs)

/-- `OK` or the status in hex; NULL has none. -/
def statusText (r : Reply3) : List Char :=
  if r.proc = .null then [] else Decode.text (if r.status = NFS3_OK then [.lit "OK "] else [.x r.status, .lit " "])

/-- The line of a reply. -/
def replyLine (o : Opts) (xid : UInt32) (r : Reply3) : List Char :=
  Decode.text [.lit "R3 ", .x0 8 xid, .lit " ", .x0 2 r.proc.number, .lit " ", .lit r.proc.name, .lit " "] ++
    statusText r ++ r.text o

/-- A reply whose result is printed, with the cursor left in the payload, is printed whole. -/
theorem tells_resp (h : Mapped p (actual_len.toNat / 4)) (xid : UInt32) (r : Reply3) {k : Nat}
    (hk : k ≤ actual_len.toNat / 4)
    (hr : Tells (printResult o b lib (cur p 0) (cur p (actual_len.toNat / 4)) actual_len r.status count r.proc) (r.text o) (cur p k)) :
    Tells (nfs_v3_print_resp o b lib r.proc.number xid p actual_len r.status count) (replyLine o xid r) 0 := by
  have hstatus : Tells (Trace.when (r.proc ≠ .null) (printStatus r.status)) (statusText r) () := by
    rw [statusText]
    by_cases hnull : r.proc = .null
    · rw [if_pos hnull, decide_eq_false (not_not.mpr hnull)]
      exact ⟨rfl, rfl⟩
    · rw [if_neg hnull, decide_eq_true hnull]
      exact tells_fprintf _
  have hreply : Tells (printReply o b lib p (cur p (actual_len.toNat / 4)) actual_len r.status count (some r.proc))
      ([] ++ (Decode.text [.lit r.proc.name, .lit " "] ++ (statusText r ++ r.text o))) (cur p k) := by
    rw [cur_zero] at hr
    exact (tells_bump3 _ _).bind ((tells_fprintf _).bind (hstatus.bind hr))
  have hend : Tells (if (cur p k).addr = 0 then fprintf [.lit "SHORT PACKET"] >>= fun _ => pure (-1) else pure 0 : Dec Int32)
      [] 0 := by
    rw [if_neg (cur_ne_null h (by omega))]
    exact ⟨rfl, rfl⟩
  rw [nfs_v3_print_resp, cur_end, Proc3.ofNumber_number]
  have hline : replyLine o xid r =
      Decode.text [.lit "R3 ", .x0 8 xid, .lit " ", .x0 2 r.proc.number, .lit " "] ++ ([] ++ (([] ++
        (Decode.text [.lit r.proc.name, .lit " "] ++ (statusText r ++ r.text o))) ++ [])) := by
    simp only [replyLine, text_cons, text_nil, List.append_nil, List.nil_append, List.append_assoc]
  rw [hline]
  exact (tells_fprintf _).bind ((tells_bump3 _ _).bind (hreply.bind hend))

/-- A whole result is decoded: the printer returns 0, and its line shows the result's fields
    under their names, times cut to microseconds, and its handle and path. -/
theorem resp_decodes (o : Opts) (b : Args) (lib : XdrLib) (r : Reply3) (hlists : ¬ r.Lists) (hpath : r.path ≠ some [])
    (xid : UInt32) (p : Ptr) (actual_len count : UInt32) (h : Mapped p (actual_len.toNat / 4)) (hlies : p.Holds (wire r.body))
    (hlen : 4 * r.body.length ≤ actual_len.toNat) :
    Tells (nfs_v3_print_resp o b lib r.proc.number xid p actual_len r.status count) (replyLine o xid r) 0 := by
  obtain ⟨k, hk, hr⟩ := tells_result (o := o) (b := b) h r hlists hpath (by rwa [cur_zero]) (by omega)
  exact tells_resp h xid r hk hr

/-- Attributes with an access time alone. -/
def atimeReply (t : Nfstime3) : Reply3 := .getattr (.resok ⟨1, 0, 1, 0, 0, 0, 0, ⟨0, 0⟩, 0, 7, t, ⟨0, 0⟩, ⟨0, 0⟩⟩)

/-- A nanosecond more is the same line: it shows no `nseconds` field. -/
theorem nanosecond_not_printed :
    text (out (nfs_v3_print_resp ⟨true, false, false, fun _ => []⟩ ⟨0x8049000, by decide⟩ XdrLib.short 1 7
      (Ptr.placed 0x8050000 (wire (atimeReply ⟨0, 1⟩).body)) 84 NFS3_OK 0)) =
    text (out (nfs_v3_print_resp ⟨true, false, false, fun _ => []⟩ ⟨0x8049000, by decide⟩ XdrLib.short 1 7
      (Ptr.placed 0x8050000 (wire (atimeReply ⟨0, 0⟩).body)) 84 NFS3_OK 0)) := by
  have line : ∀ t, Tells (nfs_v3_print_resp ⟨true, false, false, fun _ => []⟩ ⟨0x8049000, by decide⟩ XdrLib.short 1 7
      (Ptr.placed 0x8050000 (wire (atimeReply t).body)) 84 NFS3_OK 0)
      (replyLine ⟨true, false, false, fun _ => []⟩ 7 (atimeReply t)) 0 := by
    intro t
    have hlen : (atimeReply t).body.length = 21 := rfl
    have h : Mapped (Ptr.placed 0x8050000 (wire (atimeReply t).body)) 21 :=
      ⟨show 0 < (0x8050000 : UInt32).toNat by decide, show (0x8050000 : UInt32).toNat + 4 * 21 + 4096 ≤ 2 ^ 32 by decide⟩
    have hlies := Ptr.placed_holds (show (wire (atimeReply t).body).length ≤ 2 ^ 32 by rw [wire_length]; omega) 0x8050000
    obtain ⟨k, hk, hr⟩ := tells_result h (atimeReply t) id nofun (by rwa [cur_zero]) (by omega)
    exact tells_resp h 7 (atimeReply t) hk hr
  rw [(line _).2, (line _).2]
  decide

/-- An ACCESS reply without attributes. -/
theorem access_line :
    Tells (nfs_v3_print_resp ⟨true, false, false, fun _ => []⟩ ⟨0x8049000, by decide⟩ XdrLib.short 4 7
      (Ptr.placed 0x8050000 [0, 0, 0, 0, 0, 0, 0, 31]) 8 NFS3_OK 0)
      "R3 00000007 04 access OK acc 1f ".toList 0 :=
  resp_decodes ⟨true, false, false, fun _ => []⟩ ⟨0x8049000, by decide⟩ XdrLib.short (.access (.resok ⟨none, 31⟩)) id nofun 7
    (Ptr.placed 0x8050000 [0, 0, 0, 0, 0, 0, 0, 31]) 8 0 ⟨by decide, by decide⟩ (Ptr.placed_holds (by decide) _) (by decide)

end Lines

end Nfsdump.Decode
