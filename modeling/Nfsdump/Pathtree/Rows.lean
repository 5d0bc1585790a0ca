/-
  Nfsdump.Pathtree.Rows — the rows that the line of any record is read as.

  A record of a version that is neither 2 nor 3 is written as two lines.

  Proved:
  - `row_of_line`: the line of a version 3 record is one row, with the addresses, the direction,
    the XID and the procedure's name in their columns;
  - `rows_of_other`: `Parser` passes over the rows of every other record.
-/

import Nfsdump.Pathtree.Cells

namespace Nfsdump.Pathtree

open Wire Decode Record

variable {α β : Type} {x : Dec α} {cs ds : List Char} {ws : List Cell} {o : Opts} {b : Args} {lib : XdrLib} {count : UInt32}

/-! ## What a text begins with -/

/-- What is written begins with `cs`. -/
def Starts (x : Dec α) (cs : List Char) : Prop := ∃ more, text (out x) = cs ++ more

theorem starts_fprintf (ps : List Piece) : Starts (fprintf ps) (text ps) := ⟨[], by rw [out_fprintf, List.append_nil]⟩

theorem Starts.bind {f : α → Dec β} (h : Starts x cs) : Starts (x >>= f) cs := by
  obtain ⟨more, hmore⟩ := h
  cases hx : x.val with
  | none =>
    refine ⟨more, ?_⟩
    rw [← hmore, Trace.bind_none f hx]
    rfl
  | some a =>
    refine ⟨more ++ text (out (f a)), ?_⟩
    rw [out_bind f hx, text_append, hmore, List.append_assoc]

theorem Starts.after {f : α → Dec β} {a : α} (hx : x.val = some a) (h : Starts (f a) cs) : Starts (x >>= f) (text (out x) ++ cs) := by
  obtain ⟨more, hmore⟩ := h
  exact ⟨more, by rw [out_bind f hx, text_append, hmore, List.append_assoc]⟩

/-- A printer in the format, whose first cells are those of the text it begins with. -/
theorem begins_of_starts (hval : x.val ≠ none) (hk : Keeps Mode.Open x Mode.Open) (hc : Cells cs ws) (h : Starts x cs) : Begins x ws := by
  obtain ⟨more, htext⟩ := h
  obtain ⟨m, done, hrun, hm⟩ := hk hval .start open_start
  rw [htext, run_append_some hc] at hrun
  obtain ⟨r, hr, hrun⟩ := Option.map_eq_some_iff.mp hrun
  obtain ⟨rfl, rfl⟩ := Prod.mk.inj hrun
  refine ⟨hval, r.1, r.2, ?_, hm⟩
  rw [htext, run_append_some hc, hr]
  rfl

/-! ## Headers -/

/-- The procedure as a line names it. -/
def opName (op : UInt32) : Cell :=
  match Proc3.ofNumber op with
  | some q => q.name.toList
  | none => "unknown".toList

/-- The cells in front of a message's parameters or results. -/
def labels (dir : String) (xid op : UInt32) : List Cell :=
  [dir.toList, Piece.text (.x0 8 xid), Piece.text (.x0 2 op), opName op]

theorem printed_opName (op : UInt32) : Printed (opName op) := by
  unfold opName
  split
  · exact printed_name _
  · exact ⟨by decide, by decide⟩

theorem cells_labels {dir : String} (hdir : Printed dir.toList) (xid op : UInt32) :
    Cells ((labels dir xid op).flatMap (· ++ [' '])) (labels dir xid op) := by
  apply cells_words
  simp only [labels, List.forall_mem_cons]
  exact ⟨hdir, printed_zeros, printed_zeros, printed_opName op, by simp⟩

theorem starts_v3_call (op xid : UInt32) (p : Ptr) (n : UInt32) :
    Starts (nfs_v3_print_call o b lib op xid p n) ((labels "C3" xid op).flatMap (· ++ [' '])) := by
  have htext : (labels "C3" xid op).flatMap (· ++ [' ']) =
      [] ++ (text [.lit "C3 ", .x0 8 xid, .lit " ", .x0 2 op, .lit " "] ++ (opName op ++ [' '])) := by
    simp [labels, Piece.text]
  rw [htext, nfs_v3_print_call]
  refine Starts.after (x := bump3 .call .total) (a := ()) rfl (Starts.after (a := ()) rfl ?_)
  unfold opName
  cases Proc3.ofNumber op with
  | none => exact Starts.bind ⟨[], rfl⟩
  | some q =>
    have hname : Starts (fprintf [.lit q.name, .lit " "]) (q.name.toList ++ [' ']) := ⟨[], by simp [Piece.text]⟩
    exact Starts.after (x := bump3 .call (.proc q)) (a := ()) rfl hname.bind

theorem starts_v3_resp (op xid : UInt32) (p : Ptr) (n status : UInt32) :
    Starts (nfs_v3_print_resp o b lib op xid p n status count) ((labels "R3" xid op).flatMap (· ++ [' '])) := by
  have htext : (labels "R3" xid op).flatMap (· ++ [' ']) =
      text [.lit "R3 ", .x0 8 xid, .lit " ", .x0 2 op, .lit " "] ++ ([] ++ (opName op ++ [' '])) := by
    simp [labels, Piece.text]
  rw [htext, nfs_v3_print_resp]
  refine Starts.after (a := ()) rfl (Starts.after (x := bump3 .reply .total) (a := ()) rfl (Starts.bind ?_))
  unfold opName
  cases Proc3.ofNumber op with
  | none => exact Starts.bind ⟨[], rfl⟩
  | some q =>
    have hname : Starts (fprintf [.lit q.name, .lit " "]) (q.name.toList ++ [' ']) := ⟨[], by simp [Piece.text]⟩
    exact Starts.after (x := bump3 .reply (.proc q)) (a := ()) rfl hname.bind

theorem starts_v2_call (op xid : UInt32) (p : Ptr) (n : UInt32) :
    Starts (nfs_v2_print_call o op xid p n count) "C2 ".toList := by
  rw [nfs_v2_print_call]
  obtain ⟨more, hmore⟩ := starts_fprintf [.lit "C2 ", .xLeft 8 xid, .lit " ", .xRight 2 op, .lit " "]
  refine Starts.after (x := bump2 .call .total) (a := ()) rfl (Starts.bind ⟨text [.xLeft 8 xid, .lit " ", .xRight 2 op, .lit " "], ?_⟩)
  rw [out_fprintf]
  rfl

theorem starts_v2_resp (op xid : UInt32) (p : Ptr) (n status : UInt32) :
    Starts (nfs_v2_print_resp o op xid p n status count) "R2 ".toList := by
  rw [nfs_v2_print_resp]
  refine Starts.bind ⟨text [.xLeft 8 xid, .lit " ", .xRight 2 op, .lit " "], ?_⟩
  rw [out_fprintf]
  rfl

/-! ## The row of a record -/

section Lines

variable {csv : List Char → List Row} {l : DumpLine}

/-- What `Parser` reads in the row of a version 3 record. -/
structure Columns (o : Opts) (l : DumpLine) (row : Row) : Prop where
  length : OFFSET.PARAM_START ≤ row.length
  src : cell row OFFSET.SRC = address o l.record.srcHost l.record.srcPort
  dst : cell row OFFSET.DST = address o l.record.dstHost l.record.dstPort
  dir : cell row OFFSET.DIRECTION = (if l.record.rpcCall = CALL then "C3" else "R3").toList
  xid : cell row OFFSET.XID = Piece.text (.x0 8 l.record.rpcXID)
  op : cell row OFFSET.OP = opName l.record.nfsProc

theorem printed_direction {dir dir' : String} (hdir : Printed dir.toList) (hdir' : Printed dir'.toList) (p : Prop) [Decidable p] :
    Printed (if p then dir else dir').toList := by
  split
  · exact hdir
  · exact hdir'

/-- The columns are read as they are printed. -/
theorem Columns.decoded {row : Row} (h : Columns o l row) : Columns o l (row.map Pathtree.decoded) where
  length := by
    rw [List.length_map]
    exact h.length
  src := by rw [cell_map_decoded, h.src, (printed_address o _ _).decoded]
  dst := by rw [cell_map_decoded, h.dst, (printed_address o _ _).decoded]
  dir := by rw [cell_map_decoded, h.dir, (printed_direction ⟨by decide, by decide⟩ ⟨by decide, by decide⟩ _).decoded]
  xid := by
    rw [cell_map_decoded, h.xid]
    exact printed_zeros.decoded
  op := by rw [cell_map_decoded, h.op, (printed_opName _).decoded]

/-- A row `processRow` passes over. -/
def PassedOver (row : Row) : Prop :=
  row.length < OFFSET.PARAM_START ∨
    cell row OFFSET.DIRECTION ≠ "C3".toList ∧ cell row OFFSET.DIRECTION ≠ "R3".toList

theorem PassedOver.decoded {row : Row} (h : PassedOver row) (hdir : Printed (cell row OFFSET.DIRECTION)) :
    PassedOver (row.map Pathtree.decoded) := by
  unfold PassedOver
  rw [List.length_map, cell_map_decoded, hdir.decoded]
  exact h

theorem bare_status (status : UInt32) : Bare (fprintf [.lit "status=", .x status, .lit " "]) := by simp +decide

theorem bare_pl (payload_len : UInt32) : Bare (fprintf [.lit "pl=", .d payload_len.toInt32, .lit " "]) := by simp +decide

theorem begins_reply (h : l.record.rpcCall ≠ CALL) (hbody : Begins (printReplyBody o b lib count l.record l.xdr l.actual_len) ws) :
    Begins (printBody o b lib count l.record l.xdr l.payload_len l.actual_len) ws := by
  rw [printBody, if_neg h]
  exact hbody.bind (fun _ => Option.some_ne_none ()) fun _ => (bare_status _).keeps.bind fun _ => (bare_pl _).keeps

theorem print_val_body (hval : (l.print o b lib count).val ≠ none) :
    (printBody o b lib count l.record l.xdr l.payload_len l.actual_len).val ≠ none := by
  obtain ⟨v, hv⟩ := Option.ne_none_iff_exists'.mp hval
  obtain ⟨v', hv', -⟩ := Trace.of_val_bind hv
  rw [val_printRecord] at hv'
  rw [hv']
  exact Option.some_ne_none _

/-- The part of a reply's body in front of its status. -/
theorem printBody_reply_val (h : l.record.rpcCall ≠ CALL)
    (hval : (printBody o b lib count l.record l.xdr l.payload_len l.actual_len).val ≠ none) :
    (printReplyBody o b lib count l.record l.xdr l.actual_len).val ≠ none := by
  rw [printBody, if_neg h] at hval
  obtain ⟨v, hv⟩ := Option.ne_none_iff_exists'.mp hval
  obtain ⟨v', hv', -⟩ := Trace.of_val_bind hv
  rw [hv']
  exact Option.some_ne_none _

/-- The value in front of a `return`. -/
theorem val_of_return {f : α → β} (h : (x >>= fun a => pure (f a)).val ≠ none) : x.val ≠ none := by
  obtain ⟨v, hv⟩ := Option.ne_none_iff_exists'.mp h
  obtain ⟨v', hv', -⟩ := Trace.of_val_bind hv
  rw [hv']
  exact Option.some_ne_none _

theorem begins_v3 (hversion : l.record.nfsVersion = 3) (hval : (l.print o b lib count).val ≠ none) :
    Begins (printBody o b lib count l.record l.xdr l.payload_len l.actual_len)
      (labels (if l.record.rpcCall = CALL then "C3" else "R3") l.record.rpcXID l.record.nfsProc) := by
  have hbody := print_val_body hval
  have ends : ∀ {α : Type} (_ : α), (pure () : Dec Unit).val ≠ none := fun _ => Option.some_ne_none ()
  have keep : ∀ {α : Type} (_ : α), Keeps Mode.Open (pure () : Dec Unit) Mode.Open := fun _ => keeps_pure () fun _ hm => hm
  by_cases hcall : l.record.rpcCall = CALL
  · rw [if_pos hcall]
    rw [printBody, if_pos hcall, printCall, if_pos hversion] at hbody ⊢
    exact (begins_of_starts (val_of_return hbody) (keeps_v3_call _ _ _ _) (cells_labels ⟨by decide, by decide⟩ _ _)
      (starts_v3_call _ _ _ _)).bind ends keep
  · rw [if_neg hcall]
    have hreply := printBody_reply_val hcall hbody
    refine begins_reply hcall ?_
    rw [printReplyBody, if_pos hversion] at hreply ⊢
    exact (begins_of_starts (val_of_return hreply) (keeps_v3_resp _ _ _ _ _ _) (cells_labels ⟨by decide, by decide⟩ _ _)
      (starts_v3_resp _ _ _ _ _)).bind ends keep

/-- The row of a version 3 record. -/
theorem row_of_line (hcsv : ReadsCsv csv) (hversion : l.record.nfsVersion = 3) (hval : (l.print o b lib count).val ≠ none) :
    ∃ row, Columns o l row ∧ ∀ rest, csv (text (out (l.print o b lib count)) ++ '\n' :: rest) = row :: csv rest := by
  obtain ⟨more, hrow⟩ := fields_begins (begins_v3 hversion hval)
  refine ⟨_, Columns.decoded ⟨?_, rfl, rfl, rfl, rfl, rfl⟩, fun rest => hcsv.row hrow rest⟩
  simp only [front, labels, List.length_append, List.length_cons, List.length_nil, OFFSET.PARAM_START]
  omega

/-! ## The rows of other records -/

theorem begins_v2 (hversion : l.record.nfsVersion = 2) (hval : (l.print o b lib count).val ≠ none) :
    Begins (printBody o b lib count l.record l.xdr l.payload_len l.actual_len)
      [(if l.record.rpcCall = CALL then "C2" else "R2").toList] := by
  have hbody := print_val_body hval
  have h3 : ¬ l.record.nfsVersion = 3 := by rw [hversion]; decide
  have ends : ∀ {α : Type} (_ : α), (pure () : Dec Unit).val ≠ none := fun _ => Option.some_ne_none ()
  have keep : ∀ {α : Type} (_ : α), Keeps Mode.Open (pure () : Dec Unit) Mode.Open := fun _ => keeps_pure () fun _ hm => hm
  by_cases hcall : l.record.rpcCall = CALL
  · rw [if_pos hcall]
    rw [printBody, if_pos hcall, printCall, if_neg h3, if_pos hversion] at hbody ⊢
    exact (begins_of_starts (val_of_return hbody) (keeps_v2_call _ _ _ _ _) (show Cells "C2 ".toList ["C2".toList] from rfl)
      (starts_v2_call _ _ _ _)).bind ends keep
  · rw [if_neg hcall]
    have hreply := printBody_reply_val hcall hbody
    refine begins_reply hcall ?_
    rw [printReplyBody, if_neg h3, if_pos hversion] at hreply ⊢
    exact (begins_of_starts (val_of_return hreply) (keeps_v2_resp _ _ _ _ _ _)
      (show Cells "R2 ".toList ["R2".toList] from rfl) (starts_v2_resp _ _ _ _ _)).bind ends keep

/-- A body with a line break in it makes two rows. -/
theorem rows_two (hcsv : ReadsCsv csv) (hval : (printBody o b lib count l.record l.xdr l.payload_len l.actual_len).val = some ())
    {w : Cell} {t : List Char} {row : Row} (hw : Printed w) (hne : w ≠ [])
    (hbody : text (out (printBody o b lib count l.record l.xdr l.payload_len l.actual_len)) = w ++ '\n' :: t)
    (htail : fields (t ++ text (out (printTrailer l.ids l.con l.len l.longpkt))) = some row) (hrow : ∀ c ∈ row, Printed c)
    (rest : List Char) :
    csv (text (out (l.print o b lib count)) ++ '\n' :: rest) = (front o l ++ [w]) :: row :: csv rest := by
  have hline : text (out (l.print o b lib count)) = ((front o l).flatMap (· ++ [' ']) ++ w) ++
      '\n' :: (t ++ text (out (printTrailer l.ids l.con l.len l.longpkt))) := by
    rw [DumpLine.print, out_bind _ ((val_printRecord ..).trans hval), text_append, text_printRecord, hbody]
    simp [front]
  have hfirst : fields ((front o l).flatMap (· ++ [' ']) ++ w) = some (front o l ++ [w]) := by
    rw [fields_cells (cells_words (printed_front o l)), fields_printed hw hne]
    rfl
  have hcells : ∀ c ∈ front o l ++ [w], Printed c := by
    rw [List.forall_mem_append, List.forall_mem_singleton]
    exact ⟨printed_front o l, hw⟩
  rw [hline, List.append_assoc, List.cons_append, hcsv.row hfirst, hcsv.row htail, map_decoded hcells, map_decoded hrow]

theorem printed_version {dir : String} (hdir : Printed dir.toList) (version : UInt32) : Printed (dir.toList ++ decInt version.toInt32) :=
  hdir.append (printed_decInt _)

theorem passedOver_trailer : PassedOver (trailerCells l) := by
  unfold PassedOver trailerCells
  cases l.ids with
  | none =>
    left
    cases l.longpkt with
    | none => exact show 2 < 8 by decide
    | some n => exact show 4 < 8 by decide
  | some ids =>
    right
    constructor <;> simp [idsCells, cell, OFFSET.DIRECTION]

theorem passedOver_replyEnd : PassedOver (replyEnd l) := by
  unfold PassedOver replyEnd trailerCells
  cases l.ids with
  | none =>
    left
    cases l.longpkt with
    | none => exact show 4 < 8 by decide
    | some n => exact show 6 < 8 by decide
  | some ids =>
    right
    constructor <;> simp [idsCells, cell, OFFSET.DIRECTION]

/-- The rows of a record of another version. -/
theorem rows_of_other (hcsv : ReadsCsv csv) (hversion : l.record.nfsVersion ≠ 3) (hval : (l.print o b lib count).val ≠ none) :
    ∃ rows, (∀ row ∈ rows, PassedOver row) ∧ ∀ rest, csv (text (out (l.print o b lib count)) ++ '\n' :: rest) = rows ++ csv rest := by
  by_cases h2 : l.record.nfsVersion = 2
  · obtain ⟨more, hrow⟩ := fields_begins (begins_v2 h2 hval)
    refine ⟨[_], ?_, fun rest => hcsv.row hrow rest⟩
    rw [List.forall_mem_singleton]
    refine PassedOver.decoded (Or.inr ?_) (printed_direction ⟨by decide, by decide⟩ ⟨by decide, by decide⟩ (l.record.rpcCall = CALL))
    show (if l.record.rpcCall = CALL then "C2" else "R2").toList ≠ "C3".toList ∧
      (if l.record.rpcCall = CALL then "C2" else "R2").toList ≠ "R3".toList
    split <;> decide
  by_cases hcall : l.record.rpcCall = CALL
  · have hbody : printBody o b lib count l.record l.xdr l.payload_len l.actual_len =
        fprintf [.lit "CU", .d l.record.nfsVersion.toInt32, .lit "\n"] := by
      rw [printBody, if_pos hcall, printCall, if_neg hversion, if_neg h2]
    refine ⟨[_, _], ?_, rows_two hcsv (w := "CU".toList ++ decInt l.record.nfsVersion.toInt32) (t := [])
      (by rw [hbody]; rfl) (printed_version ⟨by decide, by decide⟩ _) (by simp) ?_ (fields_trailer l).2 (printed_trailer l)⟩
    · simp only [List.forall_mem_cons]
      exact ⟨Or.inl (show 5 < 8 by decide), passedOver_trailer, by simp⟩
    · rw [hbody, out_fprintf]
      simp [Piece.text]
  · have hbody : printBody o b lib count l.record l.xdr l.payload_len l.actual_len =
        (fprintf [.lit "RU", .d l.record.nfsVersion.toInt32, .lit "\n"] >>= fun _ =>
          fprintf [.lit "status=", .x l.record.rpcStatus, .lit " "] >>= fun _ =>
            fprintf [.lit "pl=", .d l.payload_len.toInt32, .lit " "]) := by
      rw [printBody, if_neg hcall, printReplyBody, if_neg hversion, if_neg h2]
    have htail : fields (text [.lit "status=", .x l.record.rpcStatus, .lit " "] ++
      text [.lit "pl=", .d l.payload_len.toInt32, .lit " "] ++
        text (out (printTrailer l.ids l.con l.len l.longpkt))) = some (replyEnd l) := by
      rw [List.append_assoc, fields_cells (cells_status _), fields_cells (cells_pl _), (fields_trailer l).2]
      rfl
    refine ⟨[_, _], ?_, rows_two hcsv (w := "RU".toList ++ decInt l.record.nfsVersion.toInt32) (by rw [hbody]; rfl)
      (printed_version ⟨by decide, by decide⟩ _) (by simp) ?_ htail (printed_replyEnd l)⟩
    · simp only [List.forall_mem_cons]
      exact ⟨Or.inl (show 5 < 8 by decide), passedOver_replyEnd, by simp⟩
    · rw [hbody, out_fprintf_bind, out_fprintf_bind, out_fprintf]
      simp [Piece.text]

end Lines

end Nfsdump.Pathtree
