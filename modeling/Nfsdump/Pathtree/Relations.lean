/-
  Nfsdump.Pathtree.Relations — the relations that `ExtractFhParent.process` takes from calls
  that look up, make or link an object, and from MNT, and their successful replies.

  The extractor takes the second cell of a result for the object's handle. Where CREATE,
  MKDIR, SYMLINK or MKNOD reply without a handle, nfsdump prints its label and nothing
  behind it, and what follows is taken instead.

  Proved, for any names, handles and attributes:
  - `relations_true_iff`: what is recorded, and written as UTF-8, is the object's handle, its name
    and its directory iff the handle is there, it is printed without padding, and the name is
    printed whole and, with RAWNAMES, is UTF-8;
  - `status_recorded`: a reply without handle and attributes, of which the status is recorded.
-/

import Nfsdump.Pathtree.Exchange

namespace Nfsdump.Pathtree

open Wire Decode Xdr Record

/-! ## Exchanges -/

/-- A call's arguments and the result of its successful reply. -/
inductive Exchange where
  | lookup (d : Diropargs3) (r : LOOKUP3resok)
  | create (d : Diropargs3) (how : Createhow3) (r : CREATE3resok)
  | mkdir (d : Diropargs3) (attributes : Sattr3) (r : CREATE3resok)
  | symlink (d : Diropargs3) (attributes : Sattr3) (data : List UInt8) (r : CREATE3resok)
  | mknod (d : Diropargs3) (r : CREATE3resok)
  | link (file : NfsFh3) (d : Diropargs3) (r : LINK3res)
  | mnt (path : List UInt8) (r : Mountres3_ok)

def Exchange.reply : Exchange → Reply3
  | .lookup _ r => .lookup (.resok r)
  | .create _ _ r => .create (.resok r)
  | .mkdir _ _ r => .mkdir (.resok r)
  | .symlink _ _ _ r => .symlink (.resok r)
  | .mknod _ r => .mknod (.resok r)
  | .link _ _ r => .link (.resok r)
  | .mnt _ r => .mnt (.resok r)

/-- The arguments are decoded from the call. -/
def Exchange.Called (lib : XdrLib) (xdr : XDR) : Exchange → Prop
  | .lookup d _ => (lib.LOOKUP3args xdr).1 = some d
  | .create d how _ => (lib.CREATE3args xdr).1 = some (d, how)
  | .mkdir d attributes _ => (lib.MKDIR3args xdr).1 = some (d, attributes)
  | .symlink d attributes data _ => (lib.SYMLINK3args xdr).1 = some (d, attributes, data)
  | .mknod d _ => (lib.MKNOD3args xdr).1 = some d
  | .link file d _ => (lib.LINK3args xdr).1 = some (file, d)
  | .mnt path _ => (lib.dirpath xdr).1 = some path

def Exchange.name : Exchange → List UInt8
  | .lookup d _ | .create d _ _ | .mkdir d _ _ | .symlink d _ _ _ | .mknod d _ | .link _ d _ => d.name
  | .mnt path _ => path

/-- The strings that are decoded, and printed from memory. -/
def Exchange.strings : Exchange → List (List UInt8)
  | .symlink d _ data _ => [d.name, data]
  | ex => [ex.name]

def Exchange.Placed (b : Args) (ex : Exchange) : Prop := ∀ s ∈ ex.strings, b.addr.toNat + s.length < 2 ^ 32

def Exchange.parent : Exchange → Cell
  | .lookup d _ | .create d _ _ | .mkdir d _ _ | .symlink d _ _ _ | .mknod d _ | .link _ d _ => handleCell d.dir
  | .mnt _ _ => "MOUNTPOINT".toList

/-- The object's handle, if the packets have it. -/
def Exchange.object : Exchange → Option NfsFh3
  | .lookup _ r => some r.object
  | .create _ _ r | .mkdir _ _ r | .symlink _ _ _ r | .mknod _ r => r.obj
  | .link file _ _ => some file
  | .mnt _ r => some r.fhandle

/-- The relation of the object to its directory. -/
def Exchange.relation (o : Opts) (ex : Exchange) : Option FhRow :=
  ex.object.map fun f => ⟨some (handleCell f), some (nameCell o ex.name), some ex.parent⟩

/-- The handle is printed as it is: it is in the call, or in the reply and whole units long. -/
def Exchange.HandleShown : Exchange → Prop
  | .link _ _ _ => True
  | ex => ∃ f, ex.object = some f ∧ f.data.length % 4 = 0

/-! ## What is printed -/

def dirCells (o : Opts) (d : Diropargs3) : List Cell := ["fh".toList, handleCell d.dir, "name".toList, nameCell o (cut d.name)]

/-- The cells at the front of a call's parameters. -/
def Exchange.callCells (o : Opts) : Exchange → List Cell
  | .lookup d _ | .create d _ _ | .mkdir d _ _ | .symlink d _ _ _ | .mknod d _ => dirCells o d
  | .link file d _ => ["fh".toList, handleCell file, "fh2".toList, handleCell d.dir, "name".toList, nameCell o (cut d.name)]
  | .mnt path _ => [nameCell o (cut path)]

def createdCells (r : CREATE3resok) : List Cell :=
  "fh".toList :: (r.obj.map paddedCell).toList ++ labelledCells (attrFields r.obj_attributes)

/-- The cells of a result. -/
def Exchange.replyCells : Exchange → List Cell
  | .lookup _ r => "fh".toList :: paddedCell r.object :: labelledCells (attrFields r.obj_attributes)
  | .create _ _ r | .mkdir _ _ r | .symlink _ _ _ r | .mknod _ r => createdCells r
  | .link _ _ _ => []
  | .mnt _ r => ["fh".toList, paddedCell r.fhandle]

section Printer

variable {o : Opts} {b : Args} {lib : XdrLib} {count : UInt32} {ex : Exchange}

theorem puts_diropargs3 (d : Diropargs3) {s : String} (hs : Printed s.toList) (hd : b.addr.toNat + d.name.length < 2 ^ 32) :
    Puts (print_diropargs3_x o b d s "name") [s.toList, handleCell d.dir, "name".toList, nameCell o (cut d.name)] () := by
  have hname : Puts (fprintf [.lit "name", .lit " "]) ["name".toList] () := puts_fprintf rfl
  exact (puts_fh3_x d.dir hs).bind (hname.bind (puts_cstr hd))

theorem printed_fh : Printed "fh".toList := ⟨by decide, by decide⟩

theorem Puts.ends {α : Type} {x : Dec α} {ws : List Cell} {a : α} (h : Puts x ws a) : Begins x ws :=
  ⟨by rw [h.val]; nofun, .start, [], by rw [h.cells, List.append_nil], open_start⟩

theorem begins_ifGot {α : Type} {r : Option α} {a : α} (hr : r = some a) {k : α → Dec Unit} {ws : List Cell} (hk : Begins (k a) ws) :
    Begins (ifGot r k) ws := by
  rw [hr]
  exact hk.bind (fun _ => nofun) fun _ => keeps_pure true fun _ hm => hm

theorem ends_bind {α β : Type} {x : Dec α} {f : α → Dec β} (hx : x.val ≠ none) (hf : ∀ a, (f a).val ≠ none) : (x >>= f).val ≠ none := by
  obtain ⟨a, ha⟩ := Option.ne_none_iff_exists'.mp hx
  rw [Trace.val_bind f ha]
  exact hf a

theorem ends_set (label : String) (w : Option UInt32) : (printSet label w).val ≠ none := by cases w <;> nofun

theorem ends_setTime (label : String) (t : SetTime3) : (printSetTime label t).val ≠ none := by cases t <;> nofun

theorem ends_setSize (v : Option UInt64) : (printSetSize v).val ≠ none := by cases v <;> nofun

theorem ends_sattr3_x (s : Sattr3) : (print_sattr3_x s).val ≠ none :=
  ends_bind (ends_set _ _) fun _ => ends_bind (ends_set _ _) fun _ => ends_bind (ends_set _ _) fun _ =>
    ends_bind (ends_setSize _) fun _ => ends_bind (ends_setTime _ _) fun _ => ends_setTime _ _

theorem ends_createhow3_x (how : Createhow3) : (print_createhow3_x how).val ≠ none := by
  cases how with
  | UNCHECKED s => exact ends_bind nofun fun _ => ends_sattr3_x s
  | GUARDED s => exact ends_bind nofun fun _ => ends_sattr3_x s
  | EXCLUSIVE => nofun

/-- A call's parameters, from its arguments. -/
theorem Exchange.begins_call {xdr : XDR} (hcalled : ex.Called lib xdr) (hplaced : ex.Placed b) :
    Begins (printCallArgs o b lib xdr ex.reply.proc) (ex.callCells o) := by
  have dir : ∀ {d : Diropargs3}, b.addr.toNat + d.name.length < 2 ^ 32 →
      Puts (print_diropargs3_x o b d "fh" "name") (dirCells o d) () := fun hd => puts_diropargs3 _ printed_fh hd
  cases ex with
  | lookup d r => exact begins_ifGot hcalled (dir (hplaced _ List.mem_cons_self)).ends
  | mknod d r => exact begins_ifGot hcalled (dir (hplaced _ List.mem_cons_self)).ends
  | create d how r =>
    refine begins_ifGot hcalled ((dir (hplaced _ List.mem_cons_self)).ends.bind (fun _ => ends_createhow3_x how) fun _ => ?_)
    exact (bare_createhow3_x how).keeps
  | mkdir d attributes r =>
    refine begins_ifGot hcalled ((dir (hplaced _ List.mem_cons_self)).ends.bind (fun _ => ends_sattr3_x attributes) fun _ => ?_)
    exact (bare_sattr3_x attributes).keeps
  | symlink d attributes data r =>
    have hdata := puts_cstr (o := o) (hplaced data (List.mem_cons_of_mem _ (List.mem_singleton_self data)))
    refine begins_ifGot hcalled ((dir (hplaced _ List.mem_cons_self)).ends.bind (fun _ => ?_) fun _ => ?_)
    · exact ends_bind (ends_sattr3_x attributes) fun _ => ends_bind nofun fun _ => hdata.ends.val
    · exact (bare_sattr3_x attributes).keeps.bind fun _ => (keeps_lit (s := "sdata") (by decide)).bind fun _ =>
        (keeps_print_string _ _).opens
  | link file d r =>
    have hto := puts_diropargs3 (o := o) d (s := "fh2") ⟨by decide, by decide⟩ (hplaced _ List.mem_cons_self)
    exact begins_ifGot hcalled ((puts_fh3_x file printed_fh).bind hto).ends
  | mnt path r => exact begins_ifGot hcalled (puts_cstr (hplaced _ List.mem_cons_self)).ends

theorem cells_handle {r : CREATE3resok} :
    Cells (match r.obj with | some f => handleText f | none => []) (r.obj.map paddedCell).toList := by
  cases r.obj with
  | none => exact cells_nil
  | some f => exact cells_handleText f

/-- The text of a result, read as its cells. -/
theorem Exchange.cells_reply (ex : Exchange) (o : Opts) : Cells (ex.reply.text o) ex.replyCells := by
  have label : Cells "fh ".toList ["fh".toList] := rfl
  have created : ∀ r : CREATE3resok, Cells r.text (createdCells r) := fun r => (label.append cells_handle).append (cells_attrs _)
  cases ex with
  | lookup d r => exact (label.append (cells_handleText r.object)).append (cells_attrs r.obj_attributes)
  | create d how r => exact created r
  | mkdir d attributes r => exact created r
  | symlink d attributes data r => exact created r
  | mknod d r => exact created r
  | link file d r => exact cells_nil
  | mnt path r => exact label.append (cells_handleText r.fhandle)

/-- A result in the payload. -/
theorem Exchange.puts_reply {l : DumpLine} (hr : ReplyLine ex.reply l) :
    ∃ k ≤ l.actual_len.toNat / 4, Puts (printResult o b lib l.xdr (cur l.xdr (l.actual_len.toNat / 4)) l.actual_len NFS3_OK count
      ex.reply.proc) ex.replyCells (cur l.xdr k) := by
  have hholds := hr.holds
  have hwhole := hr.whole
  rw [← cur_zero l.xdr] at hholds
  have hstatus : ex.reply.status = NFS3_OK := by cases ex <;> rfl
  have htells : ∃ k ≤ l.actual_len.toNat / 4, Tells (printResult o b lib (cur l.xdr 0) (cur l.xdr (l.actual_len.toNat / 4)) l.actual_len
      ex.reply.status count ex.reply.proc) (ex.reply.text o) (cur l.xdr k) :=
    tells_result hr.mapped ex.reply (by cases ex <;> exact id) (by cases ex <;> nofun) hholds (by omega)
  obtain ⟨k, hk, hval, htext⟩ := htells
  rw [cur_zero, hstatus] at hval htext
  exact ⟨k, hk, hval, htext ▸ ex.cells_reply o⟩

end Printer

/-! ## What is recorded -/

section Relations

variable {csv : List Char → List Row} {o : Opts} {b : Args} {lib : XdrLib} {count : UInt32} {c l : DumpLine} {m : Matched} {ex : Exchange}

/-- The cell taken for the handle. -/
def Exchange.handleTaken (ex : Exchange) (l : DumpLine) : Option Cell :=
  match ex with
  | .link file _ _ => some (handleCell file)
  | ex => (ex.replyCells ++ replyEnd l)[1]?

/-- A call's cells as they are read. -/
theorem Exchange.callCells_decoded (ex : Exchange) (o : Opts) : (ex.callCells o).map decoded =
    match ex with
    | .lookup d _ | .create d _ _ | .mkdir d _ _ | .symlink d _ _ _ | .mknod d _ =>
      ["fh".toList, handleCell d.dir, "name".toList, decoded (nameCell o (cut d.name))]
    | .link file d _ => ["fh".toList, handleCell file, "fh2".toList, handleCell d.dir, "name".toList, decoded (nameCell o (cut d.name))]
    | .mnt path _ => [decoded (nameCell o (cut path))] := by
  have hfh : decoded "fh".toList = "fh".toList := printed_fh.decoded
  have hfh2 : decoded "fh2".toList = "fh2".toList := Printed.decoded ⟨by decide, by decide⟩
  have hname : decoded "name".toList = "name".toList := Printed.decoded ⟨by decide, by decide⟩
  cases ex with
  | lookup | create | mkdir | symlink | mknod =>
    simp only [Exchange.callCells, dirCells, List.map_cons, List.map_nil, decoded_handle, hfh, hname]
  | link => simp only [Exchange.callCells, List.map_cons, List.map_nil, decoded_handle, hfh, hfh2, hname]
  | mnt => rfl

theorem printed_created (r : CREATE3resok) : ∀ w ∈ createdCells r, Printed w := by
  rw [createdCells, List.cons_append, List.forall_mem_cons, List.forall_mem_append]
  refine ⟨printed_fh, fun w hw => ?_, printed_attrs _⟩
  obtain ⟨f, -, rfl⟩ := Option.map_eq_some_iff.mp (Option.mem_toList.mp hw)
  exact printed_hexBytes _

theorem Exchange.printed_reply (ex : Exchange) : ∀ w ∈ ex.replyCells, Printed w := by
  cases ex with
  | lookup d r =>
    simp only [Exchange.replyCells, List.forall_mem_cons]
    exact ⟨printed_fh, printed_hexBytes _, printed_attrs _⟩
  | create d how r => exact printed_created r
  | mkdir d attributes r => exact printed_created r
  | symlink d attributes data r => exact printed_created r
  | mknod d r => exact printed_created r
  | link file d r => exact nofun
  | mnt path r =>
    simp only [Exchange.replyCells, List.forall_mem_cons]
    exact ⟨printed_fh, printed_hexBytes _, nofun⟩

/-- One relation is recorded for an exchange. -/
theorem process_exchange (hcsv : ReadsCsv csv) (h : Pair csv o b lib count c l m) (hc : CallLine ex.reply.proc c)
    (hcalled : ex.Called lib ⟨c.xdr, c.actual_len⟩) (hplaced : ex.Placed b) (hr : ReplyLine ex.reply l) :
    process m = [⟨ex.handleTaken l, some (decoded (nameCell o (cut ex.name))), some ex.parent⟩] := by
  obtain ⟨more, hcall⟩ := h.call_row hcsv hc (ex.begins_call hcalled hplaced)
  obtain ⟨k, hk, hputs⟩ := ex.puts_reply hr
  obtain ⟨hop, hstatus, hreply⟩ := h.reply_row hcsv hr (by cases ex <;> nofun) hk hputs
  unfold process
  rw [hstatus, hcall, hreply, ex.callCells_decoded, map_decoded ex.printed_reply]
  cases ex with
  | lookup d r =>
    rw [show m.op = "lookup".toList from hop]
    rfl
  | create d how r =>
    rw [show m.op = "create".toList from hop]
    rfl
  | mkdir d attributes r =>
    rw [show m.op = "mkdir".toList from hop]
    rfl
  | symlink d attributes data r =>
    rw [show m.op = "symlink".toList from hop]
    rfl
  | mknod d r =>
    rw [show m.op = "mknod".toList from hop]
    rfl
  | link file d r =>
    rw [show m.op = "link".toList from hop]
    rfl
  | mnt path r =>
    rw [show m.op = "mnt".toList from hop]
    rfl

/-- What is taken for the handle is written as it is. -/
theorem encoded_handleTaken (ex : Exchange) (l : DumpLine) : (ex.handleTaken l).map encoded = ex.handleTaken l := by
  have front : ∀ ws : List Cell, (∀ w ∈ ws, Printed w) → (ws ++ replyEnd l)[1]?.map encoded = (ws ++ replyEnd l)[1]? := by
    intro ws hws
    cases hcell : (ws ++ replyEnd l)[1]? with
    | none => rfl
    | some w =>
      have hw : Printed w := by
        rcases List.mem_append.mp (List.mem_of_getElem? hcell) with h | h
        · exact hws w h
        · exact printed_replyEnd l w h
      rw [Option.map_some, hw.encoded]
  cases ex with
  | link file d r => exact congrArg some (encoded_handle file)
  | lookup | create | mkdir | symlink | mknod | mnt => exact front _ (Exchange.printed_reply _)

theorem encoded_parent (ex : Exchange) : encoded ex.parent = ex.parent := by
  have mountpoint : encoded "MOUNTPOINT".toList = "MOUNTPOINT".toList := Printed.encoded ⟨by decide, by decide⟩
  cases ex with
  | mnt path r => exact mountpoint
  | lookup | create | mkdir | symlink | mknod | link => exact encoded_handle _

theorem created_handle_iff (r : CREATE3resok) (more : List Cell) :
    (∃ f, r.obj = some f ∧ some (handleCell f) = (createdCells r ++ more)[1]?) ↔ ∃ f, r.obj = some f ∧ f.data.length % 4 = 0 := by
  rw [createdCells]
  cases r.obj with
  | none => exact iff_of_false (fun ⟨f, hf, _⟩ => nomatch hf) fun ⟨f, hf, _⟩ => nomatch hf
  | some f =>
    simp only [Option.some_inj, exists_eq_left', Option.map_some, Option.toList_some, List.cons_append, List.getElem?_cons_succ,
      List.getElem?_cons_zero]
    rw [eq_comm, reply_handle_iff]

/-- The cell that is taken is the object's handle. -/
theorem handleTaken_iff (ex : Exchange) (l : DumpLine) :
    (∃ f, ex.object = some f ∧ some (handleCell f) = ex.handleTaken l) ↔ ex.HandleShown := by
  have shown : ∀ f : NfsFh3, (∃ f', some f = some f' ∧ some (handleCell f') = some (paddedCell f)) ↔
      ∃ f', some f = some f' ∧ f'.data.length % 4 = 0 := by
    intro f
    simp only [Option.some_inj, exists_eq_left']
    rw [eq_comm, reply_handle_iff]
  cases ex with
  | lookup d r => exact shown r.object
  | create d how r => exact created_handle_iff r _
  | mkdir d attributes r => exact created_handle_iff r _
  | symlink d attributes data r => exact created_handle_iff r _
  | mknod d r => exact created_handle_iff r _
  | link file d r => exact iff_of_true ⟨file, rfl, rfl⟩ trivial
  | mnt path r => exact shown r.fhandle

/-- Every relation recorded for a successful exchange is written as that of its object iff the
    packets have the object's handle, handle and name are printed as they are, and the name is
    read as it is printed. -/
theorem relations_true_iff (hcsv : ReadsCsv csv) (h : Pair csv o b lib count c l m) (hc : CallLine ex.reply.proc c)
    (hcalled : ex.Called lib ⟨c.xdr, c.actual_len⟩) (hplaced : ex.Placed b) (hr : ReplyLine ex.reply l) :
    (∀ row ∈ process m, ex.relation o = some row.written) ↔ ex.HandleShown ∧ NameShown o ex.name := by
  rw [process_exchange hcsv h hc hcalled hplaced hr, List.forall_mem_singleton, ← handleTaken_iff ex l, ← nameShown_iff,
    Exchange.relation, Option.map_eq_some_iff, FhRow.written, encoded_handleTaken, Option.map_some, Option.map_some, encoded_parent]
  constructor
  · intro hrow
    obtain ⟨f, hf, hrow⟩ := hrow
    rw [FhRow.mk.injEq, Option.some_inj] at hrow
    exact ⟨⟨f, hf, hrow.1⟩, hrow.2.1.symm⟩
  · intro hrow
    obtain ⟨⟨f, hf, hfh⟩, hname⟩ := hrow
    exact ⟨f, hf, by rw [hfh, hname]⟩

end Relations

/-! ### A directory made -/

theorem madeIn_length : ([1, 2, 3, 4] : List UInt8).length ≤ 64 := by decide

def madeIn : NfsFh3 := ⟨[1, 2, 3, 4], madeIn_length⟩

theorem made_length : ([9, 9, 9, 9] : List UInt8).length ≤ 64 := by decide

def made : NfsFh3 := ⟨[9, 9, 9, 9], made_length⟩

def mkdirArgs : Diropargs3 := ⟨madeIn, [97]⟩

def noAttributes : Sattr3 := ⟨none, none, none, none, .DONT_CHANGE, .DONT_CHANGE⟩

/-- A reply with or without the handle, and no attributes. -/
def mkdirExchange (obj : Option NfsFh3) : Exchange := .mkdir mkdirArgs noAttributes ⟨obj, none, ⟨none, none⟩⟩

def mkdirLib : XdrLib := { XdrLib.short with MKDIR3args := fun xdr => (some (mkdirArgs, noAttributes), xdr) }

def mkdirCall : DumpLine where
  record := ⟨10, 0, 1, 2, 1023, 2049, 5, CALL, 3, 9, 0⟩
  xdr := Ptr.placed 0x8050000 (wire [4, 0x01020304, 1, 0x61000000, 0, 0, 0, 0, 0, 0])
  payload_len := 40
  proto := 17
  actual_len := 40
  ids := none
  con := 82
  len := 82
  longpkt := none

def mkdirReply (obj : Option NfsFh3) : DumpLine :=
  let body := (mkdirExchange obj).reply.body
  { record := ⟨10, 1, 2, 1, 2049, 1023, 5, REPLY, 3, 9, NFS3_OK⟩
    xdr := Ptr.placed 0x8050000 (wire body)
    payload_len := UInt32.ofNat (4 * body.length)
    proto := 17
    actual_len := UInt32.ofNat (4 * body.length)
    ids := none
    con := 74
    len := 74
    longpkt := none }

def mkdirOpts : Opts := ⟨true, false, false, fun _ => []⟩

theorem mkdirBuffers_ne : (0x8049000 : UInt32) ≠ 0 := by decide

def mkdirBuffers : Args := ⟨0x8049000, mkdirBuffers_ne⟩

def mkdirMatched (obj : Option NfsFh3) : Matched :=
  ⟨"mkdir".toList, lineRow mkdirOpts mkdirBuffers mkdirLib mkdirCall, lineRow mkdirOpts mkdirBuffers mkdirLib (mkdirReply obj)⟩

theorem mkdir_replyLine {obj : Option NfsFh3} (hobj : obj = none ∨ obj = some made) :
    ReplyLine (mkdirExchange obj).reply (mkdirReply obj) := by
  have hlen : (wire (mkdirExchange obj).reply.body).length ≤ 2 ^ 32 := by rcases hobj with rfl | rfl <;> decide
  refine ⟨show REPLY ≠ CALL by decide, rfl, rfl, rfl, ?_, Ptr.placed_holds hlen _, ?_⟩
  · rcases hobj with rfl | rfl <;> exact ⟨by decide, by decide⟩
  · rcases hobj with rfl | rfl <;> decide

theorem mkdir_placed (obj : Option NfsFh3) : (mkdirExchange obj).Placed mkdirBuffers := by
  intro s hs
  rw [List.mem_singleton.mp hs]
  show (0x8049000 : UInt32).toNat + [97].length < 2 ^ 32
  decide

/-- The directory's relation is recorded. -/
theorem relations_true_sample : Pair (readCsv []) mkdirOpts mkdirBuffers mkdirLib 0 mkdirCall (mkdirReply (some made))
    (mkdirMatched (some made)) ∧
    ∀ row ∈ process (mkdirMatched (some made)), (mkdirExchange (some made)).relation mkdirOpts = some row.written := by
  have hpair : Pair (readCsv []) mkdirOpts mkdirBuffers mkdirLib 0 mkdirCall (mkdirReply (some made)) (mkdirMatched (some made)) :=
    pair_of_run (by decide +kernel) (by decide +kernel) (by decide +kernel)
  refine ⟨hpair, ?_⟩
  have hcalled : (mkdirExchange (some made)).Called mkdirLib ⟨mkdirCall.xdr, mkdirCall.actual_len⟩ := rfl
  have hshown : (mkdirExchange (some made)).HandleShown := ⟨made, rfl, by decide⟩
  exact (relations_true_iff readCsv_reads hpair ⟨rfl, rfl, rfl⟩ hcalled (mkdir_placed _) (mkdir_replyLine (Or.inr rfl))).mpr
    ⟨hshown, nameShown_of_plain (by decide) (List.forall_mem_singleton.mpr (by decide))⟩

/-- Behind the label of the missing handle stands the status. -/
theorem status_recorded :
    Pair (readCsv []) mkdirOpts mkdirBuffers mkdirLib 0 mkdirCall (mkdirReply none) (mkdirMatched none) ∧
      CallLine (mkdirExchange none).reply.proc mkdirCall ∧ (mkdirExchange none).Called mkdirLib ⟨mkdirCall.xdr, mkdirCall.actual_len⟩ ∧
      (mkdirExchange none).Placed mkdirBuffers ∧ ReplyLine (mkdirExchange none).reply (mkdirReply none) ∧
      (mkdirExchange none).relation mkdirOpts = none ∧
      process (mkdirMatched none) = [⟨some "status=0".toList, some "a".toList, some "01020304".toList⟩] :=
  ⟨pair_of_run (by decide +kernel) (by decide +kernel) (by decide +kernel), ⟨rfl, rfl, rfl⟩, rfl, mkdir_placed none,
    mkdir_replyLine (Or.inl rfl), rfl, by decide +kernel⟩

end Nfsdump.Pathtree
