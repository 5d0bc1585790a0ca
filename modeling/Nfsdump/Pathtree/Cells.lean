/-
  Nfsdump.Pathtree.Cells — which cells of a row a printer's text becomes.

  `Puts` is for a printer whose text ends between two cells, `Begins` for one whose first
  cells alone are known; what follows them has to be in the format, which Quoting shows of
  every printer. A handle of no bytes leaves two blanks, with an empty cell between them.

  Proved:
  - `Puts.bind`, `Puts.begins`, `Begins.bind`: printers one behind the other;
  - `puts_fh3_x`, `puts_cstr`: handles and names;
  - `begins_v3_call`, `puts_v3_resp`: the lines of nfs_v3.c, from a call's arguments and a
    reply's result;
  - `fields_callLine`, `fields_replyLine`: the rows of whole lines of the dump.
-/

import Nfsdump.Decode.Render3
import Nfsdump.Pathtree.Quoting
import Nfsdump.Record.PrintRecord

namespace Nfsdump.Pathtree

open Wire Decode

/-! ## Cells of a text -/

variable {α β : Type} {x : Dec α} {cs ds w : List Char} {ws vs : List Cell} {m : Mode} {a : α} {b : β}

/-- A text between two cells, read as the cells `ws`. -/
def Cells (cs : List Char) (ws : List Cell) : Prop := run .start cs = some (.start, ws)

theorem Cells.append (hc : Cells cs ws) (hd : Cells ds vs) : Cells (cs ++ ds) (ws ++ vs) := by
  rw [Cells, run_append_some hc, hd]
  rfl

theorem cells_nil : Cells [] [] := rfl

theorem ordinary_of_bare (hw : bareText w = true) (hb : Nonblank w) : ∀ c ∈ w, ordinary c = true := by
  intro c hc
  have hbare := List.all_eq_true.mp hw c hc
  rw [bareChar, Bool.or_eq_true, decide_eq_true_eq] at hbare
  apply hbare.resolve_left
  intro h
  subst h
  exact absurd (hb _ hc) (by decide)

/-- Printed text without blanks. -/
structure Printed (w : Cell) : Prop where
  bare : bareText w = true
  nonblank : Nonblank w

theorem Printed.decoded (hw : Printed w) : Pathtree.decoded w = w := decoded_ordinary (ordinary_of_bare hw.bare hw.nonblank)

theorem Printed.encoded (hw : Printed w) : Pathtree.encoded w = w :=
  encoded_ascii fun c hc => ordinary_lt (ordinary_of_bare hw.bare hw.nonblank c hc)

theorem map_decoded (h : ∀ w ∈ ws, Printed w) : ws.map decoded = ws := by
  exact (List.map_congr_left fun w hw => (h w hw).decoded).trans (List.map_id' ws)

theorem cells_printed (hw : Printed w) : Cells (w ++ [' ']) [w] := by
  by_cases hne : w = []
  · rw [hne]
    rfl
  · exact run_cell (ordinary_of_bare hw.bare hw.nonblank) hne

theorem fields_cells (hc : Cells cs ws) (ds : List Char) : fields (cs ++ ds) = (fields ds).map (ws ++ ·) := by
  rw [fields, run_append_some hc, fields]
  cases run .start ds with
  | none => rfl
  | some r =>
    cases hl : r.1.last with
    | none => simp [hl]
    | some v => simp [hl]

theorem fields_printed (hw : Printed w) (hne : w ≠ []) : fields w = some [w] := by
  rw [fields, run_plain (ordinary_of_bare hw.bare hw.nonblank) hne]
  rfl

/-! ## Cells of a printer -/

/-- A printer ends with `a`, and its text is read as the cells `ws`. -/
structure Puts (x : Dec α) (ws : List Cell) (a : α) : Prop where
  val : x.val = some a
  cells : Cells (text (out x)) ws

/-- A printer ends, and its text is read as the cells `ws` and what follows them. -/
structure Begins (x : Dec α) (ws : List Cell) : Prop where
  val : x.val ≠ none
  cells : ∃ m more, run .start (text (out x)) = some (m, ws ++ more) ∧ m.Open

theorem Puts.bind {f : α → Dec β} (hx : Puts x ws a) (hf : Puts (f a) vs b) : Puts (x >>= f) (ws ++ vs) b where
  val := by rw [Trace.val_bind f hx.val, hf.val]
  cells := by
    rw [out_bind f hx.val, text_append]
    exact hx.cells.append hf.cells

theorem puts_pure (a : α) : Puts (pure a : Dec α) [] a := ⟨rfl, rfl⟩

theorem puts_silent (hx : x.val = some a) (ho : out x = []) : Puts x [] a := ⟨hx, by rw [ho]; rfl⟩

theorem puts_fprintf {ps : List Piece} (h : Cells (text ps) ws) : Puts (fprintf ps) ws () := ⟨rfl, by rwa [out_fprintf]⟩

theorem Puts.begins {f : α → Dec β} (hx : Puts x ws a) (hf : Begins (f a) vs) : Begins (x >>= f) (ws ++ vs) where
  val := by rw [Trace.val_bind f hx.val]; exact hf.val
  cells := by
    obtain ⟨m, more, hrun, hm⟩ := hf.cells
    refine ⟨m, more, ?_, hm⟩
    rw [out_bind f hx.val, text_append, run_append_some hx.cells, hrun, Option.map_some, List.append_assoc]

/-- A printer in the format, of which no cell is known. -/
theorem begins_nil (hval : x.val ≠ none) (hx : Keeps Mode.Open x Mode.Open) : Begins x [] where
  val := hval
  cells := by
    obtain ⟨m, more, hrun, hm⟩ := hx hval .start open_start
    exact ⟨m, more, by rw [hrun]; rfl, hm⟩

theorem Begins.bind {f : α → Dec β} (hx : Begins x ws) (hval : ∀ a, (f a).val ≠ none)
    (hf : ∀ a, Keeps Mode.Open (f a) Mode.Open) : Begins (x >>= f) ws := by
  obtain ⟨a, ha⟩ := Option.ne_none_iff_exists'.mp hx.val
  obtain ⟨m, more, hrun, hm⟩ := hx.cells
  obtain ⟨m', more', hrun', hm'⟩ := hf a (hval a) m hm
  refine ⟨by rw [Trace.val_bind f ha]; exact hval a, m', more ++ more', ?_, hm'⟩
  rw [out_bind f ha, text_append, run_append_some hrun, hrun', Option.map_some, List.append_assoc]

/-! ## Words, handles and names -/

variable {o : Opts} {lib : XdrLib} {count : UInt32}

theorem cells_words (h : ∀ w ∈ ws, Printed w) : Cells (ws.flatMap (· ++ [' '])) ws := by
  induction ws with
  | nil => exact cells_nil
  | cons w ws ih =>
    rw [List.forall_mem_cons] at h
    exact (cells_printed h.1).append (ih h.2)

theorem printed_toDigits {n k : Nat} (hb : 1 < n) (hb' : n ≤ 16) : Printed (Nat.toDigits n k) :=
  ⟨bareText_toDigits hb hb', nonblank_toDigits hb hb'⟩

theorem Printed.append (hw : Printed w) {v : Cell} (hv : Printed v) : Printed (w ++ v) := by
  refine ⟨?_, nonblank_append hw.nonblank hv.nonblank⟩
  rw [bareText_append, hw.bare, hv.bare]
  rfl

theorem printed_padLeft {c : Char} (hc : bareChar c = true) (hb : isBlank c = false) (hw : Printed w) (n : Nat) :
    Printed (padLeft n c w) := by
  refine ⟨bareText_padLeft hc hw.bare n, nonblank_append (fun d hd => ?_) hw.nonblank⟩
  rw [List.eq_of_mem_replicate hd]
  exact hb

theorem printed_zeros {n k : Nat} : Printed (padLeft k '0' (hex n)) :=
  printed_padLeft (by decide) (by decide) (printed_toDigits (by decide) (by decide)) k

def handleCell (f : NfsFh3) : Cell := hexBytes f.data

theorem bareText_hexBytes (bs : List UInt8) : bareText (hexBytes bs) = true := by
  refine List.all_eq_true.mpr fun c hc => ?_
  obtain ⟨v, -, hv⟩ := List.mem_flatMap.mp hc
  obtain ⟨d, hd, rfl⟩ := Digits.mem_fixed (by decide) hv
  exact bareChar_digit hd

theorem printed_hexBytes (bs : List UInt8) : Printed (hexBytes bs) := ⟨bareText_hexBytes bs, nonblank_hexBytes bs⟩

theorem puts_fh3_x (f : NfsFh3) {s : String} (h : Printed s.toList) :
    Puts (print_fh3_x f s) [s.toList, handleCell f] () := by
  refine ⟨rfl, ?_⟩
  have htext : text (out (print_fh3_x f s)) = (s.toList ++ [' ']) ++ (hexBytes f.data ++ [' ']) := by
    rw [text_fh3_x, List.append_assoc]
    rfl
  rw [htext]
  exact (cells_printed h).append (cells_printed (printed_hexBytes f.data))

/-! ### Names -/

def nameCell (o : Opts) (name : List UInt8) : Cell := text (namePieces o name)

theorem run_raw (name : List UInt8) : ∀ v : Cell, run (.quoted v) (text (name.flatMap rawPieces)) =
    some (.quoted (v ++ text (name.flatMap rawPieces)), []) := by
  induction name with
  | nil => intro v; rw [List.flatMap_nil, text_nil, List.append_nil]; rfl
  | cons c name ih =>
    intro v
    have hc : run (.quoted v) (text (rawPieces c)) = some (.quoted (v ++ text (rawPieces c)), []) := by
      unfold rawPieces
      split
      · exact run_escaped c v
      · next h =>
        refine run_inQuotes (fun d hd => ?_) v
        rw [text_cons, text_nil, List.append_nil] at hd
        rw [List.mem_singleton.mp hd]
        exact inQuotes_raw c h
    rw [List.flatMap_cons, text_append, run_append_some hc, ih, Option.map_some, List.append_assoc]
    rfl

theorem bare_segmentPieces (o : Opts) (bs : List UInt8) : ∀ p ∈ segmentPieces o bs, bare p = true := by
  have component : ∀ bs, ∀ p ∈ componentPieces o bs, bare p = true := by
    intro bs p hp
    unfold componentPieces at hp
    split at hp
    · exact absurd hp List.not_mem_nil
    split at hp
    · rw [List.mem_singleton.mp hp]
      decide
    split at hp
    · rw [List.mem_singleton.mp hp]
      decide
    · obtain ⟨v, -, rfl⟩ := List.mem_map.mp hp
      rfl
  intro p hp
  cases bs with
  | nil => exact absurd hp List.not_mem_nil
  | cons c bs =>
    rw [segmentPieces] at hp
    split at hp
    · rcases List.mem_cons.mp hp with rfl | hp
      · decide
      · exact component _ p hp
    · exact component _ p hp

theorem bareText_hashed {o : Opts} (hraw : o.RAWNAMES = false) (name : List UInt8) : bareText (nameCell o name) = true := by
  rw [nameCell, namePieces, hraw, if_neg Bool.false_ne_true]
  refine bareText_text fun p hp => ?_
  obtain ⟨seg, -, hp⟩ := List.mem_flatMap.mp hp
  exact bare_segmentPieces o seg p hp

theorem bareChar_lt {c : Char} (h : bareChar c = true) : c.toNat < 128 := by
  rw [bareChar, Bool.or_eq_true, decide_eq_true_eq] at h
  rcases h with rfl | h
  · decide
  · exact ordinary_lt h

/-- A name is read as it is printed. -/
theorem run_name (o : Opts) (name : List UInt8) :
    run (.quoted []) (nameCell o name) = some (.quoted (nameCell o name), []) := by
  cases hraw : o.RAWNAMES with
  | true =>
    rw [nameCell, namePieces, if_pos hraw]
    exact run_raw name []
  | false => exact run_inQuotes (fun c hc => inQuotes_of_bare (List.all_eq_true.mp (bareText_hashed hraw name) c hc)) []

theorem cells_quoted (o : Opts) (name : List UInt8) : Cells (text (quoted o name)) [nameCell o name] := by
  rw [text_quoted]
  show run .start ('"' :: (text (namePieces o name) ++ ['"']) ++ [' ']) = _
  rw [List.cons_append, List.append_assoc]
  exact run_quoted (run_name o name)

/-- What is printed of a decoded string. -/
def cut (s : List UInt8) : List UInt8 := s.takeWhile (· ≠ 0)

theorem puts_cstr {b : Args} {s : List UInt8} (h : b.addr.toNat + s.length < 2 ^ 32) :
    Puts (printCstr o b s) [nameCell o (cut s)] () := by
  obtain ⟨hval, hout⟩ := says_cstr (o := o) h
  refine ⟨hval, ?_⟩
  rw [hout]
  exact cells_quoted o _

/-! ## Lines -/

section Lines

variable {b : Args} {p : Ptr} {actual_len : UInt32}

/-- The cells in front of a call's arguments or a reply's status. -/
def header (dir : String) (xid : UInt32) (q : Proc3) : List Cell :=
  [dir.toList, Piece.text (.x0 8 xid), Piece.text (.x0 2 q.number), q.name.toList]

theorem printed_name (q : Proc3) : Printed q.name.toList := by
  refine ⟨bare_name q, ?_⟩
  cases q <;> decide

/-- The direction, the XID and the procedure's number. -/
theorem puts_numbers {lit dir : String} (hlit : lit.toList = dir.toList ++ [' ']) (hdir : Printed dir.toList) (xid : UInt32) (q : Proc3) :
    Puts (fprintf [.lit lit, .x0 8 xid, .lit " ", .x0 2 q.number, .lit " "])
      [dir.toList, Piece.text (.x0 8 xid), Piece.text (.x0 2 q.number)] () := by
  refine puts_fprintf ?_
  have hcells : Cells ([dir.toList, Piece.text (.x0 8 xid), Piece.text (.x0 2 q.number)].flatMap (· ++ [' ']))
      [dir.toList, Piece.text (.x0 8 xid), Piece.text (.x0 2 q.number)] := by
    apply cells_words
    simp only [List.forall_mem_cons]
    exact ⟨hdir, printed_zeros, printed_zeros, nofun⟩
  simpa [Piece.text, hlit] using hcells

theorem puts_procName (q : Proc3) : Puts (fprintf [.lit q.name, .lit " "]) [q.name.toList] () :=
  puts_fprintf (by simpa [Piece.text] using cells_printed (printed_name q))

theorem begins_v3_call (xid : UInt32) (q : Proc3) (h : Begins (printCallArgs o b lib ⟨p, actual_len⟩ q) ws) :
    Begins (nfs_v3_print_call o b lib q.number xid p actual_len) (header "C3" xid q ++ ws) := by
  have hfront := puts_numbers (show "C3 ".toList = "C3".toList ++ [' '] from rfl) ⟨by decide, by decide⟩ xid q
  have short : ∀ got_all : Bool, Bare (do Trace.when (!got_all) (fprintf [.lit "SHORT PACKET"]); return 0 : Dec Int32) :=
    fun got_all => by simp +decide
  have ends : ∀ got_all : Bool, (do Trace.when (!got_all) (fprintf [.lit "SHORT PACKET"]); return 0 : Dec Int32).val ≠ none := by
    intro got_all
    cases got_all <;> nofun
  have hargs := h.bind ends fun got_all => (short got_all).keeps
  rw [nfs_v3_print_call, Proc3.ofNumber_number]
  exact (puts_silent (a := ()) rfl rfl).begins (hfront.begins ((puts_silent (a := ()) rfl rfl).begins ((puts_procName q).begins hargs)))

/-- A successful reply's line, from the cells of its result, when the cursor is left in the payload. -/
theorem puts_v3_resp (h : Mapped p (actual_len.toNat / 4)) (xid : UInt32) {q : Proc3} (hnull : q ≠ .null) {k : Nat}
    (hk : k ≤ actual_len.toNat / 4)
    (hr : Puts (printResult o b lib p (cur p (actual_len.toNat / 4)) actual_len NFS3_OK count q) ws (cur p k)) :
    Puts (nfs_v3_print_resp o b lib q.number xid p actual_len NFS3_OK count) (header "R3" xid q ++ ("OK".toList :: ws)) 0 := by
  have hfront := puts_numbers (show "R3 ".toList = "R3".toList ++ [' '] from rfl) ⟨by decide, by decide⟩ xid q
  have hok : Puts (Trace.when (q ≠ .null) (printStatus NFS3_OK)) ["OK".toList] () := by
    rw [decide_eq_true hnull]
    exact puts_fprintf rfl
  have hreply : Puts (printReply o b lib p (cur p (actual_len.toNat / 4)) actual_len NFS3_OK count (some q))
      ([] ++ ([q.name.toList] ++ (["OK".toList] ++ ws))) (cur p k) :=
    (puts_silent (a := ()) rfl rfl).bind ((puts_procName q).bind (hok.bind hr))
  have hend : Puts (if (cur p k).addr = 0 then fprintf [.lit "SHORT PACKET"] >>= fun _ => pure (-1) else pure 0 : Dec Int32) [] 0 := by
    rw [if_neg (cur_ne_null h (by omega))]
    exact puts_pure 0
  have hcells : header "R3" xid q ++ ("OK".toList :: ws) = ["R3".toList, Piece.text (.x0 8 xid), Piece.text (.x0 2 q.number)] ++
      ([] ++ (([] ++ ([q.name.toList] ++ (["OK".toList] ++ ws))) ++ [])) := by
    simp [header]
  rw [nfs_v3_print_resp, cur_end, Proc3.ofNumber_number, hcells]
  exact hfront.bind ((puts_silent (a := ()) rfl rfl).bind (hreply.bind hend))

/-! ### Around a record -/

open Record

def front (o : Opts) (l : DumpLine) : List Cell :=
  [stamp l.record.secs l.record.usecs, address o l.record.srcHost l.record.srcPort, address o l.record.dstHost l.record.dstPort,
    protoText l.proto]

theorem printed_dec (n : Nat) : Printed (dec n) := printed_toDigits (by decide) (by decide)

theorem printed_point : Printed ['.'] := ⟨by decide, by decide⟩

theorem printed_address (o : Opts) (host port : UInt32) : Printed (address o host port) := by
  have hhost : Printed (hostText o host) := by
    unfold hostText printHostIp
    split
    · have octets := ((((((printed_dec (octet host 24).toNat).append printed_point).append (printed_dec (octet host 16).toNat)).append
        printed_point).append (printed_dec (octet host 8).toNat)).append printed_point).append (printed_dec (octet host 0).toNat)
      simpa [Piece.text] using octets
    · simpa [Piece.text] using printed_zeros (n := host.toNat) (k := 8)
  exact hhost.append (printed_point.append printed_zeros)

theorem printed_stamp (secs usecs : UInt32) : Printed (stamp secs usecs) :=
  (printed_dec _).append (printed_point.append (printed_padLeft (by decide) (by decide) (printed_dec _) 6))

theorem printed_front (o : Opts) (l : DumpLine) : ∀ w ∈ front o l, Printed w := by
  simp only [front, List.forall_mem_cons]
  refine ⟨printed_stamp _ _, printed_address o _ _, printed_address o _ _, ?_, nofun⟩
  unfold protoText
  split <;> exact ⟨by decide, by decide⟩

def idsCells : Option (Int32 × Int32) → List Cell
  | some (euid, egid) => ["euid".toList, hex euid.toUInt32.toNat, "egid".toList, hex egid.toUInt32.toNat]
  | none => []

/-- Behind `LONGPKT-` there is a blank, and with it one more cell. -/
def longpktCells : Option UInt32 → List Cell
  | some n => ["LONGPKT-".toList ++ decInt n.toInt32, []]
  | none => []

def trailerCells (l : DumpLine) : List Cell :=
  idsCells l.ids ++ ("con=".toList ++ decInt l.con.toInt32) :: ("len=".toList ++ decInt l.len.toInt32) :: longpktCells l.longpkt

theorem printed_decInt (i : Int32) : Printed (decInt i) := ⟨bareText_decInt i, nonblank_decInt i⟩

theorem printed_nil : Printed [] := ⟨rfl, nofun⟩

theorem printed_trailer (l : DumpLine) : ∀ w ∈ trailerCells l, Printed w := by
  have hids : ∀ w ∈ idsCells l.ids, Printed w := by
    cases l.ids with
    | none => exact nofun
    | some ids =>
      simp only [idsCells, List.forall_mem_cons]
      exact ⟨⟨by decide, by decide⟩, printed_toDigits (by decide) (by decide), ⟨by decide, by decide⟩,
        printed_toDigits (by decide) (by decide), nofun⟩
  have hlong : ∀ w ∈ longpktCells l.longpkt, Printed w := by
    cases l.longpkt with
    | none => exact nofun
    | some n =>
      simp only [longpktCells, List.forall_mem_cons]
      exact ⟨Printed.append ⟨by decide, by decide⟩ (printed_decInt _), printed_nil, nofun⟩
  simp only [trailerCells, List.forall_mem_append, List.forall_mem_cons]
  exact ⟨hids, Printed.append ⟨by decide, by decide⟩ (printed_decInt _), Printed.append ⟨by decide, by decide⟩ (printed_decInt _), hlong⟩

theorem puts_ids (ids : Option (Int32 × Int32)) : Puts (printIds ids) (idsCells ids) () := by
  cases ids with
  | none => exact puts_pure ()
  | some i =>
    refine puts_fprintf ?_
    have hcells : Cells ((idsCells (some i)).flatMap (· ++ [' '])) (idsCells (some i)) := by
      apply cells_words
      simp only [idsCells, List.forall_mem_cons]
      exact ⟨⟨by decide, by decide⟩, printed_toDigits (by decide) (by decide), ⟨by decide, by decide⟩,
        printed_toDigits (by decide) (by decide), nofun⟩
    simpa [idsCells, Piece.text] using hcells

/-- Of the trailer behind a call's line no cell is needed. -/
theorem keeps_trailer (l : DumpLine) (m : Mode) (hm : m.Open) :
    ∃ m' done, run m (text (out (printTrailer l.ids l.con l.len l.longpkt))) = some (m', done) ∧ m'.Open := by
  have hids : Bare (printIds l.ids) := by
    cases l.ids with
    | none => simp [printIds]
    | some i => simp +decide [printIds]
  have hlong : Bare (printLongpkt l.longpkt) := by
    cases l.longpkt with
    | none => simp [printLongpkt]
    | some n => simp +decide [printLongpkt]
  have hbare : Bare (printTrailer l.ids l.con l.len l.longpkt) := by simp +decide [printTrailer, hids, hlong]
  exact run_bare hbare.text m hm

theorem fields_trailer (l : DumpLine) : (printTrailer l.ids l.con l.len l.longpkt).val = some () ∧
    fields (text (out (printTrailer l.ids l.con l.len l.longpkt))) = some (trailerCells l) := by
  have hids := puts_ids l.ids
  have hcon : Cells ("con=".toList ++ decInt l.con.toInt32 ++ [' ']) ["con=".toList ++ decInt l.con.toInt32] :=
    cells_printed (Printed.append ⟨by decide, by decide⟩ (printed_decInt _))
  have hlen : Printed ("len=".toList ++ decInt l.len.toInt32) := Printed.append ⟨by decide, by decide⟩ (printed_decInt _)
  have htext : text (out (printTrailer l.ids l.con l.len l.longpkt)) = text (out (printIds l.ids)) ++
      ("con=".toList ++ decInt l.con.toInt32 ++ [' '] ++ ("len=".toList ++ decInt l.len.toInt32 ++
        text (out (printLongpkt l.longpkt)))) := by
    rw [printTrailer, out_bind _ hids.val, text_append, out_fprintf_bind, text_append]
    simp [Piece.text]
  have hlong : fields ("len=".toList ++ decInt l.len.toInt32 ++ text (out (printLongpkt l.longpkt))) =
      some (("len=".toList ++ decInt l.len.toInt32) :: longpktCells l.longpkt) := by
    cases l.longpkt with
    | none =>
      rw [printLongpkt, out_pure, text_nil, List.append_nil]
      exact fields_printed hlen (by simp)
    | some n =>
      have hn : Printed ("LONGPKT-".toList ++ decInt n.toInt32) := Printed.append ⟨by decide, by decide⟩ (printed_decInt _)
      have hpad : text (out (printLongpkt (some n))) = [' '] ++ ("LONGPKT-".toList ++ decInt n.toInt32 ++ [' ']) := by
        simp [printLongpkt, Piece.text]
      rw [hpad, ← List.append_assoc, ← List.append_nil ("LONGPKT-".toList ++ decInt n.toInt32 ++ [' ']),
        fields_cells (cells_printed hlen), fields_cells (cells_printed hn)]
      rfl
  refine ⟨?_, ?_⟩
  · rw [printTrailer, Trace.val_bind _ hids.val, val_fprintf_bind]
    cases l.longpkt <;> rfl
  · rw [htext, fields_cells hids.cells, fields_cells hcon, hlong]
    rfl

/-! ### Lines of the dump -/

section

variable {b : Args} {l : DumpLine}

/-- A record's line, from what its body is read as. -/
theorem fields_line {v : Unit} (hval : (printBody o b lib count l.record l.xdr l.payload_len l.actual_len).val = some v) :
    fields (text (out (l.print o b lib count))) = (fields (text (out (printBody o b lib count l.record l.xdr l.payload_len
      l.actual_len)) ++ text (out (printTrailer l.ids l.con l.len l.longpkt)))).map (front o l ++ ·) := by
  have hrecord : (printRecord o b lib count l.record l.xdr l.payload_len l.proto l.actual_len).val = some v := by
    rw [val_printRecord, hval]
  have hline : text (out (printRecord o b lib count l.record l.xdr l.payload_len l.proto l.actual_len)) =
      (front o l).flatMap (· ++ [' ']) ++ text (out (printBody o b lib count l.record l.xdr l.payload_len l.actual_len)) := by
    rw [text_printRecord]
    simp [front]
  rw [DumpLine.print, out_bind _ hrecord, text_append, hline, List.append_assoc,
    fields_cells (cells_words (printed_front o l))]

/-- A row begins with what the record's body begins with. -/
theorem fields_begins (h : Begins (printBody o b lib count l.record l.xdr l.payload_len l.actual_len) ws) :
    ∃ more, fields (text (out (l.print o b lib count))) = some (front o l ++ (ws ++ more)) := by
  obtain ⟨v, hval⟩ := Option.ne_none_iff_exists'.mp h.val
  obtain ⟨m, done, hrun, hm⟩ := h.cells
  obtain ⟨m', done', hrun', hm'⟩ := keeps_trailer l m hm
  rw [fields_line hval, fields, run_append_some hrun, hrun']
  rcases hm' with rfl | ⟨w, rfl⟩
  · exact ⟨done ++ done' ++ [[]], by simp [Mode.last]⟩
  · exact ⟨done ++ done' ++ [w], by simp [Mode.last]⟩

/-- A call's row begins with what its printer begins with. -/
theorem fields_callLine (hcall : l.record.rpcCall = CALL) (hversion : l.record.nfsVersion = 3)
    (h : Begins (nfs_v3_print_call o b lib l.record.nfsProc l.record.rpcXID l.xdr l.actual_len) ws) :
    ∃ more, fields (text (out (l.print o b lib count))) = some (front o l ++ (ws ++ more)) := by
  apply fields_begins
  rw [printBody, if_pos hcall, printCall, if_pos hversion]
  exact h.bind (fun _ => Option.some_ne_none ()) fun _ => keeps_pure () fun _ hm => hm

/-- The cells behind a reply's result. -/
def replyEnd (l : DumpLine) : List Cell :=
  ("status=".toList ++ hex l.record.rpcStatus.toNat) :: ("pl=".toList ++ decInt l.payload_len.toInt32) :: trailerCells l

theorem printed_replyEnd (l : DumpLine) : ∀ w ∈ replyEnd l, Printed w := by
  simp only [replyEnd, List.forall_mem_cons]
  exact ⟨Printed.append ⟨by decide, by decide⟩ (printed_toDigits (by decide) (by decide)),
    Printed.append ⟨by decide, by decide⟩ (printed_decInt _), printed_trailer l⟩

theorem cells_status (status : UInt32) : Cells (text [.lit "status=", .x status, .lit " "]) ["status=".toList ++ hex status.toNat] := by
  have hcell := cells_printed (Printed.append (w := "status=".toList) ⟨by decide, by decide⟩
    (printed_toDigits (n := 16) (k := status.toNat) (by decide) (by decide)))
  simpa [Piece.text, hex] using hcell

theorem cells_pl (payload_len : UInt32) :
    Cells (text [.lit "pl=", .d payload_len.toInt32, .lit " "]) ["pl=".toList ++ decInt payload_len.toInt32] := by
  have hcell := cells_printed (Printed.append (w := "pl=".toList) ⟨by decide, by decide⟩ (printed_decInt payload_len.toInt32))
  simpa [Piece.text] using hcell

theorem fields_replyLine (hcall : l.record.rpcCall ≠ CALL) (hversion : l.record.nfsVersion = 3) {r : Int32}
    (h : Puts (nfs_v3_print_resp o b lib l.record.nfsProc l.record.rpcXID l.xdr l.actual_len l.record.rpcStatus count) ws r) :
    fields (text (out (l.print o b lib count))) = some (front o l ++ (ws ++ replyEnd l)) := by
  have hstatus : Puts (fprintf [.lit "status=", .x l.record.rpcStatus, .lit " "])
      ["status=".toList ++ hex l.record.rpcStatus.toNat] () := puts_fprintf (cells_status _)
  have hpl : Puts (fprintf [.lit "pl=", .d l.payload_len.toInt32, .lit " "]) ["pl=".toList ++ decInt l.payload_len.toInt32] () :=
    puts_fprintf (cells_pl _)
  have hbody : Puts (printBody o b lib count l.record l.xdr l.payload_len l.actual_len)
      (ws ++ [] ++ (["status=".toList ++ hex l.record.rpcStatus.toNat] ++ ["pl=".toList ++ decInt l.payload_len.toInt32])) () := by
    rw [printBody, if_neg hcall, printReplyBody, if_pos hversion]
    exact (h.bind (puts_pure ())).bind (hstatus.bind hpl)
  rw [fields_line hbody.val, fields_cells hbody.cells, (fields_trailer l).2]
  simp [replyEnd]

end

end Lines

end Nfsdump.Pathtree
