/-
  Nfsdump.Driver.LogRows — the rows that a log is read as.

  pathtree takes a log for one row a line. A payload says what it likes: its names are hashed or
  escaped, its words are printed as numerals, so no payload ends a line, a cell or its quotes.

  Proved, for any packets, tables and options:
  - `events_written`: what a packet has written are records, each with its trailer behind it,
    and the diagnostics of headers without a length;
  - `log_rows`: the rows of a log that `Parser` does not pass over are those of the version 3
    records, one for each and in their order.
-/

import Nfsdump.Driver.Summaries
import Nfsdump.Pathtree.OtherClients

namespace Nfsdump.Driver

open Record Decode Wire Pathtree

variable {o : Opts} {b : Args} {lib : XdrLib} {count : UInt32} {csv : List Char → List Row}

/-! ## What is written -/

def writes : Event → Bool
  | .printRecord .. => true
  | .trailer .. => true
  | .rhLenZero _ => true
  | _ => false

inductive LogEntry where
  | record (d : DumpLine)
  | zero (cnt : UInt32)

def LogEntry.events : LogEntry → List Event
  | .record d => d.events
  | .zero cnt => [.rhLenZero cnt]

/-- What the events write is a list of entries. -/
def Written (es : List Event) : Prop := ∃ entries : List LogEntry, es.filter writes = entries.flatMap LogEntry.events

variable {es es' : List Event}

theorem Written.append (h : Written es) (h' : Written es') : Written (es ++ es') := by
  obtain ⟨xs, hxs⟩ := h
  obtain ⟨ys, hys⟩ := h'
  exact ⟨xs ++ ys, by rw [List.filter_append, hxs, hys, List.flatMap_append]⟩

theorem written_entry (x : LogEntry) : Written x.events := by
  refine ⟨[x], ?_⟩
  cases x <;> simp [LogEntry.events, DumpLine.events, writes]

theorem written_silent (h : ∀ e ∈ es, writes e = false) : Written es :=
  ⟨[], List.filter_eq_nil_iff.mpr fun e he => by simp [h e he]⟩

theorem Written.behind {e : Event} (he : writes e = false) (h : Written es) : Written (e :: es) := by
  obtain ⟨xs, hxs⟩ := h
  exact ⟨xs, by rw [List.filter_cons_of_neg (by simp [he]), hxs]⟩

theorem Written.andThen {out : Out} {k : World → Locals → Out} (h : Written out.events) (hk : ∀ w l, Written (k w l).events) :
    Written (out.andThen k).events := by
  unfold Out.andThen
  split
  · exact h.append (hk _ _)
  · exact h

/-! ## Of a packet -/

section Packet

variable (ind : Indet) (env : Env) (w : World) (l : Locals)

theorem tcpSegment_silent : ∀ e ∈ (tcpSegment ind env w l).events, writes e = false := by
  have hfree : ∀ freed, ∀ e ∈ freeBuffers freed, writes e = false := by
    intro freed e he
    obtain ⟨n, -, rfl⟩ := List.mem_map.mp he
    rfl
  unfold tcpSegment
  simp only
  split
  · split
    · simp [writes]
    split
    · simp [writes]
    split
    · simp [writes]
    · exact List.forall_mem_append.mpr ⟨by simp [writes], hfree _⟩
  · split
    · simp [writes]
    split
    · simp [writes]
    split
    · simp [writes]
    · exact List.forall_mem_append.mpr ⟨by simp [writes], hfree _⟩

theorem headerEvents_unwritten : ∀ e ∈ l.headerEvents, writes e = false := by
  intro e he
  rcases List.mem_cons.mp he with rfl | he
  · rfl
  · obtain ⟨f, -, rfl⟩ := Option.map_eq_some_iff.mp (Option.mem_toList.mp he)
    rfl

theorem freeReassembly_silent : ∀ e ∈ freeReassembly l, writes e = false := by
  intro e he
  obtain ⟨id, -, rfl⟩ := Option.map_eq_some_iff.mp (Option.mem_toList.mp he)
  rfl

theorem decode_silent (print_it : Int32) : (∀ ev, l.decode w print_it = .error ev → ∀ e ∈ ev, writes e = false) ∧
    ∀ d, l.decode w print_it = .ok d → ∀ e ∈ d.events, writes e = false := by
  unfold Locals.decode
  split
  · unfold decodeCall
    simp only
    split
    · refine ⟨fun ev hev e he => ?_, fun d hd => by cases hd⟩
      cases hev
      rw [List.mem_singleton.mp he]
      rfl
    · refine ⟨fun ev hev => (by cases hev), fun d hd e he => ?_⟩
      cases hd
      rw [List.mem_singleton.mp he]
      rfl
  · refine ⟨fun ev hev => (by cases hev), fun d hd e he => ?_⟩
    cases hd
    unfold decodeReply at he
    simp only at he
    split at he
    · rw [List.mem_singleton.mp he]
      rfl
    · rw [List.mem_singleton.mp he]
      rfl

/-- A message has nothing written, a diagnostic, or its record. -/
theorem rpcMessage_written : Written (rpcMessage ind env w l).events := by
  have hheader := written_silent (headerEvents_unwritten l)
  have hfree := written_silent (freeReassembly_silent l)
  by_cases hd : l.Decodes
  · rw [rpcMessage_of_decodes ind env w l hd]
    obtain ⟨herr, hok⟩ := decode_silent w l (ind.print_it l.cnt)
    cases h : l.decode w (ind.print_it l.cnt) with
    | error ev => exact hheader.append (written_silent (herr ev h))
    | ok d =>
      obtain ⟨dl, -, hline⟩ := finishMessage_line env l.rpcHeader l.rpcHeader.rc.toUInt32 l.pastHeader d
      apply hheader.append
      rw [hline]
      refine (written_silent (hok d h)).append (Written.behind rfl ?_)
      split
      · exact written_entry (.record dl)
      · exact written_silent (by simp)
  · have hstray := rpcMessage_of_stray ind env w l hd
    generalize rpcMessage ind env w l = out at hstray ⊢
    cases hstray with
    | empty =>
      refine (hheader.append ?_).append hfree
      split
      · exact written_entry (.zero l.cnt)
      · exact written_silent (by simp)
    | unread => exact hheader.append hfree
    | null => exact hheader
    | bare => exact hheader

theorem loop_written (fuel : Nat) : Written (loop ind env fuel w l).events := by
  induction fuel generalizing w l with
  | zero => exact written_silent (by simp [loop])
  | succ fuel ih =>
    rw [loop]
    split
    · refine Written.andThen ?_ fun w l => ih w l
      unfold loopBody
      simp only
      split
      · exact (written_silent (tcpSegment_silent ind env w _)).andThen fun w l => rpcMessage_written ind env w l
      · exact rpcMessage_written ind env w _
    · exact written_silent (by simp)

theorem processPacket_written (h : Packet) (record : NfsPkt) : Written (processPacket ind w h record).events := by
  unfold processPacket
  split
  · exact written_silent (by simp)
  · next env l _ =>
    have hloop := loop_written ind env w l (h.caplen.toNat + 3)
    unfold finishPacket
    split
    · next l' _ => exact hloop.append (written_silent (freeReassembly_silent l'))
    · exact hloop
    · exact hloop
    · exact hloop

end Packet

theorem events_written (w : World) (ks : List Capture) : Written (eventsOf w ks) := by
  induction ks generalizing w with
  | nil => exact written_silent (by simp [eventsOf, processAll])
  | cons c ks ih =>
    have hpacket := processPacket_written c.ind w c.h c.record
    rw [eventsOf, processAll, List.flatMap_cons]
    apply hpacket.append
    split
    · exact written_silent (by simp)
    · exact ih _

/-! ## Rows -/

/-- The row that `Parser` reads a record in. -/
structure RecordRow (o : Opts) (r : NfsPkt) (row : Row) : Prop where
  length : OFFSET.PARAM_START ≤ row.length
  time : cell row OFFSET.TIME = stamp r.secs r.usecs
  src : cell row OFFSET.SRC = address o r.srcHost r.srcPort
  dst : cell row OFFSET.DST = address o r.dstHost r.dstPort
  dir : cell row OFFSET.DIRECTION = (if r.rpcCall = CALL then "C3" else "R3").toList
  xid : cell row OFFSET.XID = Piece.text (.x0 8 r.rpcXID)
  op : cell row OFFSET.OP = opName r.nfsProc

/-- The columns are read as they are printed. -/
theorem RecordRow.decoded {r : NfsPkt} {row : Row} (h : RecordRow o r row) : RecordRow o r (row.map Pathtree.decoded) where
  length := by
    rw [List.length_map]
    exact h.length
  time := by rw [cell_map_decoded, h.time, (printed_stamp _ _).decoded]
  src := by rw [cell_map_decoded, h.src, (printed_address o _ _).decoded]
  dst := by rw [cell_map_decoded, h.dst, (printed_address o _ _).decoded]
  dir := by rw [cell_map_decoded, h.dir, (printed_direction ⟨by decide, by decide⟩ ⟨by decide, by decide⟩ _).decoded]
  xid := by
    rw [cell_map_decoded, h.xid]
    exact printed_zeros.decoded
  op := by rw [cell_map_decoded, h.op, (printed_opName _).decoded]

theorem RecordRow.taken {r : NfsPkt} {row : Row} (h : RecordRow o r row) : ¬ PassedOver row := by
  rintro (hlen | ⟨hcall, hreply⟩)
  · exact Nat.not_lt.mpr h.length hlen
  · rw [h.dir] at hcall hreply
    split at hcall
    · exact hcall rfl
    · next hn =>
      rw [if_neg hn] at hreply
      exact hreply rfl

/-- The records that pathtree reads. -/
def taken (es : List Event) : List NfsPkt := (recordsOf es).filter fun r => r.nfsVersion = 3

theorem taken_append (es es' : List Event) : taken (es ++ es') = taken es ++ taken es' := by
  rw [taken, recordsOf, List.filterMap_append, List.filter_append]
  rfl

/-- What the events write is read as rows, in front of any others; of these rows `Parser` takes
    those of the version 3 records. -/
structure ReadAs (csv : List Char → List Row) (o : Opts) (b : Args) (lib : XdrLib) (count : UInt32) (es : List Event) (rows : List Row) :
    Prop where
  reads : ∀ rest, csv (text (out (writeEvents o b lib count es)) ++ rest) = rows ++ csv rest
  rows : List.Forall₂ (RecordRow o) (taken es) (rows.filter fun row => ¬ PassedOver row)

theorem ReadAs.append {rows rows' : List Row} (hval : (writeEvents o b lib count es).val ≠ none) (h : ReadAs csv o b lib count es rows)
    (h' : ReadAs csv o b lib count es' rows') : ReadAs csv o b lib count (es ++ es') (rows ++ rows') where
  reads rest := by rw [out_writeEvents_append hval, List.append_assoc, h.reads, h'.reads, List.append_assoc]
  rows := by
    rw [taken_append, List.filter_append]
    exact List.rel_append h.rows h'.rows

theorem text_line (d : DumpLine) (hval : (d.print o b lib count).val ≠ none) :
    text (out (writeEvents o b lib count d.events)) = text (out (d.print o b lib count)) ++ ['\n'] := by
  obtain ⟨v, hv⟩ := Option.ne_none_iff_exists'.mp hval
  rw [writeEvents_line, out_bind _ hv, text_append, out_fprintf]
  rfl

theorem record_row (d : DumpLine) (hversion : d.record.nfsVersion = 3)
    (hval : (d.print o b lib count).val ≠ none) : ∃ row, csvRow (text (out (d.print o b lib count))) = some row ∧
      RecordRow o d.record row := by
  obtain ⟨more, hrow⟩ := fields_begins (begins_v3 hversion hval)
  refine ⟨_, csvRow_fields hrow, RecordRow.decoded ⟨?_, rfl, rfl, rfl, rfl, rfl, rfl⟩⟩
  simp only [front, labels, List.length_append, List.length_cons, List.length_nil, OFFSET.PARAM_START]
  omega

theorem readAs_nil : ReadAs csv o b lib count [] [] := ⟨fun _ => rfl, .nil⟩

/-- The rows of a record's line, whatever its payload holds. -/
theorem readAs_record (hcsv : ReadsCsv csv) (d : DumpLine) (hval : (d.print o b lib count).val ≠ none) :
    ∃ rows, ReadAs csv o b lib count d.events rows := by
  have htaken : taken d.events = if d.record.nfsVersion = 3 then [d.record] else [] := by
    have hrecords : recordsOf d.events = [d.record] := rfl
    rw [taken, hrecords, List.filter_cons, List.filter_nil]
    simp
  by_cases hversion : d.record.nfsVersion = 3
  · obtain ⟨row, hfields, hrow⟩ := record_row d hversion hval
    refine ⟨[row], ⟨fun rest => ?_, ?_⟩⟩
    · rw [text_line d hval, List.append_assoc]
      exact hcsv.line _ _ _ hfields
    · rw [htaken, if_pos hversion, List.filter_cons_of_pos (by simp [hrow.taken]), List.filter_nil]
      exact .cons hrow .nil
  · obtain ⟨rows, hover, hreads⟩ := rows_of_other hcsv hversion hval
    refine ⟨rows, ⟨fun rest => ?_, ?_⟩⟩
    · rw [text_line d hval, List.append_assoc]
      exact hreads rest
    · rw [htaken, if_neg hversion, List.filter_eq_nil_iff.mpr fun row hrow => by simp [hover row hrow]]
      exact .nil

/-- The words of the diagnostic of a header without a length. -/
def zeroRow (cnt : UInt32) : Row := ["XX", "rh_len", "==", "0,", "cnt", "="].map String.toList ++ [decInt cnt.toInt32]

theorem text_zero (cnt : UInt32) : text (out (writeEvents o b lib count [.rhLenZero cnt])) =
    "XX rh_len == 0, cnt = ".toList ++ decInt cnt.toInt32 ++ ['\n'] := by
  simp [writeEvents, Event.write, Piece.text]

theorem fields_zero (cnt : UInt32) : fields ("XX rh_len == 0, cnt = ".toList ++ decInt cnt.toInt32) = some (zeroRow cnt) := by
  have hwords : Cells "XX rh_len == 0, cnt = ".toList (["XX", "rh_len", "==", "0,", "cnt", "="].map String.toList) := rfl
  rw [fields_cells hwords, fields_printed (printed_decInt _) (decInt_ne_nil _)]
  rfl

theorem csvRow_zero (cnt : UInt32) : csvRow ("XX rh_len == 0, cnt = ".toList ++ decInt cnt.toInt32) = some (zeroRow cnt) := by
  have hprinted : ∀ w ∈ zeroRow cnt, Printed w := by
    rw [zeroRow, List.forall_mem_append, List.forall_mem_singleton]
    have words : ∀ w ∈ ["XX", "rh_len", "==", "0,", "cnt", "="].map String.toList, bareText w = true ∧ Nonblank w := by decide
    exact ⟨fun w hw => ⟨(words w hw).1, (words w hw).2⟩, printed_decInt _⟩
  rw [csvRow_fields (fields_zero cnt), map_decoded hprinted]

theorem passedOver_zero (cnt : UInt32) : PassedOver (zeroRow cnt) := Or.inl (show 7 < 8 by omega)

theorem readAs_zero (hcsv : ReadsCsv csv) (cnt : UInt32) : ReadAs csv o b lib count [.rhLenZero cnt] [zeroRow cnt] where
  reads rest := by
    rw [text_zero, List.append_assoc]
    exact hcsv.line _ _ _ (csvRow_zero cnt)
  rows := by
    rw [List.filter_cons_of_neg (by simp [passedOver_zero]), List.filter_nil]
    exact .nil

theorem readAs_entry (hcsv : ReadsCsv csv) (x : LogEntry) (hval : (writeEvents o b lib count x.events).val ≠ none) :
    ∃ rows, ReadAs csv o b lib count x.events rows := by
  cases x with
  | record d =>
    refine readAs_record hcsv d fun hd => hval ?_
    show (writeEvents o b lib count d.events).val = none
    rw [writeEvents_line, Trace.bind_none _ hd]
  | zero cnt => exact ⟨_, readAs_zero hcsv cnt⟩

theorem readAs_entries (hcsv : ReadsCsv csv) (entries : List LogEntry)
    (hval : (writeEvents o b lib count (entries.flatMap LogEntry.events)).val ≠ none) :
    ∃ rows, ReadAs csv o b lib count (entries.flatMap LogEntry.events) rows := by
  induction entries with
  | nil => exact ⟨[], readAs_nil⟩
  | cons x entries ih =>
    rw [List.flatMap_cons, writeEvents_bind_val] at hval
    obtain ⟨v, hv⟩ := Option.ne_none_iff_exists'.mp hval
    obtain ⟨u, hu, hrest⟩ := Option.bind_eq_some_iff.mp hv
    have hx : (writeEvents o b lib count x.events).val ≠ none := by rw [hu]; exact Option.some_ne_none u
    obtain ⟨rows, hrows⟩ := readAs_entry hcsv x hx
    obtain ⟨rows', hrows'⟩ := ih (by rw [hrest]; exact Option.some_ne_none v)
    exact ⟨rows ++ rows', hrows.append hx hrows'⟩

theorem write_unwritten {e : Event} (he : writes e = false) : e.write o b lib count = pure () := by
  cases e <;> first | rfl | cases he

theorem writeEvents_writes (es : List Event) : writeEvents o b lib count (es.filter writes) = writeEvents o b lib count es := by
  induction es with
  | nil => rfl
  | cons e es ih =>
    by_cases he : writes e = true
    · rw [List.filter_cons_of_pos he, writeEvents, writeEvents, ih]
    · rw [List.filter_cons_of_neg he, ih, writeEvents, write_unwritten (Bool.not_eq_true _ ▸ he), pure_bind]

theorem taken_writes (es : List Event) : taken (es.filter writes) = taken es := by
  have hrecords : recordsOf (es.filter writes) = recordsOf es := by
    rw [recordsOf, recordsOf, List.filterMap_filter]
    refine List.filterMap_congr fun e _ => ?_
    cases e <;> rfl
  rw [taken, taken, hrecords]

/-- Of a run that followed no NULL. -/
theorem readAs_events (hcsv : ReadsCsv csv) {w : World} {ks : List Capture}
    (hrun : (writeEvents o b lib count (eventsOf w ks)).val ≠ none) : ∃ rows, ReadAs csv o b lib count (eventsOf w ks) rows := by
  obtain ⟨entries, hentries⟩ := events_written w ks
  rw [← writeEvents_writes, hentries] at hrun
  obtain ⟨rows, hreads, hrows⟩ := readAs_entries hcsv entries hrun
  refine ⟨rows, ⟨fun rest => ?_, ?_⟩⟩
  · rw [← writeEvents_writes, hentries]
    exact hreads rest
  · rw [← hentries, taken_writes] at hrows
    exact hrows

/-- The rows of a log are read as those of its events. -/
theorem readAs_log (hcsv : ReadsCsv csv) {w : World} {ks : List Capture} (hrun : (writeEvents o b lib count (eventsOf w ks)).val ≠ none) :
    ReadAs csv o b lib count (eventsOf w ks) (csv (logOf o b lib count w ks)) := by
  obtain ⟨rows, h⟩ := readAs_events hcsv hrun
  have hlog : csv (logOf o b lib count w ks) = rows := by
    have hall := h.reads []
    rw [List.append_nil, hcsv.done, List.append_nil] at hall
    exact hall
  rw [hlog]
  exact h

/-- One row for each version 3 record, in their order: a payload neither adds a row nor spoils one. -/
theorem log_rows (hcsv : ReadsCsv csv) (o : Opts) (b : Args) (lib : XdrLib) (count : UInt32) (w : World) (ks : List Capture)
    (hrun : (writeEvents o b lib count (eventsOf w ks)).val ≠ none) :
    List.Forall₂ (RecordRow o) ((recordsOf (eventsOf w ks)).filter fun r => r.nfsVersion = 3)
      ((csv (logOf o b lib count w ks)).filter fun row => ¬ PassedOver row) := (readAs_log hcsv hrun).rows

/-- A call and its reply a second later. -/
def oneExchange : List Capture := [handleCall 100 1, staleReply 101].map Sent.packet

theorem log_rows_one_exchange :
    List.Forall₂ (RecordRow ⟨true, false, false, fun _ => []⟩) ((recordsOf (eventsOf World.init oneExchange)).filter fun r =>
      r.nfsVersion = 3)
      ((readCsv [] (logOf ⟨true, false, false, fun _ => []⟩ args handleLib 0 World.init oneExchange)).filter fun row =>
        ¬ PassedOver row) :=
  log_rows readCsv_reads _ args handleLib 0 World.init oneExchange (by decide +kernel)

end Nfsdump.Driver
