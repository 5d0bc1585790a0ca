/-
  Nfsdump.Record.Transcript — the lines that datagrams of one message each are written as.

  Proved (`Datagram.line`): a datagram whose record is printed does its message's operation on
  the XID table and writes one record's line, labelled with the call's version and procedure, or
  with those of the call its reply finds.
-/

import Nfsdump.Record.Answered
import Nfsdump.Record.PrintRecord

namespace Nfsdump.Record

open ChainTable Wire Decode

/-- A datagram with one message. -/
structure Sent.Datagram (s : Sent) : Prop where
  whole : s.Whole
  frame : ∃ e i, UdpFrame s.packet.h s.conn e i s.m

def Event.IsRecord : Event → Bool
  | .printRecord .. => true
  | _ => false

/-- The record is printed. -/
def Sent.Printed (s : Sent) (w : World) : Prop := ∃ e ∈ (s.result w).events, e.IsRecord = true

/-- Version and procedure of a record for a message. -/
def Sent.label (s : Sent) (t : XidTable) : UInt32 × UInt32 :=
  if s.word 4 = CALL then (s.word 16, s.proc)
  else match (lookup XidTable.scheme t s.key).1 with
    | none => (3, 0xffffffff)
    | some n => (n.val.nfsVersion, n.val.nfsProc)

/-- The line `d` is that of the message. -/
structure Sent.Line (s : Sent) (w : World) (d : DumpLine) : Prop where
  writes : ∀ o b lib count, writeEvents o b lib count (s.result w).events =
    (d.print o b lib count >>= fun _ => fprintf [.lit "\n"])
  rpcCall : d.record.rpcCall = CALL ↔ s.word 4 = CALL
  rpcXID : d.record.rpcXID = s.word 0
  srcHost : d.record.srcHost = s.conn.srcHost
  srcPort : d.record.srcPort = s.conn.srcPort.toUInt32
  dstHost : d.record.dstHost = s.conn.dstHost
  dstPort : d.record.dstPort = s.conn.dstPort.toUInt32
  label : (d.record.nfsVersion, d.record.nfsProc) = s.label w.xid

variable {w : World} {l : Locals} {s : Sent} {o : Opts} {b : Args} {lib : XdrLib} {count : UInt32}

/-! ## Events that write nothing -/

theorem writeEvents_silent {es : List Event} (h : ∀ e ∈ es, e.write o b lib count = pure ()) :
    writeEvents o b lib count es = pure () := by
  induction es with
  | nil => rfl
  | cons e es ih =>
    rw [List.forall_mem_cons] at h
    rw [writeEvents, h.1, pure_bind]
    exact ih h.2

theorem headerEvents_silent (l : Locals) : ∀ e ∈ l.headerEvents, e.write o b lib count = pure () := by
  unfold Locals.headerEvents
  intro e he
  rcases List.mem_cons.mp he with rfl | he
  · rfl
  · obtain ⟨f, -, rfl⟩ := Option.map_eq_some_iff.mp (Option.mem_toList.mp he)
    rfl

theorem headerEvents_record (l : Locals) : ∀ e ∈ l.headerEvents, e.IsRecord = false := by
  unfold Locals.headerEvents
  intro e he
  rcases List.mem_cons.mp he with rfl | he
  · rfl
  · obtain ⟨f, -, rfl⟩ := Option.map_eq_some_iff.mp (Option.mem_toList.mp he)
    rfl

theorem stray_record {out : Out} (h : Stray w l out) (hfree : l.reassemblyBuffer = none) : ∀ e ∈ out.events, e.IsRecord = false := by
  have hev := headerEvents_record l
  have hbuf : freeReassembly l = [] := by rw [freeReassembly, hfree]; rfl
  cases h with
  | empty =>
    intro e he
    simp only [hbuf, List.append_nil, List.mem_append] at he
    rcases he with he | he
    · exact hev e he
    · split at he
      · rw [List.mem_singleton.mp he]; rfl
      · cases he
  | unread =>
    intro e he
    simp only [hbuf, List.append_nil] at he
    exact hev e he
  | null => exact hev
  | bare => exact hev

/-! ## The record -/

/-- Version and procedure of the record for the message at `rpc_b`. -/
def Locals.label (l : Locals) (t : XidTable) : UInt32 × UInt32 :=
  if l.rpc_b.word 4 = CALL then
    (l.rpc_b.word 16, if l.rpc_b.word 12 = MOUNT_PROGRAM then l.rpc_b.word 20 + MOUNT_PROC_BASE else l.rpc_b.word 20)
  else match (lookup XidTable.scheme t ⟨l.rpc_b.word 0, l.record.dstHost, l.record.dstPort⟩).1 with
    | none => (3, 0xffffffff)
    | some n => (n.val.nfsVersion, n.val.nfsProc)

theorem decode_record {d : Decoded} {print_it : Int32} (hok : l.decode w print_it = .ok d) :
    (∀ e ∈ d.events, e.IsRecord = false ∧ ∀ o b lib count, e.write o b lib count = pure ()) ∧
      ∃ status, d.record = { l.record with
        rpcCall := if l.rpc_b.word 4 = CALL then CALL else REPLY, rpcXID := l.rpc_b.word 0,
        nfsVersion := (l.label w.xid).1, nfsProc := (l.label w.xid).2, rpcStatus := status } := by
  have hdir : l.rpcHeader.dir = l.rpc_b.word 4 := getRpcHeader_dir ..
  unfold Locals.decode at hok
  unfold Locals.label
  rw [hdir] at hok
  by_cases hcall : l.rpc_b.word 4 = CALL
  · rw [if_pos hcall] at hok
    simp only [if_pos hcall]
    unfold decodeCall at hok
    simp only at hok
    split at hok
    · cases hok
    · cases hok
      refine ⟨fun e he => ?_, _, rfl⟩
      rw [List.mem_singleton.mp he]
      exact ⟨rfl, fun _ _ _ _ => rfl⟩
  · rw [if_neg hcall] at hok
    simp only [if_neg hcall]
    cases hok
    unfold decodeReply hashLookupXid
    simp only
    cases lookup XidTable.scheme w.xid ⟨l.rpc_b.word 0, l.record.dstHost, l.record.dstPort⟩ with
    | mk found t =>
      cases found with
      | none =>
        refine ⟨fun e he => ?_, _, rfl⟩
        rw [List.mem_singleton.mp he]
        exact ⟨rfl, fun _ _ _ _ => rfl⟩
      | some n =>
        refine ⟨fun e he => ?_, _, rfl⟩
        rw [List.mem_singleton.mp he]
        exact ⟨rfl, fun _ _ _ _ => rfl⟩

/-- The events that write a line. -/
def DumpLine.events (d : DumpLine) : List Event :=
  [.printRecord d.record d.xdr d.payload_len d.proto d.actual_len, .trailer d.ids d.con d.len d.longpkt]

theorem writeEvents_line (d : DumpLine) :
    writeEvents o b lib count d.events = (d.print o b lib count >>= fun _ => fprintf [.lit "\n"]) := by
  simp only [DumpLine.events, DumpLine.print, writeEvents, Event.write, bind_assoc, bind_pure_unit]

theorem finishMessage_line (env : Env) (rh : RpcHeader) (rh_len : UInt32) (l : Locals) (d : Decoded) : ∃ dl : DumpLine,
    dl.record = d.record ∧ (finishMessage env rh rh_len l d).events =
      d.events ++ .decision d.kind (d.print_it ≠ 0) :: if d.print_it ≠ 0 then dl.events else [] :=
  ⟨⟨d.record, _, _, _, _, _, _, _, _⟩, rfl, rfl⟩

theorem Sent.Whole.label_eq (hs : s.Whole) (a : Arrived l s.m) (hrec : l.record = s.conn.fill s.packet.h s.packet.record) (t : XidTable) :
    l.label t = s.label t := by
  have h20 := hs.length
  have w0 : l.rpc_b.word 0 = s.word 0 := a.word (by show 0 + 4 ≤ _; omega)
  have w4 : l.rpc_b.word 4 = s.word 4 := a.word (by show 4 + 4 ≤ _; omega)
  unfold Locals.label Sent.label Sent.key Sent.proc
  rw [w0, w4, hrec]
  by_cases hcall : s.word 4 = CALL
  · have h40 := hs.call_length hcall
    have w12 : l.rpc_b.word 12 = s.word 12 := a.word (by show 12 + 4 ≤ _; omega)
    have w16 : l.rpc_b.word 16 = s.word 16 := a.word (by show 16 + 4 ≤ _; omega)
    have w20 : l.rpc_b.word 20 = s.word 20 := a.word (by show 20 + 4 ≤ _; omega)
    rw [if_pos hcall, if_pos hcall, w12, w16, w20]
  · rw [if_neg hcall, if_neg hcall, if_neg hcall]
    rfl

/-- A printed datagram does its operation and writes its line. -/
theorem Sent.Datagram.line (hs : s.Datagram) (hw : AtRest w) (hp : s.Printed w) :
    runXid w.xid [s.op] = .ok (s.result w).world.xid ∧ ∃ d, s.Line w d := by
  obtain ⟨e, i, f⟩ := hs.frame
  have h20 := hs.whole.length
  obtain ⟨env, l, ⟨a, _, hrec, hfree⟩, hrun⟩ :=
    f.arrives (List.ne_nil_of_length_pos (by omega)) hs.whole.fits s.packet.record
  have hresult : s.result w = finishPacket s.packet.record ((rpcMessage s.packet.ind env w l).andThen
      (loop s.packet.ind env (s.packet.h.caplen.toNat + 2))) := hrun s.packet.ind w
  obtain ⟨out, hout, hev, hworld, _⟩ := loop_last s.packet.ind env w l (s.packet.h.caplen.toNat + 1) a.ends
  rw [hout] at hresult
  have hxid : (s.result w).world.xid = (rpcMessage s.packet.ind env w l).world.xid := by
    rw [hresult, ← hworld]
    exact congrArg Reading.xid (finishPacket_reading out s.packet.record)
  obtain ⟨freed, hevents, hsilent⟩ := finishPacket_events s.packet.record out
  rw [← hresult, hev] at hevents
  obtain ⟨x, hx, hx'⟩ := hp
  rw [hevents, List.mem_append] at hx
  have hin : x ∈ (rpcMessage s.packet.ind env w l).events := by
    refine hx.resolve_right fun hx => ?_
    obtain ⟨id, rfl⟩ := hsilent x hx
    cases hx'
  have hd : l.Decodes := by
    by_contra hd
    have hno := stray_record (rpcMessage_of_stray s.packet.ind env w l hd) hfree x hin
    rw [hno] at hx'
    cases hx'
  refine ⟨by rw [hxid, ← hs.whole.op_eq a hrec]; exact rpcMessage_xid hd hw.xid, ?_⟩
  rw [rpcMessage_of_decodes s.packet.ind env w l hd] at hin hevents
  cases hok : l.decode w (s.packet.ind.print_it l.cnt) with
  | error ev => exact absurd hw.xid ((decode_spec w l _).1 ev hok).2.2
  | ok d =>
    rw [hok] at hin hevents
    simp only at hin hevents
    obtain ⟨dl, hrecord, hline⟩ := finishMessage_line env l.rpcHeader l.rpcHeader.rc.toUInt32 l.pastHeader d
    rw [hline] at hin hevents
    obtain ⟨hdecoded, status, hfields⟩ := decode_record hok
    have hprint : d.print_it ≠ 0 := by
      intro hprint
      rw [if_neg (fun h => h hprint), List.mem_append, List.mem_append, List.mem_singleton] at hin
      rcases hin with hin | hin | rfl
      · rw [headerEvents_record l x hin] at hx'
        cases hx'
      · rw [(hdecoded x hin).1] at hx'
        cases hx'
      · cases hx'
    rw [if_pos hprint] at hevents
    rw [hs.whole.label_eq a hrec] at hfields
    have w0 : l.rpc_b.word 0 = s.word 0 := a.word (by show 0 + 4 ≤ _; omega)
    have w4 : l.rpc_b.word 4 = s.word 4 := a.word (by show 4 + 4 ≤ _; omega)
    rw [w0, w4, hrec] at hfields
    refine ⟨dl, fun o b lib count => ?_, ?_, ?_, ?_, ?_, ?_, ?_, ?_⟩
    · rw [hevents, List.append_assoc, writeEvents_append, writeEvents_silent (headerEvents_silent l), pure_bind, List.append_assoc,
        writeEvents_append, writeEvents_silent fun e he => (hdecoded e he).2 o b lib count, pure_bind, List.cons_append, writeEvents,
        writeEvents_append, writeEvents_line]
      have hfree : writeEvents o b lib count freed = pure () := writeEvents_silent fun e he => by
        obtain ⟨id, rfl⟩ := hsilent e he
        rfl
      rw [hfree]
      simp only [Event.write, pure_bind, bind_pure_unit]
    · rw [hrecord, hfields]
      by_cases hcall : s.word 4 = CALL
      · simp only [hcall, if_true]
      · simp only [hcall, if_false, iff_false]
        decide
    · rw [hrecord, hfields]
    · rw [hrecord, hfields]; rfl
    · rw [hrecord, hfields]; rfl
    · rw [hrecord, hfields]; rfl
    · rw [hrecord, hfields]; rfl
    · rw [hrecord, hfields]

end Nfsdump.Record
