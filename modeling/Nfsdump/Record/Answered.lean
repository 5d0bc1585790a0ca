/-
  Nfsdump.Record.Answered — which call a reply is decoded as, over runs of packets that
  carry one message each.

  A packet's message is put into the XID table, looked up in it, or leaves it alone
  (`Sent.step`). A call with a key stays the newest with it while no other message has the
  key and no cull comes to its bucket that finds an outdated call with the key there: the
  cull chooses its victim by key and would take the newest (`Finds.step`).

  Proved: `replies_decoded`, a reply within MAX_AGE gets its call's version and procedure,
  if something follows the call's header. A call without arguments is taken for a truncated
  one and never put into the table (`export_unknown`).
-/

import Nfsdump.Record.Transport
import Nfsdump.Record.XidLifo

namespace Nfsdump.Record

open ChainTable Wire

/-! ## Packets of one message -/

/-- A packet, and the message it carries. -/
structure Sent where
  conn : Conn
  m : List UInt8
  packet : Capture

namespace Sent

variable (s : Sent)

def word (x : UInt32) : UInt32 := (Ptr.ofBytes s.m).word x

def now : UInt32 := s.packet.h.tv_sec

/-- The XID, and the client of the call or of the reply. -/
def key : XidKey :=
  if s.word 4 = CALL then ⟨s.word 0, s.conn.srcHost, s.conn.srcPort.toUInt32⟩
  else ⟨s.word 0, s.conn.dstHost, s.conn.dstPort.toUInt32⟩

/-- `record->nfsProc` of a call. -/
def proc : UInt32 := if s.word 12 = MOUNT_PROGRAM then s.word 20 + MOUNT_PROC_BASE else s.word 20

/-- The entry a call makes. -/
def entry : HashT := ⟨s.key.xid, s.key.host, s.key.port, s.word 16, s.proc, s.now⟩

/-- What is to be done with the message. -/
def op : XidOp :=
  if s.word 4 = CALL then .insert s.now s.key.xid s.key.host s.key.port (s.word 16) s.proc
  else .lookup s.now s.key.xid s.key.host s.key.port

/-- The packet is a datagram or a segment with the one message, in memory that does not wrap;
    of a reply the five words are there that every reply has. -/
structure Whole : Prop where
  frame : (∃ e i, UdpFrame s.packet.h s.conn e i s.m) ∨
    ∃ last seq e i t, TcpFrame s.packet.h s.conn seq e i t (Rec.bytes ⟨last, s.m⟩)
  fits : s.packet.h.pp.Fits s.packet.h.caplen.toNat
  message : (s.word 4 = CALL ∧ headerLength s.m ≤ s.m.length) ∨ (s.word 4 = REPLY ∧ 20 ≤ s.m.length)

/-- Something follows the message's header. -/
def Followed : Prop := headerLength s.m < s.m.length

/-- A call that comes to `hashInsertXid`. -/
def Inserts : Prop := s.word 4 = CALL ∧ Taken s.m ∧ s.Followed

def result (w : World) : Result := processPacket s.packet.ind w s.packet.h s.packet.record

end Sent

variable {ind : Indet} {env : Env} {w : World} {l : Locals} {m : List UInt8} {h : Packet} {record : NfsPkt} {s : Sent}

/-! ## What a packet does to the table -/

theorem getRpcHeader_dir (p : Ptr) (n : UInt32) (euid egid : Int32) : (getRpcHeader p n euid egid).dir = p.word 4 := by
  unfold getRpcHeader
  simp only
  split_ifs <;> rfl

/-- The operation of a message that decodes. -/
def Locals.op (l : Locals) : XidOp :=
  if l.rpc_b.word 4 = CALL then
    .insert l.record.secs (l.rpc_b.word 0) l.record.srcHost l.record.srcPort (l.rpc_b.word 16)
      (if l.rpc_b.word 12 = MOUNT_PROGRAM then l.rpc_b.word 20 + MOUNT_PROC_BASE else l.rpc_b.word 20)
  else .lookup l.record.secs (l.rpc_b.word 0) l.record.dstHost l.record.dstPort

theorem runXid_one {t t' : XidTable} {op : XidOp} {freed : List (Node HashT)} (h : op.apply t = .ok (t', freed)) :
    runXid t [op] = .ok t' := by
  simp only [runXid, h]

theorem rpcMessage_xid (hd : l.Decodes) (hx : XidOk w) : runXid w.xid [l.op] = .ok (rpcMessage ind env w l).world.xid := by
  have hdir : l.rpcHeader.dir = l.rpc_b.word 4 := getRpcHeader_dir ..
  rw [rpcMessage_of_decodes ind env w l hd]
  cases he : l.decode w (ind.print_it l.cnt) with
  | error ev => exact absurd hx ((decode_spec w l _).1 ev he).2.2
  | ok d =>
    show runXid w.xid [l.op] = .ok d.world.xid
    unfold Locals.decode at he
    unfold Locals.op
    rw [hdir] at he
    by_cases hcall : l.rpc_b.word 4 = CALL
    · rw [if_pos hcall] at he ⊢
      unfold decodeCall at he
      simp only at he
      split at he
      · cases he
      · rename_i xid freed hi
        cases he
        exact runXid_one hi
    · rw [if_neg hcall] at he ⊢
      cases he
      refine (runXid_one rfl).trans (congrArg Except.ok ?_)
      unfold decodeReply
      simp only
      cases hashLookupXid w.xid l.record.secs (l.rpc_b.word 0) l.record.dstHost l.record.dstPort with
      | mk found t => cases found <;> rfl

/-- No fragment waits, and the XID table is a list of calls. -/
structure AtRest (w : World) : Prop where
  tcp : Lists TcpTable.scheme w.tcp []
  xid : XidOk w

theorem atRest_init : AtRest World.init := ⟨tcp_init, xidOk_init⟩

theorem Sent.Whole.call_length (hs : s.Whole) (hcall : s.word 4 = CALL) : 40 ≤ headerLength s.m ∧ headerLength s.m ≤ s.m.length := by
  refine ⟨headerLength_call hcall, ?_⟩
  rcases hs.message with ⟨_, h⟩ | ⟨h, _⟩
  · exact h
  · rw [hcall] at h
    exact absurd h (by decide)

theorem Sent.Whole.length (hs : s.Whole) : 20 ≤ s.m.length := by
  rcases hs.message with ⟨hcall, _⟩ | ⟨_, h⟩
  · have := hs.call_length hcall
    omega
  · exact h

theorem Sent.Whole.brings (hs : s.Whole) (hw : AtRest w) :
    ∃ l, Brings s.packet.ind w s.packet.h s.packet.record l s.m ∧ l.record = s.conn.fill s.packet.h s.packet.record := by
  rcases hs.frame with ⟨e, i, f⟩ | ⟨last, seq, e, i, t, f⟩
  · exact f.brings (List.ne_nil_of_length_pos (by have := hs.length; omega)) hs.fits s.packet.ind w s.packet.record
  · exact f.brings hs.fits (lookup_idle hw.tcp nofun seq) s.packet.ind s.packet.record

theorem Sent.Whole.atRest (hs : s.Whole) (hw : AtRest w) : AtRest (s.result w).world ∧ ∃ rc, (s.result w).exit = .returned rc := by
  rcases hs.frame with ⟨e, i, f⟩ | ⟨last, seq, e, i, t, f⟩
  · have hne : s.m ≠ [] := List.ne_nil_of_length_pos (by have := hs.length; omega)
    have hudp : ∀ env l, headers s.packet.h s.packet.record = .ok (env, l) → env.proto ≠ IPPROTO_TCP := by
      intro env l hh
      rw [headers_udp f hne] at hh
      cases hh
      exact show IPPROTO_UDP ≠ IPPROTO_TCP by decide
    obtain ⟨htcp, hxid, _, hexit⟩ := packet_other s.packet.ind hw.tcp hw.xid hudp
    exact ⟨⟨htcp, hxid⟩, hexit⟩
  · have hlen : (Rec.bytes ⟨last, s.m⟩).length = 4 + s.m.length := Rec.bytes_length _
    obtain ⟨env, l, hcar, hconn, hseq, _, _⟩ := f.carries (List.ne_nil_of_length_pos (by omega)) s.packet.record
    have a := hcar.atSegment
    have hr := a.fits
    have hkey : env.key = s.conn.key seq := by rw [← hconn, ← hseq]; rfl
    have hwhole : AtSegment env l (Rec.bytes ⟨last, s.m⟩).length (Rec.bytes ⟨last, s.m⟩ ++ []) := by
      rw [List.append_nil]
      exact a
    have hann : l.announced = UInt32.ofNat s.m.length := hwhole.announced
    have hp := packet_sole s.packet.ind hcar.parsed a (by omega) hw.tcp hw.xid
      (by rw [hkey]; exact lookup_idle hw.tcp nofun seq) (by rw [hann, toNat_ofNat_lt (by omega), hlen]; omega)
    exact ⟨⟨hp.tcp, hp.xid⟩, hp.exit⟩

/-- What the loop comes to is the packet's message. -/
theorem Sent.Whole.op_eq (hs : s.Whole) (a : Arrived l s.m) (hrec : l.record = s.conn.fill s.packet.h s.packet.record) :
    l.op = s.op := by
  have h20 := hs.length
  have w0 : l.rpc_b.word 0 = s.word 0 := a.word (by show 0 + 4 ≤ _; omega)
  have w4 : l.rpc_b.word 4 = s.word 4 := a.word (by show 4 + 4 ≤ _; omega)
  have secs : l.record.secs = s.now := by rw [hrec]; rfl
  unfold Locals.op Sent.op Sent.key Sent.proc
  rw [w0, w4, secs, hrec]
  by_cases hcall : s.word 4 = CALL
  · have h40 := hs.call_length hcall
    have w12 : l.rpc_b.word 12 = s.word 12 := a.word (by show 12 + 4 ≤ _; omega)
    have w16 : l.rpc_b.word 16 = s.word 16 := a.word (by show 16 + 4 ≤ _; omega)
    have w20 : l.rpc_b.word 20 = s.word 20 := a.word (by show 20 + 4 ≤ _; omega)
    rw [if_pos hcall, if_pos hcall, if_pos hcall, w12, w16, w20]
    rfl
  · rw [if_neg hcall, if_neg hcall, if_neg hcall]
    rfl

/-- A whole call decodes if it is taken and something follows its header. -/
theorem Sent.Whole.decodes_iff (hs : s.Whole) (a : Arrived l s.m) (hinside : headerLength s.m ≤ s.m.length) :
    l.Decodes ↔ Taken s.m ∧ s.Followed := by
  have hin := a.inside
  have hdir : s.word 4 = CALL ∨ s.word 4 = REPLY := hs.message.imp And.left And.left
  obtain ⟨hrc, _⟩ := getRpcHeader_inside a.holds (Locals.rpc_b_fits a.fits (by rw [a.tot_len]; omega))
    (by rw [a.left, toNat_ofNat_lt (by omega)]) ⟨hdir, hinside⟩
  have hpos : 0 < headerLength s.m := by unfold headerLength authSize; split <;> omega
  obtain ⟨hgt, hu⟩ := toInt32_pos hpos (by omega)
  unfold Locals.Decodes Locals.rpcHeader Sent.Followed
  rw [hrc]
  by_cases ht : Taken s.m
  · rw [if_pos ht, hu, UInt32.lt_iff_toNat_lt, a.tot_len, UInt32.toNat_add, toNat_ofNat_lt (by omega)]
    constructor
    · intro h
      exact ⟨ht, by omega⟩
    · intro h
      exact ⟨hgt, by omega⟩
  · rw [if_neg ht]
    exact ⟨fun h => absurd h.1 (by decide), fun h => absurd h.1 ht⟩

/-- A packet does its message's operation, or leaves the table as it is; a call does it if it
    comes to `hashInsertXid`. -/
theorem Sent.Whole.table (hs : s.Whole) (hw : AtRest w) :
    (runXid w.xid [s.op] = .ok (s.result w).world.xid ∧ (s.word 4 = CALL → s.Inserts)) ∨
      ((s.result w).world.xid = w.xid ∧ ¬ s.Inserts) := by
  obtain ⟨l, b, hrec⟩ := hs.brings hw
  obtain ⟨env, w', hw', hout⟩ := b.out
  have hxid : (s.result w).world.xid = (rpcMessage s.packet.ind env w' l).world.xid := congrArg Reading.xid hout
  have hx' : XidOk w' := by unfold XidOk; rw [hw']; exact hw.xid
  by_cases hd : l.Decodes
  · left
    rw [hxid, ← hw', ← hs.op_eq b.arrived hrec]
    refine ⟨rpcMessage_xid hd hx', fun hcall => ⟨hcall, ?_⟩⟩
    exact (hs.decodes_iff b.arrived (hs.call_length hcall).2).mp hd
  · right
    rw [hxid, (rpcMessage_stray s.packet.ind env w' l hd).2.1]
    exact ⟨hw', fun hin => hd ((hs.decodes_iff b.arrived (hs.call_length hin.1).2).mpr hin.2)⟩

/-! ## The call a reply finds -/

/-- The newest call with the key is `e`. -/
def Finds (t : XidTable) (k : XidKey) (e : HashT) : Prop :=
  ∃ L n, Lists XidTable.scheme t L ∧ L.find? (fun n => XidTable.scheme.key n.val = k) = some n ∧ n.val = e

/-- In the bucket to be culled no call with the key is outdated at `now`. -/
def Safe (k : XidKey) (now : UInt32) (t : XidTable) : Prop :=
  ∀ n ∈ t.chain t.cullIndex, XidTable.scheme.key n.val = k → outdated now n.val = false

variable {t t' : XidTable} {k : XidKey} {e : HashT} {now : UInt32}

/-- An insert that spares the key leaves its calls as they are behind the new one. -/
theorem insert_find {L : List (Node HashT)} (hL : Lists XidTable.scheme t L) (hage : 30 ≤ now.toNat) (hsafe : Safe k now t)
    (xid host port version proc : UInt32)
    (hrun : runXid t [.insert now xid host port version proc] = .ok t') :
    ∃ L', Lists XidTable.scheme t' L' ∧ L'.find? (fun n => XidTable.scheme.key n.val = k) =
      (newEntry t now xid host port version proc :: L).find? fun n => XidTable.scheme.key n.val = k := by
  obtain ⟨t₁, freed, hok, hL', _⟩ := insert_lists (staleCall now) hL ⟨xid, host, port, version, proc, now⟩
  have happly : (XidOp.insert now xid host port version proc).apply t = .ok (t₁, freed) := hok
  obtain rfl : t₁ = t' := Except.ok.inj ((runXid_one happly).symm.trans hrun)
  refine ⟨_, hL', sweep_find _ _ fun n hn hk => ?_⟩
  unfold due
  rw [staleCall_eq (UInt32.le_iff_toNat_le.mpr hage)]
  rcases List.mem_cons.mp hn with rfl | hn
  · -- the new call is of this second
    rw [show outdated now (⟨xid, host, port, version, proc, now⟩ : HashT) = false from
      decide_eq_false (show ¬ now.toNat + 30 < now.toNat by omega), Bool.and_false]
  · by_cases hb : XidTable.scheme.hash (XidTable.scheme.key n.val) = t.cullIndex
    · rw [hsafe n (hL.mem_chain.mpr ⟨hn, hb⟩) hk, Bool.and_false]
    · rw [decide_eq_false hb, Bool.false_and]

theorem finds_insert (ht : ∃ L, Lists XidTable.scheme t L) (hage : 30 ≤ now.toNat) {xid host port version proc : UInt32}
    (hsafe : Safe ⟨xid, host, port⟩ now t) (hrun : runXid t [.insert now xid host port version proc] = .ok t') :
    Finds t' ⟨xid, host, port⟩ ⟨xid, host, port, version, proc, now⟩ := by
  obtain ⟨L, hL⟩ := ht
  obtain ⟨L', hL', hfind⟩ := insert_find hL hage hsafe xid host port version proc hrun
  exact ⟨L', _, hL', hfind.trans (List.find?_cons_of_pos (by simp [newEntry, XidTable.scheme])), rfl⟩

/-- An operation on another key that spares this one. -/
theorem Finds.insert (hf : Finds t k e) (hage : 30 ≤ now.toNat) {xid host port version proc : UInt32}
    (hne : (⟨xid, host, port⟩ : XidKey) ≠ k) (hsafe : Safe k now t)
    (hrun : runXid t [.insert now xid host port version proc] = .ok t') : Finds t' k e := by
  obtain ⟨L, n, hL, hfind, hval⟩ := hf
  obtain ⟨L', hL', hfind'⟩ := insert_find hL hage hsafe xid host port version proc hrun
  have hnew : ¬ decide (XidTable.scheme.key (newEntry t now xid host port version proc).val = k) = true := fun h =>
    hne (of_decide_eq_true h)
  exact ⟨L', n, hL', (hfind'.trans (List.find?_cons_of_neg hnew)).trans hfind, hval⟩

theorem Finds.lookup (hf : Finds t k e) {xid host port : UInt32} (hne : (⟨xid, host, port⟩ : XidKey) ≠ k)
    (hrun : runXid t [.lookup now xid host port] = .ok t') : Finds t' k e := by
  obtain ⟨L, n, hL, hfind, hval⟩ := hf
  obtain ⟨_, hL', _⟩ := lookup_lists hL ⟨xid, host, port⟩
  obtain rfl : (hashLookupXid t now xid host port).2 = t' := Except.ok.inj ((runXid_one rfl).symm.trans hrun)
  refine ⟨_, n, hL', (find?_eraseP_other (fun m hm => ?_) L).trans hfind, hval⟩
  exact decide_eq_false fun h => hne (h.symm.trans (of_decide_eq_true hm))

/-! ## Runs -/

/-- A packet with another key leaves the call the newest with its own. -/
theorem Finds.step (hf : Finds w.xid k e) (hs : s.Whole) (hw : AtRest w) (hage : 30 ≤ s.now.toNat) (hne : s.key ≠ k)
    (hsafe : s.Inserts → Safe k s.now w.xid) : Finds (s.result w).world.xid k e := by
  rcases hs.table hw with ⟨hrun, hins⟩ | ⟨hsame, _⟩
  · unfold Sent.op at hrun
    by_cases hcall : s.word 4 = CALL
    · rw [if_pos hcall] at hrun
      exact hf.insert hage hne (hsafe (hins hcall)) hrun
    · rw [if_neg hcall] at hrun
      exact hf.lookup hne hrun
  · rwa [hsame]

theorem Sent.Whole.finds (hs : s.Whole) (hw : AtRest w) (hage : 30 ≤ s.now.toNat) (hins : s.Inserts)
    (hsafe : Safe s.key s.now w.xid) : Finds (s.result w).world.xid s.key s.entry := by
  rcases hs.table hw with ⟨hrun, _⟩ | ⟨_, hnot⟩
  · unfold Sent.op at hrun
    rw [if_pos hins.1] at hrun
    exact finds_insert hw.xid hage hsafe hrun
  · exact absurd hins hnot

/-- No insert along the packets comes to a bucket with an outdated call of the key. -/
def Spared (k : XidKey) : World → List Sent → Prop
  | _, [] => True
  | w, s :: ss => (s.Inserts → Safe k s.now w.xid) ∧ Spared k (s.result w).world ss

theorem atRest_run (ss : List Sent) (hs : ∀ s ∈ ss, s.Whole) : ∀ {w : World}, AtRest w → AtRest (after w (ss.map Sent.packet)) := by
  induction ss with
  | nil => exact fun hw => hw
  | cons s ss ih =>
    intro w hw
    exact ih (fun x hx => hs x (List.mem_cons_of_mem _ hx)) ((hs s List.mem_cons_self).atRest hw).1

theorem Finds.run (ss : List Sent) (hs : ∀ s ∈ ss, s.Whole) (hage : ∀ s ∈ ss, 30 ≤ s.now.toNat) (hne : ∀ s ∈ ss, s.key ≠ k) :
    ∀ {w : World}, AtRest w → Finds w.xid k e → Spared k w ss → Finds (after w (ss.map Sent.packet)).xid k e := by
  induction ss with
  | nil => exact fun _ hf _ => hf
  | cons s ss ih =>
    intro w hw hf hspared
    have hs' := hs s List.mem_cons_self
    exact ih (fun x hx => hs x (List.mem_cons_of_mem _ hx)) (fun x hx => hage x (List.mem_cons_of_mem _ hx))
      (fun x hx => hne x (List.mem_cons_of_mem _ hx)) (hs'.atRest hw).1
      (hf.step hs' hw (hage s List.mem_cons_self) (hne s List.mem_cons_self) hspared.1) hspared.2

theorem processAll_cons (hs : s.Whole) (hw : AtRest w) (ks : List Capture) :
    processAll w (s.packet :: ks) = s.result w :: processAll (s.result w).world ks := by
  obtain ⟨_, rc, hexit⟩ := hs.atRest hw
  have hgo : ¬ (processPacket s.packet.ind w s.packet.h s.packet.record).exit = .aborted := by
    rw [show (processPacket s.packet.ind w s.packet.h s.packet.record).exit = .returned rc from hexit]
    simp
  rw [processAll]
  simp only [if_neg hgo]
  rfl

/-- Each packet of a run is processed with the tables the ones in front of it leave. -/
theorem processAll_at (ss : List Sent) (hs : ∀ s ∈ ss, s.Whole) : ∀ {w : World}, AtRest w → ∀ (front : List Sent) (rest : List Sent),
    ss = front ++ s :: rest →
      (processAll w (ss.map Sent.packet))[front.length]? = some (s.result (after w (front.map Sent.packet))) := by
  induction ss with
  | nil => exact fun _ front _ h => absurd h (by simp)
  | cons x ss ih =>
    intro w hw front rest h
    have hx := hs x List.mem_cons_self
    rw [List.map_cons, processAll_cons hx hw]
    cases front with
    | nil =>
      obtain ⟨rfl, rfl⟩ := List.cons.inj h
      rfl
    | cons y front =>
      obtain ⟨rfl, rfl⟩ := List.cons.inj h
      exact ih (fun z hz => hs z (List.mem_cons_of_mem _ hz)) (hx.atRest hw).1 front rest rfl

/-! ## The reply -/

theorem decodeReply_found {rpc_b : Ptr} {n : Node HashT}
    (h : (hashLookupXid w.xid record.secs (rpc_b.word 0) record.dstHost record.dstPort).1 = some n) (acceptStatus status : UInt32)
    (print_it : Int32) :
    (decodeReply w record rpc_b acceptStatus status print_it).record.nfsVersion = n.val.nfsVersion ∧
      (decodeReply w record rpc_b acceptStatus status print_it).record.nfsProc = n.val.nfsProc ∧
      (decodeReply w record rpc_b acceptStatus status print_it).events =
        [.lookupXid record.secs ⟨rpc_b.word 0, record.dstHost, record.dstPort⟩ (some n.val)] := by
  unfold decodeReply
  simp only
  split
  · rename_i xid hl
    rw [hl] at h
    cases h
  · rename_i p xid hl
    rw [hl] at h
    obtain rfl := Option.some.inj h
    exact ⟨rfl, rfl, rfl⟩

/-- A reply takes the version and the procedure of the call it finds. -/
theorem Sent.Whole.reply (hs : s.Whole) (hw : AtRest w) (hreply : s.word 4 = REPLY) (hfollowed : s.Followed)
    (hf : Finds w.xid s.key e) :
    (s.result w).record.nfsVersion = e.nfsVersion ∧ (s.result w).record.nfsProc = e.nfsProc ∧
      Effect.lookupXid s.now s.key (some e) ∈ effects (s.result w).events := by
  obtain ⟨l, b, hrec⟩ := hs.brings hw
  obtain ⟨env, w', hw', hout⟩ := b.out
  have a := b.arrived
  have hncall : ¬ s.word 4 = CALL := by rw [hreply]; decide
  have htaken : Taken s.m := fun h => absurd h hncall
  have hd : l.Decodes := (hs.decodes_iff a (Nat.le_of_lt hfollowed)).mpr ⟨htaken, hfollowed⟩
  have h20 := hs.length
  have w0 : l.rpc_b.word 0 = s.word 0 := a.word (by show 0 + 4 ≤ _; omega)
  have w4 : l.rpc_b.word 4 = s.word 4 := a.word (by show 4 + 4 ≤ _; omega)
  have hdir : ¬ l.rpcHeader.dir = CALL := by
    rw [show l.rpcHeader.dir = l.rpc_b.word 4 from getRpcHeader_dir .., w4]
    exact hncall
  have hkey : s.key = ⟨s.word 0, s.conn.dstHost, s.conn.dstPort.toUInt32⟩ := if_neg hncall
  obtain ⟨L, n, hL, hfind, rfl⟩ := hf
  have hlookup : (lookup XidTable.scheme w'.xid s.key).1 = some n := by
    rw [hw', (lookup_lists hL s.key).1, hfind]
  have hkey' : (⟨l.rpc_b.word 0, l.record.dstHost, l.record.dstPort⟩ : XidKey) = s.key := by
    rw [w0, hrec, hkey]
    rfl
  have hfound : (hashLookupXid w'.xid l.record.secs (l.rpc_b.word 0) l.record.dstHost l.record.dstPort).1 = some n := by
    rw [← hkey'] at hlookup
    exact hlookup
  rw [rpcMessage_of_decodes s.packet.ind env w' l hd] at hout
  unfold Locals.decode at hout
  rw [if_neg hdir] at hout
  have hdecoded := decodeReply_found hfound (l.pp.word (l.consumed + l.rpcHeader.rc.toUInt32))
    (l.pp.word (l.e_len + l.i_len + l.h_len + l.rpcHeader.rc.toUInt32 + 4)) (s.packet.ind.print_it l.cnt)
  generalize decodeReply w' l.record l.rpc_b (l.pp.word (l.consumed + l.rpcHeader.rc.toUInt32))
    (l.pp.word (l.e_len + l.i_len + l.h_len + l.rpcHeader.rc.toUInt32 + 4)) (s.packet.ind.print_it l.cnt) = d at hout hdecoded
  obtain ⟨hversion, hproc, hevents⟩ := hdecoded
  have hrecord : (s.result w).record = d.record := congrArg Reading.record hout
  have heffects : effects (s.result w).events =
      effects (l.headerEvents ++ (finishMessage env l.rpcHeader l.rpcHeader.rc.toUInt32 l.pastHeader d).events) :=
    congrArg Reading.effects hout
  rw [hrecord]
  refine ⟨hversion, hproc, ?_⟩
  unfold finishMessage at heffects
  rw [heffects, effects_append, effects_append, hevents, hkey']
  refine List.mem_append_right _ (List.mem_append_left _ ?_)
  rw [show l.record.secs = s.now by rw [hrec]; rfl]
  exact List.mem_singleton.mpr rfl

/-- The record is labelled with the call's version and procedure, and not as unknown. -/
structure DecodedAs (r : Result) (call : Sent) : Prop where
  version : r.record.nfsVersion = call.word 16
  proc : r.record.nfsProc = call.proc
  known : r.record.nfsProc ≠ 0xffffffff

/-- A reply is decoded as the call it answers, if something follows the headers of both, no
    insert in between comes to a bucket with an outdated call of the same key, and the procedure
    is not the number that stands for an unknown one. -/
theorem replies_decoded {run before between rest : List Sent} {call reply : Sent}
    (hrun : run = before ++ call :: (between ++ reply :: rest)) (hwhole : ∀ s ∈ run, s.Whole) (hage : ∀ s ∈ run, 30 ≤ s.now.toNat)
    (hcall : call.word 4 = CALL) (htaken : Taken call.m) (hreply : reply.word 4 = REPLY) (hkey : reply.key = call.key)
    (halone : ∀ s ∈ between, s.key ≠ call.key) (hargs : call.Followed) (hstatus : reply.Followed) (hproc : call.proc ≠ 0xffffffff)
    (hspared : Spared call.key (after World.init (before.map Sent.packet)) (call :: between)) :
    ∃ r, (processAll World.init (run.map Sent.packet))[(before ++ call :: between).length]? = some r ∧ DecodedAs r call := by
  have hsplit : run = (before ++ call :: between) ++ reply :: rest := by rw [hrun, List.append_assoc, List.cons_append]
  have hmem : ∀ {s}, s ∈ before ++ (call :: (between ++ reply :: rest)) → s ∈ run := fun hs => by rw [hrun]; exact hs
  have inBefore : ∀ s ∈ before, s ∈ run := fun s hs => hmem (List.mem_append_left _ hs)
  have inBetween : ∀ s ∈ between, s ∈ run := fun s hs =>
    hmem (List.mem_append_right _ (List.mem_cons_of_mem _ (List.mem_append_left _ hs)))
  have inCall : call ∈ run := hmem (List.mem_append_right _ List.mem_cons_self)
  have inReply : reply ∈ run :=
    hmem (List.mem_append_right _ (List.mem_cons_of_mem _ (List.mem_append_right _ List.mem_cons_self)))
  have hins : call.Inserts := ⟨hcall, htaken, hargs⟩
  refine ⟨_, processAll_at run hwhole atRest_init _ rest hsplit, ?_⟩
  -- the tables in front of the call, behind it, and in front of the reply
  have hw := atRest_run before (fun s hs => hwhole s (inBefore s hs)) atRest_init
  have hw' := ((hwhole call inCall).atRest hw).1
  have hw'' := atRest_run between (fun s hs => hwhole s (inBetween s hs)) hw'
  have hfirst := (hwhole call inCall).finds hw (hage call inCall) hins (hspared.1 hins)
  have hfinds := hfirst.run between (fun s hs => hwhole s (inBetween s hs)) (fun s hs => hage s (inBetween s hs)) halone hw'
    hspared.2
  have hafter : after World.init ((before ++ call :: between).map Sent.packet) =
      after (call.result (after World.init (before.map Sent.packet))).world (between.map Sent.packet) := by
    unfold after
    rw [List.map_append, List.foldl_append, List.map_cons, List.foldl_cons]
    rfl
  rw [hafter]
  rw [← hkey] at hfinds
  obtain ⟨hversion, hprocs, _⟩ := (hwhole reply inReply).reply hw'' hreply hstatus hfinds
  exact ⟨hversion, hprocs, by rw [hprocs]; exact hproc⟩

/-- A message in a datagram. -/
def datagram (tv_sec : UInt32) (c : Conn) (m : List UInt8) : Sent := ⟨c, m, ⟨Indet.zero, udpPacket tv_sec c m, NfsPkt.zero⟩⟩

theorem datagram_whole (tv_sec : UInt32) (c : Conn) {m : List UInt8} (hlen : m.length < 65508)
    (hm : ((Ptr.ofBytes m).word 4 = CALL ∧ headerLength m ≤ m.length) ∨ ((Ptr.ofBytes m).word 4 = REPLY ∧ 20 ≤ m.length)) :
    (datagram tv_sec c m).Whole :=
  ⟨Or.inl ⟨14, 20, udpPacket_frame tv_sec c hlen⟩, packetOf_fits .., hm⟩

/-- A call and its reply a second later. -/
theorem replies_decoded_pair :
    ∃ r, (processAll World.init ([datagram 100 ⟨1, 2, 3, 4⟩ (callBytes 7 1 [0, 0, 0, 0]),
        datagram 101 ⟨3, 4, 1, 2⟩ (voidReply 7).body].map Sent.packet))[1]? = some r ∧
      DecodedAs r (datagram 100 ⟨1, 2, 3, 4⟩ (callBytes 7 1 [0, 0, 0, 0])) := by
  have hcall := datagram_whole 100 ⟨1, 2, 3, 4⟩ (m := callBytes 7 1 [0, 0, 0, 0]) (by decide) (by decide)
  have hreply := datagram_whole 101 ⟨3, 4, 1, 2⟩ (m := (voidReply 7).body) (by decide) (by decide)
  refine @replies_decoded _ [] [] [] _ _ rfl ?_ ?_ (by decide) (by decide) (by decide) (by decide)
    nofun (show _ < _ by decide) (show _ < _ by decide) (by decide) ⟨fun _ n hn => absurd hn List.not_mem_nil, trivial⟩
  · intro s hs
    rcases List.mem_cons.mp hs with rfl | hs
    · exact hcall
    · rw [List.mem_singleton.mp hs]
      exact hreply
  · intro s hs
    rcases List.mem_cons.mp hs with rfl | hs
    · decide
    · rw [List.mem_singleton.mp hs]
      decide

/-- A call of EXPORT, which has no arguments. -/
def exportBytes : List UInt8 :=
  be32 7 ++ be32 0 ++ be32 2 ++ be32 100005 ++ be32 3 ++ be32 5 ++ be32 1 ++ be32 20 ++ List.replicate 20 0 ++ be32 0 ++ be32 0

/-- The reply to it is recorded as one to an unknown call. -/
theorem export_unknown :
    ∃ call reply : Sent, (call.Whole ∧ reply.Whole) ∧ (call.word 4 = CALL ∧ Taken call.m ∧ call.proc = 105) ∧
      (reply.word 4 = REPLY ∧ reply.key = call.key ∧ reply.Followed) ∧ (call.now = 100 ∧ reply.now = 101) ∧
      ∀ r, (processAll World.init ([call, reply].map Sent.packet))[1]? = some r → r.record.nfsProc = 0xffffffff ∧ ¬ DecodedAs r call := by
  refine ⟨datagram 100 ⟨1, 2, 3, 4⟩ exportBytes, datagram 101 ⟨3, 4, 1, 2⟩ (voidReply 7).body,
    ⟨datagram_whole 100 _ (by decide) (by decide), datagram_whole 101 _ (by decide) (by decide)⟩, by decide,
    ⟨by decide, by decide, show _ < _ by decide⟩, ⟨rfl, rfl⟩, ?_⟩
  have hproc : ((processAll World.init ([datagram 100 ⟨1, 2, 3, 4⟩ exportBytes,
      datagram 101 ⟨3, 4, 1, 2⟩ (voidReply 7).body].map Sent.packet))[1]?.map fun r => r.record.nfsProc) = some 0xffffffff := by
    decide +kernel
  intro r hr
  rw [hr] at hproc
  have hunknown : r.record.nfsProc = 0xffffffff := Option.some.inj hproc
  exact ⟨hunknown, fun h => h.known hunknown⟩

end Nfsdump.Record
