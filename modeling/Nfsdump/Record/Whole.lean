/-
  Nfsdump.Record.Whole — what a packet does that ends with one whole message.

  A datagram, a segment that holds one record and the segment that completes a record bring
  the loop to its message in three different states. `Arrived` is what these have in common.
  Proved: what is read from a complete message then is a function of the message, of the XID
  table and of the packet's record (`readMessage`), and not of the state
  (`Arrived.reading`).
-/

import Nfsdump.Record.Batch

namespace Nfsdump.Record

open ChainTable Wire

/-! ## What is read from a message -/

/-- The operations on the XID table and the calls of `printRecord`, with the payload's bytes
    for its address. -/
inductive Effect where
  | insertXid (now : UInt32) (key : XidKey) (version proc : UInt32)
  | lookupXid (now : UInt32) (key : XidKey) (found : Option HashT)
  | printRecord (record : NfsPkt) (xdr : List UInt8) (payload_len actual_len : UInt32)
  deriving DecidableEq

def effects (es : List Event) : List Effect :=
  es.filterMap fun e => match e with
    | .insertXid now key version proc => some (.insertXid now key version proc)
    | .lookupXid now key found => some (.lookupXid now key found)
    | .printRecord record xdr payload_len _ actual_len => some (.printRecord record (xdr.bytes actual_len) payload_len actual_len)
    | _ => none

@[simp] theorem effects_nil : effects [] = [] := rfl
@[simp] theorem effects_append (xs ys : List Event) : effects (xs ++ ys) = effects xs ++ effects ys := List.filterMap_append

structure Reading where
  record : NfsPkt
  xid : XidTable
  effects : List Effect

def Out.reading (o : Out) (record : NfsPkt) : Reading := ⟨o.flow.record record, o.world.xid, effects o.events⟩

def Result.reading (r : Result) : Reading := ⟨r.record, r.world.xid, effects r.events⟩

/-- What a decoded message leads to, `n` bytes of which were header. -/
def Decoded.reading (d : Decoded) (m : List UInt8) (n : Nat) : Reading :=
  let n := n + d.statusBytes.toNat
  let payload_len := UInt32.ofNat (m.length - n)
  ⟨d.record, d.world.xid,
    effects d.events ++ if d.print_it ≠ 0 then [.printRecord d.record (m.drop n) payload_len payload_len] else []⟩

/-- What a complete message is read as, wherever it comes from. -/
def readMessage (xid : XidTable) (filled : NfsPkt) (m : List UInt8) (print_it : Int32) (record : NfsPkt) : Reading :=
  let w : World := ⟨xid, Table.empty, 0⟩
  let rpc_b := Ptr.ofBytes m
  let rh_len := UInt32.ofNat (headerLength m)
  if ¬ Taken m then ⟨filled, xid, []⟩
  else if rpc_b.word 4 = CALL then
    match decodeCall w filled rpc_b print_it with
    | .error ev => ⟨record, xid, effects ev⟩
    | .ok d => d.reading m (headerLength m)
  else (decodeReply w filled rpc_b (rpc_b.word rh_len) (rpc_b.word (rh_len + 4)) print_it).reading m (headerLength m)

/-! ## A message that has arrived -/

/-- The iteration has come to the message `m`, the last of its packet or its buffer. -/
structure Arrived (l : Locals) (m : List UInt8) : Prop where
  holds : l.rpc_b.Holds m
  rpc_len : l.rpc_len = UInt32.ofNat m.length
  stop : l.tot_len = l.consumed + UInt32.ofNat m.length
  inside : l.consumed.toNat + m.length < 2 ^ 31
  offset : l.consumed = l.e_len + l.i_len + l.h_len
  fits : l.pp.Fits l.tot_len.toNat

variable {ind : Indet} {env : Env} {w : World} {l : Locals} {m : List UInt8} {h : Packet} {record : NfsPkt}

theorem effects_header (bp : Ptr) (n k : UInt32) (o : Option UInt32) :
    effects (.rpcHeader bp n k :: (o.map Event.notAuthUnix).toList) = [] := by
  cases o <;> rfl

theorem effects_free (l : Locals) : effects (freeReassembly l) = [] := by
  unfold freeReassembly
  cases l.reassemblyBuffer <;> rfl

theorem toInt32_pos {n : Nat} (h0 : 0 < n) (h : n < 2 ^ 31) :
    0 < (UInt32.ofNat n).toInt32 ∧ (UInt32.ofNat n).toInt32.toUInt32 = UInt32.ofNat n := by
  refine ⟨?_, rfl⟩
  rw [Int32.lt_iff_toInt_lt, toInt_of_length h]
  exact Int.natCast_pos.mpr h0

theorem Arrived.tot_len (a : Arrived l m) : l.tot_len.toNat = l.consumed.toNat + m.length := by
  have hin := a.inside
  rw [a.stop, UInt32.toNat_add, toNat_ofNat_lt (by omega)]; omega

theorem Arrived.left (a : Arrived l m) : l.tot_len - l.consumed = UInt32.ofNat m.length := by
  rw [a.stop, add_sub_self]

/-- The header is the message's own. -/
theorem Arrived.header (a : Arrived l m) (hm : Complete m) :
    l.rpcHeader.rc = (if Taken m then (UInt32.ofNat (headerLength m)).toInt32 else -1) ∧
      l.rpcHeader.dir = (Ptr.ofBytes m).word 4 := by
  have hin := a.inside
  have hfit := Locals.rpc_b_fits a.fits (by rw [a.tot_len]; omega)
  refine getRpcHeader_complete a.holds hfit ?_ hm
  rw [a.left, toNat_ofNat_lt (by omega)]

theorem Arrived.word (a : Arrived l m) {x : UInt32} (hx : x.toNat + 4 ≤ m.length) :
    l.rpc_b.word x = (Ptr.ofBytes m).word x :=
  fixed_words a.holds (by have := a.inside; omega) (Nat.le_refl _) x hx

/-- The end of the iteration, `n` bytes into the message. -/
theorem Arrived.finish (a : Arrived l m) {n : Nat} {d : Decoded} (hn : n + d.statusBytes.toNat ≤ m.length) (rh : RpcHeader)
    (record : NfsPkt) (ev : List Event) (hev : effects ev = []) :
    ({ finishMessage env rh (UInt32.ofNat n) { l with consumed := l.consumed + UInt32.ofNat n } d with
      events := ev ++
        (finishMessage env rh (UInt32.ofNat n) { l with consumed := l.consumed + UInt32.ofNat n } d).events } : Out).reading record =
      d.reading m n := by
  have hin := a.inside
  have hstatus : UInt32.ofNat n + d.statusBytes = UInt32.ofNat (n + d.statusBytes.toNat) := by
    rw [UInt32.ofNat_add, UInt32.ofNat_toNat]
  have hcon : l.consumed + UInt32.ofNat n + d.statusBytes = l.consumed + UInt32.ofNat (n + d.statusBytes.toNat) := by
    rw [UInt32.add_assoc, hstatus]
  have hpay : l.rpc_len - (UInt32.ofNat n + d.statusBytes) = UInt32.ofNat (m.length - (n + d.statusBytes.toNat)) := by
    rw [a.rpc_len, hstatus, ofNat_sub_ofNat hn (by omega)]
  have hleft : l.tot_len - (l.consumed + UInt32.ofNat (n + d.statusBytes.toNat)) =
      UInt32.ofNat (m.length - (n + d.statusBytes.toNat)) := by
    rw [← ofNat_sub_ofNat hn (by omega), ← a.left]
    grind
  have hbytes : (l.pp.add (l.consumed + UInt32.ofNat (n + d.statusBytes.toNat))).bytes
      (UInt32.ofNat (m.length - (n + d.statusBytes.toNat))) = m.drop (n + d.statusBytes.toNat) := by
    rw [← Ptr.add_add]
    exact Ptr.bytes_of_holds (a.holds.drop hn) (by rw [toNat_ofNat_lt (by omega), List.length_drop])
  unfold finishMessage printEvents Out.reading Decoded.reading
  simp only [effects_append, hev, List.nil_append, hcon, hpay, hleft]
  congr 2
  split
  · rw [← hbytes]; rfl
  · rfl

/-- A call's fixed words and the table decide what is decoded. -/
theorem decodeCall_placed {b b' : Ptr} (hb : ∀ x : UInt32, x.toNat ≤ 20 → b.word x = b'.word x) {w' : World} (hw : w.xid = w'.xid)
    (filled : NfsPkt) (p : Int32) :
    (∃ ev, decodeCall w filled b p = .error ev ∧ decodeCall w' filled b' p = .error ev) ∨
      ∃ d d', decodeCall w filled b p = .ok d ∧ decodeCall w' filled b' p = .ok d' ∧ d.statusBytes = 0 ∧
        ∀ m n, d.reading m n = d'.reading m n := by
  unfold decodeCall
  simp only [hb 0 (by decide), hb 12 (by decide), hb 16 (by decide), hb 20 (by decide), hw]
  split
  · exact .inl ⟨_, rfl, rfl⟩
  · exact .inr ⟨_, _, rfl, rfl, rfl, fun _ _ => rfl⟩

/-- A reply's words and the table decide what is decoded. -/
theorem decodeReply_placed {b b' : Ptr} (hb : ∀ x : UInt32, x.toNat ≤ 8 → b.word x = b'.word x) {w' : World} (hw : w.xid = w'.xid)
    (filled : NfsPkt) (acceptStatus status : UInt32) (p : Int32) :
    (decodeReply w filled b acceptStatus status p).statusBytes = 8 ∧
      ∀ m n, (decodeReply w filled b acceptStatus status p).reading m n =
        (decodeReply w' filled b' acceptStatus status p).reading m n := by
  unfold decodeReply
  simp only [hb 0 (by decide), hb 8 (by decide), hw]
  split
  · exact ⟨rfl, fun _ _ => rfl⟩
  · exact ⟨rfl, fun _ _ => rfl⟩

/-- What is read from a message does not depend on where it is. -/
theorem Arrived.reading (a : Arrived l m) (hm : Complete m) (record : NfsPkt) :
    (rpcMessage ind env w l).reading record = readMessage w.xid l.record m (ind.print_it l.cnt) record := by
  obtain ⟨hrc, hdir⟩ := a.header hm
  have hin := a.inside
  have hlen := hm.length_lt
  have hev : effects l.headerEvents = [] := effects_header ..
  unfold readMessage
  by_cases ht : Taken m
  · rw [if_pos ht] at hrc
    have hpos : 0 < headerLength m := by unfold headerLength authSize; split <;> omega
    obtain ⟨hgt, hu⟩ := toInt32_pos hpos (by omega)
    rw [← hrc] at hgt hu
    have hd : l.Decodes := by
      refine ⟨hgt, ?_⟩
      rw [hu, UInt32.lt_iff_toNat_lt, a.tot_len, UInt32.toNat_add, toNat_ofNat_lt (by omega)]
      omega
    rw [rpcMessage_of_decodes ind env w l hd]
    unfold Locals.decode Locals.pastHeader
    simp only [hu, hdir, ht, not_true_eq_false, if_false]
    rcases hm with ⟨hcall, hm⟩ | ⟨hreply, hm⟩
    · have hwords : ∀ x : UInt32, x.toNat ≤ 20 → l.rpc_b.word x = (Ptr.ofBytes m).word x := fun x hx => by
        have h36 : 36 ≤ headerLength m := by unfold headerLength verfOffset authSize; rw [if_pos hcall]; omega
        exact a.word (by omega)
      rw [if_pos hcall, if_pos hcall]
      rcases decodeCall_placed hwords (show w.xid = (⟨w.xid, Table.empty, 0⟩ : World).xid from rfl) l.record (ind.print_it l.cnt) with
        ⟨ev, he, he'⟩ | ⟨d, d', hd, hd', hstatus, hread⟩
      · rw [he, he']
        show Reading.mk _ _ _ = _
        rw [effects_append, hev, List.nil_append]
        rfl
      · rw [hd, hd']
        show Out.reading _ _ = d'.reading m (headerLength m)
        rw [← hread]
        exact a.finish (by rw [hstatus]; exact Nat.le_of_lt hlen) _ _ _ hev
    · have hncall : ¬ (Ptr.ofBytes m).word 4 = CALL := by rw [hreply]; decide
      have h20 : 20 ≤ headerLength m := by unfold headerLength authSize; rw [if_neg hncall]; omega
      have hwords : ∀ x : UInt32, x.toNat ≤ 8 → l.rpc_b.word x = (Ptr.ofBytes m).word x := fun x hx => a.word (by omega)
      have haccept : l.pp.word (l.consumed + UInt32.ofNat (headerLength m)) =
          (Ptr.ofBytes m).word (UInt32.ofNat (headerLength m)) := by
        rw [← Ptr.word_add, ← a.word (by rw [toNat_ofNat_lt (by omega)]; omega)]
        rfl
      -- the status is addressed through the header lengths, the rest through `consumed`
      have hstat : l.pp.word (l.e_len + l.i_len + l.h_len + UInt32.ofNat (headerLength m) + 4) =
          (Ptr.ofBytes m).word (UInt32.ofNat (headerLength m) + 4) := by
        rw [← a.offset, UInt32.add_assoc, ← Ptr.word_add, show (4 : UInt32) = UInt32.ofNat 4 from rfl, ← UInt32.ofNat_add,
          ← a.word (by rw [toNat_ofNat_lt (by omega)]; omega)]
        rfl
      rw [if_neg hncall, if_neg hncall, haccept, hstat]
      obtain ⟨hstatus, hread⟩ := decodeReply_placed hwords (show w.xid = (⟨w.xid, Table.empty, 0⟩ : World).xid from rfl) l.record
        ((Ptr.ofBytes m).word (UInt32.ofNat (headerLength m))) ((Ptr.ofBytes m).word (UInt32.ofNat (headerLength m) + 4))
        (ind.print_it l.cnt)
      rw [← hread]
      exact a.finish (by rw [hstatus]; exact hm) _ _ _ hev
  · rw [if_neg ht] at hrc
    have h0 : ¬ l.rpcHeader.rc = 0 := by rw [hrc]; decide
    have hneg : l.rpcHeader.rc < 0 := by rw [hrc]; decide
    unfold rpcMessage
    simp only [h0, hneg, ht, if_false, if_true, not_false_eq_true]
    unfold Out.reading
    rw [effects_append, effects_header, effects_free]
    rfl

/-! ## Packets that bring a message -/

/-- The first thing the packet's loop comes to is the message `m`, which ends it. -/
structure Brings (ind : Indet) (w : World) (h : Packet) (record : NfsPkt) (l : Locals) (m : List UInt8) : Prop where
  arrived : Arrived l m
  cnt : l.cnt = 1
  run : ∃ env pre w' fuel, w'.xid = w.xid ∧ effects pre = [] ∧
    processPacket ind w h record = finishPacket record
      ((⟨pre, w', .next l⟩ : Out).andThen fun w l => (rpcMessage ind env w l).andThen (loop ind env (fuel + 1)))

theorem finishPacket_reading (o : Out) (record : NfsPkt) : (finishPacket record o).reading = o.reading record := by
  unfold finishPacket Out.reading
  cases hf : o.flow with
  | done l =>
    show Reading.mk _ _ _ = _
    rw [effects_append, effects_free, List.append_nil]; rfl
  | _ => rfl

theorem Arrived.ends (a : Arrived l m) : l.consumed + l.rpc_len = l.tot_len := by
  rw [a.rpc_len, a.stop]

theorem Brings.out (b : Brings ind w h record l m) : ∃ env w', w'.xid = w.xid ∧
    (processPacket ind w h record).reading = (rpcMessage ind env w' l).reading record := by
  obtain ⟨env, pre, w', fuel, hw, hpre, hrun⟩ := b.run
  obtain ⟨o, ho, hev, hworld, _, _, hrec⟩ := loop_last ind env w' l fuel b.arrived.ends
  refine ⟨env, w', hw, ?_⟩
  rw [hrun, finishPacket_reading, andThen_next rfl, ho]
  show Reading.mk (o.flow.record record) o.world.xid (effects (pre ++ o.events)) = _
  rw [effects_append, hpre, hev, hworld, hrec]
  rfl

/-- What such a packet does is a function of its message. -/
theorem Brings.reading (b : Brings ind w h record l m) (hm : Complete m) :
    (processPacket ind w h record).reading = readMessage w.xid l.record m (ind.print_it 1) record := by
  obtain ⟨env, w', hw, hout⟩ := b.out
  rw [hout, b.arrived.reading hm, hw, b.cnt]

variable {c : Conn} {e i t : Nat} {seq : UInt32}

/-- The loop's first iteration comes to a datagram's message, and the second finds nothing left. -/
theorem UdpFrame.arrives (f : UdpFrame h c e i m) (hne : m ≠ []) (hfit : h.pp.Fits h.caplen.toNat) (record : NfsPkt) :
    ∃ env l, (Arrived l m ∧ l.cnt = 1 ∧ l.record = c.fill h record ∧ l.reassemblyBuffer = none) ∧
      ∀ ind w, processPacket ind w h record =
        finishPacket record ((rpcMessage ind env w l).andThen (loop ind env (h.caplen.toNat + 2))) := by
  have hcap := Frame.captured f
  obtain ⟨he, hi, hp, hsum⟩ := Frame.small f (by omega)
  have hh := headers_udp f hne record
  have hlt : UInt32.ofNat (e + i + 8) < h.caplen := (headers_ok hh).unfinished
  have hstop : h.caplen = UInt32.ofNat (e + i + 8) + UInt32.ofNat m.length := by
    rw [eq_ofNat hcap, UInt32.ofNat_add]
  refine ⟨⟨IPPROTO_UDP, UInt32.ofNat (i + 8 + m.length), 0, c.srcHost, c.dstHost, c.srcPort.toUInt32, c.dstPort.toUInt32⟩,
    Locals.counted ⟨h.pp, h.caplen, UInt32.ofNat (e + i + 8), UInt32.ofNat e, UInt32.ofNat i, 8,
      UInt32.ofNat m.length, c.fill h record, none, 0⟩, ⟨⟨Frame.payload f, rfl, hstop, ?_, ?_, hfit⟩, rfl, rfl, rfl⟩, fun ind w => ?_⟩
  · show (UInt32.ofNat (e + i + 8)).toNat + m.length < 2 ^ 31
    rw [toNat_ofNat_lt (by omega)]; omega
  · show UInt32.ofNat (e + i + 8) = UInt32.ofNat e + UInt32.ofNat i + 8
    rw [UInt32.ofNat_add, UInt32.ofNat_add]; rfl
  · unfold processPacket
    rw [hh]
    simp only [loop, loopBody, hlt, if_true, show ¬ IPPROTO_UDP = IPPROTO_TCP by decide, if_false]
    rfl

/-- A datagram brings its message. -/
theorem UdpFrame.brings (f : UdpFrame h c e i m) (hne : m ≠ []) (hfit : h.pp.Fits h.caplen.toNat) (ind : Indet) (w : World)
    (record : NfsPkt) : ∃ l, Brings ind w h record l m ∧ l.record = c.fill h record := by
  obtain ⟨env, l, ⟨a, hcnt, hrec, _⟩, hrun⟩ := f.arrives hne hfit record
  refine ⟨l, ⟨a, hcnt, env, [], w, h.caplen.toNat + 1, rfl, rfl, ?_⟩, hrec⟩
  rw [hrun, andThen_next (o := ⟨[], w, .next l⟩) rfl, List.nil_append]

/-- A segment that nothing waits for brings its record's body, if it holds one record. -/
theorem TcpFrame.brings {r : Rec} (f : TcpFrame h c seq e i t r.bytes) (hfit : h.pp.Fits h.caplen.toNat) {w : World}
    (hn : (lookup TcpTable.scheme w.tcp (c.key seq)).1 = none) (ind : Indet) (record : NfsPkt) :
    ∃ l, Brings ind w h record l r.body ∧ l.record = c.fill h record := by
  have hne : r.bytes ≠ [] := List.ne_nil_of_length_pos (by rw [Rec.bytes_length]; omega)
  obtain ⟨env, l, hcar, hconn, hseq, hrec, _⟩ := f.carries hne record
  have a := hcar.atSegment
  have al := headers_ok hcar.parsed
  have hr := a.fits
  have hin := a.inside
  rw [Rec.bytes_length] at hr hin
  have h4 : 4 ≤ r.bytes.length := by rw [Rec.bytes_length]; omega
  have hann : l.counted.announced = UInt32.ofNat r.body.length :=
    AtSegment.announced (by rw [List.append_nil]; exact a.counted)
  have hkey : env.key = c.key seq := by rw [← hconn, ← hseq]; rfl
  have hseg := tcpSegment_sole ind (l := l.counted) (by rw [hkey]; exact hn) (by
    rw [a.counted.behindMark h4, hann, Rec.bytes_length, Nat.add_sub_cancel_left]; exact UInt32.le_refl _)
  have hcon : (l.consumed + 4).toNat = l.consumed.toNat + 4 := by
    rw [UInt32.toNat_add, show (4 : UInt32).toNat = 4 from rfl]; omega
  refine ⟨l.counted.afterMark, ⟨⟨?_, hann, ?_, ?_, ?_, ?_⟩, ?_, env, [.tcpLookup env.key none, .mark l.counted.consumed], w,
    h.caplen.toNat + 1, rfl, rfl, ?_⟩, hrec⟩
  · have := a.holds.drop h4
    rw [afterMark_rpc_b]
    exact this
  · show l.tot_len = l.consumed + 4 + UInt32.ofNat r.body.length
    rw [a.stop, Rec.bytes_length, UInt32.ofNat_add, UInt32.add_assoc]; rfl
  · show (l.consumed + 4).toNat + _ < _
    rw [hcon]; omega
  · show l.consumed + 4 = l.e_len + l.i_len + (l.h_len + 4)
    rw [al.consumed, UInt32.add_assoc]
  · show l.pp.Fits l.tot_len.toNat
    rw [al.pp, al.tot_len]; exact hfit
  · show l.cnt + 1 = 1
    rw [al.cnt]; rfl
  · unfold processPacket
    rw [hcar.parsed]
    simp only
    rw [loop_tcp ind (h.caplen.toNat + 2) a.proto (a.unfinished hne), hseg]

/-! ## Packets that bring none -/

theorem tcpSegment_xid : (tcpSegment ind env w l).world.xid = w.xid := by
  unfold tcpSegment
  simp only
  split
  · split
    · rfl
    split
    · rfl
    split
    · rfl
    · rfl
  · rename_i n tcp _
    generalize (if env.th_seq - n.val.firstSeq + (env.length - l.i_len - l.h_len) > n.val.rpc_len then n.val.rpc_len
      else env.th_seq - n.val.firstSeq + (env.length - l.i_len - l.h_len)) = last
    split
    · rfl
    split
    · rfl
    · rfl

/-- What is decoded is decoded with an operation on the XID table. -/
theorem decode_decoded (p : Int32) {d : Decoded} (hd : l.decode w p = .ok d) : decoded d.events ≠ [] := by
  unfold Locals.decode decodeCall decodeReply at hd
  simp only at hd
  split at hd
  · split at hd
    · cases hd
    · cases hd
      exact List.cons_ne_nil _ _
  · cases hd
    split
    · exact List.cons_ne_nil _ _
    · exact List.cons_ne_nil _ _

/-- An iteration that decodes nothing leaves the XID table as it is. -/
theorem rpcMessage_quiet (hq : decoded (rpcMessage ind env w l).events = []) : (rpcMessage ind env w l).world.xid = w.xid := by
  by_cases hd : l.Decodes
  · rw [rpcMessage_of_decodes ind env w l hd] at hq ⊢
    cases he : l.decode w (ind.print_it l.cnt) with
    | error ev => rfl
    | ok d =>
      rw [he] at hq
      unfold finishMessage at hq
      simp only [decoded_append, List.append_eq_nil_iff] at hq
      exact absurd hq.2.1 (decode_decoded _ he)
  · rw [(rpcMessage_stray ind env w l hd).2.1]

theorem andThen_quiet {o : Out} {k : World → Locals → Out} (ho : decoded o.events = [] → o.world.xid = w.xid)
    (hk : ∀ w l, decoded (k w l).events = [] → (k w l).world.xid = w.xid) (hq : decoded (o.andThen k).events = []) :
    (o.andThen k).world.xid = w.xid := by
  unfold Out.andThen at hq ⊢
  split
  · rename_i l hf
    rw [hf] at hq
    simp only [decoded_append, List.append_eq_nil_iff] at hq
    rw [← ho hq.1]
    exact hk _ _ hq.2
  · rename_i hf
    have hstop : o.andThen k = o := andThen_stop fun l hl => hf l hl
    unfold Out.andThen at hstop
    rw [hstop] at hq
    exact ho hq

theorem loop_quiet (fuel : Nat) : ∀ w l, decoded (loop ind env fuel w l).events = [] →
    (loop ind env fuel w l).world.xid = w.xid := by
  induction fuel with
  | zero => intro w l _; rfl
  | succ fuel ih =>
    intro w l hq
    unfold loop at hq ⊢
    split
    · rename_i hlt
      rw [if_pos hlt] at hq
      refine andThen_quiet (fun hb => ?_) ih hq
      unfold loopBody at hb ⊢
      split
      · rename_i hp
        rw [if_pos hp] at hb
        exact andThen_quiet (fun _ => tcpSegment_xid) (fun _ _ => rpcMessage_quiet) hb
      · rename_i hp
        rw [if_neg hp] at hb
        exact rpcMessage_quiet hb
    · rfl

/-- A packet in which nothing is decoded leaves the XID table as it is. -/
theorem processPacket_quiet (hq : decoded (processPacket ind w h record).events = []) :
    (processPacket ind w h record).world.xid = w.xid := by
  unfold processPacket at hq ⊢
  cases hh : headers h record with
  | error rc => rfl
  | ok el =>
    obtain ⟨env, l⟩ := el
    rw [hh] at hq
    have hfin : decoded (finishPacket record (loop ind env (h.caplen.toNat + 3) w l)).events = [] := hq
    show (finishPacket record (loop ind env (h.caplen.toNat + 3) w l)).world.xid = w.xid
    unfold finishPacket at hfin ⊢
    split
    · rename_i hf
      rw [hf] at hfin
      simp only [decoded_append, List.append_eq_nil_iff] at hfin
      exact loop_quiet _ w l hfin.1
    · rename_i hf
      rw [hf] at hfin
      exact loop_quiet _ w l hfin
    · rename_i hf
      rw [hf] at hfin
      exact loop_quiet _ w l hfin
    · rename_i hf
      rw [hf] at hfin
      exact loop_quiet _ w l hfin

end Nfsdump.Record
