/-
  Nfsdump.Record.Transport — one message by three ways: in a datagram, in a segment of its
  own, and in several segments that are put together again.

  `Waits` is the invariant of the third way: what was sent of the record is in a buffer under
  the connection's key. Proved: `transports_agree`, by each way `processPacket` reads the
  same from a complete message; and what it calls `printRecord` with is the same whatever
  `print_it` was.
-/

import Nfsdump.Record.Arrivals
import Nfsdump.Record.Whole

namespace Nfsdump.Record

open ChainTable Wire

variable {c : Conn} {m body got payload : List UInt8} {w : World} {seq : UInt32}

/-! ## The three ways -/

/-- The message in a datagram. -/
structure InDatagram (c : Conn) (m : List UInt8) (k : Capture) : Prop where
  frame : ∃ e i, UdpFrame k.h c e i m
  fits : k.h.pp.Fits k.h.caplen.toNat

/-- The message in a segment, with its mark and nothing else, that no fragment waits for. -/
structure InSegment (c : Conn) (m : List UInt8) (w : World) (k : Capture) : Prop where
  frame : ∃ last seq e i t, TcpFrame k.h c seq e i t (Rec.bytes ⟨last, m⟩) ∧ (lookup TcpTable.scheme w.tcp (c.key seq)).1 = none
  fits : k.h.pp.Fits k.h.caplen.toNat

/-- Each of the segments comes when a fragment waits for it. -/
def Continues (c : Conn) : World → UInt32 → List (List UInt8) → List Capture → Prop
  | w, seq, p :: ps, k :: ks =>
    (lookup TcpTable.scheme w.tcp (c.key seq)).1 ≠ none ∧
      Continues c (processPacket k.ind w k.h k.record).world (seq + UInt32.ofNat p.length) ps ks
  | _, _, _, _ => True

/-- The tables after the packets. -/
def after (w : World) (caps : List Capture) : World := caps.foldl (fun w k => (processPacket k.ind w k.h k.record).world) w

/-- The message in the segments of `first`, `caps` and, the last, `k`. -/
structure InSegments (c : Conn) (m : List UInt8) (w : World) (first : Capture) (caps : List Capture) (k : Capture) : Prop where
  cut : ∃ last seq p ps, Cut ⟨last, m⟩ (p :: ps) ∧ Carried c seq (p :: ps) (first :: (caps ++ [k])) ∧
    Continues c (processPacket first.ind w first.h first.record).world (seq + UInt32.ofNat p.length) ps (caps ++ [k])
  idle : ∃ L, Lists TcpTable.scheme w.tcp L ∧ ∀ n ∈ L, n.val.conn ≠ c
  xid : XidOk w
  malloc : ∀ n, (first.ind.malloc n).Fits m.length

/-! ## What was sent of a record waits -/

/-- `c`'s only fragment, if it is still there, has the first bytes of a record. -/
structure Waits (w : World) (c : Conn) (seq : UInt32) (body got : List UInt8) : Prop where
  tcp : ∃ L, Lists TcpTable.scheme w.tcp L ∧ (∀ a ∈ L, ∀ b ∈ L, a.val.conn = c → b.val.conn = c → a = b) ∧
    ∀ n ∈ L, n.val.conn = c → Pending n.val (c.key seq) body.length got ∧ n.val.buffer.ptr.Fits body.length
  xid : XidOk w

/-- The table after a fragment of `c` has come to fragments of other connections. -/
theorem waits_after {L : List (Node TcpFragment)} {f : TcpFragment} {t : TcpTable} {r : Result} {cs : List (UInt32 × UInt32 × UInt32)}
    (hr : Processed r [] cs (waiting t L f)) (hL : ∀ n ∈ L, n.val.conn ≠ c) (hp : Pending f (c.key seq) body.length got)
    (hfit : f.buffer.ptr.Fits body.length) : Waits r.world c seq body got := by
  have hmem : ∀ n ∈ waiting t L f, n.val.conn = c → n = ⟨t.next, f⟩ := fun n hn hc => by
    rcases List.mem_cons.mp ((sweep_sublist _ _ (⟨t.next, f⟩ :: L) []).subset hn) with rfl | hn
    · rfl
    · exact absurd hc (hL n hn)
  refine ⟨⟨_, hr.tcp, fun a ha b hb hac hbc => ?_, fun n hn hc => ?_⟩, hr.xid⟩
  · rw [hmem a ha hac, hmem b hb hbc]
  · rw [hmem n hn hc]
    exact ⟨hp, hfit⟩

/-- The fragment a segment finds. -/
theorem Waits.found (hw : Waits w c seq body got) (hfound : (lookup TcpTable.scheme w.tcp (c.key seq)).1 ≠ none) :
    ∃ L n, Lists TcpTable.scheme w.tcp L ∧ (lookup TcpTable.scheme w.tcp (c.key seq)).1 = some n ∧
      Pending n.val (c.key seq) body.length got ∧ n.val.buffer.ptr.Fits body.length ∧
      ∀ x ∈ others L (c.key seq), x.val.conn ≠ c := by
  obtain ⟨L, hL, hone, hall⟩ := hw.tcp
  obtain ⟨n, hn⟩ := Option.ne_none_iff_exists'.mp hfound
  have hfind := (lookup_lists hL (c.key seq)).1
  rw [hn] at hfind
  have hmem := List.mem_of_find?_eq_some hfind.symm
  have hconn : n.val.conn = c := conn_of_key (by simpa using List.find?_some hfind.symm)
  obtain ⟨hp, hfit⟩ := hall n hmem hconn
  refine ⟨L, n, hL, hn, hp, hfit, fun x hx hc => ?_⟩
  obtain ⟨hxL, hne⟩ := (mem_eraseP_newest hL.newest hfind.symm).mp hx
  exact hne (hone x hxL n hmem hc hconn)

variable {k : Capture} {e i t : Nat} {p : List UInt8}

/-- The first segment of a record that goes on. -/
theorem waits_first {r : Rec} {rest : List UInt8} {L : List (Node TcpFragment)} (hL : Lists TcpTable.scheme w.tcp L)
    (hno : ∀ n ∈ L, n.val.conn ≠ c) (hx : XidOk w) (f : TcpFrame k.h c seq e i t p) (hr : p ++ rest = r.bytes)
    (h4 : 4 ≤ p.length) (hrest : rest ≠ []) (hsmall : r.body.length ≤ 16384)
    (hmalloc : ∀ n, (k.ind.malloc n).Fits r.body.length) :
    Waits (processPacket k.ind w k.h k.record).world c (seq + UInt32.ofNat p.length) r.body (p.drop 4) ∧
      (processPacket k.ind w k.h k.record).world.xid = w.xid := by
  obtain ⟨env, l, hcar, hconn, hseq, _, _⟩ := f.carries (List.ne_nil_of_length_pos (by omega)) k.record
  have a := hcar.atSegment
  have hpos := List.length_pos_iff.mpr hrest
  have hlen := congrArg List.length hr
  rw [List.length_append, Rec.bytes_length] at hlen
  have hann := announced_front a.holds hr h4 (by omega)
  have hkey : env.key = c.key seq := by rw [← hconn, ← hseq]; rfl
  obtain ⟨f, hp, _, _, haddr, hproc⟩ := packet_first k.ind hcar.parsed a h4 hL hx (by rw [hkey]; exact lookup_idle hL hno seq)
    (by rw [hann]; omega) (by rw [hann]; exact hsmall)
  rw [hconn, hseq, hann] at hp
  exact ⟨waits_after hproc hno hp (.of_addr (hmalloc _) haddr), processPacket_quiet (hproc.quiet rfl)⟩

/-- A further segment that does not complete it. -/
theorem Waits.more (hw : Waits w c seq body got) (f : TcpFrame k.h c seq e i t p) (hne : p ≠ [])
    (hfound : (lookup TcpTable.scheme w.tcp (c.key seq)).1 ≠ none) (hlt : got.length + p.length < body.length) :
    Waits (processPacket k.ind w k.h k.record).world c (seq + UInt32.ofNat p.length) body (got ++ p) ∧
      (processPacket k.ind w k.h k.record).world.xid = w.xid := by
  obtain ⟨env, l, hcar, hconn, hseq, _, _⟩ := f.carries hne k.record
  have hkey : env.key = c.key seq := by rw [← hconn, ← hseq]; rfl
  obtain ⟨L, n, hL, hn, hp, hfit, hothers⟩ := hw.found hfound
  rw [← hkey] at hn hp hothers
  obtain ⟨f, hpf, _, _, haddr, hproc⟩ := packet_more k.ind hcar.parsed hcar.atSegment hne hL hw.xid hn hp hlt
  rw [hconn, hseq] at hpf
  exact ⟨waits_after hproc hothers hpf (hfit.of_addr haddr), processPacket_quiet (hproc.quiet rfl)⟩

/-- The segment that completes it brings the record's body. -/
theorem Waits.brings (hw : Waits w c seq body got) (f : TcpFrame k.h c seq e i t p) (hne : p ≠ [])
    (hfound : (lookup TcpTable.scheme w.tcp (c.key seq)).1 ≠ none) (hbody : got ++ p = body) :
    ∃ l, Brings k.ind w k.h k.record l body ∧ l.record = c.fill k.h k.record := by
  obtain ⟨env, l, hcar, hconn, hseq, hrec, _⟩ := f.carries hne k.record
  have a := hcar.atSegment
  have al := headers_ok hcar.parsed
  have hkey : env.key = c.key seq := by rw [← hconn, ← hseq]; rfl
  obtain ⟨L, n, hL, hn, hp, hfit, _⟩ := hw.found hfound
  rw [← hkey] at hn hp
  have hs := hp.short
  have hlen : got.length + p.length = body.length := by rw [← hbody, List.length_append]
  have hseg := tcpSegment_complete k.ind (l := l.counted) hn (by rw [hp.sum a.counted]; omega)
  have hheld := hp.filled_holds a.counted (Nat.le_of_eq hlen.symm)
  rw [← hp.missing, show body.length - got.length = p.length by omega, List.take_length, hbody] at hheld
  have hrpc : n.val.rpc_len.toNat = body.length := by rw [hp.rpc_len, toNat_ofNat_lt (by omega)]
  refine ⟨l.counted.assembled (env.filled l.counted n.val (n.val.rpc_len - env.offset n.val)) n.val.rpc_len,
    ⟨⟨?_, hp.rpc_len, ?_, ?_, rfl, ?_⟩, ?_, env,
      [.tcpLookup env.key (some n.val), .memcpy n.val.buffer.id (env.offset n.val) l.counted.consumed
        (n.val.rpc_len - env.offset n.val) n.val.buffer.size],
      { w with tcp := (lookup TcpTable.scheme w.tcp env.key).2 }, k.h.caplen.toNat + 1, rfl, rfl, ?_⟩, hrec⟩
  · show (Ptr.add _ 0).Holds body
    rw [Ptr.add_zero]
    exact hheld
  · show n.val.rpc_len = 0 + _
    rw [UInt32.zero_add]; exact hp.rpc_len
  · show 0 + _ < _
    omega
  · show Ptr.Fits _ n.val.rpc_len.toNat
    rw [hrpc]; exact hfit
  · show l.cnt + 1 = 1
    rw [al.cnt]; rfl
  · unfold processPacket
    rw [hcar.parsed]
    simp only
    rw [loop_tcp k.ind (k.h.caplen.toNat + 2) a.proto (a.unfinished hne), hseg]

/-! ## The segments together -/

theorem carried_rest {caps : List Capture} {ps : List (List UInt8)} (h : Carried c seq ps (caps ++ [k])) : ps.flatten ≠ [] := by
  cases ps with
  | nil =>
    cases caps with
    | nil => exact h.elim
    | cons _ _ => exact h.elim
  | cons q ps =>
    cases caps with
    | nil => exact fun hf => h.1 (List.append_eq_nil_iff.mp hf).1
    | cons _ _ => exact fun hf => h.1 (List.append_eq_nil_iff.mp hf).1

/-- The segments up to the last leave all of the record but the last segment's part. -/
theorem Waits.run (caps : List Capture) : ∀ {w : World} {seq : UInt32} {got : List UInt8} {ps : List (List UInt8)},
    Waits w c seq body got → got ++ ps.flatten = body → Carried c seq ps (caps ++ [k]) → Continues c w seq ps (caps ++ [k]) →
    ∃ seq' got' q, Waits (after w caps) c seq' body got' ∧ (after w caps).xid = w.xid ∧ got' ++ q = body ∧ q ≠ [] ∧
      (∃ e i t, TcpFrame k.h c seq' e i t q) ∧ (lookup TcpTable.scheme (after w caps).tcp (c.key seq')).1 ≠ none := by
  induction caps with
  | nil =>
    intro w seq got ps hw hbody hcar hcont
    cases ps with
    | nil => exact hcar.elim
    | cons q ps =>
      obtain ⟨hne, hf, _, hend⟩ := hcar
      cases ps with
      | nil =>
        rw [List.flatten_cons, List.flatten_nil, List.append_nil] at hbody
        exact ⟨seq, got, q, hw, rfl, hbody, hne, hf, hcont.1⟩
      | cons _ _ => exact hend.elim
  | cons a caps ih =>
    intro w seq got ps hw hbody hcar hcont
    cases ps with
    | nil => exact hcar.elim
    | cons p ps =>
      obtain ⟨hne, ⟨e, i, t, hf⟩, _, hcar⟩ := hcar
      obtain ⟨hfound, hcont⟩ := hcont
      have hrest : ps.flatten ≠ [] := carried_rest hcar
      have hpos := List.length_pos_iff.mpr hrest
      have hlen := congrArg List.length hbody
      rw [List.flatten_cons, List.length_append, List.length_append] at hlen
      obtain ⟨hw', hxid⟩ := hw.more hf hne hfound (by omega)
      obtain ⟨seq', got', q, h1, h2, h3⟩ := ih hw' (by rw [← hbody, List.flatten_cons, List.append_assoc]) hcar hcont
      exact ⟨seq', got', q, h1, h2.trans hxid, h3⟩

/-- The last of its segments brings the message. -/
theorem InSegments.brings {first : Capture} {caps : List Capture} (h : InSegments c m w first caps k) (hsize : m.length ≤ 16384) :
    ∃ l, Brings k.ind (after w (first :: caps)) k.h k.record l m ∧ l.record = c.fill k.h k.record ∧
      (after w (first :: caps)).xid = w.xid := by
  obtain ⟨last, seq, p, ps, hcut, hcar, hcont⟩ := h.cut
  obtain ⟨L, hL, hno⟩ := h.idle
  obtain ⟨_, ⟨e, i, t, hf⟩, _, hcar⟩ := hcar
  have hrest := carried_rest hcar
  have hwhole : p ++ ps.flatten = Rec.bytes ⟨last, m⟩ := hcut.whole
  have h4 := hcut.mark p rfl
  obtain ⟨hw, hxid⟩ := waits_first hL hno h.xid hf hwhole h4 hrest hsize h.malloc
  obtain ⟨seq', got, q, hw', hxid', hbody, hne, ⟨e', i', t', hf'⟩, hfound⟩ :=
    hw.run caps (Rec.front hwhole h4).2.symm hcar hcont
  obtain ⟨l, hl, hrec⟩ := hw'.brings hf' hne hfound hbody
  exact ⟨l, hl, hrec, hxid'.trans hxid⟩

/-! ## They agree -/

def Reading.table (r : Reading) : List Effect :=
  r.effects.filter fun e => match e with
    | .insertXid .. | .lookupXid .. => true
    | .printRecord .. => false

def Reading.calls (r : Reading) : List Effect :=
  r.effects.filter fun e => match e with
    | .insertXid .. | .lookupXid .. => false
    | .printRecord .. => true

/-- The same record, operations and table, and the same arguments for `printRecord`. -/
structure Reading.Agrees (a b : Reading) : Prop where
  record : a.record = b.record
  xid : a.xid = b.xid
  table : a.table = b.table
  calls : ∀ x ∈ a.calls, ∀ y ∈ b.calls, x = y

theorem Reading.Agrees.refl (a : Reading) (h : ∀ x ∈ a.calls, ∀ y ∈ a.calls, x = y) : a.Agrees a := ⟨rfl, rfl, rfl, h⟩

/-- Whether it is printed apart, `print_it` changes nothing. -/
theorem Decoded.agrees (d : Decoded) (q : Int32) (n : Nat)
    (hops : ∀ x ∈ effects d.events, ∀ r xdr a b, x ≠ .printRecord r xdr a b) :
    (d.reading m n).Agrees ({ d with print_it := q }.reading m n) := by
  have htable : ∀ d : Decoded, (d.reading m n).table = (effects d.events).filter fun e => match e with
      | .insertXid .. | .lookupXid .. => true
      | .printRecord .. => false := fun d => by
    unfold Reading.table Decoded.reading
    rw [List.filter_append]
    split <;> simp
  have hcalls : ∀ p, ∀ x ∈ ({ d with print_it := p }.reading m n).calls, x = .printRecord d.record
      (m.drop (n + d.statusBytes.toNat)) (UInt32.ofNat (m.length - (n + d.statusBytes.toNat)))
      (UInt32.ofNat (m.length - (n + d.statusBytes.toNat))) := by
    intro p x hx
    unfold Reading.calls Decoded.reading at hx
    obtain ⟨hx, hcall⟩ := List.mem_filter.mp hx
    rcases List.mem_append.mp hx with hx | hx
    · cases x with
      | printRecord r xdr a b => exact absurd rfl (hops _ hx r xdr a b)
      | _ => cases hcall
    · split at hx
      · exact List.mem_singleton.mp hx
      · cases hx
  refine ⟨rfl, rfl, ?_, fun x hx y hy => ?_⟩
  · rw [htable, htable]
  · rw [hcalls d.print_it x hx, hcalls q y hy]

theorem decodeCall_agrees (w : World) (filled : NfsPkt) (rpc_b : Ptr) (p q : Int32) :
    (∃ ev, decodeCall w filled rpc_b p = .error ev ∧ decodeCall w filled rpc_b q = .error ev ∧
      ∀ record xid, (Reading.mk record xid (effects ev)).calls = []) ∨
    ∃ d d', decodeCall w filled rpc_b p = .ok d ∧ decodeCall w filled rpc_b q = .ok d' ∧
      ∀ (m : List UInt8) n, (d.reading m n).Agrees (d'.reading m n) := by
  unfold decodeCall
  simp only
  split
  · exact .inl ⟨_, rfl, rfl, fun _ _ => rfl⟩
  · exact .inr ⟨_, _, rfl, rfl, fun _ n => Decoded.agrees _ q n (by simp [effects])⟩

theorem readMessage_agrees (xid : XidTable) (filled : NfsPkt) (m : List UInt8) (p q : Int32) (record : NfsPkt) :
    (readMessage xid filled m p record).Agrees (readMessage xid filled m q record) := by
  unfold readMessage
  simp only
  split
  · exact .refl _ nofun
  split
  · rcases decodeCall_agrees ⟨xid, Table.empty, 0⟩ filled (Ptr.ofBytes m) p q with ⟨ev, hp, hq, hcalls⟩ | ⟨d, d', hp, hq, h⟩
    · rw [hp, hq]
      exact .refl _ (by rw [hcalls]; nofun)
    · rw [hp, hq]
      exact h m _
  · unfold decodeReply
    simp only
    split
    · exact Decoded.agrees _ 1 _ (by simp [effects])
    · exact Decoded.agrees _ _ _ (by simp [effects])

/-- What `processPacket` reads from a complete message does not depend on the way it came,
    nor, when `print_it` starts with the same value, whether it prints it. -/
theorem transports_agree {m : List UInt8} (hm : Complete m) (hsize : m.length ≤ 16384) (c : Conn) {wu ws w : World}
    {u s first k : Capture} {caps : List Capture} (hu : InDatagram c m u) (hs : InSegment c m ws s)
    (hk : InSegments c m w first caps k) (hxid : wu.xid = ws.xid ∧ ws.xid = w.xid)
    (htime : (u.h.tv_sec = s.h.tv_sec ∧ s.h.tv_sec = k.h.tv_sec) ∧ u.h.tv_usec = s.h.tv_usec ∧ s.h.tv_usec = k.h.tv_usec)
    (hrecord : u.record = s.record ∧ s.record = k.record) :
    let byDatagram := (processPacket u.ind wu u.h u.record).reading
    let bySegment := (processPacket s.ind ws s.h s.record).reading
    let bySegments := (processPacket k.ind (after w (first :: caps)) k.h k.record).reading
    (byDatagram.Agrees bySegment ∧ (u.ind.print_it 1 = s.ind.print_it 1 → byDatagram = bySegment)) ∧
      bySegment.Agrees bySegments ∧ (s.ind.print_it 1 = k.ind.print_it 1 → bySegment = bySegments) := by
  intro byDatagram bySegment bySegments
  have hne : m ≠ [] := List.ne_nil_of_length_pos (Nat.lt_of_le_of_lt (Nat.zero_le _) hm.length_lt)
  obtain ⟨e, i, hfu⟩ := hu.frame
  obtain ⟨lu, bu, ru⟩ := hfu.brings hne hu.fits u.ind wu u.record
  obtain ⟨last, seq, e', i', t', hfs, hn⟩ := hs.frame
  obtain ⟨ls, bs, rs⟩ := hfs.brings hs.fits hn s.ind s.record
  obtain ⟨lk, bk, rk, hxk⟩ := hk.brings hsize
  have fillu : c.fill u.h u.record = c.fill k.h k.record := by
    unfold Conn.fill
    rw [htime.1.1, htime.1.2, htime.2.1, htime.2.2, hrecord.1, hrecord.2]
  have fills : c.fill s.h s.record = c.fill k.h k.record := by
    unfold Conn.fill
    rw [htime.1.2, htime.2.2, hrecord.2]
  have eu : byDatagram = readMessage w.xid (c.fill k.h k.record) m (u.ind.print_it 1) k.record := by
    rw [show byDatagram = _ from bu.reading hm, ru, fillu, hxid.1, hxid.2, hrecord.1, hrecord.2]
  have es : bySegment = readMessage w.xid (c.fill k.h k.record) m (s.ind.print_it 1) k.record := by
    rw [show bySegment = _ from bs.reading hm, rs, fills, hxid.2, hrecord.2]
  have ek : bySegments = readMessage w.xid (c.fill k.h k.record) m (k.ind.print_it 1) k.record := by
    rw [show bySegments = _ from bk.reading hm, rk, hxk]
  refine ⟨⟨?_, fun hp => ?_⟩, ?_, fun hp => ?_⟩
  · rw [eu, es]; exact readMessage_agrees ..
  · rw [eu, es, hp]
  · rw [es, ek]; exact readMessage_agrees ..
  · rw [es, ek, hp]

/-- A reply in a datagram, in a segment, and in two. -/
theorem transports_agree_reply :
    (processPacket Indet.zero World.init (udpPacket 100 ⟨1, 2, 3, 4⟩ (voidReply 7).body) NfsPkt.zero).reading =
        (processPacket Indet.zero World.init (tcpPacket 100 ⟨1, 2, 3, 4⟩ 0 (voidReply 7).bytes) NfsPkt.zero).reading ∧
      (processPacket Indet.zero World.init (tcpPacket 100 ⟨1, 2, 3, 4⟩ 0 (voidReply 7).bytes) NfsPkt.zero).reading =
        (processPacket Indet.zero
          (processPacket Indet.zero World.init (tcpPacket 100 ⟨1, 2, 3, 4⟩ 0 ((voidReply 7).bytes.take 10)) NfsPkt.zero).world
          (tcpPacket 100 ⟨1, 2, 3, 4⟩ 10 ((voidReply 7).bytes.drop 10)) NfsPkt.zero).reading := by
  have hu : InDatagram ⟨1, 2, 3, 4⟩ (voidReply 7).body
      ⟨Indet.zero, udpPacket 100 ⟨1, 2, 3, 4⟩ (voidReply 7).body, NfsPkt.zero⟩ :=
    ⟨⟨14, 20, udpPacket_frame 100 _ (by decide)⟩, packetOf_fits ..⟩
  have hs : InSegment ⟨1, 2, 3, 4⟩ (voidReply 7).body World.init
      ⟨Indet.zero, tcpPacket 100 ⟨1, 2, 3, 4⟩ 0 (voidReply 7).bytes, NfsPkt.zero⟩ :=
    ⟨⟨true, 0, 14, 20, 20, tcpPacket_frame 100 _ 0 (by decide), lookup_idle tcp_init nofun 0⟩, packetOf_fits ..⟩
  have hk : InSegments ⟨1, 2, 3, 4⟩ (voidReply 7).body World.init
      ⟨Indet.zero, tcpPacket 100 ⟨1, 2, 3, 4⟩ 0 ((voidReply 7).bytes.take 10), NfsPkt.zero⟩ []
      ⟨Indet.zero, tcpPacket 100 ⟨1, 2, 3, 4⟩ 10 ((voidReply 7).bytes.drop 10), NfsPkt.zero⟩ := by
    refine ⟨⟨true, 0, (voidReply 7).bytes.take 10, [(voidReply 7).bytes.drop 10], ⟨by decide, by decide, by decide⟩,
      captures_carried 100 _ [(voidReply 7).bytes.take 10, (voidReply 7).bytes.drop 10] (by decide) 0, ?_, trivial⟩,
      ⟨[], tcp_init, nofun⟩, xidOk_init, fun _ => show (0 : UInt32).toNat + 28 < 2 ^ 32 by decide⟩
    decide +kernel
  have h := transports_agree (by decide) (by decide) ⟨1, 2, 3, 4⟩ hu hs hk ⟨rfl, rfl⟩ ⟨⟨rfl, rfl⟩, rfl, rfl⟩ ⟨rfl, rfl⟩
  exact ⟨h.1.2 rfl, h.2.2 rfl⟩

end Nfsdump.Record
