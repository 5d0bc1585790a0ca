/-
  Nfsdump.Record.Pending — a partly received record, and how a packet moves it on.

  `Pending f k len got`: fragment `f` waits for the segment with key `k`; its record is
  `len` bytes long and `got`, the first of them, are in its buffer. The five things a
  segment can do are stated with it, for a segment that holds bytes of one record only.
-/

import Nfsdump.Record.Segment

namespace Nfsdump.Record

open ChainTable Wire

/-- The key a fragment of `c` has that waits for sequence number `seq`. -/
def Conn.key (c : Conn) (seq : UInt32) : TcpKey := ⟨seq, c.srcHost, c.srcPort, c.dstHost, c.dstPort⟩

def Env.conn (env : Env) : Conn := ⟨env.srcHost, env.src_port.toUInt16, env.dstHost, env.dst_port.toUInt16⟩

def TcpFragment.conn (f : TcpFragment) : Conn := ⟨f.srcHost, f.srcPort, f.dstHost, f.dstPort⟩

theorem conn_of_key {f : TcpFragment} {c : Conn} {seq : UInt32} (h : TcpTable.scheme.key f = c.key seq) : f.conn = c :=
  congrArg (fun k : TcpKey => (⟨k.srcHost, k.srcPort, k.dstHost, k.dstPort⟩ : Conn)) h

structure Pending (f : TcpFragment) (k : TcpKey) (len : Nat) (got : List UInt8) : Prop where
  key : TcpTable.scheme.key f = k
  rpc_len : f.rpc_len = UInt32.ofNat len
  size : f.buffer.size = f.rpc_len
  nextSeq : k.nextSeq = f.firstSeq + UInt32.ofNat got.length
  buffer : f.buffer.ptr.Holds got
  short : got.length < len ∧ len ≤ 16384

theorem Pending.conn {f : TcpFragment} {c : Conn} {seq : UInt32} {len : Nat} {got : List UInt8}
    (p : Pending f (c.key seq) len got) : f.conn = c := conn_of_key p.key

variable (ind : Indet) {env : Env} {w : World} {l : Locals} {L : List (Node TcpFragment)} {room : Nat}
variable {h : Packet} {record : NfsPkt} {payload : List UInt8}

/-! ## The segment's bytes -/

theorem AtSegment.counted (a : AtSegment env l room payload) : AtSegment env l.counted room payload :=
  ⟨a.proto, a.holds, a.left, a.fits, a.stop, a.inside⟩

/-- Room behind the mark. -/
theorem AtSegment.behindMark (a : AtSegment env l room payload) (h4 : 4 ≤ payload.length) :
    env.length - l.i_len - (l.h_len + 4) = UInt32.ofNat (room - 4) := by
  have hr := a.fits
  rw [← ofNat_sub_ofNat (by omega) (by omega), ← a.left]
  show _ = env.length - l.i_len - l.h_len - 4
  grind

/-- The header of the message behind the mark. -/
theorem afterMark_rpc_b (l : Locals) : l.afterMark.rpc_b = l.rpc_b.add 4 := by
  simp only [Locals.rpc_b, Locals.afterMark, Ptr.add_add]

theorem announced_lt (l : Locals) : l.announced.toNat < 2 ^ 31 := by
  rw [Locals.announced, masked_toNat]; exact Nat.mod_lt _ (by decide)

/-! ## A segment nothing waits for -/

theorem packet_sole (hh : headers h record = .ok (env, l)) (a : AtSegment env l payload.length payload)
    (h4 : 4 ≤ payload.length) (hL : Lists TcpTable.scheme w.tcp L) (hx : XidOk w)
    (hn : (lookup TcpTable.scheme w.tcp env.key).1 = none) (hlen : l.announced.toNat + 4 = payload.length) :
    Processed (processPacket ind w h record) [payload.drop 4] [] L := by
  have hr := a.fits
  have hne : payload ≠ [] := List.ne_nil_of_length_pos (by omega)
  have hann : l.counted.announced = UInt32.ofNat (payload.length - 4) :=
    eq_ofNat (show l.announced.toNat = payload.length - 4 by omega)
  have hseg := tcpSegment_sole ind (l := l.counted) hn
    (by rw [a.counted.behindMark h4, hann]; exact UInt32.le_refl _)
  have hend : l.counted.afterMark.consumed + l.counted.afterMark.rpc_len = l.counted.afterMark.tot_len := by
    show l.consumed + 4 + l.counted.announced = l.tot_len
    rw [a.stop, hann, UInt32.add_assoc, show (4 : UInt32) = UInt32.ofNat 4 from rfl, ← UInt32.ofNat_add]
    congr 2; omega
  have hp := packet_message ind (L := L) hh a hne hx (by rw [hseg]) (by rw [hseg]) (by rw [hseg]; exact hL)
    (by rw [hseg]; rfl) hend
  have hbytes : l.counted.afterMark.rpc_b.bytes l.counted.afterMark.rpc_len = payload.drop 4 := by
    rw [afterMark_rpc_b]
    refine Ptr.bytes_of_holds (a.holds.drop h4) ?_
    rw [List.length_drop]
    show l.announced.toNat = _
    omega
  rw [hbytes, hseg] at hp
  exact hp

theorem packet_reject (hh : headers h record = .ok (env, l)) (a : AtSegment env l payload.length payload)
    (h4 : 4 ≤ payload.length) (hL : Lists TcpTable.scheme w.tcp L) (hx : XidOk w)
    (hn : (lookup TcpTable.scheme w.tcp env.key).1 = none) (hlen : payload.length < l.announced.toNat + 4)
    (hbig : 16384 < l.announced.toNat) : Processed (processPacket ind w h record) [] [] L := by
  have hr := a.fits
  have hne : payload ≠ [] := List.ne_nil_of_length_pos (by omega)
  have hgt : ¬ l.counted.announced ≤ env.length - l.counted.i_len - (l.counted.h_len + 4) := by
    rw [a.counted.behindMark h4, UInt32.le_iff_toNat_le, toNat_ofNat_lt (by omega)]
    show ¬ l.announced.toNat ≤ _
    omega
  have hseg := tcpSegment_reject ind (l := l.counted) hn hgt
    (UInt32.lt_iff_toNat_lt.mpr (show (16384 : UInt32).toNat < l.announced.toNat from hbig))
  have hloop := loop_tcp ind (w := w) (h.caplen.toNat + 2) a.proto (a.unfinished hne)
  rw [hseg, andThen_stop (by nofun)] at hloop
  unfold processPacket
  rw [hh]
  simp only [hloop]
  exact ⟨rfl, fun _ => rfl, rfl, hL, hx, _, rfl⟩

theorem packet_first (hh : headers h record = .ok (env, l)) (a : AtSegment env l payload.length payload)
    (h4 : 4 ≤ payload.length) (hL : Lists TcpTable.scheme w.tcp L) (hx : XidOk w)
    (hn : (lookup TcpTable.scheme w.tcp env.key).1 = none) (hlen : payload.length < l.announced.toNat + 4)
    (hsmall : l.announced.toNat ≤ 16384) :
    ∃ f, Pending f (env.conn.key (env.th_seq + UInt32.ofNat payload.length)) l.announced.toNat (payload.drop 4) ∧
      f.time = l.record.secs ∧ f.firstSeq = env.th_seq + 4 ∧ f.buffer.ptr.addr = (ind.malloc w.nextBuf).addr ∧
      Processed (processPacket ind w h record) [] [(0, UInt32.ofNat (payload.length - 4), l.announced)]
        (waiting w.tcp L f) := by
  have hr := a.fits
  have hne : payload ≠ [] := List.ne_nil_of_length_pos (by omega)
  have hroom := a.counted.behindMark h4
  have hgt : ¬ l.counted.announced ≤ env.length - l.counted.i_len - (l.counted.h_len + 4) := by
    rw [hroom, UInt32.le_iff_toNat_le, toNat_ofNat_lt (by omega)]
    show ¬ l.announced.toNat ≤ _
    omega
  have hle : ¬ l.counted.announced > 16384 := by
    rw [gt_iff_lt, UInt32.lt_iff_toNat_lt]
    show ¬ 16384 < l.announced.toNat
    omega
  have hs := tcpSegment_first ind (l := l.counted) hL hn hgt hle
  refine ⟨firstFragment ind env w l.counted, ⟨?_, ?_, rfl, ?_, ?_, ?_⟩, rfl, rfl, rfl, ?_⟩
  · show (⟨env.th_seq + 4 + (env.length - l.counted.i_len - (l.counted.h_len + 4)), _, _, _, _⟩ : TcpKey) = ⟨_, _, _, _, _⟩
    rw [hroom]
    congr 1
    rw [UInt32.add_assoc, show (4 : UInt32) = UInt32.ofNat 4 from rfl, ← UInt32.ofNat_add]
    congr 2; omega
  · exact (UInt32.ofNat_toNat (x := l.announced)).symm
  · show env.th_seq + UInt32.ofNat payload.length = env.th_seq + 4 + UInt32.ofNat (payload.drop 4).length
    rw [UInt32.add_assoc, show (4 : UInt32) = UInt32.ofNat 4 from rfl, ← UInt32.ofNat_add, List.length_drop]
    congr 2; omega
  · have hsrc : (l.counted.pp.add (l.counted.consumed + 4)).Holds (payload.drop 4) := by
      have := a.holds.drop h4
      rwa [Locals.rpc_b, Ptr.add_add] at this
    have hd : (payload.drop 4).length = payload.length - 4 := List.length_drop
    show (Ptr.memcpy _ 0 _ (env.length - l.counted.i_len - (l.counted.h_len + 4))).Holds _
    rw [hroom]
    exact Ptr.memcpy_holds (Ptr.holds_nil _) hsrc rfl (by rw [hd, toNat_ofNat_lt (by omega)])
      (by rw [hd]; show 0 + _ < _; omega)
  · rw [List.length_drop]; omega
  · have := packet_stored ind hh a hne hx hs
    rw [hroom] at this
    exact this

/-! ## A segment a fragment waits for -/

theorem Pending.offset {f : TcpFragment} {len : Nat} {got : List UInt8} (p : Pending f env.key len got) :
    env.offset f = UInt32.ofNat got.length := by
  have hs : env.th_seq = f.firstSeq + UInt32.ofNat got.length := p.nextSeq
  rw [Env.offset, hs, add_sub_self]

theorem Pending.sum {f : TcpFragment} {len : Nat} {got : List UInt8} (p : Pending f env.key len got)
    (a : AtSegment env l payload.length payload) :
    env.offset f + (env.length - l.i_len - l.h_len) < f.rpc_len ↔ got.length + payload.length < len := by
  have hr := a.fits
  have hs := p.short
  rw [p.offset, a.left, ← UInt32.ofNat_add, p.rpc_len, UInt32.lt_iff_toNat_lt, toNat_ofNat_lt (by omega),
    toNat_ofNat_lt (by omega)]

theorem packet_more (hh : headers h record = .ok (env, l)) (a : AtSegment env l payload.length payload)
    (hne : payload ≠ []) (hL : Lists TcpTable.scheme w.tcp L) (hx : XidOk w) {n : Node TcpFragment} {len : Nat}
    {got : List UInt8} (hn : (lookup TcpTable.scheme w.tcp env.key).1 = some n) (hp : Pending n.val env.key len got)
    (hlt : got.length + payload.length < len) :
    ∃ f, Pending f (env.conn.key (env.th_seq + UInt32.ofNat payload.length)) len (got ++ payload) ∧
      f.time = l.record.secs ∧ f.firstSeq = n.val.firstSeq ∧ f.buffer.ptr.addr = n.val.buffer.ptr.addr ∧
      Processed (processPacket ind w h record) []
        [(UInt32.ofNat got.length, UInt32.ofNat payload.length, UInt32.ofNat len)]
        (waiting w.tcp (others L env.key) f) := by
  have hs := hp.short
  have hst := tcpSegment_more ind (l := l.counted) hL hn ((hp.sum a.counted).mpr hlt)
  refine ⟨nextFragment env l.counted n.val, ⟨?_, hp.rpc_len, hp.size, ?_, ?_, ?_⟩, rfl, rfl, rfl, ?_⟩
  · show (⟨env.th_seq + (env.length - l.counted.i_len - l.counted.h_len), _, _, _, _⟩ : TcpKey) = ⟨_, _, _, _, _⟩
    rw [a.counted.left]
    rfl
  · have hseq : env.th_seq = n.val.firstSeq + UInt32.ofNat got.length := hp.nextSeq
    show env.th_seq + UInt32.ofNat payload.length = n.val.firstSeq + UInt32.ofNat (got ++ payload).length
    rw [hseq, UInt32.add_assoc, ← UInt32.ofNat_add, List.length_append]
  · show (Ptr.memcpy _ (env.offset n.val) _ (env.length - l.counted.i_len - l.counted.h_len)).Holds _
    have hr := a.fits
    rw [hp.offset, a.counted.left]
    exact Ptr.memcpy_holds hp.buffer a.holds (toNat_ofNat_lt (by omega)) (toNat_ofNat_lt (by omega)) (by omega)
  · rw [List.length_append]; exact ⟨hlt, hs.2⟩
  · have := packet_stored ind hh a hne hx hst
    rw [hp.offset, a.counted.left, hp.size, hp.rpc_len] at this
    exact this

/-- What is missing from the buffer. -/
theorem Pending.missing {f : TcpFragment} {len : Nat} {got : List UInt8} (p : Pending f env.key len got) :
    f.rpc_len - env.offset f = UInt32.ofNat (len - got.length) := by
  have hs := p.short
  rw [p.rpc_len, p.offset, ofNat_sub_ofNat (by omega) (by omega)]

/-- With it the buffer holds the record. -/
theorem Pending.filled_holds {f : TcpFragment} {len : Nat} {got : List UInt8} (p : Pending f env.key len got)
    (a : AtSegment env l payload.length payload) (hge : len ≤ got.length + payload.length) :
    ((env.filled l f (UInt32.ofNat (len - got.length))).ptr).Holds (got ++ payload.take (len - got.length)) := by
  have hs := p.short
  have htake : (payload.take (len - got.length)).length = len - got.length := by
    rw [List.length_take]; omega
  show (Ptr.memcpy _ (env.offset f) _ _).Holds _
  rw [p.offset]
  exact Ptr.memcpy_holds p.buffer (a.holds.take _) (toNat_ofNat_lt (by omega)) (by rw [htake, toNat_ofNat_lt (by omega)])
    (by rw [htake]; omega)

theorem packet_complete (hh : headers h record = .ok (env, l)) (a : AtSegment env l payload.length payload)
    (hne : payload ≠ []) (hL : Lists TcpTable.scheme w.tcp L) (hx : XidOk w) {n : Node TcpFragment} {len : Nat}
    {got : List UInt8} (hn : (lookup TcpTable.scheme w.tcp env.key).1 = some n) (hp : Pending n.val env.key len got)
    (hge : len ≤ got.length + payload.length) :
    Processed (processPacket ind w h record) [got ++ payload.take (len - got.length)]
      [(UInt32.ofNat got.length, UInt32.ofNat (len - got.length), UInt32.ofNat len)] (others L env.key) := by
  have hs := hp.short
  have hseg := tcpSegment_complete ind (l := l.counted) hn
    (by rw [hp.sum a.counted]; omega)
  obtain ⟨_, hL', _⟩ := lookup_lists hL env.key
  have hm := packet_message ind (L := others L env.key) hh a hne hx (by rw [hseg]) (by rw [hseg])
    (by rw [hseg]; exact hL') (by rw [hseg]; rfl) (UInt32.zero_add _)
  rw [hseg] at hm
  rw [hp.missing, hp.offset, hp.size, hp.rpc_len] at hm
  rw [← Ptr.bytes_of_holds (n := UInt32.ofNat len) (hp.filled_holds a.counted hge)
    (by rw [List.length_append, List.length_take, toNat_ofNat_lt (by omega)]; omega)]
  rw [show (env.filled l.counted n.val (UInt32.ofNat (len - got.length))).ptr =
    (l.counted.assembled (env.filled l.counted n.val (UInt32.ofNat (len - got.length))) (UInt32.ofNat len)).rpc_b from
    (Ptr.add_zero _).symm]
  exact hm

end Nfsdump.Record
