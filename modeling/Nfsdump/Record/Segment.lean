/-
  Nfsdump.Record.Segment — what one TCP segment does, `tcpSegment` and the packet around it.

  A segment that no pending fragment waits for starts a record: whole (`packet_sole`), too
  long (`packet_reject`) or to be continued (`packet_first`). A segment that one waits for
  is its next part (`packet_more`) or its last (`packet_complete`). Each lemma says which
  messages are handed to `getRpcHeader`, what is copied where, and which fragments wait
  afterwards.
-/

import Nfsdump.Record.Message

namespace Nfsdump.Record

open ChainTable Wire

/-! ## Records -/

/-- A record of a record-marked stream. -/
structure Rec where
  last : Bool
  body : List UInt8

/-- The four bytes in front of the body: the last-fragment bit and the body's length. -/
def Rec.mark (r : Rec) : List UInt8 := be32 ((if r.last then 2 ^ 31 else 0) + r.body.length)

def Rec.bytes (r : Rec) : List UInt8 := r.mark ++ r.body

theorem Rec.bytes_length (r : Rec) : r.bytes.length = 4 + r.body.length := by
  rw [Rec.bytes, List.length_append]; rfl

theorem masked_toNat (v : UInt32) : (v &&& 0x7fffffff).toNat = v.toNat % 2 ^ 31 := by
  rw [UInt32.toNat_and]
  exact Nat.and_two_pow_sub_one_eq_mod _ 31

/-- The masked mark is the body's length. -/
theorem Rec.mark_word {r : Rec} {p : Ptr} {rest : List UInt8} (h : p.Holds (r.mark ++ rest))
    (hlen : r.body.length < 2 ^ 31) : p.word 0 &&& 0x7fffffff = UInt32.ofNat r.body.length := by
  have hlt : (if r.last then 2 ^ 31 else 0) + r.body.length < 2 ^ 32 := by split <;> omega
  rw [Ptr.word_of_holds (p := p) h]
  refine eq_ofNat ?_
  rw [masked_toNat, toNat_ofNat_lt (by rw [← be32, be_be32 hlt]; exact hlt), ← be32, be_be32 hlt]
  split <;> omega

/-! ## The segment in its stream -/

def Env.key (env : Env) : TcpKey := ⟨env.th_seq, env.srcHost, env.src_port.toUInt16, env.dstHost, env.dst_port.toUInt16⟩

/-- The iteration is at `rest`, the last bytes of the packet; by the code's reckoning there
    are `room` of them. -/
structure AtSegment (env : Env) (l : Locals) (room : Nat) (rest : List UInt8) : Prop where
  proto : env.proto = IPPROTO_TCP
  holds : l.rpc_b.Holds rest
  left : env.length - l.i_len - l.h_len = UInt32.ofNat room
  fits : rest.length ≤ room ∧ room < 65536
  stop : l.tot_len = l.consumed + UInt32.ofNat rest.length
  inside : l.consumed.toNat + rest.length < 2 ^ 31

/-- The record the iteration's segment starts, as its first word announces it. -/
def Locals.announced (l : Locals) : UInt32 := l.pp.word l.consumed &&& 0x7fffffff

/-- Behind the mark. -/
def Locals.afterMark (l : Locals) : Locals :=
  { l with rpc_len := l.announced, h_len := l.h_len + 4, consumed := l.consumed + 4 }

/-- The fragments that wait once `f` does too and the cull is over. -/
def waiting (t : TcpTable) (L : List (Node TcpFragment)) (f : TcpFragment) : List (Node TcpFragment) :=
  sweep TcpTable.scheme.key (due TcpTable.scheme (staleFragment f.time) t.cullIndex) [] (⟨t.next, f⟩ :: L)

variable (ind : Indet) {env : Env} {w : World} {l : Locals} {L : List (Node TcpFragment)} {room : Nat} {rest : List UInt8}

theorem tcpSegment_sole (hn : (lookup TcpTable.scheme w.tcp env.key).1 = none)
    (hlen : l.announced ≤ env.length - l.i_len - (l.h_len + 4)) :
    tcpSegment ind env w l = ⟨[.tcpLookup env.key none, .mark l.consumed], w, .next l.afterMark⟩ := by
  have hl : lookup TcpTable.scheme w.tcp env.key = (none, w.tcp) := Prod.ext hn (lookup_of_none hn)
  unfold Locals.announced at hlen
  unfold tcpSegment tcpLookup
  simp only [show (⟨env.th_seq, env.srcHost, env.src_port.toUInt16, env.dstHost, env.dst_port.toUInt16⟩ : TcpKey) = env.key
    from rfl, hl]
  rw [if_pos hlen]
  rfl

theorem tcpSegment_reject (hn : (lookup TcpTable.scheme w.tcp env.key).1 = none)
    (hlen : ¬ l.announced ≤ env.length - l.i_len - (l.h_len + 4)) (hbig : l.announced > 16384) :
    tcpSegment ind env w l = ⟨[.tcpLookup env.key none, .mark l.consumed], w, .ret (-11) l.afterMark⟩ := by
  have hl : lookup TcpTable.scheme w.tcp env.key = (none, w.tcp) := Prod.ext hn (lookup_of_none hn)
  unfold Locals.announced at hlen hbig
  unfold tcpSegment tcpLookup
  simp only [show (⟨env.th_seq, env.srcHost, env.src_port.toUInt16, env.dstHost, env.dst_port.toUInt16⟩ : TcpKey) = env.key
    from rfl, hl]
  rw [if_neg hlen, if_pos hbig]
  rfl

/-- The segment ends with its fragment `f` waiting for the next one. -/
structure Stored (w : World) (L : List (Node TcpFragment)) (f : TcpFragment) (copy : UInt32 × UInt32 × UInt32) (o : Out) :
    Prop where
  handed : handed o.events = []
  copies : copies o.events = [copy]
  quiet : decoded o.events = []
  xid : o.world.xid = w.xid
  tcp : Lists TcpTable.scheme o.world.tcp (waiting w.tcp L f)
  flow : ∃ rc l', o.flow = .ret rc l'

theorem handed_freeBuffers (freed : List (Node TcpFragment)) : handed (freeBuffers freed) = [] := by
  unfold handed freeBuffers
  rw [List.filterMap_map]
  exact List.filterMap_eq_nil_iff.mpr fun _ _ => rfl

theorem copies_freeBuffers (freed : List (Node TcpFragment)) : copies (freeBuffers freed) = [] := by
  unfold copies freeBuffers
  rw [List.filterMap_map]
  exact List.filterMap_eq_nil_iff.mpr fun _ _ => rfl

theorem decoded_freeBuffers (freed : List (Node TcpFragment)) : decoded (freeBuffers freed) = [] := by
  unfold decoded freeBuffers
  rw [List.filter_map]
  exact List.map_eq_nil_iff.mpr (List.filter_eq_nil_iff.mpr fun _ _ => by simp)

/-- The fragment a record's first segment leaves. -/
def firstFragment (ind : Indet) (env : Env) (w : World) (l : Locals) : TcpFragment :=
  let room := env.length - l.i_len - (l.h_len + 4)
  ⟨env.srcHost, env.dstHost, env.src_port.toUInt16, env.dst_port.toUInt16, env.th_seq + 4 + room,
    ⟨w.nextBuf, l.announced, (ind.malloc w.nextBuf).memcpy 0 (l.pp.add (l.consumed + 4)) room⟩, l.announced,
    env.th_seq + 4, l.record.secs⟩

/-- Room for the record is made, and the insert's outcome is the segment's. -/
theorem tcpSegment_first_eq (hn : (lookup TcpTable.scheme w.tcp env.key).1 = none)
    (hlen : ¬ l.announced ≤ env.length - l.i_len - (l.h_len + 4)) (hbig : ¬ l.announced > 16384) {t' : TcpTable}
    {freed : List (Node TcpFragment)}
    (hok : insert TcpTable.scheme (staleFragment l.record.secs) (firstFragment ind env w l) w.tcp = .ok (t', freed)) :
    tcpSegment ind env w l =
      ⟨[.tcpLookup env.key none, .mark l.consumed, .malloc w.nextBuf l.announced,
          .memcpy w.nextBuf 0 (l.consumed + 4) (env.length - l.i_len - (l.h_len + 4)) l.announced,
          .tcpInsert (firstFragment ind env w l)] ++ freeBuffers freed,
        { w with tcp := t', nextBuf := w.nextBuf + 1 }, .ret (-12) l.afterMark⟩ := by
  have hl : lookup TcpTable.scheme w.tcp env.key = (none, w.tcp) := Prod.ext hn (lookup_of_none hn)
  have hins : tcpInsert w.tcp l.record.secs (env.th_seq + 4 + (env.length - l.i_len - (l.h_len + 4))) env.srcHost
      env.src_port.toUInt16 env.dstHost env.dst_port.toUInt16 (firstFragment ind env w l).buffer l.announced
      (env.th_seq + 4) = .ok (t', freed) := hok
  unfold firstFragment Locals.announced at hins
  unfold Locals.announced at hlen hbig
  unfold tcpSegment tcpLookup
  simp only [show (⟨env.th_seq, env.srcHost, env.src_port.toUInt16, env.dstHost, env.dst_port.toUInt16⟩ : TcpKey) = env.key
    from rfl, hl]
  rw [if_neg hlen, if_neg hbig]
  simp only [hins]
  rfl

theorem tcpSegment_first (hL : Lists TcpTable.scheme w.tcp L) (hn : (lookup TcpTable.scheme w.tcp env.key).1 = none)
    (hlen : ¬ l.announced ≤ env.length - l.i_len - (l.h_len + 4)) (hbig : ¬ l.announced > 16384) :
    Stored w L (firstFragment ind env w l) (0, env.length - l.i_len - (l.h_len + 4), l.announced)
      (tcpSegment ind env w l) := by
  obtain ⟨t', freed, hok, hlists, _⟩ := insert_lists (staleFragment l.record.secs) hL (firstFragment ind env w l)
  rw [tcpSegment_first_eq ind hn hlen hbig hok]
  refine ⟨?_, ?_, ?_, rfl, hlists, _, _, rfl⟩
  · rw [handed_append, handed_freeBuffers]; rfl
  · rw [copies_append, copies_freeBuffers]; rfl
  · rw [decoded_append, decoded_freeBuffers]; rfl

/-- The fragments but the one the segment continues. -/
def others (L : List (Node TcpFragment)) (k : TcpKey) : List (Node TcpFragment) :=
  L.eraseP fun n => TcpTable.scheme.key n.val = k

/-- Where the segment starts in its record. -/
def Env.offset (env : Env) (f : TcpFragment) : UInt32 := env.th_seq - f.firstSeq

/-- The buffer with `len` bytes of the segment in it. -/
def Env.filled (env : Env) (l : Locals) (f : TcpFragment) (len : UInt32) : Buffer :=
  { f.buffer with ptr := f.buffer.ptr.memcpy (env.offset f) (l.pp.add l.consumed) len }

/-- The fragment a segment leaves that does not complete its record. -/
def nextFragment (env : Env) (l : Locals) (f : TcpFragment) : TcpFragment :=
  let room := env.length - l.i_len - l.h_len
  ⟨env.srcHost, env.dstHost, env.src_port.toUInt16, env.dst_port.toUInt16, env.th_seq + room, env.filled l f room,
    f.rpc_len, f.firstSeq, l.record.secs⟩

/-- The record put together in its buffer. -/
def Locals.assembled (l : Locals) (buffer : Buffer) (rpc_len : UInt32) : Locals :=
  { l with pp := buffer.ptr, reassemblyBuffer := some buffer.id, rpc_len := rpc_len, tot_len := rpc_len,
           consumed := 0, e_len := 0, i_len := 0, h_len := 0 }

/-- The buffer goes to a new fragment, and the insert's outcome is the segment's. -/
theorem tcpSegment_more_eq {n : Node TcpFragment} (hn : (lookup TcpTable.scheme w.tcp env.key).1 = some n)
    (hlt : env.offset n.val + (env.length - l.i_len - l.h_len) < n.val.rpc_len) {t' : TcpTable}
    {freed : List (Node TcpFragment)}
    (hok : insert TcpTable.scheme (staleFragment l.record.secs) (nextFragment env l n.val)
      (lookup TcpTable.scheme w.tcp env.key).2 = .ok (t', freed)) :
    tcpSegment ind env w l =
      ⟨[.tcpLookup env.key (some n.val), .memcpy n.val.buffer.id (env.offset n.val) l.consumed
          (env.length - l.i_len - l.h_len) n.val.buffer.size, .tcpInsert (nextFragment env l n.val)] ++ freeBuffers freed,
        { w with tcp := t' }, .ret (-13) l⟩ := by
  have hins : tcpInsert (lookup TcpTable.scheme w.tcp env.key).2 l.record.secs
      (env.th_seq + (env.length - l.i_len - l.h_len)) env.srcHost env.src_port.toUInt16 env.dstHost
      env.dst_port.toUInt16 (nextFragment env l n.val).buffer n.val.rpc_len n.val.firstSeq = .ok (t', freed) := hok
  have hl : lookup TcpTable.scheme w.tcp env.key = (some n, (lookup TcpTable.scheme w.tcp env.key).2) := Prod.ext hn rfl
  unfold nextFragment Env.filled at hins
  unfold Env.offset at hlt hins
  unfold tcpSegment tcpLookup
  simp only [show (⟨env.th_seq, env.srcHost, env.src_port.toUInt16, env.dstHost, env.dst_port.toUInt16⟩ : TcpKey) = env.key
    from rfl]
  rw [hl]
  simp only [if_neg (UInt32.lt_asymm hlt), UInt32.ne_of_lt hlt, if_false, add_sub_self, hins]
  unfold nextFragment Env.filled Env.offset
  rfl

theorem tcpSegment_more (hL : Lists TcpTable.scheme w.tcp L) {n : Node TcpFragment}
    (hn : (lookup TcpTable.scheme w.tcp env.key).1 = some n)
    (hlt : env.offset n.val + (env.length - l.i_len - l.h_len) < n.val.rpc_len) :
    Stored w (others L env.key) (nextFragment env l n.val)
      (env.offset n.val, env.length - l.i_len - l.h_len, n.val.buffer.size) (tcpSegment ind env w l) := by
  obtain ⟨_, hL', hturn, hnext⟩ := lookup_lists hL env.key
  obtain ⟨t', freed, hok, hlists, _⟩ := insert_lists (staleFragment l.record.secs) hL' (nextFragment env l n.val)
  rw [tcpSegment_more_eq ind hn hlt hok]
  refine ⟨?_, ?_, ?_, rfl, ?_, _, _, rfl⟩
  · rw [handed_append, handed_freeBuffers]; rfl
  · rw [copies_append, copies_freeBuffers]; rfl
  · rw [decoded_append, decoded_freeBuffers]; rfl
  · rw [hturn, hnext] at hlists
    exact hlists

theorem tcpSegment_complete {n : Node TcpFragment} (hn : (lookup TcpTable.scheme w.tcp env.key).1 = some n)
    (hge : ¬ env.offset n.val + (env.length - l.i_len - l.h_len) < n.val.rpc_len) :
    tcpSegment ind env w l =
      ⟨[.tcpLookup env.key (some n.val), .memcpy n.val.buffer.id (env.offset n.val) l.consumed
          (n.val.rpc_len - env.offset n.val) n.val.buffer.size],
        { w with tcp := (lookup TcpTable.scheme w.tcp env.key).2 },
        .next (l.assembled (env.filled l n.val (n.val.rpc_len - env.offset n.val)) n.val.rpc_len)⟩ := by
  have hl : lookup TcpTable.scheme w.tcp env.key = (some n, (lookup TcpTable.scheme w.tcp env.key).2) := Prod.ext hn rfl
  unfold Env.offset at hge
  have hclamp : (if env.th_seq - n.val.firstSeq + (env.length - l.i_len - l.h_len) > n.val.rpc_len then n.val.rpc_len
      else env.th_seq - n.val.firstSeq + (env.length - l.i_len - l.h_len)) = n.val.rpc_len := by
    split
    · rfl
    · rename_i hgt
      exact UInt32.le_antisymm (UInt32.not_lt.mp hgt) (UInt32.not_lt.mp hge)
  unfold tcpSegment tcpLookup
  simp only [show (⟨env.th_seq, env.srcHost, env.src_port.toUInt16, env.dstHost, env.dst_port.toUInt16⟩ : TcpKey) = env.key
    from rfl]
  rw [hl]
  simp only [hclamp, if_true]
  rfl

/-! ## The packet around it -/

theorem andThen_assoc (o : Out) (k₁ k₂ : World → Locals → Out) :
    (o.andThen k₁).andThen k₂ = o.andThen fun w l => (k₁ w l).andThen k₂ := by
  rcases o with ⟨ev, w, flow⟩
  cases flow with
  | next l =>
    show Out.andThen ⟨ev ++ (k₁ w l).events, (k₁ w l).world, (k₁ w l).flow⟩ k₂ =
      ⟨ev ++ ((k₁ w l).andThen k₂).events, ((k₁ w l).andThen k₂).world, ((k₁ w l).andThen k₂).flow⟩
    generalize k₁ w l = o
    rcases o with ⟨ev', w', flow⟩
    cases flow <;> simp [Out.andThen]
  | done _ => rfl
  | ret _ _ => rfl
  | abort => rfl

def Locals.counted (l : Locals) : Locals := { l with cnt := l.cnt + 1 }

theorem loopBody_eq (ind : Indet) (env : Env) (w : World) (l : Locals) : loopBody ind env w l = if env.proto = IPPROTO_TCP then
    (tcpSegment ind env w l.counted).andThen (rpcMessage ind env) else rpcMessage ind env w l.counted := rfl

theorem loop_tcp (fuel : Nat) (hp : env.proto = IPPROTO_TCP) (hlt : l.consumed < l.tot_len) :
    loop ind env (fuel + 1) w l =
      (tcpSegment ind env w l.counted).andThen fun w l => (rpcMessage ind env w l).andThen (loop ind env fuel) := by
  rw [← andThen_assoc]
  simp only [loop, loopBody, hlt, hp, if_true]
  rfl

/-- What a packet did: the messages handed to `getRpcHeader`, without which nothing is
    decoded, the copies made and the fragments that wait. -/
structure Processed (r : Result) (msgs : List (List UInt8)) (cs : List (UInt32 × UInt32 × UInt32))
    (L : List (Node TcpFragment)) : Prop where
  handed : handed r.events = msgs
  quiet : msgs = [] → decoded r.events = []
  copies : copies r.events = cs
  tcp : Lists TcpTable.scheme r.world.tcp L
  xid : XidOk r.world
  exit : ∃ rc, r.exit = .returned rc

theorem finishPacket_spec (record : NfsPkt) (o : Out) (hnext : ∀ l, o.flow ≠ .next l) (habort : o.flow ≠ .abort) :
    handed (finishPacket record o).events = handed o.events ∧ copies (finishPacket record o).events = copies o.events ∧
      decoded (finishPacket record o).events = decoded o.events ∧ (finishPacket record o).world = o.world ∧
        ∃ rc, (finishPacket record o).exit = .returned rc := by
  unfold finishPacket
  cases hf : o.flow with
  | next l => exact absurd hf (hnext l)
  | abort => exact absurd hf habort
  | done l =>
    refine ⟨?_, ?_, ?_, rfl, 1, rfl⟩
    · rw [handed_append, handed_free, List.append_nil]
    · rw [copies_append, copies_free, List.append_nil]
    · rw [decoded_append, decoded_free, List.append_nil]
  | ret rc l => exact ⟨rfl, rfl, rfl, rfl, rc, rfl⟩

variable {h : Packet} {record : NfsPkt} {payload : List UInt8}

theorem AtSegment.unfinished (a : AtSegment env l room rest) (hne : rest ≠ []) : l.consumed < l.tot_len := by
  have hpos := List.length_pos_iff.mpr hne
  have hin := a.inside
  have hc := l.consumed.toNat_lt
  rw [UInt32.lt_iff_toNat_lt, a.stop, UInt32.toNat_add, toNat_ofNat_lt (by omega)]
  omega

theorem packet_stored (hh : headers h record = .ok (env, l)) (a : AtSegment env l room rest) (hne : rest ≠ [])
    (hx : XidOk w) {f : TcpFragment} {c : UInt32 × UInt32 × UInt32} (hs : Stored w L f c (tcpSegment ind env w l.counted)) :
    Processed (processPacket ind w h record) [] [c] (waiting w.tcp L f) := by
  obtain ⟨rc, l', hret⟩ := hs.flow
  have hloop := loop_tcp ind (w := w) (h.caplen.toNat + 2) a.proto (a.unfinished hne)
  rw [andThen_stop (by rw [hret]; nofun)] at hloop
  unfold processPacket
  rw [hh]
  simp only [hloop]
  obtain ⟨h1, h2, hq, h3, h4⟩ := finishPacket_spec record (tcpSegment ind env w l.counted) (by rw [hret]; nofun)
    (by rw [hret]; nofun)
  refine ⟨by rw [h1]; exact hs.handed, fun _ => by rw [hq]; exact hs.quiet, by rw [h2]; exact hs.copies,
    by rw [h3]; exact hs.tcp, ?_, h4⟩
  obtain ⟨X, hX⟩ := hx
  rw [h3]
  exact ⟨X, by rw [hs.xid]; exact hX⟩

/-- A segment whose message ends the packet hands it on, and nothing else. -/
theorem packet_message (hh : headers h record = .ok (env, l)) (a : AtSegment env l room rest) (hne : rest ≠ [])
    (hx : XidOk w) {l' : Locals} (hseg : (tcpSegment ind env w l.counted).flow = .next l')
    (hxid : (tcpSegment ind env w l.counted).world.xid = w.xid)
    (hL : Lists TcpTable.scheme (tcpSegment ind env w l.counted).world.tcp L)
    (hhand : handed (tcpSegment ind env w l.counted).events = []) (hend : l'.consumed + l'.rpc_len = l'.tot_len) :
    Processed (processPacket ind w h record) [l'.rpc_b.bytes l'.rpc_len]
      (copies (tcpSegment ind env w l.counted).events) L := by
  generalize hseg' : tcpSegment ind env w l.counted = seg at hseg hxid hL hhand ⊢
  have hloop := loop_tcp ind (w := w) (h.caplen.toNat + 2) a.proto (a.unfinished hne)
  rw [hseg', andThen_next hseg] at hloop
  obtain ⟨o, ho, hev, hw, hnext, habort, _⟩ := loop_last ind env seg.world l' (h.caplen.toNat + 1) hend
  rw [ho] at hloop
  have hm := rpcMessage_spec ind env seg.world l'
  have hxw : XidOk seg.world := by
    obtain ⟨X, hX⟩ := hx
    exact ⟨X, by rw [hxid]; exact hX⟩
  unfold processPacket
  rw [hh]
  simp only [hloop]
  obtain ⟨h1, h2, _, h3, h4⟩ := finishPacket_spec record { o with events := seg.events ++ o.events } hnext (habort hxw)
  refine ⟨?_, nofun, ?_, ?_, ?_, h4⟩
  · rw [h1, handed_append, hhand, hev, hm.handed]; rfl
  · rw [h2, copies_append, hev, hm.copies, List.append_nil]
  · rw [h3, hw, hm.tcp]; exact hL
  · rw [h3, hw]; exact (hm.xid hxw).1

end Nfsdump.Record
