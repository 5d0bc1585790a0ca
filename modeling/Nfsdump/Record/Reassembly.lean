/-
  Nfsdump.Record.Reassembly — the fragments under any traffic.

  Each connection has a byte stream indexed by sequence number. Packets carry bytes of
  their streams but may be lost, repeated, reordered and interleaved, at any times. The one
  thing asked of a segment nothing waits for is that it holds a word and does not reach past
  the record that word announces (`OnStream`), true or not. Proved over every run
  (`StreamRun`):
  - `reassembly_sound`: every fragment holds the stream's bytes from its `firstSeq` on, as
    many as it says it has, of a record as long as the word in front of them says.
  - so every copy stays in its buffer, and what is handed on complete is the stream's.
-/

import Nfsdump.Record.Capture

namespace Nfsdump.Record

open ChainTable Wire

/-! ## Streams -/

/-- `n` bytes of a stream from `seq` on. -/
def stretch (s : UInt32 → UInt8) (seq : UInt32) (n : Nat) : List UInt8 :=
  (List.range n).map fun i => s (seq + UInt32.ofNat i)

/-- The length of the record a mark at `seq` announces. -/
def markAt (s : UInt32 → UInt8) (seq : UInt32) : UInt32 :=
  UInt32.ofNat (be [s seq, s (seq + 1), s (seq + 2), s (seq + 3)]) &&& 0x7fffffff

section Streams

variable (s : UInt32 → UInt8) (seq : UInt32)

@[simp] theorem stretch_length (n : Nat) : (stretch s seq n).length = n := by simp [stretch]

theorem stretch_append (m n : Nat) : stretch s seq m ++ stretch s (seq + UInt32.ofNat m) n = stretch s seq (m + n) := by
  unfold stretch
  rw [List.range_add, List.map_append, List.map_map]
  congr 2; funext i
  simp only [Function.comp, UInt32.ofNat_add, UInt32.add_assoc]

theorem stretch_take {m n : Nat} (h : m ≤ n) : (stretch s seq n).take m = stretch s seq m := by
  obtain ⟨k, rfl⟩ := Nat.exists_eq_add_of_le h
  rw [← stretch_append, List.take_append_of_le_length (by simp), List.take_of_length_le (by simp)]

theorem stretch_drop {m n : Nat} (h : m ≤ n) : (stretch s seq n).drop m = stretch s (seq + UInt32.ofNat m) (n - m) := by
  obtain ⟨k, rfl⟩ := Nat.exists_eq_add_of_le h
  rw [← stretch_append, List.drop_append_of_le_length (by simp), List.drop_of_length_le (by simp), List.nil_append,
    Nat.add_sub_cancel_left]

theorem holds_stretch {p : Ptr} {n : Nat} (h : p.Holds (stretch s seq n)) {i : Nat} (hi : i < n) :
    p.byte (UInt32.ofNat i) = s (seq + UInt32.ofNat i) := by
  have := h i (by simpa using hi)
  simpa [stretch] using this

/-- A segment of the stream announces what the stream's mark there does. -/
theorem announced_markAt {l : Locals} {n : Nat} (h : l.rpc_b.Holds (stretch s seq n)) (h4 : 4 ≤ n) :
    l.announced = markAt s seq := by
  have h0 := holds_stretch s seq h (i := 0) (by omega)
  have h1 := holds_stretch s seq h (i := 1) (by omega)
  have h2 := holds_stretch s seq h (i := 2) (by omega)
  have h3 := holds_stretch s seq h (i := 3) (by omega)
  simp only [Locals.rpc_b, Ptr.add_byte, UInt32.reduceOfNat, UInt32.add_zero] at h0 h1 h2 h3
  unfold Locals.announced markAt Ptr.word
  rw [h0, h1, h2, h3]

end Streams

/-! ## Packets and runs -/

/-- If it is a TCP segment, the packet carries its stream's bytes, and, when no fragment
    waits for it, a whole mark and no byte behind the record the mark announces. -/
def OnStream (stream : Conn → UInt32 → UInt8) (w : World) (h : Packet) (record : NfsPkt) : Prop :=
  ∀ env l, headers h record = .ok (env, l) → env.proto = IPPROTO_TCP →
    ∃ n, Carries h record env l (stretch (stream env.conn) env.th_seq n) ∧
      ((lookup TcpTable.scheme w.tcp env.key).1 = none → 4 ≤ n ∧ n ≤ l.announced.toNat + 4)

inductive StreamRun (stream : Conn → UInt32 → UInt8) : World → Prop
  | init : StreamRun stream World.init
  | packet {w : World} (ind : Indet) (h : Packet) (record : NfsPkt) :
      StreamRun stream w → OnStream stream w h record → StreamRun stream (processPacket ind w h record).world

/-! ## Sound fragments -/

/-- The fragment is part of its stream: the record's length is the masked word just before
    `firstSeq`, and the buffer's first `nextSeq - firstSeq` bytes are the stream's. -/
structure Sound (stream : Conn → UInt32 → UInt8) (f : TcpFragment) : Prop where
  short : (f.nextSeq - f.firstSeq).toNat < f.rpc_len.toNat ∧ f.rpc_len.toNat ≤ 16384
  size : f.buffer.size = f.rpc_len
  mark : f.rpc_len = markAt (stream f.conn) (f.firstSeq - 4)
  bytes : f.buffer.ptr.bytes (f.nextSeq - f.firstSeq) =
    stretch (stream f.conn) f.firstSeq (f.nextSeq - f.firstSeq).toNat

/-- The same with the bytes received so far named. -/
def Received (stream : Conn → UInt32 → UInt8) (f : TcpFragment) : Prop :=
  ∃ g, Pending f (TcpTable.scheme.key f) f.rpc_len.toNat (stretch (stream f.conn) f.firstSeq g) ∧
    f.rpc_len = markAt (stream f.conn) (f.firstSeq - 4)

variable {stream : Conn → UInt32 → UInt8} {w : World} {h : Packet} {record : NfsPkt}

theorem Received.sound {f : TcpFragment} (r : Received stream f) : Sound stream f := by
  obtain ⟨g, p, hmark⟩ := r
  have hs := p.short
  rw [stretch_length] at hs
  have hseq : f.nextSeq - f.firstSeq = UInt32.ofNat g := by
    have := p.nextSeq
    rw [stretch_length] at this
    rw [show f.nextSeq = _ from this, add_sub_self]
  have hg : (UInt32.ofNat g).toNat = g := toNat_ofNat_lt (by omega)
  refine ⟨by rw [hseq, hg]; exact hs, p.size, hmark, ?_⟩
  rw [hseq, hg]
  exact Ptr.bytes_of_holds p.buffer (by rw [stretch_length, hg])

structure Inv (stream : Conn → UInt32 → UInt8) (w : World) : Prop where
  xid : XidOk w
  tcp : ∃ L, Lists TcpTable.scheme w.tcp L ∧ ∀ n ∈ L, Received stream n.val

theorem waiting_subset {t : TcpTable} {L : List (Node TcpFragment)} {f : TcpFragment} {P : TcpFragment → Prop}
    (hL : ∀ n ∈ L, P n.val) (hf : P f) : ∀ n ∈ waiting t L f, P n.val := fun n hn => by
  rcases List.mem_cons.mp ((sweep_sublist _ _ (⟨t.next, f⟩ :: L) []).subset hn) with rfl | hn
  · exact hf
  · exact hL n hn

/-- What is said of one packet: no copy leaves its buffer, and if it completes a record
    that was waiting, the record's bytes are the stream's. -/
structure PacketSafe (stream : Conn → UInt32 → UInt8) (w : World) (h : Packet) (record : NfsPkt) (r : Result) : Prop where
  copies : ∀ c ∈ copies r.events, c.1.toNat + c.2.1.toNat ≤ c.2.2.toNat
  completed : ∀ env l n, headers h record = .ok (env, l) → env.proto = IPPROTO_TCP →
    (lookup TcpTable.scheme w.tcp env.key).1 = some n →
    handed r.events = [] ∨ handed r.events = [stretch (stream env.conn) n.val.firstSeq n.val.rpc_len.toNat]
  exit : ∃ rc, r.exit = .returned rc

/-- A segment nothing waits for. -/
theorem start_step {env : Env} {l : Locals} {n : Nat} (ind : Indet) (hw : Inv stream w)
    (c : Carries h record env l (stretch (stream env.conn) env.th_seq n))
    (hn : (lookup TcpTable.scheme w.tcp env.key).1 = none) (h4 : 4 ≤ n) (hle : n ≤ l.announced.toNat + 4) :
    Inv stream (processPacket ind w h record).world ∧ PacketSafe stream w h record (processPacket ind w h record) := by
  obtain ⟨L, hL, hall⟩ := hw.tcp
  have a := c.atSegment
  have hp4 : 4 ≤ (stretch (stream env.conn) env.th_seq n).length := by rw [stretch_length]; exact h4
  have notFound : ∀ env' l' m, headers h record = .ok (env', l') →
      (lookup TcpTable.scheme w.tcp env'.key).1 = some m → False := fun env' l' m he hm => by
    rw [c.parsed] at he
    cases he
    rw [hn] at hm; cases hm
  by_cases heq : l.announced.toNat + 4 = n
  · have hp := packet_sole ind c.parsed a hp4 hL hw.xid hn (by rw [stretch_length]; exact heq)
    exact ⟨⟨hp.xid, L, hp.tcp, hall⟩, by rw [hp.copies]; nofun, fun _ _ m he _ hm => (notFound _ _ m he hm).elim, hp.exit⟩
  have hlt : (stretch (stream env.conn) env.th_seq n).length < l.announced.toNat + 4 := by rw [stretch_length]; omega
  by_cases hbig : 16384 < l.announced.toNat
  · have hp := packet_reject ind c.parsed a hp4 hL hw.xid hn hlt hbig
    exact ⟨⟨hp.xid, L, hp.tcp, hall⟩, by rw [hp.copies]; nofun, fun _ _ m he _ hm => (notFound _ _ m he hm).elim, hp.exit⟩
  · obtain ⟨f, hf, _, hfirst, _, hp⟩ := packet_first ind c.parsed a hp4 hL hw.xid hn hlt (by omega)
    refine ⟨⟨hp.xid, _, hp.tcp, waiting_subset hall ⟨n - 4, ?_, ?_⟩⟩, ?_,
      fun _ _ m he _ hm => (notFound _ _ m he hm).elim, hp.exit⟩
    · have hconn : f.conn = env.conn := hf.conn
      rw [stretch_drop _ _ h4] at hf
      rw [hf.key, hconn, hfirst, hf.rpc_len, toNat_ofNat_lt (by have := announced_lt l; omega)]
      exact hf
    · have hconn : f.conn = env.conn := hf.conn
      rw [hf.rpc_len, hconn, hfirst, UInt32.ofNat_toNat, announced_markAt _ _ c.holds h4, UInt32.add_sub_cancel]
    · rw [hp.copies, stretch_length]
      intro e he
      rw [List.mem_singleton.mp he]
      rw [stretch_length] at hlt
      have := announced_lt l
      show 0 + (UInt32.ofNat (n - 4)).toNat ≤ l.announced.toNat
      rw [toNat_ofNat_lt (by omega)]; omega

/-- A segment a fragment waits for. -/
theorem next_step {env : Env} {l : Locals} {n : Nat} (ind : Indet) (hw : Inv stream w)
    (c : Carries h record env l (stretch (stream env.conn) env.th_seq n)) {m : Node TcpFragment}
    (hm : (lookup TcpTable.scheme w.tcp env.key).1 = some m) :
    Inv stream (processPacket ind w h record).world ∧ PacketSafe stream w h record (processPacket ind w h record) := by
  obtain ⟨L, hL, hall⟩ := hw.tcp
  have a := c.atSegment
  have hne := c.nonempty
  have hfind := (lookup_lists hL env.key).1
  rw [hm] at hfind
  have hkey : TcpTable.scheme.key m.val = env.key := by simpa using List.find?_some hfind.symm
  obtain ⟨g, hp, hmark⟩ := hall m (List.mem_of_find?_eq_some hfind.symm)
  have hconn : m.val.conn = env.conn :=
    conn_of_key hkey
  rw [hkey, hconn] at hp
  rw [hconn] at hmark
  have hs := hp.short
  have hothers : ∀ n ∈ others L env.key, Received stream n.val := fun n hn => hall n (List.mem_of_mem_eraseP hn)
  -- the segment goes on where the fragment stops
  have hseq : env.th_seq = m.val.firstSeq + UInt32.ofNat g := by
    have := hp.nextSeq
    rwa [stretch_length] at this
  rw [stretch_length] at hs
  by_cases hlt : g + n < m.val.rpc_len.toNat
  · obtain ⟨f, hf, _, hfirst, _, hr⟩ := packet_more ind c.parsed a hne hL hw.xid hm hp
      (by rw [stretch_length, stretch_length]; exact hlt)
    have hfconn : f.conn = env.conn :=
      hf.conn
    have hflen : f.rpc_len = m.val.rpc_len := by rw [hf.rpc_len, UInt32.ofNat_toNat]
    refine ⟨⟨hr.xid, _, hr.tcp, waiting_subset hothers ⟨g + n, ?_, ?_⟩⟩, ?_, fun _ _ _ _ _ _ => Or.inl hr.handed, hr.exit⟩
    · rw [hf.key, hfconn, hfirst, hflen, ← stretch_append, ← hseq]
      exact hf
    · rw [hflen, hfconn, hfirst]; exact hmark
    · rw [hr.copies]
      intro e he
      rw [List.mem_singleton.mp he]
      show (UInt32.ofNat (stretch _ _ g).length).toNat + (UInt32.ofNat (stretch _ _ n).length).toNat ≤
        (UInt32.ofNat m.val.rpc_len.toNat).toNat
      rw [stretch_length, stretch_length, toNat_ofNat_lt (by omega), toNat_ofNat_lt (by omega), toNat_ofNat_lt (by omega)]
      omega
  · have hr := packet_complete ind c.parsed a hne hL hw.xid hm hp (by rw [stretch_length, stretch_length]; omega)
    refine ⟨⟨hr.xid, _, hr.tcp, hothers⟩, ?_, fun env' l' m' he _ hm' => Or.inr ?_, hr.exit⟩
    · rw [hr.copies]
      intro e he
      rw [List.mem_singleton.mp he]
      show (UInt32.ofNat (stretch _ _ g).length).toNat + (UInt32.ofNat (_ - (stretch _ _ g).length)).toNat ≤
        (UInt32.ofNat m.val.rpc_len.toNat).toNat
      rw [stretch_length, toNat_ofNat_lt (by omega), toNat_ofNat_lt (by omega), toNat_ofNat_lt (by omega)]
      omega
    · rw [c.parsed] at he
      cases he
      rw [hm] at hm'
      cases hm'
      rw [hr.handed, stretch_length, stretch_take _ _ (by omega), hseq, stretch_append]
      congr 2; omega

theorem packet_step (ind : Indet) (hw : Inv stream w) (hs : OnStream stream w h record) :
    Inv stream (processPacket ind w h record).world ∧ PacketSafe stream w h record (processPacket ind w h record) := by
  by_cases htcp : ∃ env l, headers h record = .ok (env, l) ∧ env.proto = IPPROTO_TCP
  · obtain ⟨env, l, hh, hp⟩ := htcp
    obtain ⟨n, c, hstart⟩ := hs env l hh hp
    cases hn : (lookup TcpTable.scheme w.tcp env.key).1 with
    | none => exact start_step ind hw c hn (hstart hn).1 (hstart hn).2
    | some m => exact next_step ind hw c hn
  · have hno : ∀ env l, headers h record = .ok (env, l) → env.proto ≠ IPPROTO_TCP := fun env l hh hp =>
      htcp ⟨env, l, hh, hp⟩
    obtain ⟨L, hL, hall⟩ := hw.tcp
    obtain ⟨h1, h2, h3, h4⟩ := packet_other ind hL hw.xid hno
    exact ⟨⟨h2, L, h1, hall⟩, by rw [h3]; nofun, fun env l _ hh hp _ => absurd hp (hno env l hh), h4⟩

theorem xidOk_init : XidOk World.init := ⟨[], empty_lists XidTable.scheme (by decide)⟩

theorem tcp_init : Lists TcpTable.scheme World.init.tcp [] := empty_lists TcpTable.scheme (by decide)

theorem streamRun_inv (hw : StreamRun stream w) : Inv stream w := by
  induction hw with
  | init => exact ⟨xidOk_init, [], tcp_init, nofun⟩
  | packet ind h record _ hs ih => exact (packet_step ind ih hs).1

theorem reassembly_sound (hw : StreamRun stream w) :
    (∀ b, ∀ n ∈ w.tcp.chain b, Sound stream n.val) ∧
      ∀ ind h record, OnStream stream w h record → PacketSafe stream w h record (processPacket ind w h record) := by
  have hi := streamRun_inv hw
  obtain ⟨L, hL, hall⟩ := hi.tcp
  exact ⟨fun b n hn => (hall n (hL.mem_chain.mp hn).1).sound, fun ind h record hs => (packet_step ind hi hs).2⟩

/-- The frames of `Frame` are such packets. -/
theorem TcpFrame.onStream {c : Conn} {seq : UInt32} {e i t n : Nat} (f : TcpFrame h c seq e i t (stretch (stream c) seq n))
    (hpos : 0 < n) (hstart : (lookup TcpTable.scheme w.tcp (c.key seq)).1 = none →
      4 ≤ n ∧ n ≤ (markAt (stream c) seq).toNat + 4) : OnStream stream w h record := by
  intro env l hh _
  obtain ⟨env', l', hc, rfl, rfl, _, _⟩ := f.carries (List.ne_nil_of_length_pos (by simpa using hpos)) record
  rw [hc.parsed] at hh
  cases hh
  refine ⟨n, hc, fun hn => ?_⟩
  obtain ⟨h4, hle⟩ := hstart hn
  exact ⟨h4, by rw [announced_markAt _ _ hc.holds h4]; exact hle⟩

/-- A stream that starts with a record of eight bytes. -/
def eightBytes : Conn → UInt32 → UInt8 := fun _ q => [0x80, 0, 0, 8, 1, 2, 3, 4, 5, 6, 7, 8].getD q.toNat 0

/-- After one packet: the record's mark and the first half of its body. -/
def afterFirst : World :=
  (processPacket Indet.zero World.init (tcpPacket 100 ⟨1, 2, 3, 4⟩ 0 (stretch (eightBytes ⟨1, 2, 3, 4⟩) 0 8)) NfsPkt.zero).world

theorem reassembly_sound_first :
    (∀ b, ∀ n ∈ afterFirst.tcp.chain b, Sound eightBytes n.val) ∧
      ∀ ind h record, OnStream eightBytes afterFirst h record → PacketSafe eightBytes afterFirst h record
        (processPacket ind afterFirst h record) :=
  have f := tcpPacket_frame 100 ⟨1, 2, 3, 4⟩ 0 (show (stretch (eightBytes ⟨1, 2, 3, 4⟩) 0 8).length < 65496 by decide)
  reassembly_sound (.packet Indet.zero _ NfsPkt.zero .init (f.onStream (by decide) fun _ => by decide))

end Nfsdump.Record
