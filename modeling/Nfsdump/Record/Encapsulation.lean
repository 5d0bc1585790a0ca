/-
  Nfsdump.Record.Encapsulation — one datagram in an Ethernet II frame, in an 802.3 frame with
  an LLC/SNAP header, and in an Ethernet II frame with an 802.1Q tag.

  In two frames the datagram lies at one place in memory, behind link headers of different
  lengths. Where neither frame has a tag the runs differ by the lengths alone: `Locals.moved`
  are one run's locals in the other's frame, and what is read is the same (`SameBytes`).

  Proved (`encapsulation_iff`), on tables that any packets leave: two frames of a datagram
  have the same effect, whatever the record held, iff both have a tag or neither has. Behind a
  tag the code takes the datagram's length for the frame's type and drops the frame
  (`tagged_dropped`).
-/

import Nfsdump.Record.Moved
import Nfsdump.Record.Whole

namespace Nfsdump.Record

open ChainTable Wire

/-! ## Frames -/

inductive Encapsulation where
  | ethernetII
  | llcSnap
  | vlan (tci : UInt16)

def Encapsulation.Tagged : Encapsulation → Prop
  | .vlan _ => True
  | _ => False

/-- A frame's encapsulation and its two addresses. -/
structure Link where
  encapsulation : Encapsulation
  macs : List UInt8
  macs_length : macs.length = 12

/-- The link header in front of a datagram of `n` bytes. -/
def Link.header (k : Link) (n : Nat) : List UInt8 :=
  match k.encapsulation with
  | .ethernetII => k.macs ++ (be16 0x0800 ++ [])
  | .llcSnap => k.macs ++ (be16 (8 + n) ++ ([0xAA, 0xAA, 0x03, 0, 0, 0] ++ (be16 0x0800 ++ [])))
  | .vlan tci => k.macs ++ (be16 0x8100 ++ (be16 tci.toNat ++ be16 0x0800))

/-- The datagram at `d` with a header in front. -/
def framed (header : List UInt8) (d : Ptr) : Ptr :=
  ⟨d.addr - UInt32.ofNat header.length, fun i =>
    if i.toNat < header.length then header.getD i.toNat 0 else d.byte (i - UInt32.ofNat header.length)⟩

/-- The captured frame of the `n` bytes at `d`. -/
def Link.packet (k : Link) (tv_sec tv_usec : UInt32) (d : Ptr) (n : Nat) : Packet :=
  ⟨tv_sec, tv_usec, UInt32.ofNat ((k.header n).length + n), framed (k.header n) d⟩

/-- The IPv4 datagram at `d` carries `payload` on `c`, behind `i` bytes of IP header and `t` of TCP
    or UDP header. -/
structure Datagram (d : Ptr) (c : Conn) (proto : UInt8) (i t : Nat) (payload : List UInt8) : Prop where
  ipWords : i % 4 = 0 ∧ 20 ≤ i ∧ i ≤ 60
  version : (d.byte 0).toNat = 64 + i / 4
  first : d.half 6 &&& 0x1fff = 0
  protocol : d.byte 9 = proto
  total : (d.half 2).toNat = i + t + payload.length
  srcHost : d.word 12 = c.srcHost
  dstHost : d.word 16 = c.dstHost
  transport : (proto = 6 ∧ t % 4 = 0 ∧ 20 ≤ t ∧ t ≤ 60 ∧ ((d.add (UInt32.ofNat i)).byte 12).toNat / 16 = t / 4) ∨
    (proto = 17 ∧ t = 8)
  srcPort : (d.add (UInt32.ofNat i)).half 0 = c.srcPort.toUInt32
  dstPort : (d.add (UInt32.ofNat i)).half 2 = c.dstPort.toUInt32
  message : (d.add (UInt32.ofNat (i + t))).Holds payload
  carries : payload ≠ []
  size : i + t + payload.length ≤ 1492

variable {d : Ptr} {c : Conn} {proto : UInt8} {i t : Nat} {payload : List UInt8} {k : Link} {tv_sec tv_usec : UInt32}

theorem framed_holds {header : List UInt8} (hlen : header.length < 2 ^ 32) (d : Ptr) : (framed header d).Holds header := by
  intro j hj
  show (if _ then _ else _) = _
  rw [toNat_ofNat_lt (by omega), if_pos hj, List.getD_eq_getElem?_getD, List.getElem?_eq_getElem hj, Option.getD_some]

/-- Behind the header is the datagram, and what lies behind that. -/
theorem framed_same {header : List UInt8} (hlen : header.length ≤ 22) (d : Ptr) :
    SameBytes (2 ^ 32 - 22) ((framed header d).add (UInt32.ofNat header.length)) d := by
  refine ⟨UInt32.sub_add_cancel _ _, fun j hj => ?_⟩
  show (if _ then _ else _) = _
  have hsum : (UInt32.ofNat header.length + j).toNat = header.length + j.toNat := by
    rw [UInt32.toNat_add, toNat_ofNat_lt (by omega)]
    omega
  rw [hsum, if_neg (by omega), add_sub_self]

/-- And `m` bytes into the datagram. -/
theorem framed_at {header : List UInt8} (hlen : header.length ≤ 22) (d : Ptr) {m : Nat} (hm : m ≤ 1492) :
    SameBytes (2 ^ 31) ((framed header d).add (UInt32.ofNat (header.length + m))) (d.add (UInt32.ofNat m)) := by
  have hsame := (framed_same hlen d).add (n := UInt32.ofNat m) (j := 2 ^ 31) (by rw [toNat_ofNat_lt (by omega)]; omega) (by decide)
  rwa [Ptr.add_add, ← UInt32.ofNat_add] at hsame

theorem Link.header_length (k : Link) (n : Nat) : (k.header n).length =
    match k.encapsulation with
    | .ethernetII => 14
    | .llcSnap => 22
    | .vlan _ => 18 := by
  have hmacs := k.macs_length
  unfold Link.header
  cases k.encapsulation <;> simp [be16, hmacs]

theorem Link.header_le (k : Link) (n : Nat) : 14 ≤ (k.header n).length ∧ (k.header n).length ≤ 22 := by
  rw [k.header_length]
  cases k.encapsulation <;> simp

/-- The half word behind the addresses. -/
theorem Link.half_type (k : Link) {n m : Nat} {rest : List UInt8} (h : k.header n = k.macs ++ (be16 m ++ rest)) (hm : m < 2 ^ 16)
    (d : Ptr) :
    (framed (k.header n) d).half 12 = UInt32.ofNat m := by
  have hheld : (framed (k.header n) d).Holds (k.header n) := framed_holds (by have := k.header_le n; omega) d
  rw [h] at hheld
  have hat := Ptr.half_at k.macs hheld hm
  rwa [k.macs_length, ← h] at hat

/-- A frame without a tag is one of those that are read. -/
theorem Datagram.frame (hd : Datagram d c proto i t payload) (hk : ¬ k.encapsulation.Tagged) :
    Frame (k.packet tv_sec tv_usec d (i + t + payload.length)) c proto (k.header (i + t + payload.length)).length i t payload := by
  have hle := k.header_le (i + t + payload.length)
  have hsize := hd.size
  obtain ⟨hi4, hi1, hi2⟩ := hd.ipWords
  have hsame := framed_same hle.2 d
  generalize hn : i + t + payload.length = n at *
  have hip := framed_at hle.2 d (m := i) (by omega)
  have hpay := framed_at hle.2 d (m := i + t) (by omega)
  rw [← Nat.add_assoc] at hpay
  refine ⟨?_, hd.ipWords, ?_, ?_, ?_, ?_, ?_, ?_, ?_, ?_, ?_, hpay.holds hd.message (by omega) (by decide)⟩
  · cases hkind : k.encapsulation with
    | ethernetII =>
      left
      have hhead : k.header n = k.macs ++ (be16 0x0800 ++ []) := by rw [Link.header, hkind]
      refine ⟨by rw [k.header_length, hkind], ?_⟩
      exact k.half_type hhead (by decide) d
    | llcSnap =>
      right
      have hhead : k.header n = k.macs ++ (be16 (8 + n) ++ ([0xAA, 0xAA, 0x03, 0, 0, 0] ++ (be16 0x0800 ++ []))) := by
        rw [Link.header, hkind]
      refine ⟨by rw [k.header_length, hkind], ?_, ?_⟩
      · show (framed (k.header n) d).half 12 ≤ ETHERMTU
        rw [k.half_type hhead (by omega), UInt32.le_iff_toNat_le, toNat_ofNat_lt (by omega)]
        show 8 + n ≤ 1500
        omega
      · have hheld : (framed (k.header n) d).Holds (k.header n) := framed_holds (by omega) d
        rw [hhead, ← List.append_assoc, ← List.append_assoc] at hheld
        have hat := Ptr.half_at (k.macs ++ be16 (8 + n) ++ [0xAA, 0xAA, 0x03, 0, 0, 0]) hheld (by decide)
        rwa [List.length_append, List.length_append, k.macs_length, List.append_assoc, List.append_assoc, ← hhead] at hat
    | vlan tci =>
      rw [hkind] at hk
      exact absurd trivial hk
  · exact (congrArg UInt8.toNat (hsame.byte 0 (by decide))).trans hd.version
  · exact (congrArg (· &&& 0x1fff) (hsame.half (n := 6) (by decide) (by decide))).trans hd.first
  · exact (hsame.byte 9 (by decide)).trans hd.protocol
  · exact (congrArg UInt32.toNat (hsame.half (n := 2) (by decide) (by decide))).trans hd.total
  · exact (hsame.word (n := 12) (by decide) (by decide)).trans hd.srcHost
  · exact (hsame.word (n := 16) (by decide) (by decide)).trans hd.dstHost
  · exact (hip.half (n := 0) (by decide) (by decide)).trans hd.srcPort
  · exact (hip.half (n := 2) (by decide) (by decide)).trans hd.dstPort
  · show (UInt32.ofNat ((k.header n).length + n)).toNat = _
    rw [toNat_ofNat_lt (by omega)]
    omega

/-- Behind a tag the datagram's length stands where the code looks for the frame's type. -/
theorem tagged_dropped (hd : Datagram d c proto i t payload) (hk : k.encapsulation.Tagged) (ind : Indet) (w : World) (record : NfsPkt) :
    processPacket ind w (k.packet tv_sec tv_usec d (i + t + payload.length)) record = ⟨.returned 0, w, record, []⟩ := by
  have hsize := hd.size
  cases hkind : k.encapsulation with
  | vlan tci =>
    generalize hn : i + t + payload.length = n at *
    have hlen : (k.header n).length = 18 := by rw [k.header_length, hkind]
    have hhead : k.header n = k.macs ++ (be16 0x8100 ++ (be16 tci.toNat ++ be16 0x0800)) := by rw [Link.header, hkind]
    have htag : (framed (k.header n) d).half 12 = 0x8100 := k.half_type hhead (by decide) d
    have hsame := framed_same (by omega : (k.header n).length ≤ 22) d
    rw [hlen] at hsame
    have htype : (framed (k.header n) d).half 20 = d.half 2 := hsame.half (n := 2) (by decide) (by decide)
    have hne : (framed (k.header n) d).half 20 ≠ 0x0800 := by
      intro h
      have htotal := hd.total
      rw [← htype, h, hn, show (0x0800 : UInt32).toNat = 2048 from rfl] at htotal
      omega
    have hether : getEtherHeader (k.packet tv_sec tv_usec d n).caplen (framed (k.header n) d) =
        ⟨18, (framed (k.header n) d).half 20, (framed (k.header n) d).half 16⟩ := by
      unfold getEtherHeader
      rw [htag, if_pos rfl]
    have hheaders : headers (k.packet tv_sec tv_usec d n) record = .error 0 := by
      unfold headers
      simp only [show (k.packet tv_sec tv_usec d n).pp = framed (k.header n) d from rfl, hether]
      rw [if_neg (show ¬ (18 : Int32) ≤ 0 by decide), if_pos hne, ite_self]
    unfold processPacket
    rw [hheaders]
  | _ =>
    rw [hkind] at hk
    cases hk

/-! ## The packets -/

/-- Up to the loop the frames of a datagram come out alike. -/
theorem Datagram.start (hd : Datagram d c proto i t payload) (tv_sec tv_usec : UInt32) (record : NfsPkt) : ∃ env l,
    (∀ k : Link, ¬ k.encapsulation.Tagged → headers (k.packet tv_sec tv_usec d (i + t + payload.length)) record =
      .ok (env, l.moved (framed (k.header (i + t + payload.length)) d) (UInt32.ofNat (k.header (i + t + payload.length)).length)
        (UInt32.ofNat (i + t + payload.length)) (UInt32.ofNat (i + t)))) ∧
      ∀ w, AtHead env w l (UInt32.ofNat (i + t + payload.length)) (UInt32.ofNat (i + t)) := by
  obtain ⟨hi4, hi1, hi2⟩ := hd.ipWords
  have hsize := hd.size
  have hsums : ∀ k : Link, UInt32.ofNat ((k.header (i + t + payload.length)).length + (i + t + payload.length)) =
        UInt32.ofNat (k.header (i + t + payload.length)).length + UInt32.ofNat (i + t + payload.length) ∧
      UInt32.ofNat ((k.header (i + t + payload.length)).length + i + t) =
        UInt32.ofNat (k.header (i + t + payload.length)).length + UInt32.ofNat (i + t) := by
    intro k
    rw [Nat.add_assoc _ i t]
    exact ⟨UInt32.ofNat_add .., UInt32.ofNat_add ..⟩
  rcases hd.transport with ⟨rfl, ht4, ht1, ht2, hoff⟩ | ⟨rfl, rfl⟩
  · refine ⟨⟨IPPROTO_TCP, UInt32.ofNat (i + t + payload.length), (d.add (UInt32.ofNat i)).word 4, c.srcHost, c.dstHost,
      c.srcPort.toUInt32,
      c.dstPort.toUInt32⟩, ⟨d, 0, 0, 0, UInt32.ofNat i, UInt32.ofNat t, 0, c.fill ⟨tv_sec, tv_usec, 0, d⟩ record, none, 0⟩,
        fun k hk => ?_, fun w => ?_⟩
    · have hip := framed_at (k.header_le (i + t + payload.length)).2 d (m := i) (by omega)
      have f : TcpFrame (k.packet tv_sec tv_usec d (i + t + payload.length)) c ((d.add (UInt32.ofNat i)).word 4)
          (k.header (i + t + payload.length)).length i t payload :=
        { hd.frame hk with
          tcpWords := ⟨ht4, ht1, ht2⟩
          offset := (congrArg (fun v : UInt8 => v.toNat / 16) (hip.byte 12 (by decide))).trans hoff
          seq := hip.word (n := 4) (by decide) (by decide) }
      rw [headers_tcp f hd.carries, (hsums k).2]
      show Except.ok (_, Locals.mk _ (UInt32.ofNat _) _ _ _ _ _ _ _ _) = _
      rw [(hsums k).1]
      rfl
    · refine ⟨?_, fun h => absurd rfl h, fun f _ => ?_, ?_⟩
      · show (UInt32.ofNat i).toNat + (UInt32.ofNat t).toNat ≤ (UInt32.ofNat (i + t)).toNat
        rw [toNat_ofNat_lt (by omega), toNat_ofNat_lt (by omega), toNat_ofNat_lt (by omega)]
      · show (UInt32.ofNat i).toNat + (UInt32.ofNat t).toNat ≤ (UInt32.ofNat (i + t + payload.length)).toNat
        rw [toNat_ofNat_lt (by omega), toNat_ofNat_lt (by omega), toNat_ofNat_lt (by omega)]
        omega
      · show (UInt32.ofNat (i + t + payload.length)).toNat < 65536
        rw [toNat_ofNat_lt (by omega)]
        omega
  · refine ⟨⟨IPPROTO_UDP, UInt32.ofNat (i + 8 + payload.length), 0, c.srcHost, c.dstHost, c.srcPort.toUInt32, c.dstPort.toUInt32⟩,
      ⟨d, 0, 0, 0, UInt32.ofNat i, 8, UInt32.ofNat payload.length, c.fill ⟨tv_sec, tv_usec, 0, d⟩ record, none, 0⟩,
        fun k hk => ?_, fun w => ?_⟩
    · rw [headers_udp (hd.frame hk) hd.carries, (hsums k).2]
      show Except.ok (_, Locals.mk _ (UInt32.ofNat _) _ _ _ _ _ _ _ _) = _
      rw [(hsums k).1]
      rfl
    · refine ⟨?_, fun _ => ?_, fun f _ => ?_, ?_⟩
      · show (UInt32.ofNat i).toNat + 8 ≤ (UInt32.ofNat (i + 8)).toNat
        rw [toNat_ofNat_lt (by omega), toNat_ofNat_lt (by omega)]
      · exact (UInt32.ofNat_add ..).symm
      · show (UInt32.ofNat i).toNat + 8 ≤ (UInt32.ofNat (i + 8 + payload.length)).toNat
        rw [toNat_ofNat_lt (by omega), toNat_ofNat_lt (by omega)]
        omega
      · show (UInt32.ofNat (i + 8 + payload.length)).toNat < 65536
        rw [toNat_ofNat_lt (by omega)]
        omega

/-- Two frames without a tag. -/
theorem untagged_same (hd : Datagram d c proto i t payload) (hw : Run w) {k k' : Link} (hk : ¬ k.encapsulation.Tagged)
    (hk' : ¬ k'.encapsulation.Tagged) (record : NfsPkt)
    (hs : ∀ bp a m, .rpcHeader bp a m ∈ (processPacket ind w (k.packet tv_sec tv_usec d (i + t + payload.length)) record).events →
      SaneCredential bp) :
    SameEffect d.addr (processPacket ind w (k.packet tv_sec tv_usec d (i + t + payload.length)) record)
      (processPacket ind w (k'.packet tv_sec tv_usec d (i + t + payload.length)) record) := by
  obtain ⟨env, l, hheaders, hready⟩ := hd.start tv_sec tv_usec record
  have hsize := hd.size
  have hlen : ∀ k : Link, (UInt32.ofNat (k.header (i + t + payload.length)).length).toNat ≤ 22 := fun k => by
    have := k.header_le (i + t + payload.length)
    rw [toNat_ofNat_lt (by omega)]
    omega
  have hcap : ∀ k : Link, (k.packet tv_sec tv_usec d (i + t + payload.length)).caplen.toNat ≤ 1514 := fun k => by
    have := k.header_le (i + t + payload.length)
    show (UInt32.ofNat _).toNat ≤ _
    rw [toNat_ofNat_lt (by omega)]
    omega
  -- as many iterations for one as for the other
  have hfuel : ∀ k : Link, ¬ k.encapsulation.Tagged → processPacket ind w (k.packet tv_sec tv_usec d (i + t + payload.length)) record =
      finishPacket record (loop ind env 1515 w (l.moved (framed (k.header (i + t + payload.length)) d)
        (UInt32.ofNat (k.header (i + t + payload.length)).length) (UInt32.ofNat (i + t + payload.length)) (UInt32.ofNat (i + t)))) := by
    intro k hk
    have a := headers_ok (hheaders k hk)
    have hc := hcap k
    unfold processPacket
    rw [hheaders k hk]
    exact congrArg (finishPacket record) (loop_enough _ (a.turn (by omega)) (a.covers (by omega)) (a.covers (by omega)) (run_tables hw))
  have b : Beside d.addr (framed (k.header (i + t + payload.length)) d) (framed (k'.header (i + t + payload.length)) d)
      (UInt32.ofNat (k.header (i + t + payload.length)).length) (UInt32.ofNat (k'.header (i + t + payload.length)).length)
      (UInt32.ofNat (i + t + payload.length)) :=
    ⟨UInt32.sub_add_cancel _ _, (framed_same (k.header_le _).2 d).trans (framed_same (k'.header_le _).2 d).symm, hlen k, hlen k',
      by rw [toNat_ofNat_lt (by omega)]; exact hsize⟩
  rw [hfuel k hk] at hs ⊢
  rw [hfuel k' hk']
  obtain ⟨freed, hfreed, -⟩ := finishPacket_events record (loop ind env 1515 w (l.moved (framed (k.header (i + t + payload.length)) d)
    (UInt32.ofNat (k.header (i + t + payload.length)).length) (UInt32.ofNat (i + t + payload.length)) (UInt32.ofNat (i + t))))
  rw [hfreed] at hs
  refine SameOut.finish (b.run 1515 ?_ (fun _ => hready w) (run_tables hw) (run_fragments hw) fun bp a m hm =>
    hs bp a m (List.mem_append_left _ hm)) record
  rw [toNat_ofNat_lt (by omega)]
  omega

/-- A frame without a tag fills in the packet's time. -/
theorem untagged_fills (hd : Datagram d c proto i t payload) (hw : Run w) (hk : ¬ k.encapsulation.Tagged) (tv_sec tv_usec : UInt32)
    (ind : Indet) (record : NfsPkt) :
    (processPacket ind w (k.packet tv_sec tv_usec d (i + t + payload.length)) record).record.secs = tv_sec := by
  obtain ⟨env, l, hheaders, -⟩ := hd.start tv_sec tv_usec record
  have hsize := hd.size
  have hle := k.header_le (i + t + payload.length)
  refine (processPacket_returns ?_ (run_tables hw) ind record).2.2 env _ (hheaders k hk)
  show (UInt32.ofNat _).toNat + 4 < 2 ^ 31
  rw [toNat_ofNat_lt (by omega)]
  omega

/-- Two frames of a datagram have the same effect, whatever the record held, iff both have a tag or
    neither has. -/
theorem encapsulation_iff (hd : Datagram d c proto i t payload) (hw : Run w) (ind : Indet) (tv_sec tv_usec : UInt32) (k k' : Link)
    (hs : ∀ record bp a m, .rpcHeader bp a m ∈ (processPacket ind w (k.packet tv_sec tv_usec d (i + t + payload.length)) record).events →
      SaneCredential bp) :
    (∀ record, SameEffect d.addr (processPacket ind w (k.packet tv_sec tv_usec d (i + t + payload.length)) record)
      (processPacket ind w (k'.packet tv_sec tv_usec d (i + t + payload.length)) record)) ↔
      (k.encapsulation.Tagged ↔ k'.encapsulation.Tagged) := by
  have hother : tv_sec + 1 ≠ tv_sec := by
    intro h
    have := congrArg UInt32.toNat h
    rw [UInt32.toNat_add, show (1 : UInt32).toNat = 1 from rfl] at this
    have := tv_sec.toNat_lt
    omega
  constructor
  · intro h
    have hrecord := (h { NfsPkt.zero with secs := tv_sec + 1 }).record
    by_cases hk : k.encapsulation.Tagged
    · refine iff_of_true hk (by_contra fun hk' => hother ?_)
      rw [tagged_dropped hd hk] at hrecord
      have := untagged_fills hd hw hk' tv_sec tv_usec ind { NfsPkt.zero with secs := tv_sec + 1 }
      rw [← hrecord] at this
      exact this
    · refine iff_of_false hk fun hk' => hother ?_
      rw [tagged_dropped hd hk'] at hrecord
      have := untagged_fills hd hw hk tv_sec tv_usec ind { NfsPkt.zero with secs := tv_sec + 1 }
      rw [hrecord] at this
      exact this
  · intro h record
    by_cases hk : k.encapsulation.Tagged
    · rw [tagged_dropped hd hk, tagged_dropped hd (h.mp hk)]
      exact ⟨rfl, rfl, SameDeeds.refl []⟩
    · exact untagged_same hd hw hk (fun hk' => hk (h.mpr hk')) record (hs record)

/-- A datagram with one message hands over that message. -/
theorem UdpFrame.sane {h : Packet} {m : List UInt8} {f : Nat} (hframe : UdpFrame h c f i m) (hfit : h.pp.Fits h.caplen.toNat)
    (hlen : 32 ≤ m.length) (hm : SaneCredential (Ptr.ofBytes m)) (ind : Indet) (w : World) (record : NfsPkt) :
    ∀ bp a n, .rpcHeader bp a n ∈ (processPacket ind w h record).events → SaneCredential bp := by
  intro bp a n hin
  obtain ⟨env, l, ⟨arrived, -, -, hfree⟩, hrun⟩ := hframe.arrives (List.ne_nil_of_length_pos (by omega)) hfit record
  obtain ⟨out, hout, hev, -⟩ := loop_last ind env w l (h.caplen.toNat + 1) arrived.ends
  obtain ⟨freed, hevents, hfreed⟩ := finishPacket_events record out
  rw [hrun, hout, hevents, hev, List.mem_append] at hin
  rcases hin with hin | hin
  · obtain rfl := rpcHeader_sole ind env w l hin
    unfold SaneCredential
    rw [arrived.word (by show 4 + 4 ≤ _; omega), arrived.word (by show 28 + 4 ≤ _; omega)]
    exact hm
  · obtain ⟨id, hid⟩ := hfreed _ hin
    cases hid

/-! ### A datagram -/

theorem macs_length : (List.replicate 12 (0 : UInt8)).length = 12 := rfl

def Encapsulation.link (s : Encapsulation) : Link := ⟨s, List.replicate 12 0, macs_length⟩

/-- A call in a UDP datagram, 64 bytes into memory. -/
def callDatagram : Ptr :=
  .placed 64 (ipBytes ⟨1, 2, 3, 4⟩ 17 72 ++ (be16 2 ++ (be16 4 ++ (be16 72 ++ [0, 0]))) ++ callBytes 7 1 [0, 0, 0, 4])

theorem callDatagram_datagram : Datagram callDatagram ⟨1, 2, 3, 4⟩ 17 20 8 (callBytes 7 1 [0, 0, 0, 4]) where
  ipWords := by decide
  version := by decide
  first := by decide
  protocol := by decide
  total := by decide
  srcHost := by decide
  dstHost := by decide
  transport := Or.inr ⟨rfl, rfl⟩
  srcPort := by decide
  dstPort := by decide
  message := by
    have hheld : callDatagram.Holds _ := Ptr.placed_holds (by decide) 64
    exact (Ptr.holds_append.mp hheld).2
  carries := by decide
  size := by decide

def Encapsulation.callFrame (s : Encapsulation) : Packet :=
  s.link.packet 100 0 callDatagram (20 + 8 + (callBytes 7 1 [0, 0, 0, 4]).length)

theorem callFrame_sane (ind : Indet) (record : NfsPkt) : ∀ bp a m,
    .rpcHeader bp a m ∈ (processPacket ind World.init Encapsulation.ethernetII.callFrame record).events → SaneCredential bp := by
  have hframe : Frame Encapsulation.ethernetII.callFrame _ _ _ _ _ _ :=
    callDatagram_datagram.frame (k := Encapsulation.ethernetII.link) (by simp [Encapsulation.link, Encapsulation.Tagged])
  refine UdpFrame.sane hframe ?_ (by decide) (by unfold SaneCredential; decide) ind World.init record
  unfold Ptr.Fits
  decide

theorem encapsulation_call :
    SameEffect callDatagram.addr (processPacket Indet.zero World.init Encapsulation.ethernetII.callFrame NfsPkt.zero)
      (processPacket Indet.zero World.init Encapsulation.llcSnap.callFrame NfsPkt.zero) :=
  (encapsulation_iff callDatagram_datagram Run.init Indet.zero 100 0 Encapsulation.ethernetII.link Encapsulation.llcSnap.link
    (callFrame_sane Indet.zero)).mpr Iff.rfl NfsPkt.zero

/-- In a frame with a tag the call is lost. -/
theorem encapsulation_matters : ∃ (d : Ptr) (c : Conn) (proto : UInt8) (i t : Nat) (payload : List UInt8) (k k' : Link),
    Datagram d c proto i t payload ∧
      (∀ record bp a m, .rpcHeader bp a m ∈
        (processPacket Indet.zero World.init (k.packet 100 0 d (i + t + payload.length)) record).events → SaneCredential bp) ∧
      ¬ SameEffect d.addr (processPacket Indet.zero World.init (k.packet 100 0 d (i + t + payload.length)) NfsPkt.zero)
        (processPacket Indet.zero World.init (k'.packet 100 0 d (i + t + payload.length)) NfsPkt.zero) := by
  have hdiffer : (processPacket Indet.zero World.init Encapsulation.ethernetII.callFrame NfsPkt.zero).record ≠
      (processPacket Indet.zero World.init (Encapsulation.vlan 5).callFrame NfsPkt.zero).record := by decide +kernel
  exact ⟨callDatagram, ⟨1, 2, 3, 4⟩, 17, 20, 8, callBytes 7 1 [0, 0, 0, 4], Encapsulation.ethernetII.link, (Encapsulation.vlan 5).link,
    callDatagram_datagram, callFrame_sane Indet.zero, fun h => hdiffer h.record⟩

end Nfsdump.Record
