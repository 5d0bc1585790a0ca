/-
  Nfsdump.Record.Frame — the frames the results are about: a TCP or UDP segment in an IPv4
  datagram in an Ethernet II or an IEEE 802.3 LLC/SNAP frame, captured whole and without
  padding, with any IP and TCP options. `headers_tcp` and `headers_udp` are what
  `processPacket` makes of them up to its loop.
-/

import Nfsdump.Record.ProcessPacket

namespace Nfsdump.Record

open ChainTable Wire

/-- One direction of a connection. -/
structure Conn where
  srcHost : UInt32
  srcPort : UInt16
  dstHost : UInt32
  dstPort : UInt16
  deriving DecidableEq, Repr

/-- The frame `h` carries `payload` on `c` behind `e` bytes of link header, `i` of IP header
    and `t` of transport header. -/
structure Frame (h : Packet) (c : Conn) (proto : UInt8) (e i t : Nat) (payload : List UInt8) : Prop where
  link : (e = 14 ∧ h.pp.half 12 = 0x0800) ∨ (e = 22 ∧ h.pp.half 12 ≤ ETHERMTU ∧ h.pp.half 20 = 0x0800)
  ipWords : i % 4 = 0 ∧ 20 ≤ i ∧ i ≤ 60
  version : ((h.pp.add (UInt32.ofNat e)).byte 0).toNat = 64 + i / 4
  first : (h.pp.add (UInt32.ofNat e)).half 6 &&& 0x1fff = 0
  proto : (h.pp.add (UInt32.ofNat e)).byte 9 = proto
  total : ((h.pp.add (UInt32.ofNat e)).half 2).toNat = i + t + payload.length
  srcHost : (h.pp.add (UInt32.ofNat e)).word 12 = c.srcHost
  dstHost : (h.pp.add (UInt32.ofNat e)).word 16 = c.dstHost
  srcPort : (h.pp.add (UInt32.ofNat (e + i))).half 0 = c.srcPort.toUInt32
  dstPort : (h.pp.add (UInt32.ofNat (e + i))).half 2 = c.dstPort.toUInt32
  captured : h.caplen.toNat = e + i + t + payload.length
  payload : (h.pp.add (UInt32.ofNat (e + i + t))).Holds payload

structure TcpFrame (h : Packet) (c : Conn) (seq : UInt32) (e i t : Nat) (payload : List UInt8) : Prop
    extends Frame h c 6 e i t payload where
  tcpWords : t % 4 = 0 ∧ 20 ≤ t ∧ t ≤ 60
  offset : ((h.pp.add (UInt32.ofNat (e + i))).byte 12).toNat / 16 = t / 4
  seq : (h.pp.add (UInt32.ofNat (e + i))).word 4 = seq

def UdpFrame (h : Packet) (c : Conn) (e i : Nat) (payload : List UInt8) : Prop := Frame h c 17 e i 8 payload

variable {h : Packet} {c : Conn} {proto : UInt8} {e i t : Nat} {payload : List UInt8} {seq : UInt32}

theorem Frame.small (f : Frame h c proto e i t payload) (ht : t ≤ 60) :
    e ≤ 22 ∧ i ≤ 60 ∧ payload.length < 65536 ∧ e + i + t + payload.length < 2 ^ 17 := by
  have := (h.pp.add (UInt32.ofNat e)).half_lt 2
  have h1 := f.total
  have h2 := f.ipWords
  have h3 : e ≤ 22 := by rcases f.link with ⟨h, _⟩ | ⟨h, _⟩ <;> omega
  omega

theorem IP_V_eq {v : UInt8} {n : Nat} (h : v.toNat = 64 + n) (hn : n < 16) : IP_V v = 4 ∧ (IP_HL v).toNat = n := by
  have hv : v = UInt8.ofNat (64 + n) := by rw [← h]; exact UInt8.ofNat_toNat.symm
  subst hv
  have : ∀ n < 16, IP_V (UInt8.ofNat (64 + n)) = 4 ∧ (IP_HL (UInt8.ofNat (64 + n))).toNat = n := by decide
  exact this n hn

theorem TH_OFF_eq {v : UInt8} {n : Nat} (h : v.toNat / 16 = n) : (TH_OFF v).toNat = n := by
  rw [← h]
  exact byte_forall (P := fun v => (TH_OFF v).toNat = v.toNat / 16) (by decide +kernel) v

/-- The link header of such a frame takes `e` bytes and announces IP. -/
theorem Frame.ether (f : Frame h c proto e i t payload) :
    (getEtherHeader h.caplen h.pp).hdrLen = Int32.ofNat e ∧ (getEtherHeader h.caplen h.pp).proto = 0x0800 := by
  unfold getEtherHeader
  rcases f.link with ⟨rfl, hp⟩ | ⟨rfl, hl, hp⟩
  · -- an 802.3 frame of this length would have 0xAA where the IP version is
    have hAA : h.pp.byte 14 ≠ 0xAA := fun hAA => by
      have := f.version
      have hi := f.ipWords
      rw [Ptr.add_byte, show UInt32.ofNat 14 + 0 = 14 from rfl, hAA] at this
      have h170 : (0xAA : UInt8).toNat = 170 := rfl
      omega
    have h1 : ¬ ((0x0800 : UInt32) = 0x8100) := by decide
    have h2 : ¬ ((0x0800 : UInt32) ≤ ETHERMTU) := by decide
    simp only [hp, h1, h2, hAA, if_false, false_and, and_false, or_false]
    exact ⟨rfl, trivial⟩
  · have h1 : h.pp.half 12 ≠ 0x8100 := fun e => by
      rw [e] at hl; exact absurd hl (by decide)
    simp only [h1, hl, hp, if_false, true_or, if_true]
    exact ⟨rfl, trivial⟩

theorem Frame.ip (f : Frame h c proto e i t payload) :
    getIpHeader (h.pp.add (UInt32.ofNat e)) =
      .ok ⟨Int32.ofNat i, proto.toUInt32, UInt32.ofNat (i + t + payload.length), c.srcHost, c.dstHost⟩ := by
  obtain ⟨hi4, hi1, hi2⟩ := f.ipWords
  obtain ⟨hv, hl⟩ := IP_V_eq f.version (by omega)
  have e4 : i / 4 * 4 = i := by omega
  unfold getIpHeader
  rw [if_neg (not_not.mpr hv), if_neg (not_not.mpr f.first), hl, e4, f.proto, eq_ofNat f.total, f.srcHost, f.dstHost]

/-- The header lengths as the 32-bit sums the code keeps. -/
theorem ofNat_ge_iff {a : Nat} {b : UInt32} (h : a < 2 ^ 32) : UInt32.ofNat a ≥ b ↔ b.toNat ≤ a := by
  rw [ge_iff_le, UInt32.le_iff_toNat_le, toNat_ofNat_lt h]

/-- What the record is filled with from such a frame. -/
def Conn.fill (c : Conn) (h : Packet) (record : NfsPkt) : NfsPkt :=
  { record with secs := h.tv_sec, usecs := h.tv_usec, srcHost := c.srcHost, dstHost := c.dstHost,
                srcPort := c.srcPort.toUInt32, dstPort := c.dstPort.toUInt32 }

/-- Up to the transport header, for a frame with something behind it. -/
theorem Frame.headers_eq (f : Frame h c proto e i t payload) (ht : 8 ≤ t ∧ t ≤ 60) (hne : payload ≠ []) (record : NfsPkt) :
    headers h record =
      let ip : IpHeader := ⟨Int32.ofNat i, proto.toUInt32, UInt32.ofNat (i + t + payload.length), c.srcHost, c.dstHost⟩
      if proto.toUInt32 = IPPROTO_TCP then tcpHeaders h record ip (UInt32.ofNat e) (UInt32.ofNat i)
      else if proto.toUInt32 = IPPROTO_UDP then udpHeaders h record ip (UInt32.ofNat e) (UInt32.ofNat i)
      else .error 0 := by
  have hpos : 0 < payload.length := List.length_pos_iff.mpr hne
  obtain ⟨he, hi, hp, hsum⟩ := f.small ht.2
  obtain ⟨hi4, hi1, hi2⟩ := f.ipWords
  obtain ⟨heth, hproto⟩ := f.ether
  have hip := f.ip
  have hcap := f.captured
  have e14 : 14 ≤ e := by rcases f.link with ⟨h, _⟩ | ⟨h, _⟩ <;> omega
  obtain ⟨hez, heu⟩ := hdrLen_small (n := e) (by omega)
  obtain ⟨hiz, hiu⟩ := hdrLen_small (n := i) (by omega)
  have c1 : ¬ h.caplen ≤ MIN_ETHER_HDR_LEN + MIN_IP_HDR_LEN + MIN_UDP_HDR_LEN := by
    rw [UInt32.le_iff_toNat_le, hcap]
    show ¬ _ ≤ 42
    omega
  have z1 : ¬ e = 0 := by omega
  have z2 : ¬ i = 0 := by omega
  have c2 : ¬ UInt32.ofNat (e + i) ≥ h.caplen := by rw [ofNat_ge_iff (by omega)]; omega
  unfold headers
  simp only [c1, if_false, heth, hez, z1, heu, hproto, hip, hiz, z2, hiu, ← UInt32.ofNat_add, c2, ne_eq, not_true_eq_false]

theorem headers_tcp (f : TcpFrame h c seq e i t payload) (hne : payload ≠ []) (record : NfsPkt) :
    headers h record =
      .ok (⟨IPPROTO_TCP, UInt32.ofNat (i + t + payload.length), seq, c.srcHost, c.dstHost, c.srcPort.toUInt32,
          c.dstPort.toUInt32⟩,
        ⟨h.pp, h.caplen, UInt32.ofNat (e + i + t), UInt32.ofNat e, UInt32.ofNat i, UInt32.ofNat t, 0,
          c.fill h record, none, 0⟩) := by
  have hpos : 0 < payload.length := List.length_pos_iff.mpr hne
  obtain ⟨ht4, ht1, ht2⟩ := f.tcpWords
  obtain ⟨he, hi, hp, hsum⟩ := f.toFrame.small ht2
  have hcap := f.captured
  have htcp : getTcpHeader (h.pp.add (UInt32.ofNat (e + i))) = Int32.ofNat t := by
    rw [getTcpHeader, TH_OFF_eq f.offset]
    congr 1; omega
  obtain ⟨htz, htu⟩ := hdrLen_small (n := t) (by omega)
  have z3 : ¬ t = 0 := by omega
  have c3 : ¬ UInt32.ofNat (e + i) + MIN_TCP_HDR_LEN ≥ h.caplen := by
    rw [show MIN_TCP_HDR_LEN = UInt32.ofNat 20 from rfl, ← UInt32.ofNat_add, ofNat_ge_iff (by omega)]; omega
  have c4 : ¬ UInt32.ofNat (e + i + t) ≥ h.caplen := by rw [ofNat_ge_iff (by omega)]; omega
  rw [f.toFrame.headers_eq ⟨by omega, ht2⟩ hne]
  simp only [show (6 : UInt8).toUInt32 = IPPROTO_TCP from rfl, if_true]
  unfold tcpHeaders
  simp only [← UInt32.ofNat_add, c3, if_false, htcp, htz, z3, htu, c4, f.srcPort, f.dstPort, f.seq]
  rfl

theorem headers_udp (f : UdpFrame h c e i payload) (hne : payload ≠ []) (record : NfsPkt) :
    headers h record =
      .ok (⟨IPPROTO_UDP, UInt32.ofNat (i + 8 + payload.length), 0, c.srcHost, c.dstHost, c.srcPort.toUInt32,
          c.dstPort.toUInt32⟩,
        ⟨h.pp, h.caplen, UInt32.ofNat (e + i + 8), UInt32.ofNat e, UInt32.ofNat i, 8, UInt32.ofNat payload.length,
          c.fill h record, none, 0⟩) := by
  have hpos : 0 < payload.length := List.length_pos_iff.mpr hne
  obtain ⟨he, hi, hp, hsum⟩ := Frame.small f (by omega)
  have hcap := Frame.captured f
  have hdr : (8 : Int32) = Int32.ofNat 8 := rfl
  obtain ⟨htz, htu⟩ := hdrLen_small (n := 8) (by omega)
  have c3 : ¬ UInt32.ofNat (e + i) + MIN_UDP_HDR_LEN ≥ h.caplen := by
    rw [show MIN_UDP_HDR_LEN = UInt32.ofNat 8 from rfl, ← UInt32.ofNat_add, ofNat_ge_iff (by omega)]; omega
  have c4 : ¬ UInt32.ofNat (e + i + 8) ≥ h.caplen := by rw [ofNat_ge_iff (by omega)]; omega
  have hlen : h.caplen - UInt32.ofNat (e + i + 8) = UInt32.ofNat payload.length := by
    rw [eq_ofNat hcap, UInt32.ofNat_add (e + i + 8), add_sub_self]
  rw [Frame.headers_eq f ⟨by omega, by omega⟩ hne]
  simp only [show (17 : UInt8).toUInt32 = IPPROTO_UDP from rfl, show ¬ (IPPROTO_UDP = IPPROTO_TCP) by decide, if_false,
    if_true]
  unfold udpHeaders getUdpHeader
  simp only [hdr, htz, htu, ← UInt32.ofNat_add, c3, if_false, show ¬ (8 = 0) by decide, c4, Frame.srcPort f,
    Frame.dstPort f, hlen]
  rfl

/-! ## Frames there are -/

/-- Memory and locals that happen to be zero. -/
def Indet.zero : Indet := ⟨fun _ => Ptr.ofBytes [], fun _ => 0⟩

def NfsPkt.zero : NfsPkt := ⟨0, 0, 0, 0, 0, 0, 0, 0, 0, 0, 0⟩

/-- An IP header without options in front of `n` bytes. -/
def ipBytes (c : Conn) (proto : UInt8) (n : Nat) : List UInt8 :=
  [0x45, 0] ++ (be16 (20 + n) ++ ([0, 0, 0, 0, 64, proto, 0, 0] ++ (be32 c.srcHost.toNat ++ (be32 c.dstHost.toNat ++ []))))

/-- A TCP header without options. -/
def tcpBytes (c : Conn) (seq : UInt32) : List UInt8 :=
  be16 c.srcPort.toNat ++ (be16 c.dstPort.toNat ++ (be32 seq.toNat ++ [0, 0, 0, 0, 0x50, 0x10, 0, 0, 0, 0, 0, 0]))

def etherBytes : List UInt8 := [0, 0, 0, 0, 0, 0, 0, 0, 0, 0, 0, 0] ++ be16 0x0800

/-- A transport header and what it carries in an Ethernet II frame, at address 0. -/
def packetOf (tv_sec : UInt32) (c : Conn) (proto : UInt8) (transport payload : List UInt8) : Packet :=
  ⟨tv_sec, 0, UInt32.ofNat (34 + transport.length + payload.length),
    Ptr.ofBytes (etherBytes ++ (ipBytes c proto (transport.length + payload.length) ++ (transport ++ payload)))⟩

def tcpPacket (tv_sec : UInt32) (c : Conn) (seq : UInt32) (payload : List UInt8) : Packet :=
  packetOf tv_sec c 6 (tcpBytes c seq) payload

def udpPacket (tv_sec : UInt32) (c : Conn) (payload : List UInt8) : Packet :=
  packetOf tv_sec c 17 (be16 c.srcPort.toNat ++ (be16 c.dstPort.toNat ++ (be16 (8 + payload.length) ++ [0, 0]))) payload

theorem toUInt32_eq (v : UInt16) : UInt32.ofNat v.toNat = v.toUInt32 := by
  apply UInt32.toNat.inj
  rw [toNat_ofNat_lt (by have := v.toNat_lt; omega), UInt16.toNat_toUInt32]

theorem ipBytes_spec {p : Ptr} {c : Conn} {proto : UInt8} {n : Nat} {rest : List UInt8}
    (h : p.Holds (ipBytes c proto n ++ rest)) (hn : n < 65516) :
    p.byte 0 = 0x45 ∧ p.half 2 = UInt32.ofNat (20 + n) ∧ p.half 6 = 0 ∧ p.byte 9 = proto ∧
      p.word 12 = c.srcHost ∧ p.word 16 = c.dstHost := by
  have h0 := Ptr.byte_at [] (b := 0x45) (p := p) h
  have h2 := Ptr.half_at [0x45, 0] (n := 20 + n) (p := p) h (by omega)
  have h6 := Ptr.half_at ([0x45, 0] ++ be16 (20 + n) ++ [0, 0]) (n := 0) (p := p) h (by decide)
  have h9 := Ptr.byte_at ([0x45, 0] ++ be16 (20 + n) ++ [0, 0, 0, 0, 64]) (b := proto) (p := p) h
  have h12 := Ptr.word_at ([0x45, 0] ++ be16 (20 + n) ++ [0, 0, 0, 0, 64, proto, 0, 0]) (n := c.srcHost.toNat) (p := p) h
    (UInt32.toNat_lt _)
  have h16 := Ptr.word_at ([0x45, 0] ++ be16 (20 + n) ++ [0, 0, 0, 0, 64, proto, 0, 0] ++ be32 c.srcHost.toNat)
    (n := c.dstHost.toNat) (p := p) h (UInt32.toNat_lt _)
  simp only [List.length_append, List.length_cons, List.length_nil, be16, be32, Nat.reduceAdd, UInt32.reduceOfNat,
    UInt32.ofNat_toNat] at h0 h2 h6 h9 h12 h16
  exact ⟨h0, h2, h6, h9, h12, h16⟩

/-- The ports are the first thing in a transport header. -/
theorem ports_spec {p : Ptr} {c : Conn} {transport more payload : List UInt8} (h : p.Holds (transport ++ payload))
    (hports : transport = be16 c.srcPort.toNat ++ (be16 c.dstPort.toNat ++ more)) :
    p.half 0 = c.srcPort.toUInt32 ∧ p.half 2 = c.dstPort.toUInt32 := by
  rw [hports, List.append_assoc, List.append_assoc] at h
  have h0 := Ptr.half_at [] (n := c.srcPort.toNat) (p := p) h (UInt16.toNat_lt _)
  have h2 := Ptr.half_at (be16 c.srcPort.toNat) (n := c.dstPort.toNat) (p := p) h (UInt16.toNat_lt _)
  rw [toUInt32_eq] at h0 h2
  exact ⟨h0, h2⟩

theorem tcpBytes_spec {p : Ptr} {c : Conn} {seq : UInt32} {rest : List UInt8} (h : p.Holds (tcpBytes c seq ++ rest)) :
    p.word 4 = seq ∧ p.byte 12 = 0x50 := by
  have h4 := Ptr.word_at (be16 c.srcPort.toNat ++ be16 c.dstPort.toNat) (n := seq.toNat) (p := p) h (UInt32.toNat_lt _)
  have h12 := Ptr.byte_at (be16 c.srcPort.toNat ++ be16 c.dstPort.toNat ++ be32 seq.toNat ++ [0, 0, 0, 0]) (b := 0x50)
    (p := p) h
  simp only [List.length_append, List.length_cons, List.length_nil, be16, be32, Nat.reduceAdd, UInt32.reduceOfNat,
    UInt32.ofNat_toNat] at h4 h12
  exact ⟨h4, h12⟩

/-- A call of NFS version 3 by uid 0 and gid 0. -/
def callBytes (xid proc : Nat) (args : List UInt8) : List UInt8 :=
  be32 xid ++ be32 0 ++ be32 2 ++ be32 100003 ++ be32 3 ++ be32 proc ++ be32 1 ++ be32 20 ++ List.replicate 20 0 ++
    be32 0 ++ be32 0 ++ args

/-- What lies behind the link and the IP header. -/
theorem packetOf_holds (tv_sec : UInt32) (c : Conn) (proto : UInt8) {transport payload : List UInt8}
    (hlen : transport.length + payload.length < 65516) :
    (packetOf tv_sec c proto transport payload).pp.Holds
      (etherBytes ++ (ipBytes c proto (transport.length + payload.length) ++ (transport ++ payload))) :=
  Ptr.ofBytes_holds (by
    simp only [List.length_append, show etherBytes.length = 14 from rfl,
      show (ipBytes c proto (transport.length + payload.length)).length = 20 from rfl]
    omega)

theorem packetOf_frame (tv_sec : UInt32) (c : Conn) (proto : UInt8) {transport payload more : List UInt8}
    (hports : transport = be16 c.srcPort.toNat ++ (be16 c.dstPort.toNat ++ more))
    (hlen : transport.length + payload.length < 65516) :
    Frame (packetOf tv_sec c proto transport payload) c proto 14 20 transport.length payload := by
  have hframe := packetOf_holds tv_sec c proto hlen
  have hlink := Ptr.half_at [0, 0, 0, 0, 0, 0, 0, 0, 0, 0, 0, 0] (n := 0x0800)
    (by simpa [etherBytes] using hframe) (by decide)
  obtain ⟨_, hip⟩ := Ptr.holds_append.mp hframe
  obtain ⟨_, htrans⟩ := Ptr.holds_append.mp hip
  obtain ⟨_, hpay⟩ := Ptr.holds_append.mp htrans
  obtain ⟨hv, htot, hoff, hproto, hsrc, hdst⟩ := ipBytes_spec hip (by omega)
  rw [Ptr.add_add] at htrans hpay
  rw [Ptr.add_add] at hpay
  obtain ⟨hsport, hdport⟩ := ports_spec htrans hports
  have hpay' : ((packetOf tv_sec c proto transport payload).pp.add
      (UInt32.ofNat 14 + (UInt32.ofNat 20 + UInt32.ofNat transport.length))).Holds payload := hpay
  rw [← UInt32.ofNat_add, ← UInt32.ofNat_add, ← Nat.add_assoc] at hpay'
  have hv' : ((packetOf tv_sec c proto transport payload).pp.add (UInt32.ofNat 14)).byte 0 = 0x45 := hv
  have htot' : ((packetOf tv_sec c proto transport payload).pp.add (UInt32.ofNat 14)).half 2 = _ := htot
  have hoff' : ((packetOf tv_sec c proto transport payload).pp.add (UInt32.ofNat 14)).half 6 = 0 := hoff
  exact {
    link := Or.inl ⟨rfl, hlink⟩
    ipWords := by decide
    version := by rw [hv']; rfl
    first := by rw [hoff']; rfl
    proto := hproto
    total := by rw [htot', toNat_ofNat_lt (by omega)]; omega
    srcHost := hsrc
    dstHost := hdst
    srcPort := hsport
    dstPort := hdport
    captured := by
      show (UInt32.ofNat (34 + transport.length + payload.length)).toNat = _
      rw [toNat_ofNat_lt (by omega)]
    payload := hpay' }

/-- Every segment that fits an IP datagram has a frame. -/
theorem tcpPacket_frame (tv_sec : UInt32) (c : Conn) (seq : UInt32) {payload : List UInt8} (hlen : payload.length < 65496) :
    TcpFrame (tcpPacket tv_sec c seq payload) c seq 14 20 20 payload := by
  have hsize : (tcpBytes c seq).length + payload.length < 65516 := by
    rw [show (tcpBytes c seq).length = 20 from rfl]; omega
  obtain ⟨_, hip⟩ := Ptr.holds_append.mp (packetOf_holds 0 c 6 hsize)
  obtain ⟨_, htcp⟩ := Ptr.holds_append.mp hip
  obtain ⟨hseq, hdata⟩ := tcpBytes_spec htcp
  rw [Ptr.add_add] at hseq hdata
  have hdata' : ((tcpPacket tv_sec c seq payload).pp.add (UInt32.ofNat (14 + 20))).byte 12 = 0x50 := hdata
  exact {
    toFrame := packetOf_frame tv_sec c 6 rfl hsize
    tcpWords := by decide
    offset := by rw [hdata']; rfl
    seq := hseq }

/-- Every datagram does. -/
theorem udpPacket_frame (tv_sec : UInt32) (c : Conn) {payload : List UInt8} (hlen : payload.length < 65508) :
    UdpFrame (udpPacket tv_sec c payload) c 14 20 payload := by
  have hsize : (be16 c.srcPort.toNat ++ be16 c.dstPort.toNat ++ (be16 (8 + payload.length) ++ [0, 0])).length +
      payload.length < 65516 := by
    show 8 + payload.length < 65516
    omega
  exact packetOf_frame tv_sec c 17 rfl hsize

/-- At address 0 a packet fits in memory. -/
theorem packetOf_fits (tv_sec : UInt32) (c : Conn) (proto : UInt8) (transport payload : List UInt8) :
    (packetOf tv_sec c proto transport payload).pp.Fits (packetOf tv_sec c proto transport payload).caplen.toNat := by
  show (0 : UInt32).toNat + _ < _
  have := (packetOf tv_sec c proto transport payload).caplen.toNat_lt
  simpa using this

end Nfsdump.Record
