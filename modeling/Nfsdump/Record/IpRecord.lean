/-
  Nfsdump.Record.IpRecord — `processPacket` of iprecord.c: iphdump, which prints a line for
  each packet that carries a TCP, UDP or ICMP header.

  Its header functions are copies of nfsrecord.c's, without the branch for tagged frames.

  Proved, for any packet:
  - `segments_reported`: unless its frame is tagged, a packet has a line for TCP or UDP iff
    nfsdump looks for messages in it, with the hosts, the destination port and the length it
    takes; a tagged frame is passed over, unless its length makes the tag pass for one;
  - `echo_captured_iff`: what is printed is decided by the captured bytes, whatever the record
    held, iff the packet is not an echo request cut off in its payload.
-/

import Nfsdump.Record.PrintRecord
import Nfsdump.Wire.SameBytes

namespace Nfsdump.Iphdump

open Wire Decode Record

/-! ## Records -/

def ICMP_ECHO : UInt8 := 8
def ICMP_PAYLOAD_SZ : UInt32 := 16
def IPPROTO_ICMP : UInt32 := 1

/-- `sizeof (struct icmp)`: eight bytes and an IP header. -/
def sizeofIcmp : UInt32 := 28

/-- `nfs_pkt_t` of iprecord.c. -/
structure IpPkt where
  secs : UInt32
  usecs : UInt32
  srcHost : UInt32
  dstHost : UInt32
  srcPort : UInt32
  dstPort : UInt32
  ipLen : UInt32
  ipProto : Char
  ipIdentifier : UInt32
  icmpType : UInt8
  icmpPayload : List UInt8
  deriving DecidableEq

def payloadText (payload : List UInt8) : List Char := payload.flatMap fun c => padLeft 2 '0' (hex c.toNat)

def printPacketHeader (h : IpPkt) : List Char :=
  stamp h.secs h.usecs ++ ' ' :: padLeft 8 '0' (hex h.srcHost.toNat) ++ ' ' :: padLeft 8 '0' (hex h.dstHost.toNat) ++
    ' ' :: padLeft 5 ' ' (dec h.dstPort.toNat) ++ ' ' :: padLeft 5 ' ' (dec h.ipLen.toNat) ++ [' ', h.ipProto, ' '] ++
    padLeft 4 '0' (hex h.ipIdentifier.toNat) ++
    (if h.ipProto = 'C' then
      ' ' :: dec h.icmpType.toNat ++ ' ' :: (if h.icmpType = ICMP_ECHO then payloadText h.icmpPayload else [])
    else []) ++ ['\n']

/-! ## Headers -/

def getEtherHeader (packet_len : UInt32) (bp : Ptr) : EtherHeader :=
  let length := bp.half 12
  if length ≤ ETHERMTU ∨
      (length = packet_len - 22 ∧ bp.byte 14 = 0xAA ∧ bp.byte 15 = 0xAA ∧ bp.byte 16 = 0x03) then
    ⟨22, bp.half 20, length⟩
  else ⟨14, length, packet_len - 14⟩

structure IpFields extends IpHeader where
  id : UInt32

/-- What a packet has printed, and what `processPacket` returns. -/
structure Outcome where
  out : List Char
  rc : Int32
  deriving DecidableEq

/-- A fragment is remarked upon. -/
def getIpHeader (ip_b : Ptr) : Except (List Char) IpFields :=
  if IP_V (ip_b.byte 0) ≠ 4 then .error []
  else
    let off := ip_b.half 6
    if off &&& 0x1fff ≠ 0 then
      .error (text [.lit "# it's a fragment (offset=", .d (off &&& 0x1fff).toInt32, .lit ") of ", .d (ip_b.half 2).toInt32, .lit "\n"])
    else .ok ⟨⟨Int32.ofNat ((IP_HL (ip_b.byte 0)).toNat * 4), (ip_b.byte 9).toUInt32, ip_b.half 2, ip_b.word 12, ip_b.word 16⟩,
      ip_b.half 4⟩

/-- Up to the header behind IP's, and the number of bytes in front of it. -/
def located (h : Packet) : Except Outcome (IpFields × UInt32) :=
  let tot_len := h.caplen
  if tot_len ≤ MIN_ETHER_HDR_LEN + MIN_IP_HDR_LEN + MIN_UDP_HDR_LEN then .error ⟨[], 0⟩
  else
    let ether := getEtherHeader tot_len h.pp
    if ether.hdrLen ≤ 0 then .error ⟨[], -1⟩
    else
      let e_len := ether.hdrLen.toUInt32
      if ether.proto ≠ 0x0800 then .error ⟨[], 0⟩
      else
        match getIpHeader (h.pp.add e_len) with
        | .error out => .error ⟨out, -2⟩
        | .ok ip =>
          if ip.hdrLen ≤ 0 then .error ⟨[], -2⟩
          else
            let consumed := e_len + ip.hdrLen.toUInt32
            if consumed ≥ tot_len then .error ⟨[], 0⟩ else .ok (ip, consumed)

def tcpPorts (h : Packet) (record : IpPkt) (consumed : UInt32) : Except Outcome IpPkt :=
  if consumed + MIN_TCP_HDR_LEN ≥ h.caplen then .error ⟨[], 0⟩
  else
    let tcp_b := h.pp.add consumed
    let h_len := getTcpHeader tcp_b
    if h_len ≤ 0 then .error ⟨[], -3⟩
    else if consumed + h_len.toUInt32 ≥ h.caplen then .error ⟨[], 0⟩
    else .ok { record with ipProto := 'T', srcPort := tcp_b.half 0, dstPort := tcp_b.half 2 }

def udpPorts (h : Packet) (record : IpPkt) (consumed : UInt32) : Except Outcome IpPkt :=
  if consumed + MIN_UDP_HDR_LEN ≥ h.caplen then .error ⟨[], 0⟩
  else
    let udp_b := h.pp.add consumed
    let h_len := getUdpHeader udp_b
    if h_len ≤ 0 then .error ⟨[], -4⟩
    else if consumed + h_len.toUInt32 ≥ h.caplen then .error ⟨[], 0⟩
    else .ok { record with ipProto := 'U', srcPort := udp_b.half 0, dstPort := udp_b.half 2 }

def icmpFields (h : Packet) (record : IpPkt) (consumed : UInt32) : Except Outcome IpPkt :=
  if consumed + sizeofIcmp ≥ h.caplen then .error ⟨[], 0⟩
  else
    let icmp_type := (h.pp.add consumed).byte 0
    let record := { record with ipProto := 'C', icmpType := icmp_type, srcPort := 0, dstPort := 0 }
    .ok (if icmp_type = ICMP_ECHO then { record with icmpPayload := (h.pp.add (consumed + sizeofIcmp)).bytes ICMP_PAYLOAD_SZ }
      else record)

def transport (h : Packet) (record : IpPkt) (proto consumed : UInt32) : Except Outcome IpPkt :=
  if proto = IPPROTO_TCP then tcpPorts h record consumed
  else if proto = IPPROTO_UDP then udpPorts h record consumed
  else if proto = IPPROTO_ICMP then icmpFields h record consumed
  else .error ⟨[], 0⟩

/-- The record of a packet, if a line is printed for it. -/
def reported (h : Packet) (record : IpPkt) : Except Outcome IpPkt := do
  let (ip, consumed) ← located h
  let record ← transport h { record with ipLen := ip.len, ipIdentifier := ip.id } ip.proto consumed
  return { record with secs := h.tv_sec, usecs := h.tv_usec, srcHost := ip.src, dstHost := ip.dst }

def processPacket (h : Packet) (record : IpPkt) : Outcome :=
  match reported h record with
  | .error r => r
  | .ok record => ⟨printPacketHeader record, 0⟩

/-! ## nfsdump's packets -/

variable {h : Packet} {record : IpPkt}

theorem ether_eq {n : UInt32} {p : Ptr} (hp : p.half 12 ≠ 0x8100) : getEtherHeader n p = Wire.getEtherHeader n p := by
  unfold getEtherHeader Wire.getEtherHeader
  simp only
  rw [if_neg hp]

theorem ip_eq (p : Ptr) : (∃ out, getIpHeader p = .error out ∧ ∃ rc, Wire.getIpHeader p = .error rc) ∨
    ∃ ip, getIpHeader p = .ok ip ∧ Wire.getIpHeader p = .ok ip.toIpHeader ∧ ip.id = p.half 4 := by
  unfold getIpHeader Wire.getIpHeader
  simp only
  split
  · exact Or.inl ⟨_, rfl, _, rfl⟩
  split
  · exact Or.inl ⟨_, rfl, _, rfl⟩
  · exact Or.inr ⟨_, rfl, rfl, rfl⟩

/-- Both programs come as far as the header behind IP's, or neither does. -/
theorem headers_located (r : NfsPkt) (hp : h.pp.half 12 ≠ 0x8100) :
    (∃ out rc, located h = .error out ∧ headers h r = .error rc) ∨
      ∃ ip e_len i_len, located h = .ok (ip, e_len + i_len) ∧ ip.id = (h.pp.add e_len).half 4 ∧
        headers h r = if ip.proto = IPPROTO_TCP then tcpHeaders h r ip.toIpHeader e_len i_len
          else if ip.proto = IPPROTO_UDP then udpHeaders h r ip.toIpHeader e_len i_len else .error 0 := by
  unfold located headers
  simp only
  rw [ether_eq hp]
  split
  · exact Or.inl ⟨_, _, rfl, rfl⟩
  split
  · exact Or.inl ⟨_, _, rfl, rfl⟩
  split
  · exact Or.inl ⟨_, _, rfl, rfl⟩
  rcases ip_eq (h.pp.add (Wire.getEtherHeader h.caplen h.pp).hdrLen.toUInt32) with ⟨out, hout, rc, hrc⟩ | ⟨ip, hip, hip', hid⟩
  · rw [hout, hrc]
    exact Or.inl ⟨_, _, rfl, rfl⟩
  rw [hip, hip']
  simp only
  split
  · exact Or.inl ⟨_, _, rfl, rfl⟩
  split
  · exact Or.inl ⟨_, _, rfl, rfl⟩
  · exact Or.inr ⟨ip, _, _, rfl, hid, rfl⟩

theorem tcp_eq (record : IpPkt) (r : NfsPkt) (ip : IpHeader) (e_len i_len : UInt32) :
    (∃ out rc, tcpPorts h record (e_len + i_len) = .error out ∧ tcpHeaders h r ip e_len i_len = .error rc) ∨
      ∃ env l, tcpPorts h record (e_len + i_len) = .ok { record with ipProto := 'T', srcPort := env.src_port, dstPort := env.dst_port } ∧
        tcpHeaders h r ip e_len i_len = .ok (env, l) ∧ l.e_len = e_len ∧ env.proto = ip.proto ∧ env.length = ip.len ∧
          env.srcHost = ip.src ∧ env.dstHost = ip.dst := by
  unfold tcpPorts tcpHeaders
  simp only
  split
  · exact Or.inl ⟨_, _, rfl, rfl⟩
  split
  · exact Or.inl ⟨_, _, rfl, rfl⟩
  split
  · exact Or.inl ⟨_, _, rfl, rfl⟩
  · exact Or.inr ⟨_, _, rfl, rfl, rfl, rfl, rfl, rfl, rfl⟩

theorem udp_eq (record : IpPkt) (r : NfsPkt) (ip : IpHeader) (e_len i_len : UInt32) :
    (∃ out rc, udpPorts h record (e_len + i_len) = .error out ∧ udpHeaders h r ip e_len i_len = .error rc) ∨
      ∃ env l, udpPorts h record (e_len + i_len) = .ok { record with ipProto := 'U', srcPort := env.src_port, dstPort := env.dst_port } ∧
        udpHeaders h r ip e_len i_len = .ok (env, l) ∧ l.e_len = e_len ∧ env.proto = ip.proto ∧ env.length = ip.len ∧
          env.srcHost = ip.src ∧ env.dstHost = ip.dst := by
  unfold udpPorts udpHeaders
  simp only
  split
  · exact Or.inl ⟨_, _, rfl, rfl⟩
  split
  · exact Or.inl ⟨_, _, rfl, rfl⟩
  split
  · exact Or.inl ⟨_, _, rfl, rfl⟩
  · exact Or.inr ⟨_, _, rfl, rfl, rfl, rfl, rfl, rfl, rfl⟩

theorem icmp_letter {consumed : UInt32} {p : IpPkt} (hp : icmpFields h record consumed = .ok p) : p.ipProto = 'C' := by
  unfold icmpFields at hp
  simp only at hp
  split at hp
  · cases hp
  · cases hp
    split
    · rfl
    · rfl

/-- The record of a packet that nfsdump looks into. -/
def segmentOf (h : Packet) (record : IpPkt) (el : Env × Locals) : IpPkt :=
  { record with secs := h.tv_sec, usecs := h.tv_usec, srcHost := el.1.srcHost, dstHost := el.1.dstHost, srcPort := el.1.src_port,
                dstPort := el.1.dst_port, ipLen := el.1.length, ipProto := if el.1.proto = IPPROTO_TCP then 'T' else 'U',
                ipIdentifier := (h.pp.add el.2.e_len).half 4 }

/-- The line's record, but for ICMP. -/
def segmentReported (h : Packet) (record : IpPkt) : Option IpPkt := (reported h record).toOption.filter fun p => p.ipProto ≠ 'C'

theorem reported_error {out : Outcome} (hl : located h = .error out) : reported h record = .error out := by
  unfold reported
  rw [hl]
  rfl

theorem reported_ok {ip : IpFields} {consumed : UInt32} (hl : located h = .ok (ip, consumed)) : reported h record =
    (transport h { record with ipLen := ip.len, ipIdentifier := ip.id } ip.proto consumed).map fun p =>
      { p with secs := h.tv_sec, usecs := h.tv_usec, srcHost := ip.src, dstHost := ip.dst } := by
  unfold reported
  rw [hl]
  rfl

theorem untagged_reported (record : IpPkt) (r : NfsPkt) (hp : h.pp.half 12 ≠ 0x8100) :
    segmentReported h record = (headers h r).toOption.map (segmentOf h record) := by
  unfold segmentReported
  rcases headers_located r hp with ⟨out, rc, hl, hh⟩ | ⟨ip, e_len, i_len, hl, hid, hh⟩
  · rw [reported_error hl, hh]
    rfl
  rw [reported_ok hl, hh, transport]
  by_cases htcp : ip.proto = IPPROTO_TCP
  · rw [if_pos htcp, if_pos htcp]
    rcases tcp_eq { record with ipLen := ip.len, ipIdentifier := ip.id } r ip.toIpHeader e_len i_len with
      ⟨out, rc, hout, hrc⟩ | ⟨env, l, hok, hok', he, hproto, hlen, hsrc, hdst⟩
    · rw [hout, hrc]
      rfl
    · rw [hok, hok']
      simp [Except.map, Except.toOption, segmentOf, he, hproto, hlen, hsrc, hdst, hid, htcp]
  rw [if_neg htcp, if_neg htcp]
  by_cases hudp : ip.proto = IPPROTO_UDP
  · rw [if_pos hudp, if_pos hudp]
    rcases udp_eq { record with ipLen := ip.len, ipIdentifier := ip.id } r ip.toIpHeader e_len i_len with
      ⟨out, rc, hout, hrc⟩ | ⟨env, l, hok, hok', he, hproto, hlen, hsrc, hdst⟩
    · rw [hout, hrc]
      rfl
    · rw [hok, hok']
      simp [Except.map, Except.toOption, segmentOf, he, hproto, hlen, hsrc, hdst, hid, htcp]
  rw [if_neg hudp, if_neg hudp]
  split
  · cases hi : icmpFields h { record with ipLen := ip.len, ipIdentifier := ip.id } (e_len + i_len) with
    | error out => rfl
    | ok p => simp [Except.map, Except.toOption, icmp_letter hi]
  · rfl

/-- A tag is taken for an Ethernet type, unless the frame is as long as an IEEE 802.3 frame that announces it. -/
theorem tagged_silent (record : IpPkt) (hp : h.pp.half 12 = 0x8100) (hlen : h.caplen ≠ 0x8100 + 22) :
    processPacket h record = ⟨[], 0⟩ := by
  have hether : getEtherHeader h.caplen h.pp = ⟨14, 0x8100, h.caplen - 14⟩ := by
    unfold getEtherHeader
    simp only
    have hjumbo : (0x8100 : UInt32) ≠ h.caplen - 22 := by
      intro heq
      apply hlen
      rw [heq, UInt32.sub_add_cancel]
    rw [hp, if_neg]
    rintro (hle | ⟨heq, -⟩)
    · exact absurd hle (by decide)
    · exact hjumbo heq
  have hl : located h = .error ⟨[], 0⟩ := by
    unfold located
    simp only
    rw [hether]
    split
    · rfl
    · rw [if_neg (show ¬ (14 : Int32) ≤ 0 by decide), if_pos (show (0x8100 : UInt32) ≠ 0x0800 by decide)]
  unfold processPacket
  rw [reported_error hl]

/-- Of TCP and UDP iphdump reports what nfsdump looks into, except behind a tag. -/
theorem segments_reported (h : Packet) (record : IpPkt) (r : NfsPkt) :
    (h.pp.half 12 ≠ 0x8100 → segmentReported h record = (headers h r).toOption.map (segmentOf h record)) ∧
    (h.pp.half 12 = 0x8100 → h.caplen ≠ 0x8100 + 22 → processPacket h record = ⟨[], 0⟩) :=
  ⟨untagged_reported record r, tagged_silent record⟩

/-! ## Captured bytes -/

variable {k : Nat} {p q : Ptr}

theorem ether_same (hs : SameBytes k p q) (hk : 22 ≤ k) (hk' : k ≤ 2 ^ 32) (n : UInt32) : getEtherHeader n q = getEtherHeader n p := by
  have h12 : q.half 12 = p.half 12 := (hs.half (n := 12) (show 12 + 2 ≤ k by omega) hk').symm
  have h20 : q.half 20 = p.half 20 := (hs.half (n := 20) (show 20 + 2 ≤ k by omega) hk').symm
  have h14 : q.byte 14 = p.byte 14 := (hs.byte 14 (show 14 < k by omega)).symm
  have h15 : q.byte 15 = p.byte 15 := (hs.byte 15 (show 15 < k by omega)).symm
  have h16 : q.byte 16 = p.byte 16 := (hs.byte 16 (show 16 < k by omega)).symm
  unfold getEtherHeader
  simp only
  rw [h12, h20, h14, h15, h16]

theorem ip_same (hs : SameBytes k p q) (hk : 20 ≤ k) (hk' : k ≤ 2 ^ 32) : getIpHeader q = getIpHeader p := by
  have h0 : q.byte 0 = p.byte 0 := (hs.byte 0 (show 0 < k by omega)).symm
  have h9 : q.byte 9 = p.byte 9 := (hs.byte 9 (show 9 < k by omega)).symm
  have h2 : q.half 2 = p.half 2 := (hs.half (n := 2) (show 2 + 2 ≤ k by omega) hk').symm
  have h4 : q.half 4 = p.half 4 := (hs.half (n := 4) (show 4 + 2 ≤ k by omega) hk').symm
  have h6 : q.half 6 = p.half 6 := (hs.half (n := 6) (show 6 + 2 ≤ k by omega) hk').symm
  have h12 : q.word 12 = p.word 12 := (hs.word (n := 12) (show 12 + 4 ≤ k by omega) hk').symm
  have h16 : q.word 16 = p.word 16 := (hs.word (n := 16) (show 16 + 4 ≤ k by omega) hk').symm
  unfold getIpHeader
  simp only
  rw [h0, h9, h2, h4, h6, h12, h16]

theorem etherLen_cases (n : UInt32) (p : Ptr) : (getEtherHeader n p).hdrLen = 22 ∨ (getEtherHeader n p).hdrLen = 14 := by
  unfold getEtherHeader
  simp only
  split
  · exact Or.inl rfl
  · exact Or.inr rfl

theorem etherLen_toNat (n : UInt32) (p : Ptr) : (getEtherHeader n p).hdrLen.toUInt32.toNat ≤ 22 := by
  rcases etherLen_cases n p with he | he
  · rw [he]; decide
  · rw [he]; decide

theorem ipLen_le {ip : IpFields} (hip : getIpHeader p = .ok ip) : ip.hdrLen.toUInt32.toNat ≤ 60 := by
  unfold getIpHeader at hip
  simp only at hip
  split at hip
  · cases hip
  split at hip
  · cases hip
  cases hip
  have hhl := IP_HL_lt (p.byte 0)
  show (Int32.ofNat ((IP_HL (p.byte 0)).toNat * 4)).toUInt32.toNat ≤ 60
  rw [(hdrLen_small (by omega)).2, toNat_ofNat_lt (by omega)]
  omega

/-- What is in front of the header behind IP's is short, and captured. -/
theorem located_inside {ip : IpFields} {consumed : UInt32} (hl : located h = .ok (ip, consumed)) :
    consumed.toNat ≤ 82 ∧ consumed.toNat < h.caplen.toNat := by
  unfold located at hl
  simp only at hl
  split at hl
  · cases hl
  split at hl
  · cases hl
  split at hl
  · cases hl
  split at hl
  · cases hl
  next ip' hip =>
  split at hl
  · cases hl
  split at hl
  · cases hl
  next hlt =>
  cases hl
  have he := etherLen_toNat h.caplen h.pp
  have hi := ipLen_le hip
  refine ⟨?_, UInt32.lt_iff_toNat_lt.mp (UInt32.not_le.mp hlt)⟩
  rw [UInt32.toNat_add]
  omega

/-- The packet with other memory around it. -/
def Packet.at (h : Packet) (q : Ptr) : Packet := { h with pp := q }

theorem located_same (hs : SameBytes h.caplen.toNat h.pp q) : located (Packet.at h q) = located h := by
  have hcap := h.caplen.toNat_lt
  by_cases hshort : h.caplen ≤ MIN_ETHER_HDR_LEN + MIN_IP_HDR_LEN + MIN_UDP_HDR_LEN
  · exact (if_pos hshort).trans (if_pos hshort).symm
  have hlong : 42 < h.caplen.toNat := UInt32.lt_iff_toNat_lt.mp (UInt32.not_le.mp hshort)
  have he := etherLen_toNat h.caplen h.pp
  have hether : getEtherHeader h.caplen q = getEtherHeader h.caplen h.pp := ether_same hs (by omega) (by omega) _
  have hip : getIpHeader (q.add (getEtherHeader h.caplen h.pp).hdrLen.toUInt32) =
      getIpHeader (h.pp.add (getEtherHeader h.caplen h.pp).hdrLen.toUInt32) :=
    ip_same (hs.add (j := 20) (by omega) (by omega)) (by omega) (by omega)
  unfold located
  simp only [Packet.at, hether, hip]

/-! ### Behind IP's header -/

variable {consumed : UInt32}

theorem room {n : UInt32} (hc : consumed.toNat ≤ 82) (hn : n.toNat ≤ 44) : (consumed + n).toNat = consumed.toNat + n.toNat := by
  rw [UInt32.toNat_add]
  omega

theorem tcp_same (hs : SameBytes h.caplen.toNat h.pp q) (hc : consumed.toNat ≤ 82) (record : IpPkt) :
    tcpPorts (Packet.at h q) record consumed = tcpPorts h record consumed := by
  have hcap := h.caplen.toNat_lt
  by_cases hshort : consumed + MIN_TCP_HDR_LEN ≥ h.caplen
  · exact (if_pos hshort).trans (if_pos hshort).symm
  have hlong := UInt32.lt_iff_toNat_lt.mp (UInt32.not_le.mp hshort)
  rw [room hc (by decide), show MIN_TCP_HDR_LEN.toNat = 20 from rfl] at hlong
  have hhdr : SameBytes 20 (h.pp.add consumed) (q.add consumed) := hs.add (by omega) (by omega)
  have h12 : getTcpHeader (q.add consumed) = getTcpHeader (h.pp.add consumed) := by
    rw [getTcpHeader, getTcpHeader, hhdr.byte 12 (by decide)]
  have h0 : (q.add consumed).half 0 = (h.pp.add consumed).half 0 := (hhdr.half (by decide) (by decide)).symm
  have h2 : (q.add consumed).half 2 = (h.pp.add consumed).half 2 := (hhdr.half (by decide) (by decide)).symm
  unfold tcpPorts
  simp only [Packet.at, h12, h0, h2]

theorem udp_same (hs : SameBytes h.caplen.toNat h.pp q) (hc : consumed.toNat ≤ 82) (record : IpPkt) :
    udpPorts (Packet.at h q) record consumed = udpPorts h record consumed := by
  have hcap := h.caplen.toNat_lt
  by_cases hshort : consumed + MIN_UDP_HDR_LEN ≥ h.caplen
  · exact (if_pos hshort).trans (if_pos hshort).symm
  have hlong := UInt32.lt_iff_toNat_lt.mp (UInt32.not_le.mp hshort)
  rw [room hc (by decide), show MIN_UDP_HDR_LEN.toNat = 8 from rfl] at hlong
  have hhdr : SameBytes 8 (h.pp.add consumed) (q.add consumed) := hs.add (by omega) (by omega)
  have h0 : (q.add consumed).half 0 = (h.pp.add consumed).half 0 := (hhdr.half (by decide) (by decide)).symm
  have h2 : (q.add consumed).half 2 = (h.pp.add consumed).half 2 := (hhdr.half (by decide) (by decide)).symm
  unfold udpPorts getUdpHeader
  simp only [Packet.at, h0, h2]

/-- An echo request's payload is in the 16 bytes behind its header. -/
def payload (p : Ptr) (consumed : UInt32) : List UInt8 := (p.add (consumed + sizeofIcmp)).bytes ICMP_PAYLOAD_SZ

theorem icmp_type_same (hs : SameBytes h.caplen.toNat h.pp q) (hc : consumed.toNat ≤ 82) (hlong : consumed + sizeofIcmp < h.caplen) :
    (q.add consumed).byte 0 = (h.pp.add consumed).byte 0 := by
  have hlt := UInt32.lt_iff_toNat_lt.mp hlong
  rw [room hc (by decide)] at hlt
  rw [Ptr.add_byte, Ptr.add_byte, UInt32.add_zero]
  exact (hs.byte consumed (by omega)).symm

theorem icmp_same (hs : SameBytes h.caplen.toNat h.pp q) (hc : consumed.toNat ≤ 82) (record : IpPkt)
    (hp : consumed + sizeofIcmp < h.caplen → (h.pp.add consumed).byte 0 = ICMP_ECHO → payload q consumed = payload h.pp consumed) :
    icmpFields (Packet.at h q) record consumed = icmpFields h record consumed := by
  by_cases hshort : consumed + sizeofIcmp ≥ h.caplen
  · exact (if_pos hshort).trans (if_pos hshort).symm
  have hlong := UInt32.not_le.mp hshort
  unfold icmpFields
  simp only [Packet.at, icmp_type_same hs hc hlong]
  by_cases hecho : (h.pp.add consumed).byte 0 = ICMP_ECHO
  · have hsame := hp hlong hecho
    unfold payload at hsame
    rw [hsame]
  · simp only [if_neg hecho]

/-- Captured as far as it is read. -/
theorem payload_same (hs : SameBytes h.caplen.toNat h.pp q) (hc : consumed.toNat ≤ 82)
    (hlen : consumed + sizeofIcmp + ICMP_PAYLOAD_SZ ≤ h.caplen) : payload q consumed = payload h.pp consumed := by
  have hle := UInt32.le_iff_toNat_le.mp hlen
  rw [UInt32.add_assoc, room hc (by decide)] at hle
  have h44 : (sizeofIcmp + ICMP_PAYLOAD_SZ).toNat = 44 := rfl
  unfold payload Ptr.bytes
  refine List.map_congr_left fun i hi => ?_
  have hi' : i < 16 := List.mem_range.mp hi
  rw [Ptr.add_byte, Ptr.add_byte]
  refine (hs.byte _ ?_).symm
  rw [UInt32.add_assoc, room hc (by rw [UInt32.toNat_add, toNat_ofNat_lt (by omega)]; show (28 + i) % 2 ^ 32 ≤ 44; omega),
    UInt32.toNat_add, toNat_ofNat_lt (by omega), show sizeofIcmp.toNat = 28 from rfl]
  omega

/-- An echo request, captured beyond its header but not to the end of its payload. -/
def CutEcho (h : Packet) : Prop :=
  ∃ ip consumed, located h = .ok (ip, consumed) ∧ ip.proto = IPPROTO_ICMP ∧ consumed + sizeofIcmp < h.caplen ∧
    (h.pp.add consumed).byte 0 = ICMP_ECHO ∧ h.caplen < consumed + sizeofIcmp + ICMP_PAYLOAD_SZ

theorem processPacket_same (hs : SameBytes h.caplen.toNat h.pp q) (record : IpPkt) (hcut : ¬ CutEcho h) :
    processPacket (Packet.at h q) record = processPacket h record := by
  have hreported : reported (Packet.at h q) record = reported h record := by
    cases hl : located h with
    | error out => rw [reported_error hl, reported_error ((located_same hs).trans hl)]
    | ok el =>
      obtain ⟨ip, consumed⟩ := el
      have hc := (located_inside hl).1
      have htransport : ∀ r, transport (Packet.at h q) r ip.proto consumed = transport h r ip.proto consumed := by
        intro r
        unfold transport
        rw [tcp_same hs hc, udp_same hs hc]
        by_cases hicmp : ip.proto = IPPROTO_ICMP
        · rw [icmp_same hs hc r fun hlong hecho => payload_same hs hc ?_]
          exact UInt32.not_lt.mp fun hlt => hcut ⟨ip, consumed, hl, hicmp, hlong, hecho, hlt⟩
        · simp only [if_neg hicmp]
      rw [reported_ok hl, reported_ok ((located_same hs).trans hl), htransport]
      rfl
  unfold processPacket
  rw [hreported]

/-! ### Behind the capture -/

/-- The record of an echo request with the payload `bs`. -/
def echoRecord (h : Packet) (record : IpPkt) (ip : IpFields) (bs : List UInt8) : IpPkt :=
  { record with secs := h.tv_sec, usecs := h.tv_usec, srcHost := ip.src, dstHost := ip.dst, srcPort := 0, dstPort := 0,
                ipLen := ip.len, ipProto := 'C', ipIdentifier := ip.id, icmpType := ICMP_ECHO, icmpPayload := bs }

theorem echo_reported {ip : IpFields} (record : IpPkt) (hl : located h = .ok (ip, consumed)) (hicmp : ip.proto = IPPROTO_ICMP)
    (hlong : consumed + sizeofIcmp < h.caplen) (hecho : (h.pp.add consumed).byte 0 = ICMP_ECHO) :
    processPacket h record = ⟨printPacketHeader (echoRecord h record ip (payload h.pp consumed)), 0⟩ := by
  have hreported : reported h record = .ok (echoRecord h record ip (payload h.pp consumed)) := by
    rw [reported_ok hl, hicmp, transport, if_neg (by decide), if_neg (by decide), if_pos rfl, icmpFields,
      if_neg (UInt32.not_le.mpr hlong)]
    simp only [hecho, if_true]
    rfl
  unfold processPacket
  rw [hreported]

theorem payloadText_eq (bs : List UInt8) : payloadText bs = hexBytes bs := by
  unfold payloadText hexBytes
  refine List.flatMap_congr fun c _ => ?_
  exact Digits.pad_toDigits (by decide) (by decide) c.toNat_lt

theorem echoRecord_injective {ip : IpFields} {bs bs' : List UInt8}
    (heq : printPacketHeader (echoRecord h record ip bs) = printPacketHeader (echoRecord h record ip bs')) : bs = bs' := by
  have htext : payloadText bs = payloadText bs' := by
    simpa [printPacketHeader, echoRecord] using heq
  rw [payloadText_eq, payloadText_eq] at htext
  exact hexBytes_injective htext

/-- Memory that differs in the first byte behind the capture. -/
def bumped (h : Packet) : Ptr := { h.pp with byte := fun i => if i = h.caplen then h.pp.byte i + 1 else h.pp.byte i }

theorem bumped_same (h : Packet) : SameBytes h.caplen.toNat h.pp (bumped h) where
  addr := rfl
  byte i hi := by
    have hne : i ≠ h.caplen := fun he => by
      rw [he] at hi
      exact Nat.lt_irrefl _ hi
    exact (if_neg hne).symm

theorem bumped_payload (hc : consumed.toNat ≤ 82) (hlong : consumed + sizeofIcmp < h.caplen)
    (hcut : h.caplen < consumed + sizeofIcmp + ICMP_PAYLOAD_SZ) : payload (bumped h) consumed ≠ payload h.pp consumed := by
  have hfrom := UInt32.lt_iff_toNat_lt.mp hlong
  have hto := UInt32.lt_iff_toNat_lt.mp hcut
  rw [UInt32.add_assoc, room hc (by decide)] at hto
  rw [room hc (by decide)] at hfrom
  have h28 : sizeofIcmp.toNat = 28 := rfl
  have h44 : (sizeofIcmp + ICMP_PAYLOAD_SZ).toNat = 44 := rfl
  intro heq
  -- the byte of the payload that is the first behind the capture
  obtain ⟨k, hk⟩ : ∃ k, h.caplen.toNat = consumed.toNat + 28 + k := ⟨h.caplen.toNat - (consumed.toNat + 28), by omega⟩
  have hk16 : k < ICMP_PAYLOAD_SZ.toNat := show k < 16 by omega
  have hplace : consumed + sizeofIcmp + UInt32.ofNat k = h.caplen := by
    apply UInt32.toNat.inj
    rw [UInt32.toNat_add, room hc (by decide), toNat_ofNat_lt (by omega), h28, hk]
    omega
  have hbyte : ∀ p : Ptr, (payload p consumed)[k]? = some (p.byte h.caplen) := by
    intro p
    unfold payload Ptr.bytes
    rw [List.getElem?_map, List.getElem?_range hk16, Option.map_some, Ptr.add_byte, hplace]
  have hsame := hbyte (bumped h)
  rw [heq, hbyte h.pp] at hsame
  have hnext : h.pp.byte h.caplen = h.pp.byte h.caplen + 1 := (Option.some_inj.mp hsame).trans (if_pos rfl)
  have hn := congrArg UInt8.toNat hnext
  rw [UInt8.toNat_add] at hn
  have hlt := (h.pp.byte h.caplen).toNat_lt
  have h1 : (1 : UInt8).toNat = 1 := rfl
  omega

/-! ### The record -/

/-- The line of a record, when the packet's time and hosts have been filled in. -/
def lineOf (h : Packet) (ip : IpFields) (p : IpPkt) : List Char :=
  printPacketHeader { p with secs := h.tv_sec, usecs := h.tv_usec, srcHost := ip.src, dstHost := ip.dst }

theorem lines_eq {ip : IpFields} (hl : located h = .ok (ip, consumed)) (r : IpPkt) : (reported h r).map printPacketHeader =
    (transport h { r with ipLen := ip.len, ipIdentifier := ip.id } ip.proto consumed).map (lineOf h ip) := by
  rw [reported_ok hl]
  cases transport h { r with ipLen := ip.len, ipIdentifier := ip.id } ip.proto consumed with
  | error out => rfl
  | ok p => rfl

theorem processPacket_of_lines {r r' : IpPkt} (hlines : (reported h r').map printPacketHeader = (reported h r).map printPacketHeader) :
    processPacket h r' = processPacket h r := by
  unfold processPacket
  cases hr : reported h r with
  | error out =>
    cases hr' : reported h r' with
    | error out' =>
      rw [hr, hr'] at hlines
      exact Except.error.inj hlines
    | ok p' =>
      rw [hr, hr'] at hlines
      cases hlines
  | ok p =>
    cases hr' : reported h r' with
    | error out' =>
      rw [hr, hr'] at hlines
      cases hlines
    | ok p' =>
      rw [hr, hr'] at hlines
      exact congrArg (fun line => Outcome.mk line 0) (Except.ok.inj hlines)

variable {r r' : IpPkt} {ip : IpFields}

theorem tcp_fresh (hlen : r'.ipLen = r.ipLen) (hid : r'.ipIdentifier = r.ipIdentifier) :
    (tcpPorts h r' consumed).map (lineOf h ip) = (tcpPorts h r consumed).map (lineOf h ip) := by
  unfold tcpPorts
  simp only
  split
  · rfl
  split
  · rfl
  split
  · rfl
  · simp [Except.map, lineOf, printPacketHeader, hlen, hid]

theorem udp_fresh (hlen : r'.ipLen = r.ipLen) (hid : r'.ipIdentifier = r.ipIdentifier) :
    (udpPorts h r' consumed).map (lineOf h ip) = (udpPorts h r consumed).map (lineOf h ip) := by
  unfold udpPorts
  simp only
  split
  · rfl
  split
  · rfl
  split
  · rfl
  · simp [Except.map, lineOf, printPacketHeader, hlen, hid]

/-- A payload is printed only when it is this packet's. -/
theorem icmp_fresh (hlen : r'.ipLen = r.ipLen) (hid : r'.ipIdentifier = r.ipIdentifier) :
    (icmpFields h r' consumed).map (lineOf h ip) = (icmpFields h r consumed).map (lineOf h ip) := by
  unfold icmpFields
  simp only
  split
  · rfl
  generalize (h.pp.add consumed).byte 0 = ty
  by_cases hecho : ty = ICMP_ECHO
  · simp [Except.map, lineOf, printPacketHeader, hlen, hid, hecho]
  · simp [Except.map, lineOf, printPacketHeader, hlen, hid, hecho]

theorem transport_fresh (hlen : r'.ipLen = r.ipLen) (hid : r'.ipIdentifier = r.ipIdentifier) (proto : UInt32) :
    (transport h r' proto consumed).map (lineOf h ip) = (transport h r proto consumed).map (lineOf h ip) := by
  unfold transport
  split
  · exact tcp_fresh hlen hid
  split
  · exact udp_fresh hlen hid
  split
  · exact icmp_fresh hlen hid
  · rfl

/-- What an earlier packet has left in the record is not in the line. -/
theorem processPacket_fresh (h : Packet) (r r' : IpPkt) : processPacket h r' = processPacket h r := by
  apply processPacket_of_lines
  cases hl : located h with
  | error out => rw [reported_error hl, reported_error hl]
  | ok el =>
    obtain ⟨ip, consumed⟩ := el
    rw [lines_eq hl, lines_eq hl]
    apply transport_fresh
    · rfl
    · rfl

/-- The size of an echo request's header is checked, that of its payload is not. -/
theorem echo_captured_iff (h : Packet) (record : IpPkt) :
    (∀ q record', SameBytes h.caplen.toNat h.pp q → processPacket { h with pp := q } record' = processPacket h record) ↔
      ¬ CutEcho h := by
  constructor
  · rintro hall ⟨ip, consumed, hl, hicmp, hlong, hecho, hcut⟩
    have hs := bumped_same h
    have hc := (located_inside hl).1
    have hbumped : processPacket (Packet.at h (bumped h)) record =
        ⟨printPacketHeader (echoRecord h record ip (payload (bumped h) consumed)), 0⟩ :=
      echo_reported record ((located_same hs).trans hl) hicmp hlong ((icmp_type_same hs hc hlong).trans hecho)
    have hsame := (hbumped.symm.trans (hall (bumped h) record hs)).trans (echo_reported record hl hicmp hlong hecho)
    exact bumped_payload hc hlong hcut (echoRecord_injective (congrArg Outcome.out hsame))
  · intro hcut q record' hs
    have hfresh : processPacket (Packet.at h q) record' = processPacket (Packet.at h q) record := processPacket_fresh _ record record'
    exact hfresh.trans (processPacket_same hs record hcut)

end Nfsdump.Iphdump
