/-
  Nfsdump.Record.Capture — captured packets: what `processPacket`'s headers say about any of
  them, and what is said of the TCP segments among them (`Carries`).
-/

import Nfsdump.Record.Pending

namespace Nfsdump.Record

open ChainTable Wire

variable (ind : Indet) {env : Env} {w : World} {l : Locals} {h : Packet} {record : NfsPkt} {payload : List UInt8}

/-- What holds in front of the loop, whatever the packet. -/
structure AtLoop (h : Packet) (env : Env) (l : Locals) : Prop where
  pp : l.pp = h.pp
  tot_len : l.tot_len = h.caplen
  consumed : l.consumed = l.e_len + l.i_len + l.h_len
  unfinished : l.consumed < l.tot_len
  lengths : l.e_len.toNat ≤ 22 ∧ l.i_len.toNat ≤ 60 ∧ l.h_len.toNat ≤ 60
  length : env.length.toNat < 65536
  secs : l.record.secs = h.tv_sec
  cnt : l.cnt = 0
  noBuffer : l.reassemblyBuffer = none
  proto : env.proto = IPPROTO_TCP ∨ (env.proto = IPPROTO_UDP ∧ l.rpc_len = l.tot_len - l.consumed)

theorem etherLen_le (n : UInt32) (p : Ptr) : ((getEtherHeader n p).hdrLen.toUInt32).toNat ≤ 22 := by
  unfold getEtherHeader
  simp only
  split
  · show (Int32.toUInt32 18).toNat ≤ 22; decide
  split
  · show (Int32.toUInt32 22).toNat ≤ 22; decide
  · show (Int32.toUInt32 14).toNat ≤ 22; decide

theorem ipHeader_small {p : Ptr} {ip : IpHeader} (h : getIpHeader p = .ok ip) :
    ip.hdrLen.toUInt32.toNat ≤ 60 ∧ ip.len.toNat < 65536 := by
  unfold getIpHeader at h
  split at h
  · cases h
  split at h
  · cases h
  cases h
  have hhl := IP_HL_lt (p.byte 0)
  refine ⟨?_, p.half_lt 2⟩
  show (Int32.ofNat ((IP_HL (p.byte 0)).toNat * 4)).toUInt32.toNat ≤ 60
  rw [(hdrLen_small (by omega)).2, toNat_ofNat_lt (by omega)]
  omega

theorem tcpLen_le (p : Ptr) : (getTcpHeader p).toUInt32.toNat ≤ 60 := by
  have hoff := TH_OFF_lt (p.byte 12)
  rw [getTcpHeader, (hdrLen_small (by omega)).2, toNat_ofNat_lt (by omega)]
  omega

theorem tcpHeaders_ok {ip : IpHeader} {e_len i_len : UInt32} (h1 : e_len.toNat ≤ 22) (h2 : i_len.toNat ≤ 60)
    (h3 : ip.len.toNat < 65536) (hp : ip.proto = IPPROTO_TCP) (hh : tcpHeaders h record ip e_len i_len = .ok (env, l)) :
    AtLoop h env l := by
  unfold tcpHeaders at hh
  simp only at hh
  split at hh
  · cases hh
  split at hh
  · cases hh
  split at hh
  · cases hh
  rename_i hlt
  cases hh
  exact ⟨rfl, rfl, rfl, UInt32.not_le.mp hlt, ⟨h1, h2, tcpLen_le _⟩, h3, rfl, rfl, rfl, Or.inl hp⟩

theorem udpHeaders_ok {ip : IpHeader} {e_len i_len : UInt32} (h1 : e_len.toNat ≤ 22) (h2 : i_len.toNat ≤ 60)
    (h3 : ip.len.toNat < 65536) (hp : ip.proto = IPPROTO_UDP) (hh : udpHeaders h record ip e_len i_len = .ok (env, l)) :
    AtLoop h env l := by
  unfold udpHeaders at hh
  simp only at hh
  split at hh
  · cases hh
  split at hh
  · cases hh
  split at hh
  · cases hh
  rename_i hlt
  cases hh
  refine ⟨rfl, rfl, rfl, UInt32.not_le.mp hlt, ⟨h1, h2, ?_⟩, h3, rfl, rfl, rfl, Or.inr ⟨hp, rfl⟩⟩
  show (Int32.toUInt32 8).toNat ≤ 60
  decide

theorem headers_ok (hh : headers h record = .ok (env, l)) : AtLoop h env l := by
  unfold headers at hh
  simp only at hh
  split at hh
  · cases hh
  split at hh
  · cases hh
  split at hh
  · cases hh
  split at hh
  · cases hh
  rename_i ip hip
  obtain ⟨hil, hlen⟩ := ipHeader_small hip
  split at hh
  · cases hh
  split at hh
  · cases hh
  split at hh
  · rename_i hp
    exact tcpHeaders_ok (etherLen_le _ _) hil hlen hp hh
  split at hh
  · rename_i hp
    exact udpHeaders_ok (etherLen_le _ _) hil hlen hp hh
  · cases hh

/-! ## TCP segments -/

/-- The packet is a TCP segment with `payload`, captured whole, without padding, and as long
    as its IP header says. -/
structure Carries (h : Packet) (record : NfsPkt) (env : Env) (l : Locals) (payload : List UInt8) : Prop where
  parsed : headers h record = .ok (env, l)
  proto : env.proto = IPPROTO_TCP
  captured : h.caplen.toNat = l.e_len.toNat + env.length.toNat
  size : h.caplen.toNat = l.consumed.toNat + payload.length
  holds : l.rpc_b.Holds payload

theorem Carries.nonempty (c : Carries h record env l payload) : payload ≠ [] := by
  have hlt := UInt32.lt_iff_toNat_lt.mp (headers_ok c.parsed).unfinished
  have hs := c.size
  rw [(headers_ok c.parsed).tot_len] at hlt
  exact List.ne_nil_of_length_pos (by omega)

theorem Carries.atSegment (c : Carries h record env l payload) : AtSegment env l payload.length payload := by
  have a := headers_ok c.parsed
  obtain ⟨h1, h2, h3⟩ := a.lengths
  have hl := a.length
  have hc := c.captured
  have hs := c.size
  have hcon : l.consumed.toNat = l.e_len.toNat + l.i_len.toNat + l.h_len.toNat := by
    rw [a.consumed, UInt32.toNat_add, UInt32.toNat_add]; omega
  refine ⟨c.proto, c.holds, eq_ofNat ?_, ⟨Nat.le_refl _, by omega⟩, ?_, by omega⟩
  · rw [UInt32.toNat_sub, UInt32.toNat_sub]; omega
  · rw [a.tot_len]
    apply UInt32.toNat.inj
    rw [UInt32.toNat_add, toNat_ofNat_lt (by omega)]
    omega

theorem TcpFrame.carries {c : Conn} {seq : UInt32} {e i t : Nat} (f : TcpFrame h c seq e i t payload) (hne : payload ≠ [])
    (record : NfsPkt) : ∃ env l, Carries h record env l payload ∧ env.conn = c ∧ env.th_seq = seq ∧
      l.record = c.fill h record ∧ l.consumed = UInt32.ofNat (e + i + t) := by
  obtain ⟨_, _, ht⟩ := f.tcpWords
  obtain ⟨he, hi, hp, hsum⟩ := f.toFrame.small ht
  have hcap := f.captured
  refine ⟨_, _, ⟨headers_tcp f hne record, rfl, ?_, ?_, f.payload⟩, ?_, rfl, rfl, rfl⟩
  · show h.caplen.toNat = (UInt32.ofNat e).toNat + (UInt32.ofNat (i + t + payload.length)).toNat
    rw [toNat_ofNat_lt (by omega), toNat_ofNat_lt (by omega)]; omega
  · show h.caplen.toNat = (UInt32.ofNat (e + i + t)).toNat + payload.length
    rw [toNat_ofNat_lt (by omega)]; omega
  · show (⟨c.srcHost, c.srcPort.toUInt32.toUInt16, c.dstHost, c.dstPort.toUInt32.toUInt16⟩ : Conn) = c
    rw [UInt16.toUInt16_toUInt32, UInt16.toUInt16_toUInt32]

/-! ## Calls of processPacket -/

/-- A packet, and what C leaves indeterminate when it is processed. -/
structure Capture where
  ind : Indet
  h : Packet
  record : NfsPkt

/-- `processPacket` on one packet after the other; a failed assertion ends the program. -/
def processAll : World → List Capture → List Result
  | _, [] => []
  | w, c :: cs =>
    let r := processPacket c.ind w c.h c.record
    r :: if r.exit = .aborted then [] else processAll r.world cs

/-! ## The other packets -/

/-- A packet that is no TCP segment leaves the fragments alone. -/
theorem packet_other {L : List (Node TcpFragment)} (hL : Lists TcpTable.scheme w.tcp L) (hx : XidOk w)
    (hno : ∀ env l, headers h record = .ok (env, l) → env.proto ≠ IPPROTO_TCP) :
    Lists TcpTable.scheme (processPacket ind w h record).world.tcp L ∧ XidOk (processPacket ind w h record).world ∧
      copies (processPacket ind w h record).events = [] ∧
      ∃ rc, (processPacket ind w h record).exit = .returned rc := by
  unfold processPacket
  cases hh : headers h record with
  | error rc => exact ⟨hL, hx, rfl, rc, rfl⟩
  | ok el =>
    obtain ⟨env, l⟩ := el
    have a := headers_ok hh
    have hp := hno env l hh
    obtain ⟨_, hlen⟩ := a.proto.resolve_left hp
    have hend : l.counted.consumed + l.counted.rpc_len = l.counted.tot_len := by
      show l.consumed + l.rpc_len = l.tot_len
      rw [hlen]; grind
    obtain ⟨o, ho, hev, hw, hnext, habort, _⟩ := loop_last ind env w l.counted (h.caplen.toNat + 1) hend
    have hloop : loop ind env (h.caplen.toNat + 3) w l = o := by
      rw [← ho]
      simp only [loop, loopBody, a.unfinished, hp, if_true, if_false]
      rfl
    have hm := rpcMessage_spec ind env w l.counted
    simp only [hloop]
    obtain ⟨_, h2, _, h3, h4⟩ := finishPacket_spec record o hnext (habort hx)
    refine ⟨?_, ?_, ?_, h4⟩
    · rw [h3, hw, hm.tcp]; exact hL
    · rw [h3, hw]; exact (hm.xid hx).1
    · rw [h2, hev, hm.copies]

end Nfsdump.Record
