/-
  Nfsdump.Wire.Headers — the link, IP, TCP and UDP headers in front of an RPC message
  (`getEtherHeader`, `getIpHeader`, `getTcpHeader`, `getUdpHeader` of nfsrecord.c), as the
  code reads them.

  A header function returns the number of bytes its header takes; what it stores through
  its pointer arguments is returned beside it.
-/

import Nfsdump.Wire.Ptr

namespace Nfsdump.Wire

def ETHERMTU : UInt32 := 1500
def IPPROTO_TCP : UInt32 := 6
def IPPROTO_UDP : UInt32 := 17

structure EtherHeader where
  hdrLen : Int32
  proto : UInt32
  len : UInt32

def getEtherHeader (packet_len : UInt32) (bp : Ptr) : EtherHeader :=
  let length := bp.half 12
  if length = 0x8100 then ⟨18, bp.half 20, bp.half 16⟩
  else if length ≤ ETHERMTU ∨
      (length = packet_len - 22 ∧ bp.byte 14 = 0xAA ∧ bp.byte 15 = 0xAA ∧ bp.byte 16 = 0x03) then
    ⟨22, bp.half 20, length⟩
  else ⟨14, length, packet_len - 14⟩

def IP_V (vhl : UInt8) : UInt8 := (vhl &&& 0xf0) >>> 4
def IP_HL (vhl : UInt8) : UInt8 := vhl &&& 0x0f

structure IpHeader where
  hdrLen : Int32
  proto : UInt32
  len : UInt32
  src : UInt32
  dst : UInt32

/-- `.error` is a return before anything is stored: not IPv4, or not fragment zero. -/
def getIpHeader (ip_b : Ptr) : Except Int32 IpHeader :=
  if IP_V (ip_b.byte 0) ≠ 4 then .error (-1)
  else if ip_b.half 6 &&& 0x1fff ≠ 0 then .error 0
  else .ok ⟨Int32.ofNat ((IP_HL (ip_b.byte 0)).toNat * 4), (ip_b.byte 9).toUInt32, ip_b.half 2, ip_b.word 12, ip_b.word 16⟩

def TH_OFF (offx2 : UInt8) : UInt8 := (offx2 &&& 0xf0) >>> 4

def getTcpHeader (tcp_b : Ptr) : Int32 := Int32.ofNat (4 * (TH_OFF (tcp_b.byte 12)).toNat)

def getUdpHeader (_udp_b : Ptr) : Int32 := 8

theorem IP_HL_lt (v : UInt8) : (IP_HL v).toNat < 16 := by
  rw [IP_HL, UInt8.toNat_and]; exact Nat.lt_of_le_of_lt Nat.and_le_right (by decide)

theorem TH_OFF_lt (v : UInt8) : (TH_OFF v).toNat < 16 := by
  have h : (v &&& 0xf0).toNat < 256 := (v &&& 0xf0).toNat_lt
  rw [TH_OFF, UInt8.toNat_shiftRight]
  simp only [Nat.shiftRight_eq_div_pow]
  show _ / 2 ^ 4 < 16
  omega

/-- A header length is a small `int`: its sign test is on the count itself, and as an
    unsigned summand it is the count. -/
theorem hdrLen_small {n : Nat} (h : n < 64) :
    ((Int32.ofNat n ≤ 0) ↔ n = 0) ∧ (Int32.ofNat n).toUInt32 = UInt32.ofNat n := by
  have : ∀ n < 64, ((Int32.ofNat n ≤ 0) ↔ n = 0) ∧ (Int32.ofNat n).toUInt32 = UInt32.ofNat n := by decide
  exact this n h

end Nfsdump.Wire
