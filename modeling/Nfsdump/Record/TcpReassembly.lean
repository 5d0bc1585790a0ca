/-
  Nfsdump.Record.TcpReassembly — the table of partly received RPC messages
  (tcp_reassembly.c), a `ChainTable` keyed by the sequence number the next segment must
  have and the connection it must come on.
-/

import Nfsdump.Record.XidTable
import Nfsdump.Wire.Ptr

namespace Nfsdump.Record

open ChainTable Wire

/-- A reassembly buffer: the number of its `malloc`, the size asked for and the memory. -/
structure Buffer where
  id : Nat
  size : UInt32
  ptr : Ptr

/-- `tcp_fragment_t`, its `next` pointer aside. -/
structure TcpFragment where
  srcHost : UInt32
  dstHost : UInt32
  srcPort : UInt16
  dstPort : UInt16
  nextSeq : UInt32
  buffer : Buffer
  rpc_len : UInt32
  firstSeq : UInt32
  time : UInt32

structure TcpKey where
  nextSeq : UInt32
  srcHost : UInt32
  srcPort : UInt16
  dstHost : UInt32
  dstPort : UInt16
  deriving DecidableEq, Repr

namespace TcpTable

/-- The ports are promoted to `int`: a source port above 0x7fff makes the shifted word
    negative and its remainder negative or zero. -/
def portWord (srcPort dstPort : UInt16) : Int32 := ((srcPort.toUInt32 <<< 16) ||| dstPort.toUInt32).toInt32

def HASH (k : TcpKey) : UInt32 :=
  (k.nextSeq % HASHSIZE + k.srcHost % HASHSIZE + k.dstHost % HASHSIZE +
    (portWord k.srcPort k.dstPort % 3301).toUInt32) % HASHSIZE

theorem HASH_lt (k : TcpKey) : (HASH k).toNat < 3301 := by
  rw [HASH, UInt32.toNat_mod]; exact Nat.mod_lt _ (by decide)

def scheme : Scheme TcpFragment TcpKey where
  key f := ⟨f.nextSeq, f.srcHost, f.srcPort, f.dstHost, f.dstPort⟩
  hash k := (HASH k).toNat
  size := 3301
  hash_lt := HASH_lt

end TcpTable

abbrev TcpTable := Table TcpFragment

/-- `curr->time < then`, `then = now - MAX_AGE`. -/
def staleFragment (now : UInt32) (f : TcpFragment) : Bool := f.time < now - MAX_AGE

def tcpLookup (t : TcpTable) (_now nextSeq srcHost : UInt32) (srcPort : UInt16) (dstHost : UInt32) (dstPort : UInt16) :
    Option (Node TcpFragment) × TcpTable :=
  lookup TcpTable.scheme t ⟨nextSeq, srcHost, srcPort, dstHost, dstPort⟩

/-- Beside the table: the fragments the cull freed, with their buffers. -/
def tcpInsert (t : TcpTable) (now nextSeq srcHost : UInt32) (srcPort : UInt16) (dstHost : UInt32) (dstPort : UInt16)
    (buffer : Buffer) (rpc_len firstSeq : UInt32) : Except Fault (TcpTable × List (Node TcpFragment)) :=
  insert TcpTable.scheme (staleFragment now)
    ⟨srcHost, dstHost, srcPort, dstPort, nextSeq, buffer, rpc_len, firstSeq, now⟩ t

end Nfsdump.Record
