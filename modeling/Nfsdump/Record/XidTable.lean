/-
  Nfsdump.Record.XidTable — the table of calls waiting for their replies (`hashInsertXid`,
  `hashLookupXid` of nfsrecord.c), a `ChainTable` keyed by XID, client host and client port.
-/

import Nfsdump.Lib.ChainTable

namespace Nfsdump.Record

open ChainTable

def HASHSIZE : UInt32 := 3301
def MAX_AGE : UInt32 := 30

/-- `hash_t`, its `next` pointer aside. -/
structure HashT where
  rpcXID : UInt32
  srcHost : UInt32
  srcPort : UInt32
  nfsVersion : UInt32
  nfsProc : UInt32
  call_time : UInt32
  deriving DecidableEq, Repr

structure XidKey where
  xid : UInt32
  host : UInt32
  port : UInt32
  deriving DecidableEq, Repr

namespace XidTable

def HASH (x h p : UInt32) : UInt32 := (x % HASHSIZE + h % HASHSIZE + p % HASHSIZE) % HASHSIZE

theorem HASH_lt (x h p : UInt32) : (HASH x h p).toNat < 3301 := by
  rw [HASH, UInt32.toNat_mod]; exact Nat.mod_lt _ (by decide)

def scheme : Scheme HashT XidKey where
  key e := ⟨e.rpcXID, e.srcHost, e.srcPort⟩
  hash k := (HASH k.xid k.host k.port).toNat
  size := 3301
  hash_lt k := HASH_lt k.xid k.host k.port

end XidTable

abbrev XidTable := Table HashT

/-- `curr->call_time < then`, `then = now - MAX_AGE`. -/
def staleCall (now : UInt32) (e : HashT) : Bool := e.call_time < now - MAX_AGE

def hashLookupXid (t : XidTable) (_now xid host port : UInt32) : Option (Node HashT) × XidTable :=
  lookup XidTable.scheme t ⟨xid, host, port⟩

/-- Beside the table: the entries the cull freed. -/
def hashInsertXid (t : XidTable) (now xid host port version proc : UInt32) :
    Except Fault (XidTable × List (Node HashT)) :=
  insert XidTable.scheme (staleCall now) ⟨xid, host, port, version, proc, now⟩ t

end Nfsdump.Record
