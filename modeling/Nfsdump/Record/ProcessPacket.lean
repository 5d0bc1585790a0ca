/-
  Nfsdump.Record.ProcessPacket — `processPacket` of nfsrecord.c: from a captured frame to
  the RPC messages in it, the two tables, and the records printed.

  A packet's processing is a function of the tables and the frame. What it does on the
  way is kept as a list of events: table operations, buffers allocated, filled and freed,
  headers handed to `getRpcHeader`, lines printed. What C leaves indeterminate is an
  argument (`Indet`): the memory `malloc` returns and the initial value of `print_it` in
  each iteration. The loop runs on fuel; `assert` failures and dangling pointers of the
  tables' culls abort it.
-/

import Nfsdump.Record.TcpReassembly
import Nfsdump.Wire.Headers
import Nfsdump.Wire.RpcHeader

namespace Nfsdump.Record

open ChainTable Wire

def NFSPROC_NULL : UInt32 := 0
def MOUNT_PROC_BASE : UInt32 := 100

/-- `struct pcap_pkthdr` and the packet pointer. -/
structure Packet where
  tv_sec : UInt32
  tv_usec : UInt32
  caplen : UInt32
  pp : Ptr

/-- `nfs_pkt_t`. -/
structure NfsPkt where
  secs : UInt32
  usecs : UInt32
  srcHost : UInt32
  dstHost : UInt32
  srcPort : UInt32
  dstPort : UInt32
  rpcXID : UInt32
  rpcCall : UInt32
  nfsVersion : UInt32
  nfsProc : UInt32
  rpcStatus : UInt32
  deriving DecidableEq, Repr

/-- A message at the print decision: what it is, by what the code has read of it. -/
inductive PrintCase where
  | call
  | reply (rp_stat accept_stat : UInt32) (known : Bool)
  deriving DecidableEq, Repr

inductive Event where
  /-- The record mark at `pp + off` is read. -/
  | mark (off : UInt32)
  | tcpLookup (key : TcpKey) (found : Option TcpFragment)
  | malloc (id : Nat) (size : UInt32)
  /-- `len` bytes at `pp + src` go to offset `dst` of a buffer of `size` bytes. -/
  | memcpy (id : Nat) (dst src len size : UInt32)
  | tcpInsert (f : TcpFragment)
  | free (id : Nat)
  /-- A message of `rpc_len` bytes at `bp` is handed to `getRpcHeader`. -/
  | rpcHeader (bp : Ptr) (rpc_len maxlen : UInt32)
  | notAuthUnix (flavor : UInt32)
  | rhLenZero (cnt : UInt32)
  | insertXid (now : UInt32) (key : XidKey) (version proc : UInt32)
  | lookupXid (now : UInt32) (key : XidKey) (found : Option HashT)
  /-- `if (print_it)` is reached. -/
  | decision (kind : PrintCase) (printed : Bool)
  | printRecord (record : NfsPkt) (xdr : Ptr) (payload_len proto actual_len : UInt32)
  /-- The end of a record's line: euid and egid when known, `con=`, `len=`, `LONGPKT-`. -/
  | trailer (ids : Option (Int32 × Int32)) (con len : UInt32) (longpkt : Option UInt32)

structure World where
  xid : XidTable
  tcp : TcpTable
  /-- The number of reassembly buffers allocated so far. -/
  nextBuf : Nat

def World.init : World := ⟨Table.empty, Table.empty, 0⟩

structure Indet where
  /-- What the `n`-th `malloc` of a reassembly buffer returns: its address and what the
      memory there holds. -/
  malloc : Nat → Ptr
  /-- The value `print_it` starts with in iteration `cnt`. -/
  print_it : UInt32 → Int32

/-- What the headers in front of the messages say; the loop does not change it. -/
structure Env where
  proto : UInt32
  length : UInt32
  th_seq : UInt32
  srcHost : UInt32
  dstHost : UInt32
  src_port : UInt32
  dst_port : UInt32

structure Locals where
  pp : Ptr
  tot_len : UInt32
  consumed : UInt32
  e_len : UInt32
  i_len : UInt32
  h_len : UInt32
  rpc_len : UInt32
  record : NfsPkt
  reassemblyBuffer : Option Nat
  cnt : UInt32

inductive Flow where
  /-- On to the next statement, or the next iteration. -/
  | next (l : Locals)
  /-- `goto end`, or the loop's condition is false. -/
  | done (l : Locals)
  | ret (rc : Int32) (l : Locals)
  | abort

structure Out where
  events : List Event
  world : World
  flow : Flow

def Out.andThen (o : Out) (k : World → Locals → Out) : Out :=
  match o.flow with
  | .next l => let o' := k o.world l; { o' with events := o.events ++ o'.events }
  | _ => o

theorem andThen_next {o : Out} {k : World → Locals → Out} {l : Locals} (h : o.flow = .next l) :
    o.andThen k = { k o.world l with events := o.events ++ (k o.world l).events } := by
  unfold Out.andThen; rw [h]

theorem andThen_stop {o : Out} {k : World → Locals → Out} (h : ∀ l, o.flow ≠ .next l) : o.andThen k = o := by
  unfold Out.andThen
  split
  · rename_i l hl; exact absurd hl (h l)
  · rfl

/-! ## The headers -/

def MIN_ETHER_HDR_LEN : UInt32 := 14
def MIN_IP_HDR_LEN : UInt32 := 20
def MIN_TCP_HDR_LEN : UInt32 := 20
def MIN_UDP_HDR_LEN : UInt32 := 8

/-- The record's fields set once the headers are accepted. -/
def fillRecord (h : Packet) (record : NfsPkt) (ip : IpHeader) (src_port dst_port : UInt32) : NfsPkt :=
  { record with secs := h.tv_sec, usecs := h.tv_usec, srcHost := ip.src, dstHost := ip.dst,
                srcPort := src_port, dstPort := dst_port }

def tcpHeaders (h : Packet) (record : NfsPkt) (ip : IpHeader) (e_len i_len : UInt32) : Except Int32 (Env × Locals) :=
  let tot_len := h.caplen
  let consumed := e_len + i_len
  if consumed + MIN_TCP_HDR_LEN ≥ tot_len then .error 0
  else
    let tcp_b := h.pp.add consumed
    let hdrLen := getTcpHeader tcp_b
    if hdrLen ≤ 0 then .error (-3)
    else
      let h_len := hdrLen.toUInt32
      let consumed := consumed + h_len
      if consumed ≥ tot_len then .error 0
      else
        let src_port := tcp_b.half 0
        let dst_port := tcp_b.half 2
        .ok (⟨ip.proto, ip.len, tcp_b.word 4, ip.src, ip.dst, src_port, dst_port⟩,
          ⟨h.pp, tot_len, consumed, e_len, i_len, h_len, 0, fillRecord h record ip src_port dst_port, none, 0⟩)

def udpHeaders (h : Packet) (record : NfsPkt) (ip : IpHeader) (e_len i_len : UInt32) : Except Int32 (Env × Locals) :=
  let tot_len := h.caplen
  let consumed := e_len + i_len
  if consumed + MIN_UDP_HDR_LEN ≥ tot_len then .error 0
  else
    let udp_b := h.pp.add consumed
    let hdrLen := getUdpHeader udp_b
    if hdrLen ≤ 0 then .error (-4)
    else
      let h_len := hdrLen.toUInt32
      let consumed := consumed + h_len
      if consumed ≥ tot_len then .error 0
      else
        let src_port := udp_b.half 0
        let dst_port := udp_b.half 2
        .ok (⟨ip.proto, ip.len, 0, ip.src, ip.dst, src_port, dst_port⟩,
          ⟨h.pp, tot_len, consumed, e_len, i_len, h_len, tot_len - consumed,
            fillRecord h record ip src_port dst_port, none, 0⟩)

/-- Up to the loop. `.error` is a return. -/
def headers (h : Packet) (record : NfsPkt) : Except Int32 (Env × Locals) :=
  let tot_len := h.caplen
  if tot_len ≤ MIN_ETHER_HDR_LEN + MIN_IP_HDR_LEN + MIN_UDP_HDR_LEN then .error 0
  else
    let ether := getEtherHeader tot_len h.pp
    if ether.hdrLen ≤ 0 then .error (-1)
    else
      let e_len := ether.hdrLen.toUInt32
      if ether.proto ≠ 0x0800 then .error 0
      else
        match getIpHeader (h.pp.add e_len) with
        | .error _ => .error (-2)
        | .ok ip =>
          if ip.hdrLen ≤ 0 then .error (-2)
          else
            let i_len := ip.hdrLen.toUInt32
            if e_len + i_len ≥ tot_len then .error 0
            else if ip.proto = IPPROTO_TCP then tcpHeaders h record ip e_len i_len
            else if ip.proto = IPPROTO_UDP then udpHeaders h record ip e_len i_len
            else .error 0

/-! ## One iteration -/

def freeBuffers (freed : List (Node TcpFragment)) : List Event := freed.map fun n => .free n.val.buffer.id

/-- The `if (proto == IPPROTO_TCP)` block: what the segment's place in its stream makes of
    it. -/
def tcpSegment (ind : Indet) (env : Env) (w : World) (l : Locals) : Out :=
  let seq := env.th_seq
  let sport := env.src_port.toUInt16
  let dport := env.dst_port.toUInt16
  let key : TcpKey := ⟨seq, env.srcHost, sport, env.dstHost, dport⟩
  match tcpLookup w.tcp l.record.secs seq env.srcHost sport env.dstHost dport with
  | (none, tcp) =>
    let w := { w with tcp := tcp }
    let ev : List Event := [.tcpLookup key none, .mark l.consumed]
    -- first segment
    let rpc_len := l.pp.word l.consumed &&& 0x7fffffff
    let l := { l with rpc_len := rpc_len, h_len := l.h_len + 4, consumed := l.consumed + 4 }
    let tcpPayloadLength := env.length - l.i_len - l.h_len
    let seq := seq + 4
    if rpc_len ≤ tcpPayloadLength then ⟨ev, w, .next l⟩
    else if rpc_len > 16384 then ⟨ev, w, .ret (-11) l⟩
    else
      let buffer : Buffer :=
        ⟨w.nextBuf, rpc_len, (ind.malloc w.nextBuf).memcpy 0 (l.pp.add l.consumed) tcpPayloadLength⟩
      let w := { w with nextBuf := w.nextBuf + 1 }
      let ev := ev ++ [.malloc buffer.id rpc_len, .memcpy buffer.id 0 l.consumed tcpPayloadLength buffer.size,
        .tcpInsert ⟨env.srcHost, env.dstHost, sport, dport, seq + tcpPayloadLength, buffer, rpc_len, seq, l.record.secs⟩]
      match tcpInsert w.tcp l.record.secs (seq + tcpPayloadLength) env.srcHost sport env.dstHost dport
          buffer rpc_len seq with
      | .error _ => ⟨ev, w, .abort⟩
      | .ok (tcp, freed) => ⟨ev ++ freeBuffers freed, { w with tcp := tcp }, .ret (-12) l⟩
  | (some n, tcp) =>
    let w := { w with tcp := tcp }
    let fragment := n.val
    -- subsequent segment
    let tcpPayloadLength := env.length - l.i_len - l.h_len
    let firstOffset := seq - fragment.firstSeq
    let lastOffset := firstOffset + tcpPayloadLength
    let lastOffset := if lastOffset > fragment.rpc_len then fragment.rpc_len else lastOffset
    let buffer : Buffer := { fragment.buffer with
      ptr := fragment.buffer.ptr.memcpy firstOffset (l.pp.add l.consumed) (lastOffset - firstOffset) }
    let ev : List Event := [.tcpLookup key (some fragment),
      .memcpy buffer.id firstOffset l.consumed (lastOffset - firstOffset) buffer.size]
    if lastOffset = fragment.rpc_len then
      -- RPC packet is complete
      ⟨ev, w, .next { l with
        pp := buffer.ptr, reassemblyBuffer := some buffer.id, rpc_len := fragment.rpc_len,
        tot_len := fragment.rpc_len, consumed := 0, e_len := 0, i_len := 0, h_len := 0 }⟩
    else
      let ev := ev ++ [.tcpInsert ⟨env.srcHost, env.dstHost, sport, dport, seq + tcpPayloadLength, buffer,
        fragment.rpc_len, fragment.firstSeq, l.record.secs⟩]
      match tcpInsert w.tcp l.record.secs (seq + tcpPayloadLength) env.srcHost sport env.dstHost dport
          buffer fragment.rpc_len fragment.firstSeq with
      | .error _ => ⟨ev, w, .abort⟩
      | .ok (tcp, freed) => ⟨ev ++ freeBuffers freed, { w with tcp := tcp }, .ret (-13) l⟩

/-- What decoding a message's header and matching it with its call leaves: the record,
    whether to print it, and the bytes of the reply's status words. -/
structure Decoded where
  events : List Event
  world : World
  record : NfsPkt
  print_it : Int32
  kind : PrintCase
  statusBytes : UInt32

def decodeCall (w : World) (record : NfsPkt) (rpc_b : Ptr) (print_it : Int32) : Except (List Event) Decoded :=
  let record := { record with
    rpcCall := CALL, rpcXID := rpc_b.word 0, nfsVersion := rpc_b.word 16,
    nfsProc := if rpc_b.word 12 = MOUNT_PROGRAM then rpc_b.word 20 + MOUNT_PROC_BASE else rpc_b.word 20 }
  let ev : List Event := [.insertXid record.secs ⟨record.rpcXID, record.srcHost, record.srcPort⟩
    record.nfsVersion record.nfsProc]
  match hashInsertXid w.xid record.secs record.rpcXID record.srcHost record.srcPort record.nfsVersion record.nfsProc with
  | .error _ => .error ev
  | .ok (xid, _) => .ok ⟨ev, { w with xid := xid }, record, print_it, .call, 0⟩

/-- `status` is the word the reply's status is taken from. -/
def decodeReply (w : World) (record : NfsPkt) (rpc_b : Ptr) (acceptStatus status : UInt32) (print_it : Int32) : Decoded :=
  let record := { record with rpcCall := REPLY, rpcXID := rpc_b.word 0 }
  let accepted := rpc_b.word 8
  let print_it := if accepted ≠ 0 ∨ acceptStatus ≠ 0 then 0 else print_it
  match hashLookupXid w.xid record.secs record.rpcXID record.dstHost record.dstPort with
  | (none, xid) =>
    ⟨[.lookupXid record.secs ⟨record.rpcXID, record.dstHost, record.dstPort⟩ none], { w with xid := xid },
      { record with nfsVersion := 3, nfsProc := 0xffffffff, rpcStatus := status }, 1,
      .reply accepted acceptStatus false, 8⟩
  | (some p, xid) =>
    ⟨[.lookupXid record.secs ⟨record.rpcXID, record.dstHost, record.dstPort⟩ (some p.val)], { w with xid := xid },
      { record with nfsVersion := p.val.nfsVersion, nfsProc := p.val.nfsProc, rpcStatus := status },
      print_it, .reply accepted acceptStatus true, 8⟩

/-- The record's line. -/
def printEvents (env : Env) (rh : RpcHeader) (l : Locals) (payload_len : UInt32) : List Event :=
  [.printRecord l.record (l.pp.add l.consumed) payload_len env.proto (l.tot_len - l.consumed),
   .trailer (if rh.euid ≠ -1 ∧ rh.egid ≠ -1 then some (rh.euid, rh.egid) else none) l.consumed
     (if payload_len + l.consumed > l.tot_len then l.tot_len else payload_len + l.consumed)
     (if l.tot_len > payload_len + l.consumed then some (l.tot_len - (payload_len + l.consumed)) else none)]

/-- The print decision and the step past the payload. -/
def finishMessage (env : Env) (rh : RpcHeader) (rh_len : UInt32) (l : Locals) (d : Decoded) : Out :=
  let rh_len := rh_len + d.statusBytes
  let l := { l with record := d.record, consumed := l.consumed + d.statusBytes }
  let payload_len := l.rpc_len - rh_len
  let lines := if d.print_it ≠ 0 then printEvents env rh l payload_len else []
  ⟨d.events ++ .decision d.kind (d.print_it ≠ 0) :: lines, d.world, .next { l with consumed := l.consumed + payload_len }⟩

def freeReassembly (l : Locals) : List Event := (l.reassemblyBuffer.map Event.free).toList

/-- The message at `pp + consumed`. -/
def Locals.rpc_b (l : Locals) : Ptr := l.pp.add l.consumed

def Locals.rpcHeader (l : Locals) : RpcHeader := getRpcHeader l.rpc_b (l.tot_len - l.consumed) (-1) (-1)

/-- The rest of the iteration. -/
def rpcMessage (ind : Indet) (env : Env) (w : World) (l : Locals) : Out :=
  let rpc_b := l.rpc_b
  let rh := l.rpcHeader
  let ev : List Event :=
    .rpcHeader rpc_b l.rpc_len (l.tot_len - l.consumed) :: (rh.notUnix.map Event.notAuthUnix).toList
  if rh.rc = 0 then
    ⟨ev ++ (if l.cnt > 1 then [.rhLenZero l.cnt] else []) ++ freeReassembly l, w, .ret 0 l⟩
  else if rh.rc < 0 then ⟨ev ++ freeReassembly l, w, .ret (-5) l⟩
  else
    let rh_len := rh.rc.toUInt32
    let l' := { l with consumed := l.consumed + rh_len }
    if l'.consumed = l'.tot_len ∧ rh.dir = CALL ∧ rpc_b.word 20 = NFSPROC_NULL then ⟨ev, w, .next l'⟩
    else if l'.consumed ≥ l'.tot_len then ⟨ev, w, .done l'⟩
    else if rh.dir = CALL then
      match decodeCall w l'.record rpc_b (ind.print_it l'.cnt) with
      | .error ev' => ⟨ev ++ ev', w, .abort⟩
      | .ok d => let o := finishMessage env rh rh_len l' d; { o with events := ev ++ o.events }
    else
      let d := decodeReply w l'.record rpc_b (l'.pp.word l'.consumed)
        (l'.pp.word (l'.e_len + l'.i_len + l'.h_len + rh_len + 4)) (ind.print_it l'.cnt)
      let o := finishMessage env rh rh_len l' d
      { o with events := ev ++ o.events }

def loopBody (ind : Indet) (env : Env) (w : World) (l : Locals) : Out :=
  let l := { l with cnt := l.cnt + 1 }
  if env.proto = IPPROTO_TCP then (tcpSegment ind env w l).andThen (rpcMessage ind env) else rpcMessage ind env w l

/-- `while (consumed < tot_len)`. A flow of `.next` is the fuel running out. -/
def loop (ind : Indet) (env : Env) : Nat → World → Locals → Out
  | 0, w, l => ⟨[], w, .next l⟩
  | fuel + 1, w, l =>
    if l.consumed < l.tot_len then (loopBody ind env w l).andThen (loop ind env fuel) else ⟨[], w, .done l⟩

/-! ## The packet -/

inductive Exit where
  | returned (rc : Int32)
  | aborted
  | diverged
  deriving DecidableEq

structure Result where
  exit : Exit
  world : World
  record : NfsPkt
  events : List Event

/-- The label `end` and the returns. -/
def finishPacket (record : NfsPkt) (o : Out) : Result :=
  match o.flow with
  | .done l => ⟨.returned 1, o.world, l.record, o.events ++ freeReassembly l⟩
  | .ret rc l => ⟨.returned rc, o.world, l.record, o.events⟩
  | .next l => ⟨.diverged, o.world, l.record, o.events⟩
  | .abort => ⟨.aborted, o.world, record, o.events⟩

/-- Every iteration but the last consumes at least a record mark, so `caplen` iterations
    are more than there can be. -/
def processPacket (ind : Indet) (w : World) (h : Packet) (record : NfsPkt) : Result :=
  match headers h record with
  | .error rc => ⟨.returned rc, w, record, []⟩
  | .ok (env, l) => finishPacket record (loop ind env (h.caplen.toNat + 3) w l)

end Nfsdump.Record
