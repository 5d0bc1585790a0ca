/-
  Nfsdump.Record.Waiting — how much waits in the tables of `processPacket` (nfsrecord.c,
  tcp_reassembly.c).

  Calls whose replies are lost, and records whose segments are, would stay in the tables for
  good. Each insert culls one bucket, and frees by key: what it frees need not be what is stale.
  The tables are bounded all the same.

  Proved, over any packets:
  - `Calls.replays`: the tables are what the inserts and lookups among the events make of empty ones;
  - `tables_bounded`: the calls that wait, and the fragments and their buffers, are no more than
    were made since 30 seconds before the oldest of the last 3301.
-/

import Nfsdump.Lib.Retention
import Nfsdump.Record.Ownership
import Nfsdump.Record.Answered

namespace Nfsdump.Record

open ChainTable

variable {ind : Indet} {env : Env} {w w' : World} {l : Locals} {evs : List Event}

/-! ## What is done to the tables -/

def xidOp : Event → Option (Op HashT XidKey)
  | .insertXid now k version proc => some (.insert (staleCall now) ⟨k.xid, k.host, k.port, version, proc, now⟩)
  | .lookupXid _ k _ => some (.lookup k)
  | _ => none

def tcpOp : Event → Option (Op TcpFragment TcpKey)
  | .tcpInsert f => some (.insert (staleFragment f.time) f)
  | .tcpLookup k _ => some (.lookup k)
  | _ => none

def xidOps (es : List Event) : List (Op HashT XidKey) := es.filterMap xidOp

def tcpOps (es : List Event) : List (Op TcpFragment TcpKey) := es.filterMap tcpOp

/-- The tables of `w'` are those of `w` with the events' operations done to them. -/
structure Replays (w : World) (es : List Event) (w' : World) : Prop where
  xid : run XidTable.scheme w.xid (xidOps es) = .ok w'.xid
  tcp : run TcpTable.scheme w.tcp (tcpOps es) = .ok w'.tcp

theorem Replays.trans {w'' : World} {es es' : List Event} (h : Replays w es w') (h' : Replays w' es' w'') :
    Replays w (es ++ es') w'' where
  xid := by
    rw [xidOps, List.filterMap_append, run_append]
    show (run XidTable.scheme w.xid (xidOps es)).bind _ = _
    rw [h.xid]
    exact h'.xid
  tcp := by
    rw [tcpOps, List.filterMap_append, run_append]
    show (run TcpTable.scheme w.tcp (tcpOps es)).bind _ = _
    rw [h.tcp]
    exact h'.tcp

/-- No operation on either table. -/
def Aside (es : List Event) : Prop := xidOps es = [] ∧ tcpOps es = []

theorem Aside.replays {es : List Event} (h : Aside es) (w : World) : Replays w es w := by
  constructor
  · rw [h.1]
    rfl
  · rw [h.2]
    rfl

theorem aside_nil : Aside [] := ⟨rfl, rfl⟩

theorem Aside.append {es es' : List Event} (h : Aside es) (h' : Aside es') : Aside (es ++ es') := by
  unfold Aside xidOps tcpOps at h h' ⊢
  rw [List.filterMap_append, List.filterMap_append, h.1, h.2, h'.1, h'.2]
  exact ⟨rfl, rfl⟩

theorem aside_freeBuffers (ns : List (Node TcpFragment)) : Aside (freeBuffers ns) := by
  unfold Aside xidOps tcpOps freeBuffers
  rw [List.filterMap_map, List.filterMap_map]
  exact ⟨List.filterMap_eq_nil_iff.mpr fun _ _ => rfl, List.filterMap_eq_nil_iff.mpr fun _ _ => rfl⟩

theorem aside_freeReassembly (l : Locals) : Aside (freeReassembly l) := by
  unfold freeReassembly
  cases l.reassemblyBuffer with
  | none => exact aside_nil
  | some id => exact ⟨rfl, rfl⟩

theorem aside_headerEvents (l : Locals) : Aside l.headerEvents := by
  unfold Locals.headerEvents
  cases l.rpcHeader.notUnix with
  | none => exact ⟨rfl, rfl⟩
  | some _ => exact ⟨rfl, rfl⟩

/-! ## Steps -/

theorem run_one {α κ : Type} [DecidableEq κ] {S : Scheme α κ} {t t' : Table α} {op : Op α κ} {removed : List (Node α)}
    (h : op.apply S t = .ok (t', removed)) : run S t [op] = .ok t' := by
  rw [run, h]
  rfl

theorem tcpSegment_replays (ind : Indet) (env : Env) (l : Locals) (hw : Tables w) :
    Replays w (tcpSegment ind env w l).events (tcpSegment ind env w l).world := by
  obtain ⟨L, hL⟩ := hw.tcp
  cases hn : (lookup TcpTable.scheme w.tcp env.key).1 with
  | none =>
    have hmiss : run TcpTable.scheme w.tcp [.lookup env.key] = .ok w.tcp := by
      have happly : (Op.lookup env.key).apply TcpTable.scheme w.tcp = .ok (w.tcp, []) := by
        show Except.ok ((lookup TcpTable.scheme w.tcp env.key).2, (lookup TcpTable.scheme w.tcp env.key).1.toList) = _
        rw [lookup_of_none hn, hn]
        rfl
      exact run_one happly
    by_cases hlen : l.announced ≤ env.length - l.i_len - (l.h_len + 4)
    · rw [tcpSegment_sole ind hn hlen]
      exact ⟨rfl, hmiss⟩
    by_cases hbig : l.announced > 16384
    · rw [tcpSegment_reject ind hn hlen hbig]
      exact ⟨rfl, hmiss⟩
    · obtain ⟨t', ns, hok, -⟩ := insert_lists (staleFragment l.record.secs) hL (firstFragment ind env w l)
      rw [tcpSegment_first_eq ind hn hlen hbig hok]
      have hstored : Replays w [.tcpLookup env.key none, .mark l.consumed, .malloc w.nextBuf l.announced,
          .memcpy w.nextBuf 0 (l.consumed + 4) (env.length - l.i_len - (l.h_len + 4)) l.announced,
          .tcpInsert (firstFragment ind env w l)] { w with tcp := t', nextBuf := w.nextBuf + 1 } := by
        refine ⟨rfl, ?_⟩
        show run TcpTable.scheme w.tcp ([.lookup env.key] ++ [.insert (staleFragment l.record.secs) (firstFragment ind env w l)]) = _
        rw [run_append, hmiss]
        exact run_one hok
      exact hstored.trans ((aside_freeBuffers ns).replays _)
  | some n =>
    by_cases hlt : env.offset n.val + (env.length - l.i_len - l.h_len) < n.val.rpc_len
    · obtain ⟨-, hL', -⟩ := lookup_lists hL env.key
      obtain ⟨t', ns, hok, -⟩ := insert_lists (staleFragment l.record.secs) hL' (nextFragment env l n.val)
      rw [tcpSegment_more_eq ind hn hlt hok]
      have hstored : Replays w [.tcpLookup env.key (some n.val), .memcpy n.val.buffer.id (env.offset n.val) l.consumed
          (env.length - l.i_len - l.h_len) n.val.buffer.size, .tcpInsert (nextFragment env l n.val)] { w with tcp := t' } :=
        ⟨rfl, run_one hok⟩
      exact hstored.trans ((aside_freeBuffers ns).replays _)
    · rw [tcpSegment_complete ind hn hlt]
      exact ⟨rfl, rfl⟩

theorem decode_replays {print_it : Int32} {d : Decoded} (hd : l.decode w print_it = .ok d) : Replays w d.events d.world := by
  unfold Locals.decode at hd
  split at hd
  · unfold decodeCall at hd
    simp only at hd
    split at hd
    · cases hd
    · next t' ns hok =>
      cases hd
      exact ⟨run_one hok, rfl⟩
  · cases hd
    unfold decodeReply
    simp only
    split
    · next t' hok =>
      exact ⟨congrArg Except.ok (congrArg Prod.snd hok), rfl⟩
    · next p t' hok =>
      exact ⟨congrArg Except.ok (congrArg Prod.snd hok), rfl⟩

theorem rpcMessage_replays (ind : Indet) (env : Env) (l : Locals) (hx : XidOk w) :
    Replays w (rpcMessage ind env w l).events (rpcMessage ind env w l).world := by
  have hhead := aside_headerEvents l
  by_cases hd : l.Decodes
  · rw [rpcMessage_of_decodes ind env w l hd]
    cases he : l.decode w (ind.print_it l.cnt) with
    | error ev => exact absurd hx ((decode_spec w l _).1 ev he).2.2
    | ok d =>
      have hlines : Aside (Event.decision d.kind (d.print_it ≠ 0) ::
          if d.print_it ≠ 0 then printEvents env l.rpcHeader
            { l.pastHeader with record := d.record, consumed := l.pastHeader.consumed + d.statusBytes }
            (l.pastHeader.rpc_len - (l.rpcHeader.rc.toUInt32 + d.statusBytes)) else []) := by
        split
        · exact ⟨rfl, rfl⟩
        · exact ⟨rfl, rfl⟩
      exact (hhead.replays w).trans ((decode_replays he).trans (hlines.replays d.world))
  · have hfree := aside_freeReassembly l
    have hstray := rpcMessage_of_stray ind env w l hd
    generalize rpcMessage ind env w l = o at hstray ⊢
    cases hstray with
    | empty =>
      refine ((hhead.append ?_).append hfree).replays w
      split
      · exact ⟨rfl, rfl⟩
      · exact aside_nil
    | unread => exact (hhead.append hfree).replays w
    | null => exact hhead.replays w
    | bare => exact hhead.replays w

theorem loopBody_replays (ind : Indet) (env : Env) (l : Locals) (hw : Tables w) :
    Replays w (loopBody ind env w l).events (loopBody ind env w l).world := by
  rw [loopBody_eq]
  split
  · have hs := tcpSegment_replays ind env l.counted hw
    have htab := (tcpSegment_turn ind env l.counted hw).1
    cases hf : (tcpSegment ind env w l.counted).flow with
    | next l' =>
      rw [andThen_next hf]
      exact hs.trans (rpcMessage_replays ind env l' htab.xid)
    | _ =>
      rw [andThen_stop (by simp [hf])]
      exact hs
  · exact rpcMessage_replays ind env l.counted hw.xid

theorem loop_replays (ind : Indet) (env : Env) (fuel : Nat) (l : Locals) (hw : Tables w) :
    Replays w (loop ind env fuel w l).events (loop ind env fuel w l).world := by
  induction fuel generalizing w l with
  | zero => exact aside_nil.replays w
  | succ fuel ih =>
    rw [loop]
    split
    · have hbody := loopBody_replays ind env l hw
      cases hf : (loopBody ind env w l).flow with
      | next l' =>
        rw [andThen_next hf]
        exact hbody.trans (ih l' (loopBody_asserts ind env l hw).1)
      | _ =>
        rw [andThen_stop (by simp [hf])]
        exact hbody
    · exact aside_nil.replays w

theorem processPacket_replays (ind : Indet) (h : Packet) (record : NfsPkt) (hw : Tables w) :
    Replays w (processPacket ind w h record).events (processPacket ind w h record).world := by
  unfold processPacket
  split
  · exact aside_nil.replays w
  · next env l _ =>
    have hloop := loop_replays ind env (h.caplen.toNat + 3) l hw
    unfold finishPacket
    split
    · next l' _ => exact hloop.trans ((aside_freeReassembly l').replays _)
    · exact hloop
    · exact hloop
    · exact hloop

theorem Calls.replays (hr : Calls w evs) : Replays World.init evs w := by
  induction hr with
  | init => exact aside_nil.replays _
  | packet ind h record hr _ ih => exact ih.trans (processPacket_replays ind h record hr.ledger.tables)

/-! ## What waits -/

/-- When calls were entered. -/
def callTimes (es : List Event) : List Nat := (inserted (xidOps es)).map fun e => e.call_time.toNat

/-- When fragments were entered. -/
def fragmentTimes (es : List Event) : List Nat := (inserted (tcpOps es)).map fun f => f.time.toNat

/-- How many of the times are not over MAX_AGE before the last round of them. -/
def inWindow (times : List Nat) : Nat := times.countP fun t => windowStart HASHSIZE.toNat times ≤ t + MAX_AGE.toNat

theorem ages_stale {time now : UInt32} (h : time.toNat + 30 < now.toNat) : time < now - MAX_AGE := by
  have h30 : MAX_AGE.toNat = 30 := rfl
  have hle : MAX_AGE ≤ now := UInt32.le_iff_toNat_le.mpr (by omega)
  rw [UInt32.lt_iff_toNat_lt, UInt32.toNat_sub_of_le _ _ hle]
  omega

theorem ages_xidOps (es : List Event) : ∀ op ∈ xidOps es, Ages (fun e : HashT => e.call_time.toNat) MAX_AGE.toNat op := by
  intro op hop
  obtain ⟨e, -, he⟩ := List.mem_filterMap.mp hop
  cases e with
  | insertXid now k version proc =>
    cases he
    exact fun x hx => decide_eq_true (ages_stale hx)
  | lookupXid now k found =>
    cases he
    trivial
  | _ => cases he

theorem ages_tcpOps (es : List Event) : ∀ op ∈ tcpOps es, Ages (fun f : TcpFragment => f.time.toNat) MAX_AGE.toNat op := by
  intro op hop
  obtain ⟨e, -, he⟩ := List.mem_filterMap.mp hop
  cases e with
  | tcpInsert f =>
    cases he
    exact fun x hx => decide_eq_true (ages_stale hx)
  | tcpLookup k found =>
    cases he
    trivial
  | _ => cases he

/-- The tables do not leak, and neither do the buffers. -/
theorem tables_bounded (hr : Calls w evs) :
    w.xid.elemCnt ≤ inWindow (callTimes evs) ∧ w.tcp.elemCnt ≤ inWindow (fragmentTimes evs) ∧
      (allocated evs).length ≤ (freed evs).length + inWindow (fragmentTimes evs) := by
  have hxid : w.xid.elemCnt ≤ inWindow (callTimes evs) := by
    have h := run_window (by decide) (ages_xidOps evs) hr.replays.xid
    rw [inWindow, callTimes, List.countP_map]
    exact h
  have htcp : w.tcp.elemCnt ≤ inWindow (fragmentTimes evs) := by
    have h := run_window (by decide) (ages_tcpOps evs) hr.replays.tcp
    rw [inWindow, fragmentTimes, List.countP_map]
    exact h
  refine ⟨hxid, htcp, ?_⟩
  obtain ⟨L, hL, hperm⟩ := hr.ledger.owned
  have hlen := hperm.length_eq
  rw [hL.count] at htcp
  simp only [List.append_nil, List.length_append, List.length_map] at hlen
  omega

/-- A call and a fragment wait, with the one buffer. -/
theorem tables_bounded_seven :
    ((callsOf sevenPackets).1.xid.elemCnt ≤ inWindow (callTimes (callsOf sevenPackets).2) ∧
      (callsOf sevenPackets).1.tcp.elemCnt ≤ inWindow (fragmentTimes (callsOf sevenPackets).2) ∧
      (allocated (callsOf sevenPackets).2).length ≤
        (freed (callsOf sevenPackets).2).length + inWindow (fragmentTimes (callsOf sevenPackets).2)) ∧
    (callsOf sevenPackets).1.xid.elemCnt = 1 ∧ (callsOf sevenPackets).1.tcp.elemCnt = 1 :=
  ⟨tables_bounded sevenPackets_calls, by decide +kernel⟩

end Nfsdump.Record
