/-
  Nfsdump.Record.Ownership — who owns a reassembly buffer, and who frees it.

  A buffer is allocated for a record's first segment and goes from fragment to fragment as the
  next ones come. It is freed with its fragment when a cull drops that, or at the end of the
  packet that completes the record. `Ledger` keeps the account: the buffers of the fragments
  that wait, the one the loop holds and the ones freed are together the ones allocated, each
  once.

  Proved, over any calls of `processPacket`:
  - `tcpSegment_ledger`, `rpcMessage_ledger`, `loop_ledger`: every step keeps the account;
  - `ownership`: the table is in order at each lookup, no assertion fails, and each buffer
    has one fragment to own it or was freed once.
-/

import Nfsdump.Record.Copies
import Nfsdump.Record.Reassembly
import Nfsdump.Record.Total

namespace Nfsdump.Record

open ChainTable Wire

variable {ind : Indet} {env : Env} {w : World} {l : Locals} {h : Packet} {record : NfsPkt} {evs : List Event}

/-! ## The account -/

def allocated (es : List Event) : List Nat :=
  es.filterMap fun e => match e with
    | .malloc id _ => some id
    | _ => none

def freed (es : List Event) : List Nat :=
  es.filterMap fun e => match e with
    | .free id => some id
    | _ => none

@[simp] theorem allocated_append (xs ys : List Event) : allocated (xs ++ ys) = allocated xs ++ allocated ys := List.filterMap_append

@[simp] theorem freed_append (xs ys : List Event) : freed (xs ++ ys) = freed xs ++ freed ys := List.filterMap_append

def bufferId (n : Node TcpFragment) : Nat := n.val.buffer.id

theorem allocated_freeBuffers (ns : List (Node TcpFragment)) : allocated (freeBuffers ns) = [] := by
  unfold allocated freeBuffers
  rw [List.filterMap_map]
  exact List.filterMap_eq_nil_iff.mpr fun _ _ => rfl

theorem freed_freeBuffers (ns : List (Node TcpFragment)) : freed (freeBuffers ns) = ns.map bufferId := by
  unfold freed freeBuffers
  rw [List.filterMap_map, ← List.filterMap_eq_map]
  rfl

/-- After the events `evs`, with the buffers `held` in the loop's hands. -/
structure Ledger (w : World) (held : List Nat) (evs : List Event) : Prop where
  xid : XidOk w
  allocs : allocated evs = List.range w.nextBuf
  owned : ∃ L, Lists TcpTable.scheme w.tcp L ∧ (L.map bufferId ++ held ++ freed evs).Perm (allocated evs)

/-- The buffer an iteration leaves in the loop's hands. -/
def Flow.held : Flow → List Nat
  | .next l | .done l => l.reassemblyBuffer.toList
  | .ret _ _ | .abort => []

theorem ledger_init : Ledger World.init [] [] :=
  ⟨xidOk_init, rfl, [], tcp_init, List.Perm.refl _⟩

theorem Ledger.tables {held : List Nat} (h : Ledger w held evs) : Tables w := by
  obtain ⟨L, hL, -⟩ := h.owned
  exact ⟨h.xid, L, hL⟩

/-! ## A segment -/

/-- What an insert drops is freed. -/
theorem insert_account {t t' : TcpTable} {L ns : List (Node TcpFragment)} {f : TcpFragment} {stale : TcpFragment → Bool}
    (hL : Lists TcpTable.scheme t L) (hok : insert TcpTable.scheme stale f t = .ok (t', ns)) :
    ∃ L', Lists TcpTable.scheme t' L' ∧ (L'.map bufferId ++ ns.map bufferId).Perm (f.buffer.id :: L.map bufferId) := by
  obtain ⟨t₁, ns₁, hok₁, hL', -, -, hperm⟩ := insert_lists stale hL f
  obtain ⟨rfl, rfl⟩ : t' = t₁ ∧ ns = ns₁ := by
    rw [hok] at hok₁
    cases hok₁
    exact ⟨rfl, rfl⟩
  refine ⟨_, hL', ?_⟩
  have hids := (hperm.map bufferId).symm
  rw [List.map_append, List.map_cons] at hids
  exact List.perm_append_comm.trans hids

/-- The first segment of a record: a new buffer. -/
theorem first_ledger (h : Ledger w [] evs) (hn : (lookup TcpTable.scheme w.tcp env.key).1 = none)
    (hlen : ¬ l.announced ≤ env.length - l.i_len - (l.h_len + 4)) (hbig : ¬ l.announced > 16384) :
    Ledger (tcpSegment ind env w l).world (tcpSegment ind env w l).flow.held (evs ++ (tcpSegment ind env w l).events) := by
  obtain ⟨L, hL, hperm⟩ := h.owned
  obtain ⟨t', ns, hok, -⟩ := insert_lists (staleFragment l.record.secs) hL (firstFragment ind env w l)
  obtain ⟨L', hL', haccount⟩ := insert_account hL hok
  rw [tcpSegment_first_eq ind hn hlen hbig hok]
  have hallocs : allocated (evs ++ ([Event.tcpLookup env.key none, .mark l.consumed, .malloc w.nextBuf l.announced,
      .memcpy w.nextBuf 0 (l.consumed + 4) (env.length - l.i_len - (l.h_len + 4)) l.announced,
      .tcpInsert (firstFragment ind env w l)] ++ freeBuffers ns)) = allocated evs ++ [w.nextBuf] := by
    rw [allocated_append, allocated_append, allocated_freeBuffers, List.append_nil]
    rfl
  refine ⟨h.xid, ?_, L', hL', ?_⟩
  · rw [hallocs, h.allocs]
    exact List.range_succ.symm
  · rw [hallocs, freed_append, freed_append, freed_freeBuffers]
    show (L'.map bufferId ++ [] ++ (freed evs ++ ([] ++ ns.map bufferId))).Perm _
    rw [List.append_nil] at hperm ⊢
    calc (L'.map bufferId ++ (freed evs ++ ns.map bufferId)).Perm (L'.map bufferId ++ (ns.map bufferId ++ freed evs)) :=
          List.perm_append_comm.append_left _
      _ = L'.map bufferId ++ ns.map bufferId ++ freed evs := (List.append_assoc _ _ _).symm
      List.Perm _ (w.nextBuf :: L.map bufferId ++ freed evs) := haccount.append_right _
      List.Perm _ (w.nextBuf :: allocated evs) := hperm.cons _
      List.Perm _ (allocated evs ++ [w.nextBuf]) := (List.perm_append_singleton _ _).symm

/-- A lookup takes one fragment out. -/
theorem lookup_account {t : TcpTable} {L : List (Node TcpFragment)} {k : TcpKey} {n : Node TcpFragment}
    (hL : Lists TcpTable.scheme t L) (hn : (lookup TcpTable.scheme t k).1 = some n) :
    Lists TcpTable.scheme (lookup TcpTable.scheme t k).2 (others L k) ∧
      (L.map bufferId).Perm (n.val.buffer.id :: (others L k).map bufferId) := by
  obtain ⟨hfind, hL', -, -⟩ := lookup_lists hL k
  rw [hn] at hfind
  have hids := (find?_perm hfind.symm).map bufferId
  rw [List.map_cons] at hids
  exact ⟨hL', hids⟩

/-- A further segment: the buffer changes hands. -/
theorem more_ledger (h : Ledger w [] evs) {n : Node TcpFragment} (hn : (lookup TcpTable.scheme w.tcp env.key).1 = some n)
    (hlt : env.offset n.val + (env.length - l.i_len - l.h_len) < n.val.rpc_len) :
    Ledger (tcpSegment ind env w l).world (tcpSegment ind env w l).flow.held (evs ++ (tcpSegment ind env w l).events) := by
  obtain ⟨L, hL, hperm⟩ := h.owned
  obtain ⟨hothers, hout⟩ := lookup_account hL hn
  obtain ⟨t', ns, hok, -⟩ := insert_lists (staleFragment l.record.secs) hothers (nextFragment env l n.val)
  obtain ⟨L', hL', haccount⟩ := insert_account hothers hok
  rw [tcpSegment_more_eq ind hn hlt hok]
  have hallocs : allocated (evs ++ ([Event.tcpLookup env.key (some n.val), .memcpy n.val.buffer.id (env.offset n.val) l.consumed
      (env.length - l.i_len - l.h_len) n.val.buffer.size, .tcpInsert (nextFragment env l n.val)] ++ freeBuffers ns)) =
      allocated evs := by
    rw [allocated_append, allocated_append, allocated_freeBuffers, List.append_nil]
    exact List.append_nil _
  refine ⟨h.xid, ?_, L', hL', ?_⟩
  · rw [hallocs]
    exact h.allocs
  · rw [hallocs, freed_append, freed_append, freed_freeBuffers]
    show (L'.map bufferId ++ [] ++ (freed evs ++ ([] ++ ns.map bufferId))).Perm _
    rw [List.append_nil] at hperm ⊢
    calc (L'.map bufferId ++ (freed evs ++ ns.map bufferId)).Perm (L'.map bufferId ++ (ns.map bufferId ++ freed evs)) :=
          List.perm_append_comm.append_left _
      _ = L'.map bufferId ++ ns.map bufferId ++ freed evs := (List.append_assoc _ _ _).symm
      List.Perm _ (n.val.buffer.id :: (others L env.key).map bufferId ++ freed evs) := haccount.append_right _
      List.Perm _ (L.map bufferId ++ freed evs) := hout.symm.append_right _
      List.Perm _ (allocated evs) := hperm

/-- The last segment of a record: the loop holds the buffer. -/
theorem complete_ledger (h : Ledger w [] evs) {n : Node TcpFragment} (hn : (lookup TcpTable.scheme w.tcp env.key).1 = some n)
    (hge : ¬ env.offset n.val + (env.length - l.i_len - l.h_len) < n.val.rpc_len) :
    Ledger (tcpSegment ind env w l).world (tcpSegment ind env w l).flow.held (evs ++ (tcpSegment ind env w l).events) := by
  obtain ⟨L, hL, hperm⟩ := h.owned
  obtain ⟨hothers, hout⟩ := lookup_account hL hn
  rw [tcpSegment_complete ind hn hge]
  have hallocs : ∀ es : List Event, allocated es = [] → allocated (evs ++ es) = allocated evs := by
    intro es hes
    rw [allocated_append, hes, List.append_nil]
  refine ⟨h.xid, ?_, others L env.key, hothers, ?_⟩
  · rw [hallocs _ rfl]
    exact h.allocs
  · rw [hallocs _ rfl, freed_append]
    show ((others L env.key).map bufferId ++ [n.val.buffer.id] ++ (freed evs ++ [])).Perm _
    rw [List.append_nil] at hperm ⊢
    exact (((List.perm_append_singleton _ _).trans hout.symm).append_right _).trans hperm

/-- Events that neither allocate nor free keep the account. -/
theorem Ledger.idle {held : List Nat} (h : Ledger w held evs) {es : List Event} (ha : allocated es = []) (hf : freed es = []) :
    Ledger w held (evs ++ es) := by
  obtain ⟨L, hL, hperm⟩ := h.owned
  refine ⟨h.xid, ?_, L, hL, ?_⟩
  · rw [allocated_append, ha, List.append_nil]
    exact h.allocs
  · rw [allocated_append, ha, freed_append, hf, List.append_nil, List.append_nil]
    exact hperm

theorem tcpSegment_ledger (ind : Indet) (env : Env) (l : Locals) (h : Ledger w [] evs) (hbuf : l.reassemblyBuffer = none) :
    Ledger (tcpSegment ind env w l).world (tcpSegment ind env w l).flow.held (evs ++ (tcpSegment ind env w l).events) := by
  cases hn : (lookup TcpTable.scheme w.tcp env.key).1 with
  | none =>
    by_cases hlen : l.announced ≤ env.length - l.i_len - (l.h_len + 4)
    · rw [tcpSegment_sole ind hn hlen]
      show Ledger w l.reassemblyBuffer.toList _
      rw [hbuf]
      exact h.idle rfl rfl
    by_cases hbig : l.announced > 16384
    · rw [tcpSegment_reject ind hn hlen hbig]
      exact h.idle rfl rfl
    · exact first_ledger h hn hlen hbig
  | some n =>
    by_cases hlt : env.offset n.val + (env.length - l.i_len - l.h_len) < n.val.rpc_len
    · exact more_ledger h hn hlt
    · exact complete_ledger h hn hlt

/-! ## A message -/

theorem freed_free (l : Locals) : allocated (freeReassembly l) = [] ∧ freed (freeReassembly l) = l.reassemblyBuffer.toList := by
  unfold freeReassembly
  cases l.reassemblyBuffer with
  | none => exact ⟨rfl, rfl⟩
  | some id => exact ⟨rfl, rfl⟩

/-- Neither allocates nor frees. -/
def Idle (es : List Event) : Prop := allocated es = [] ∧ freed es = []

theorem Idle.append {xs ys : List Event} (hx : Idle xs) (hy : Idle ys) : Idle (xs ++ ys) := by
  unfold Idle at hx hy ⊢
  rw [allocated_append, freed_append, hx.1, hx.2, hy.1, hy.2]
  exact ⟨rfl, rfl⟩

theorem idle_headerEvents (l : Locals) : Idle l.headerEvents := by
  unfold Locals.headerEvents
  cases l.rpcHeader.notUnix with
  | none => exact ⟨rfl, rfl⟩
  | some _ => exact ⟨rfl, rfl⟩

theorem idle_decode {print_it : Int32} {d : Decoded} (hd : l.decode w print_it = .ok d) : Idle d.events := by
  unfold Locals.decode at hd
  split at hd
  · unfold decodeCall at hd
    simp only at hd
    split at hd
    · cases hd
    · cases hd
      exact ⟨rfl, rfl⟩
  · cases hd
    unfold decodeReply
    simp only
    split
    · exact ⟨rfl, rfl⟩
    · exact ⟨rfl, rfl⟩

/-- What the loop holds is freed when the message ends the packet's processing, and kept otherwise. -/
theorem rpcMessage_buffers (ind : Indet) (env : Env) (l : Locals) (hx : XidOk w) :
    allocated (rpcMessage ind env w l).events = [] ∧
      (rpcMessage ind env w l).flow.held ++ freed (rpcMessage ind env w l).events = l.reassemblyBuffer.toList := by
  have hhead := idle_headerEvents l
  by_cases hd : l.Decodes
  · obtain ⟨record, hflow⟩ := rpcMessage_decodes ind env w l hd hx
    have hidle : Idle (rpcMessage ind env w l).events := by
      rw [rpcMessage_of_decodes ind env w l hd]
      cases he : l.decode w (ind.print_it l.cnt) with
      | error ev => exact absurd hx ((decode_spec w l _).1 ev he).2.2
      | ok d =>
        simp only
        unfold finishMessage printEvents
        refine hhead.append ((idle_decode he).append ?_)
        split
        · exact ⟨rfl, rfl⟩
        · exact ⟨rfl, rfl⟩
    rw [hflow, hidle.2, List.append_nil]
    exact ⟨hidle.1, rfl⟩
  · have hzero : Idle (if l.cnt > 1 then [Event.rhLenZero l.cnt] else []) := by
      split
      · exact ⟨rfl, rfl⟩
      · exact ⟨rfl, rfl⟩
    obtain ⟨hfree, hfreed⟩ := freed_free l
    have hstray := rpcMessage_of_stray ind env w l hd
    generalize rpcMessage ind env w l = o at hstray ⊢
    cases hstray with
    | empty =>
      obtain ⟨hboth, hnone⟩ := hhead.append hzero
      rw [allocated_append, freed_append, hfree, hfreed, hboth, hnone]
      exact ⟨rfl, rfl⟩
    | unread =>
      rw [allocated_append, freed_append, hfree, hfreed, hhead.1, hhead.2]
      exact ⟨rfl, rfl⟩
    | null =>
      rw [hhead.2, List.append_nil]
      exact ⟨hhead.1, rfl⟩
    | bare =>
      rw [hhead.2, List.append_nil]
      exact ⟨hhead.1, rfl⟩

theorem rpcMessage_ledger (ind : Indet) (env : Env) (l : Locals) (h : Ledger w l.reassemblyBuffer.toList evs) :
    Ledger (rpcMessage ind env w l).world (rpcMessage ind env w l).flow.held (evs ++ (rpcMessage ind env w l).events) := by
  have hs := rpcMessage_spec ind env w l
  obtain ⟨hallocs, hheld⟩ := rpcMessage_buffers ind env l h.xid
  obtain ⟨L, hL, hperm⟩ := h.owned
  refine ⟨(hs.xid h.xid).1, ?_, L, by rw [hs.tcp]; exact hL, ?_⟩
  · rw [allocated_append, hallocs, List.append_nil, hs.nextBuf]
    exact h.allocs
  · rw [allocated_append, hallocs, List.append_nil, freed_append]
    rw [← hheld] at hperm
    refine List.Perm.trans ?_ hperm
    rw [List.append_assoc, List.append_assoc, List.append_assoc]
    exact (List.perm_append_comm.append_left _).append_left _

/-! ## The loop and the packet -/

theorem loopBody_ledger (ind : Indet) (env : Env) (l : Locals) (h : Ledger w [] evs) (hbuf : l.reassemblyBuffer = none) :
    Ledger (loopBody ind env w l).world (loopBody ind env w l).flow.held (evs ++ (loopBody ind env w l).events) := by
  rw [loopBody_eq]
  split
  · have hs := tcpSegment_ledger ind env l.counted h hbuf
    cases hf : (tcpSegment ind env w l.counted).flow with
    | next l' =>
      rw [hf] at hs
      rw [andThen_next hf]
      show Ledger _ _ (evs ++ (_ ++ _))
      rw [← List.append_assoc]
      exact rpcMessage_ledger ind env l' hs
    | _ =>
      rw [andThen_stop (by rw [hf]; nofun)]
      exact hs
  · refine rpcMessage_ledger ind env l.counted ?_
    show Ledger w l.reassemblyBuffer.toList evs
    rw [hbuf]
    exact h

/-- The loop goes on with no buffer in its hands: what it puts together ends it. -/
theorem loopBody_unheld {l' : Locals} (hbuf : l.reassemblyBuffer = none) (hn : (loopBody ind env w l).flow = .next l')
    (hlt : l'.consumed < l'.tot_len) : l'.reassemblyBuffer = none := by
  rw [loopBody_eq] at hn
  split at hn
  · cases hs : (tcpSegment ind env w l.counted).flow with
    | next l₁ =>
      rw [andThen_next hs] at hn
      rcases tcpSegment_next ind env w _ hs with rfl | ⟨buffer, len, rfl⟩
      · obtain ⟨record, consumed, rfl, -⟩ := (rpcMessage_spec ind env _ _).next l' hn
        exact hbuf
      · exact absurd hlt (rpcMessage_ends (UInt32.zero_add _) hn)
    | _ =>
      rw [andThen_stop (by rw [hs]; nofun), hs] at hn
      cases hn
  · obtain ⟨record, consumed, rfl, -⟩ := (rpcMessage_spec ind env _ _).next l' hn
    exact hbuf

theorem loop_ledger (fuel : Nat) : ∀ {w : World} {l : Locals} {evs : List Event}, Ledger w l.reassemblyBuffer.toList evs →
    (l.consumed < l.tot_len → l.reassemblyBuffer = none) →
    Ledger (loop ind env fuel w l).world (loop ind env fuel w l).flow.held (evs ++ (loop ind env fuel w l).events) := by
  induction fuel with
  | zero =>
    intro w l evs h _
    exact h.idle rfl rfl
  | succ fuel ih =>
    intro w l evs h hbuf
    rw [loop]
    split
    · rename_i hlt
      have hnone := hbuf hlt
      rw [hnone] at h
      have hb := loopBody_ledger ind env l h hnone
      cases hf : (loopBody ind env w l).flow with
      | next l' =>
        rw [hf] at hb
        rw [andThen_next hf]
        show Ledger _ _ (evs ++ (_ ++ _))
        rw [← List.append_assoc]
        exact ih hb fun hlt' => loopBody_unheld hnone hf hlt'
      | _ =>
        rw [andThen_stop (by simp [hf])]
        exact hb
    · exact h.idle rfl rfl

/-- No assertion fails in an iteration. -/
theorem loopBody_asserts (ind : Indet) (env : Env) (l : Locals) (hw : Tables w) :
    Tables (loopBody ind env w l).world ∧ (loopBody ind env w l).flow ≠ .abort := by
  rw [loopBody_eq]
  split
  · obtain ⟨htab, hflow⟩ := tcpSegment_turn ind env l.counted hw
    rcases hflow with hf | ⟨buffer, len, hf⟩ | ⟨rc, l₁, hf⟩
    · rw [andThen_next hf]
      exact rpcMessage_tables ind env _ htab
    · rw [andThen_next hf]
      exact rpcMessage_tables ind env _ htab
    · rw [andThen_stop (by rw [hf]; nofun), hf]
      exact ⟨htab, nofun⟩
  · exact rpcMessage_tables ind env _ hw

theorem loop_asserts (ind : Indet) (env : Env) (fuel : Nat) :
    ∀ {w : World} {l : Locals}, Tables w → Tables (loop ind env fuel w l).world ∧
    (loop ind env fuel w l).flow ≠ .abort := by
  induction fuel with
  | zero => exact fun hw => ⟨hw, by simp [loop]⟩
  | succ fuel ih =>
    intro w l hw
    rw [loop]
    split
    · have hbody := loopBody_asserts ind env l hw
      cases hf : (loopBody ind env w l).flow with
      | next l' =>
        rw [andThen_next hf]
        exact ih hbody.1
      | _ =>
        rw [andThen_stop (by simp [hf])]
        exact hbody
    · exact ⟨hw, by simp⟩

/-- A packet that is returned from leaves nothing in the loop's hands. -/
theorem processPacket_ledger (ind : Indet) (h : Packet) (record : NfsPkt) (hl : Ledger w [] evs) {rc : Int32}
    (hrc : (processPacket ind w h record).exit = .returned rc) :
    Ledger (processPacket ind w h record).world [] (evs ++ (processPacket ind w h record).events) := by
  unfold processPacket at hrc ⊢
  cases hh : headers h record with
  | error _ => exact hl.idle rfl rfl
  | ok el =>
    obtain ⟨env, l⟩ := el
    rw [hh] at hrc
    have hbuf := (headers_ok hh).noBuffer
    have hloop : Ledger (loop ind env (h.caplen.toNat + 3) w l).world (loop ind env (h.caplen.toNat + 3) w l).flow.held
        (evs ++ (loop ind env (h.caplen.toNat + 3) w l).events) :=
      loop_ledger _ (by rw [hbuf]; exact hl) fun _ => hbuf
    simp only at hrc ⊢
    unfold finishPacket at hrc ⊢
    split
    · rename_i l' hf
      rw [hf] at hloop
      obtain ⟨hfree, hfreed⟩ := freed_free l'
      obtain ⟨L, hL, hperm⟩ := hloop.owned
      rw [← List.append_assoc]
      refine ⟨hloop.xid, ?_, L, hL, ?_⟩
      · rw [allocated_append, hfree, List.append_nil]
        exact hloop.allocs
      · rw [allocated_append, hfree, freed_append, hfreed, List.append_nil, List.append_nil]
        refine List.Perm.trans ?_ hperm
        rw [List.append_assoc]
        exact List.perm_append_comm.append_left _
    · rename_i hf
      rw [hf] at hloop
      exact hloop
    · rename_i hf
      rw [hf] at hrc
      cases hrc
    · rename_i hf
      rw [hf] at hrc
      cases hrc

theorem processPacket_asserts (ind : Indet) (h : Packet) (record : NfsPkt) (hw : Tables w) :
    (processPacket ind w h record).exit ≠ .aborted := by
  unfold processPacket
  cases hh : headers h record with
  | error _ => simp
  | ok el =>
    obtain ⟨env, l⟩ := el
    have habort := (loop_asserts ind env (h.caplen.toNat + 3) (l := l) hw).2
    simp only
    unfold finishPacket
    split
    · simp
    · simp
    · simp
    · rename_i hf
      exact absurd hf habort

theorem Reaches.tables {w' : World} {l' : Locals} (hr : Reaches ind env w l w' l') (hw : Tables w) : Tables w' := by
  induction hr with
  | start => exact hw
  | turn _ _ _ ih => exact (loopBody_asserts ind env _ ih).1

theorem tables_init : Tables World.init := ⟨xidOk_init, [], tcp_init⟩

theorem run_tables (hw : Run w) : Tables w := by
  induction hw with
  | init => exact tables_init
  | packet ind h record _ ih =>
    unfold processPacket
    cases hh : headers h record with
    | error rc => exact ih
    | ok el =>
      have hloop := (loop_asserts ind el.1 (h.caplen.toNat + 3) (l := el.2) ih).1
      simp only
      unfold finishPacket
      split
      · exact hloop
      · exact hloop
      · exact hloop
      · exact hloop

/-! ## The table at a lookup -/

/-- Present, with the key, and no other one with the key was inserted later: addresses number the
    insertions. -/
structure Newest (t : TcpTable) (k : TcpKey) (n : Node TcpFragment) : Prop where
  present : ∃ b, n ∈ t.chain b
  key : TcpTable.scheme.key n.val = k
  last : ∀ b, ∀ m ∈ t.chain b, TcpTable.scheme.key m.val = k → m.addr ≤ n.addr

/-- The counter counts, entries are where `HASH` says, and a lookup takes the newest entry of its key
    out and leaves the others. -/
structure TableOk (t : TcpTable) : Prop where
  count : t.elemCnt = ∑ b ∈ Finset.range HASHSIZE.toNat, ((t.chain b).length : Int)
  bucket : ∀ b, ∀ n ∈ t.chain b, (TcpTable.HASH (TcpTable.scheme.key n.val)).toNat = b
  found : ∀ now nextSeq srcHost srcPort dstHost dstPort n,
    (tcpLookup t now nextSeq srcHost srcPort dstHost dstPort).1 = some n ↔
      Newest t ⟨nextSeq, srcHost, srcPort, dstHost, dstPort⟩ n
  removed : ∀ now nextSeq srcHost srcPort dstHost dstPort b m,
    m ∈ (tcpLookup t now nextSeq srcHost srcPort dstHost dstPort).2.chain b ↔
      m ∈ t.chain b ∧ (tcpLookup t now nextSeq srcHost srcPort dstHost dstPort).1 ≠ some m

theorem present_iff {t : TcpTable} {L : List (Node TcpFragment)} (hL : Lists TcpTable.scheme t L) (n : Node TcpFragment) :
    (∃ b, n ∈ t.chain b) ↔ n ∈ L := by
  constructor
  · rintro ⟨b, hn⟩
    exact (hL.mem_chain.mp hn).1
  · intro hn
    exact ⟨_, hL.mem_chain.mpr ⟨hn, rfl⟩⟩

theorem find?_iff_newest {t : TcpTable} {L : List (Node TcpFragment)} (hL : Lists TcpTable.scheme t L) (k : TcpKey)
    (n : Node TcpFragment) : L.find? (fun m => TcpTable.scheme.key m.val = k) = some n ↔ Newest t k n := by
  constructor
  · intro hf
    refine ⟨(present_iff hL n).mpr (List.mem_of_find?_eq_some hf), by simpa using List.find?_some hf, ?_⟩
    intro b m hm hkey
    exact find?_newest hL.newest hf m (hL.mem_chain.mp hm).1 (by simpa using hkey)
  · intro hnew
    have hmem := (present_iff hL n).mp hnew.present
    have hsome : (L.find? fun m => TcpTable.scheme.key m.val = k).isSome := by
      rw [List.find?_isSome]
      exact ⟨n, hmem, by simpa using hnew.key⟩
    obtain ⟨m, hm⟩ := Option.isSome_iff_exists.mp hsome
    have hle := find?_newest hL.newest hm n hmem (by simpa using hnew.key)
    obtain ⟨b, hb⟩ := (present_iff hL m).mpr (List.mem_of_find?_eq_some hm)
    have hge := hnew.last b m hb (by simpa using List.find?_some hm)
    rw [hm, addr_inj hL.newest (List.mem_of_find?_eq_some hm) hmem (Nat.le_antisymm hge hle)]

theorem Tables.tableOk (hw : Tables w) : TableOk w.tcp := by
  obtain ⟨L, hL⟩ := hw.tcp
  refine ⟨hL.elemCnt_eq, fun b n hn => (hL.mem_chain.mp hn).2, ?_, ?_⟩
  · intro now nextSeq srcHost srcPort dstHost dstPort n
    rw [tcpLookup, (lookup_lists hL _).1]
    exact find?_iff_newest hL _ n
  · intro now nextSeq srcHost srcPort dstHost dstPort b m
    obtain ⟨hfind, hL', -⟩ := lookup_lists hL ⟨nextSeq, srcHost, srcPort, dstHost, dstPort⟩
    rw [tcpLookup, hL'.mem_chain, hL.mem_chain, hfind]
    cases hf : L.find? (fun n => TcpTable.scheme.key n.val = ⟨nextSeq, srcHost, srcPort, dstHost, dstPort⟩) with
    | none =>
      rw [List.eraseP_of_forall_not fun n hn => by simpa using List.find?_eq_none.mp hf n hn]
      simp
    | some n =>
      rw [mem_eraseP_newest hL.newest hf]
      have hne : (some n ≠ some m) ↔ m ≠ n := by
        rw [ne_eq, ne_eq, Option.some.injEq, eq_comm]
      rw [hne]
      tauto

/-! ## Owners -/

/-- No two entries share a buffer, none has one that was freed, and a buffer was allocated once and has
    one entry to own it or was freed once. -/
structure BuffersOk (t : TcpTable) (evs : List Event) : Prop where
  distinct : ∀ b b' n n', n ∈ t.chain b → n' ∈ t.chain b' → n.val.buffer.id = n'.val.buffer.id → n = n'
  live : ∀ b, ∀ n ∈ t.chain b, n.val.buffer.id ∈ allocated evs ∧ n.val.buffer.id ∉ freed evs
  known : ∀ id ∈ freed evs, id ∈ allocated evs
  once : ∀ id ∈ allocated evs, (allocated evs).count id = 1 ∧
    (((∃! n, (∃ b, n ∈ t.chain b) ∧ n.val.buffer.id = id) ∧ id ∉ freed evs) ∨
      ((∀ b, ∀ n ∈ t.chain b, n.val.buffer.id ≠ id) ∧ (freed evs).count id = 1))

theorem Ledger.buffersOk (h : Ledger w [] evs) : BuffersOk w.tcp evs := by
  obtain ⟨L, hL, hperm⟩ := h.owned
  rw [List.append_nil] at hperm
  have hnodup : (allocated evs).Nodup := by
    rw [h.allocs]
    exact List.nodup_range
  have hboth := hperm.nodup_iff.mpr hnodup
  obtain ⟨hids, hfreed, hapart⟩ := List.nodup_append.mp hboth
  have hlive : ∀ b, ∀ n ∈ w.tcp.chain b, n ∈ L ∧ bufferId n ∈ L.map bufferId := by
    intro b n hn
    have hmem := (hL.mem_chain.mp hn).1
    exact ⟨hmem, List.mem_map_of_mem hmem⟩
  have hunique : ∀ n n', n ∈ L → n' ∈ L → bufferId n = bufferId n' → n = n' := fun n n' hn hn' =>
    List.inj_on_of_nodup_map hids hn hn'
  refine ⟨?_, ?_, ?_, ?_⟩
  · intro b b' n n' hn hn'
    exact hunique n n' (hlive b n hn).1 (hlive b' n' hn').1
  · intro b n hn
    have hid := (hlive b n hn).2
    exact ⟨hperm.subset (List.mem_append_left _ hid), fun hmem => hapart _ hid _ hmem rfl⟩
  · intro id hid
    exact hperm.subset (List.mem_append_right _ hid)
  · intro id hid
    refine ⟨List.count_eq_one_of_mem hnodup hid, ?_⟩
    rcases List.mem_append.mp (hperm.symm.subset hid) with hown | hfree
    · obtain ⟨n, hn, rfl⟩ := List.mem_map.mp hown
      refine Or.inl ⟨⟨n, ⟨(present_iff hL n).mpr hn, rfl⟩, ?_⟩, fun hmem => hapart _ hown _ hmem rfl⟩
      rintro n' ⟨hn', heq⟩
      exact hunique n' n ((present_iff hL n').mp hn') hn heq
    · refine Or.inr ⟨?_, List.count_eq_one_of_mem hfreed hfree⟩
      rintro b n hn rfl
      exact hapart _ (hlive b n hn).2 _ hfree rfl

/-- The tables after some packets that `processPacket` returned from, and all that was done. -/
inductive Calls : World → List Event → Prop
  | init : Calls World.init []
  | packet {w : World} {evs : List Event} (ind : Indet) (h : Packet) (record : NfsPkt) {rc : Int32} : Calls w evs →
      (processPacket ind w h record).exit = .returned rc →
      Calls (processPacket ind w h record).world (evs ++ (processPacket ind w h record).events)

theorem Calls.ledger (hr : Calls w evs) : Ledger w [] evs := by
  induction hr with
  | init => exact ledger_init
  | packet ind h record _ hrc ih => exact processPacket_ledger ind h record ih hrc

/-- Between packets, and wherever a packet looks a fragment up, the table is in order; no assertion
    fails; every buffer has one owner or was freed once. -/
theorem ownership (hr : Calls w evs) : TableOk w.tcp ∧ BuffersOk w.tcp evs ∧
    ∀ ind h record, (processPacket ind w h record).exit ≠ .aborted ∧
      ∀ env l w' l', headers h record = .ok (env, l) → Reaches ind env w l w' l' → TableOk w'.tcp := by
  have hledger := hr.ledger
  refine ⟨hledger.tables.tableOk, hledger.buffersOk, ?_⟩
  intro ind h record
  refine ⟨processPacket_asserts ind h record hledger.tables, ?_⟩
  intro env l w' l' _ hreach
  exact (hreach.tables hledger.tables).tableOk

/-! ### Seven packets -/

/-- What `processPacket` makes of some packets, one after the other, from the start. -/
def callsOf (hs : List Packet) : World × List Event :=
  hs.foldl (fun s h =>
    let r := processPacket Indet.zero s.1 h NfsPkt.zero
    (r.world, s.2 ++ r.events)) (World.init, [])

theorem calls_callsOf (hs : List Packet) (hcap : ∀ h ∈ hs, h.caplen.toNat + 4 < 2 ^ 31) : Calls (callsOf hs).1 (callsOf hs).2 := by
  induction hs using List.reverseRecOn with
  | nil => exact .init
  | append_singleton hs h ih =>
    have hr := ih fun h' hh' => hcap h' (List.mem_append_left _ hh')
    obtain ⟨⟨rc, hrc⟩, -⟩ := processPacket_returns (hcap h (by simp)) hr.ledger.tables Indet.zero NfsPkt.zero
    unfold callsOf at hr ⊢
    rw [List.foldl_append]
    exact .packet Indet.zero h NfsPkt.zero hr hrc

/-- A reply with nothing behind the status. -/
def okReply (xid : Nat) : List UInt8 := be32 xid ++ be32 1 ++ List.replicate 20 0

/-- A call with its reply; a record in two segments; the first segment of another, which the
    first segment of a third has culled; a call. -/
def sevenPackets : List Packet :=
  [udpPacket 99 ⟨1, 2, 3, 4⟩ (callBytes 7 1 [0, 0, 0, 4]), udpPacket 99 ⟨3, 4, 1, 2⟩ (okReply 7),
   tcpPacket 100 ⟨1, 2, 3, 4⟩ 0 (stretch (eightBytes ⟨1, 2, 3, 4⟩) 0 8),
   tcpPacket 101 ⟨1, 2, 3, 4⟩ 8 (stretch (eightBytes ⟨1, 2, 3, 4⟩) 8 4),
   tcpPacket 102 ⟨955, 2, 3, 4⟩ 0 (stretch (eightBytes ⟨955, 2, 3, 4⟩) 0 8),
   tcpPacket 1000 ⟨7, 8, 3, 4⟩ 0 (stretch (eightBytes ⟨7, 8, 3, 4⟩) 0 8),
   udpPacket 1000 ⟨1, 2, 3, 4⟩ (callBytes 8 1 [0, 0, 0, 4])]

theorem sevenPackets_calls : Calls (callsOf sevenPackets).1 (callsOf sevenPackets).2 := calls_callsOf sevenPackets (by decide)

/-- The first buffer was freed with its record, the second by the cull. -/
theorem ownership_seven : (TableOk (callsOf sevenPackets).1.tcp ∧ BuffersOk (callsOf sevenPackets).1.tcp (callsOf sevenPackets).2 ∧
    ∀ ind h record, (processPacket ind (callsOf sevenPackets).1 h record).exit ≠ .aborted ∧
      ∀ env l w' l', headers h record = .ok (env, l) → Reaches ind env (callsOf sevenPackets).1 l w' l' → TableOk w'.tcp) ∧
    allocated (callsOf sevenPackets).2 = [0, 1, 2] ∧ freed (callsOf sevenPackets).2 = [0, 1] :=
  ⟨ownership sevenPackets_calls, by decide +kernel⟩

end Nfsdump.Record
