/-
  Nfsdump.Record.Total — every packet is processed to an end, whatever is in it.

  The loop's fuel is bookkeeping: an iteration that is not the last gets past a record mark,
  so the bytes left cover the iterations left (`loop_enough`: fuel that covers them is as
  good as more). Proved (`processPacket_returns`): on tables that are what they claim to be,
  no assertion of the culls fails, `processPacket` returns, leaves such tables, and the
  record it fills keeps the packet's time.
-/

import Nfsdump.Record.Capture

namespace Nfsdump.Record

open ChainTable Wire

/-- Both tables are lists of nodes in buckets. -/
structure Tables (w : World) : Prop where
  xid : XidOk w
  tcp : ∃ L, Lists TcpTable.scheme w.tcp L

/-- The record's time where an iteration may leave off. -/
def Flow.Secs (t : UInt32) : Flow → Prop
  | .next l | .done l | .ret _ l => l.record.secs = t
  | .abort => True

variable {ind : Indet} {env : Env} {w : World} {l : Locals} {h : Packet} {record : NfsPkt}

/-! ## One iteration -/

theorem tcpSegment_secs (ind : Indet) (env : Env) (w : World) (l : Locals) : (tcpSegment ind env w l).flow.Secs l.record.secs := by
  unfold tcpSegment
  simp only
  split
  · split
    · rfl
    split
    · rfl
    split
    · trivial
    · rfl
  · rename_i n tcp _
    generalize (if env.th_seq - n.val.firstSeq + (env.length - l.i_len - l.h_len) > n.val.rpc_len then n.val.rpc_len
      else env.th_seq - n.val.firstSeq + (env.length - l.i_len - l.h_len)) = last
    split
    · rfl
    split
    · trivial
    · rfl

/-- What comes out of a segment: a record's front, a record put together, or a return. -/
theorem tcpSegment_turn (ind : Indet) (env : Env) (l : Locals) (hw : Tables w) : Tables (tcpSegment ind env w l).world ∧
    ((tcpSegment ind env w l).flow = .next l.afterMark ∨
      (∃ buffer len, (tcpSegment ind env w l).flow = .next (l.assembled buffer len)) ∨
      ∃ rc l', (tcpSegment ind env w l).flow = .ret rc l') := by
  obtain ⟨L, hL⟩ := hw.tcp
  have stored : ∀ {L f c}, Stored w L f c (tcpSegment ind env w l) → Tables (tcpSegment ind env w l).world ∧
      ∃ rc l', (tcpSegment ind env w l).flow = .ret rc l' := fun {L f c} hs => by
    obtain ⟨X, hX⟩ := hw.xid
    exact ⟨⟨⟨X, by rw [hs.xid]; exact hX⟩, _, hs.tcp⟩, hs.flow⟩
  cases hn : (lookup TcpTable.scheme w.tcp env.key).1 with
  | none =>
    by_cases hlen : l.announced ≤ env.length - l.i_len - (l.h_len + 4)
    · rw [tcpSegment_sole ind hn hlen]
      exact ⟨hw, .inl rfl⟩
    by_cases hbig : l.announced > 16384
    · rw [tcpSegment_reject ind hn hlen hbig]
      exact ⟨hw, .inr (.inr ⟨_, _, rfl⟩)⟩
    · obtain ⟨ht, hret⟩ := stored (tcpSegment_first ind hL hn hlen hbig)
      exact ⟨ht, .inr (.inr hret)⟩
  | some n =>
    by_cases hlt : env.offset n.val + (env.length - l.i_len - l.h_len) < n.val.rpc_len
    · obtain ⟨ht, hret⟩ := stored (tcpSegment_more ind hL hn hlt)
      exact ⟨ht, .inr (.inr hret)⟩
    · rw [tcpSegment_complete ind hn hlt]
      obtain ⟨_, hL', _⟩ := lookup_lists hL env.key
      exact ⟨⟨hw.xid, _, hL'⟩, .inr (.inl ⟨_, _, rfl⟩)⟩

theorem rpcMessage_secs (ind : Indet) (env : Env) (w : World) (l : Locals) : (rpcMessage ind env w l).flow.Secs l.record.secs := by
  by_cases hd : l.Decodes
  · rw [rpcMessage_of_decodes ind env w l hd]
    cases he : l.decode w (ind.print_it l.cnt) with
    | error ev => trivial
    | ok d => exact ((decode_spec w l _).2 d he).2.2.2.2.1
  · have hstray := rpcMessage_of_stray ind env w l hd
    generalize rpcMessage ind env w l = o at hstray ⊢
    cases hstray with
    | empty => rfl
    | unread => rfl
    | null => rfl
    | bare => rfl

theorem rpcMessage_tables (ind : Indet) (env : Env) (l : Locals) (hw : Tables w) :
    Tables (rpcMessage ind env w l).world ∧ (rpcMessage ind env w l).flow ≠ .abort := by
  have hs := rpcMessage_spec ind env w l
  obtain ⟨L, hL⟩ := hw.tcp
  exact ⟨⟨(hs.xid hw.xid).1, L, by rw [hs.tcp]; exact hL⟩, (hs.xid hw.xid).2⟩

/-- At the head of the loop: the packet is not too long for the sums, and a datagram's
    message ends it. -/
structure Turn (env : Env) (l : Locals) : Prop where
  size : l.tot_len.toNat + 4 < 2 ^ 31
  datagram : env.proto ≠ IPPROTO_TCP → l.consumed + l.rpc_len = l.tot_len

/-- A message that ends the packet leaves nothing to the loop. -/
theorem rpcMessage_ends (hend : l.consumed + l.rpc_len = l.tot_len) {l' : Locals}
    (hn : (rpcMessage ind env w l).flow = .next l') : ¬ l'.consumed < l'.tot_len := by
  obtain ⟨record, consumed, rfl, _, hc⟩ := (rpcMessage_spec ind env w l).next l' hn
  have : consumed = l.tot_len := by
    rcases hc with hc | hc
    · exact hc
    · rw [hc, hend]
  show ¬ consumed < l.tot_len
  rw [this]
  exact UInt32.lt_irrefl _

/-- A record's front leads past its mark. -/
theorem afterMark_turn (ht : Turn env l) (hp : env.proto = IPPROTO_TCP) (hlt : l.consumed < l.tot_len) {l' : Locals}
    (hn : (rpcMessage ind env w l.counted.afterMark).flow = .next l') :
    ¬ l'.consumed < l'.tot_len ∨ (Turn env l' ∧ l'.tot_len = l.tot_len ∧ l.consumed.toNat + 4 ≤ l'.consumed.toNat) := by
  obtain ⟨record, consumed, rfl, _, hc⟩ := (rpcMessage_spec ind env w l.counted.afterMark).next l' hn
  rcases hc with hc | hc
  · refine Or.inl ?_
    show ¬ consumed < l.tot_len
    rw [hc]
    exact UInt32.lt_irrefl _
  · refine Or.inr ⟨⟨ht.size, fun hno => absurd hp hno⟩, rfl, ?_⟩
    have hann := announced_lt l
    have hlt' := UInt32.lt_iff_toNat_lt.mp hlt
    have hsize := ht.size
    have hc' : consumed = l.consumed + 4 + l.announced := hc
    show _ ≤ consumed.toNat
    rw [hc', UInt32.toNat_add, UInt32.toNat_add, show (4 : UInt32).toNat = 4 from rfl]
    omega

/-- An iteration keeps the tables and the record's time, and if it is not the last it gets
    past a mark. -/
theorem loopBody_turn (ht : Turn env l) (hlt : l.consumed < l.tot_len) (hw : Tables w) :
    Tables (loopBody ind env w l).world ∧ (loopBody ind env w l).flow ≠ .abort ∧
      (loopBody ind env w l).flow.Secs l.record.secs ∧
      ∀ l', (loopBody ind env w l).flow = .next l' → ¬ l'.consumed < l'.tot_len ∨
        (Turn env l' ∧ l'.tot_len = l.tot_len ∧ l.consumed.toNat + 4 ≤ l'.consumed.toNat) := by
  rw [loopBody_eq]
  split
  · rename_i hp
    obtain ⟨htab, hflow⟩ := tcpSegment_turn ind env l.counted hw
    have hsecs := tcpSegment_secs ind env w l.counted
    rcases hflow with hf | ⟨buffer, len, hf⟩ | ⟨rc, l₁, hf⟩
    · obtain ⟨htab', habort⟩ := rpcMessage_tables ind env l.counted.afterMark htab
      rw [andThen_next hf]
      exact ⟨htab', habort, rpcMessage_secs ind env _ l.counted.afterMark, fun l' hn => afterMark_turn ht hp hlt hn⟩
    · obtain ⟨htab', habort⟩ := rpcMessage_tables ind env (l.counted.assembled buffer len) htab
      rw [andThen_next hf]
      exact ⟨htab', habort, rpcMessage_secs ind env _ (l.counted.assembled buffer len),
        fun l' hn => Or.inl (rpcMessage_ends (UInt32.zero_add _) hn)⟩
    · rw [andThen_stop (by rw [hf]; nofun)]
      rw [hf] at hsecs ⊢
      exact ⟨htab, nofun, hsecs, nofun⟩
  · rename_i hp
    obtain ⟨htab', habort⟩ := rpcMessage_tables ind env l.counted hw
    exact ⟨htab', habort, rpcMessage_secs ind env w l.counted, fun l' hn =>
      Or.inl (rpcMessage_ends (l := l.counted) (ht.datagram hp) hn)⟩

/-! ## The loop -/

/-- Fuel for every mark that is left, and to find that none is. -/
def Covers (fuel : Nat) (l : Locals) : Prop := l.tot_len.toNat + 4 ≤ l.consumed.toNat + 4 * fuel ∧ 1 ≤ fuel

theorem loop_stop (hge : ¬ l.consumed < l.tot_len) {fuel : Nat} (hf : 1 ≤ fuel) : loop ind env fuel w l = ⟨[], w, .done l⟩ := by
  obtain ⟨n, rfl⟩ : ∃ n, fuel = n + 1 := ⟨fuel - 1, by omega⟩
  unfold loop
  rw [if_neg hge]

theorem loop_next {l' : Locals} (hlt : l.consumed < l.tot_len) (hf : (loopBody ind env w l).flow = .next l') (fuel : Nat) :
    loop ind env (fuel + 1) w l =
      { loop ind env fuel (loopBody ind env w l).world l' with
        events := (loopBody ind env w l).events ++ (loop ind env fuel (loopBody ind env w l).world l').events } := by
  rw [loop, if_pos hlt, andThen_next hf]

theorem loop_last_body (hlt : l.consumed < l.tot_len) (hf : ∀ l', (loopBody ind env w l).flow ≠ .next l') (fuel : Nat) :
    loop ind env (fuel + 1) w l = loopBody ind env w l := by
  rw [loop, if_pos hlt, andThen_stop hf]

theorem Covers.pos {fuel : Nat} (h : Covers (fuel + 1) l) (hlt : l.consumed < l.tot_len) : 1 ≤ fuel := by
  have := UInt32.lt_iff_toNat_lt.mp hlt
  unfold Covers at h
  omega

/-- The fuel covers what an iteration leaves. -/
theorem Covers.next {fuel : Nat} {l' : Locals} (h : Covers (fuel + 1) l)
    (htot : l'.tot_len = l.tot_len) (hcon : l.consumed.toNat + 4 ≤ l'.consumed.toNat) (hlt' : l'.consumed < l'.tot_len) :
    Covers fuel l' := by
  have := UInt32.lt_iff_toNat_lt.mp hlt'
  unfold Covers at h ⊢
  rw [htot] at this ⊢
  omega

/-- On tables that are in order every run of the loop leaves it, with such tables. -/
theorem loop_returns (fuel : Nat) : ∀ {w l}, Turn env l → Covers fuel l → Tables w →
    Tables (loop ind env fuel w l).world ∧ (loop ind env fuel w l).flow.Secs l.record.secs ∧
      (loop ind env fuel w l).flow ≠ .abort ∧ ∀ l', (loop ind env fuel w l).flow ≠ .next l' := by
  induction fuel with
  | zero => intro w l _ hc _; exact absurd hc.2 (by decide)
  | succ fuel ih =>
    intro w l ht hc hw
    by_cases hlt : l.consumed < l.tot_len
    · obtain ⟨hw', habort, hsecs, hnext⟩ := loopBody_turn ht hlt hw
      cases hf : (loopBody ind env w l).flow with
      | next l' =>
        rw [hf] at hsecs
        rw [loop_next hlt hf]
        simp only
        by_cases hlt' : l'.consumed < l'.tot_len
        · obtain ⟨ht', htot, hcon⟩ := (hnext l' hf).resolve_left (not_not.mpr hlt')
          have := ih ht' (hc.next htot hcon hlt') hw'
          rw [show l'.record.secs = l.record.secs from hsecs] at this
          exact this
        · rw [loop_stop hlt' (hc.pos hlt)]
          exact ⟨hw', hsecs, nofun, nofun⟩
      | done l' =>
        have hs : ∀ l', (loopBody ind env w l).flow ≠ .next l' := by rw [hf]; nofun
        rw [loop_last_body hlt hs]
        exact ⟨hw', hsecs, habort, hs⟩
      | ret rc l' =>
        have hs : ∀ l', (loopBody ind env w l).flow ≠ .next l' := by rw [hf]; nofun
        rw [loop_last_body hlt hs]
        exact ⟨hw', hsecs, habort, hs⟩
      | abort => exact absurd hf habort
    · rw [loop_stop hlt hc.2]
      exact ⟨hw, rfl, nofun, nofun⟩

/-- Fuel that covers the marks left is as good as any other. -/
theorem loop_enough (fuel : Nat) : ∀ {w l} {fuel' : Nat}, Turn env l → Covers fuel l → Covers fuel' l → Tables w →
    loop ind env fuel w l = loop ind env fuel' w l := by
  induction fuel with
  | zero => intro w l fuel' _ hc _ _; exact absurd hc.2 (by decide)
  | succ fuel ih =>
    intro w l fuel' ht hc hc' hw
    by_cases hlt : l.consumed < l.tot_len
    · obtain ⟨n, rfl⟩ : ∃ n, fuel' = n + 1 := ⟨fuel' - 1, by have := hc'.2; omega⟩
      obtain ⟨hw', _, _, hnext⟩ := loopBody_turn ht hlt hw
      by_cases hs : ∀ l', (loopBody ind env w l).flow ≠ .next l'
      · rw [loop_last_body hlt hs, loop_last_body hlt hs]
      · obtain ⟨l', hf⟩ := not_forall_not.mp hs
        rw [loop_next hlt hf, loop_next hlt hf]
        by_cases hlt' : l'.consumed < l'.tot_len
        · obtain ⟨ht', htot, hcon⟩ := (hnext l' hf).resolve_left (not_not.mpr hlt')
          rw [ih ht' (hc.next htot hcon hlt') (hc'.next htot hcon hlt') hw']
        · rw [loop_stop hlt' (hc.pos hlt), loop_stop hlt' (hc'.pos hlt)]
    · rw [loop_stop hlt hc.2, loop_stop hlt hc'.2]

/-! ## The packet -/

theorem AtLoop.turn (a : AtLoop h env l) (hcap : h.caplen.toNat + 4 < 2 ^ 31) : Turn env l := by
  refine ⟨by rw [a.tot_len]; exact hcap, fun hno => ?_⟩
  rw [(a.proto.resolve_left hno).2]
  grind

theorem AtLoop.covers (a : AtLoop h env l) {fuel : Nat} (hf : h.caplen.toNat + 1 ≤ fuel) : Covers fuel l := by
  unfold Covers
  rw [a.tot_len]
  omega

/-- Whatever the packet, `processPacket` returns and no assertion fails. -/
theorem processPacket_returns (hcap : h.caplen.toNat + 4 < 2 ^ 31) (hw : Tables w) (ind : Indet) (record : NfsPkt) :
    (∃ rc, (processPacket ind w h record).exit = .returned rc) ∧ Tables (processPacket ind w h record).world ∧
      ∀ env l, headers h record = .ok (env, l) → (processPacket ind w h record).record.secs = h.tv_sec := by
  unfold processPacket
  cases hh : headers h record with
  | error rc => exact ⟨⟨rc, rfl⟩, hw, nofun⟩
  | ok el =>
    obtain ⟨env, l⟩ := el
    have a := headers_ok hh
    obtain ⟨hw', hsecs, habort, hnext⟩ := loop_returns (h.caplen.toNat + 3) (a.turn hcap)
      (a.covers (by omega)) hw
    simp only
    unfold finishPacket
    split
    · rename_i hf
      rw [hf] at hsecs
      exact ⟨⟨1, rfl⟩, hw', fun _ _ _ => hsecs.trans a.secs⟩
    · rename_i rc _ hf
      rw [hf] at hsecs
      exact ⟨⟨rc, rfl⟩, hw', fun _ _ _ => hsecs.trans a.secs⟩
    · rename_i hf
      exact absurd hf (hnext _)
    · rename_i hf
      exact absurd hf habort

end Nfsdump.Record
