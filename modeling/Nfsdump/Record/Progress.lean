/-
  Nfsdump.Record.Progress — the loop over the messages of a packet ends, whatever is in the
  packet, behind it and in the tables.

  `consumed` moves by a header length the packet chooses and by a difference that may wrap:
  together they are the record's length modulo 2^32. The sum itself does not wrap, since a
  message is only decoded when its header ends inside the packet, and a header is a whole
  number of words (`rc_words`). Proved: `loop_terminates`.
-/

import Nfsdump.Record.Capture
import Nfsdump.Wire.Placement

namespace Nfsdump.Record

open ChainTable Wire

variable {ind : Indet} {env : Env} {w : World} {l l' : Locals} {h : Packet} {record : NfsPkt}

/-! ## One iteration -/

/-- The states in which the loop comes to its condition. -/
inductive Reaches (ind : Indet) (env : Env) (w : World) (l : Locals) : World → Locals → Prop
  | start : Reaches ind env w l w l
  | turn {w₁ : World} {l₁ l₂ : Locals} : Reaches ind env w l w₁ l₁ → l₁.consumed < l₁.tot_len →
      (loopBody ind env w₁ l₁).flow = .next l₂ → Reaches ind env w l (loopBody ind env w₁ l₁).world l₂

/-- Further on in the packet, or past its end. -/
def Advances (l l' : Locals) : Prop :=
  (l'.tot_len = l.tot_len ∧ l.consumed < l'.consumed) ∨ ¬ l'.consumed < l'.tot_len

/-- What comes out of a segment, whatever the tables: a record's front, a record put
    together, or the end. -/
theorem tcpSegment_next (ind : Indet) (env : Env) (w : World) (l : Locals) (hn : (tcpSegment ind env w l).flow = .next l') :
    l' = l.afterMark ∨ ∃ buffer len, l' = l.assembled buffer len := by
  unfold tcpSegment at hn
  simp only at hn
  split at hn
  · split at hn
    · cases hn
      exact Or.inl rfl
    split at hn
    · cases hn
    split at hn
    · cases hn
    · cases hn
  · rename_i n tcp _
    generalize (if env.th_seq - n.val.firstSeq + (env.length - l.i_len - l.h_len) > n.val.rpc_len then n.val.rpc_len
      else env.th_seq - n.val.firstSeq + (env.length - l.i_len - l.h_len)) = last at hn
    split at hn
    · cases hn
      exact Or.inr ⟨⟨n.val.buffer.id, n.val.buffer.size, _⟩, n.val.rpc_len, rfl⟩
    split at hn
    · cases hn
    · cases hn

/-- An accepted header is a whole number of words. -/
theorem rc_words (bp : Ptr) (maxlen : UInt32) (euid egid : Int32) (hpos : 0 < (getRpcHeader bp maxlen euid egid).rc) :
    (getRpcHeader bp maxlen euid egid).rc.toUInt32.toNat % 4 = 0 := by
  have neg : ¬ (0 : Int32) < -1 := by decide
  unfold getRpcHeader at hpos ⊢
  simp only at hpos ⊢
  split at hpos
  · rename_i hcall
    rw [if_pos hcall]
    split at hpos
    · exact absurd hpos neg
    rename_i hvers
    rw [if_neg hvers]
    split at hpos
    · exact absurd hpos neg
    rename_i hcred
    rw [if_neg hcred]
    split at hpos
    · exact absurd hpos neg
    rename_i hverf
    rw [if_neg hverf]
    split at hpos
    · exact absurd hpos neg
    rename_i hauth
    rw [if_neg hauth]
    exact add_mod4 (add_mod4 (by decide) (authBytes_mod4 _)) (authBytes_mod4 _)
  · rename_i hcall
    rw [if_neg hcall]
    split at hpos
    · rename_i hreply
      rw [if_pos hreply]
      split at hpos
      · exact absurd hpos neg
      rename_i hverf
      rw [if_neg hverf]
      exact add_mod4 (by decide) (authBytes_mod4 _)
    · exact absurd hpos neg

theorem rc_lt (x : Int32) (h : 0 < x) : x.toUInt32.toNat < 2 ^ 31 := by
  have hx : 0 < x.toInt := by
    rw [Int32.lt_iff_toInt_lt] at h
    exact h
  have hmsb : x.toBitVec.msb = false := by
    rw [← Bool.not_eq_true, BitVec.msb_eq_toInt]
    rw [decide_eq_true_eq]
    exact Int.not_lt.mpr (Int.le_of_lt hx)
  exact BitVec.toNat_lt_of_msb_false hmsb

/-- A message of the packet that is decoded starts inside it. -/
theorem decodes_inside (hd : l.Decodes) (hcon : l.consumed.toNat < 2 ^ 31 + 4) : l.consumed.toNat < l.tot_len.toNat := by
  obtain ⟨hpos, hlt⟩ := hd
  have hwords : l.rpcHeader.rc.toUInt32.toNat % 4 = 0 := rc_words _ _ _ _ hpos
  have hrc := rc_lt _ hpos
  rw [UInt32.lt_iff_toNat_lt, UInt32.toNat_add] at hlt
  omega

/-- A message at its end leads on: to the packet's end, or past the record. -/
theorem rpcMessage_advances (hcon : l.consumed.toNat < 2 ^ 31 + 4) (htot : l.tot_len.toNat < 2 ^ 31)
    (hn : (rpcMessage ind env w l).flow = .next l') :
    l'.tot_len = l.tot_len ∧ (l'.consumed = l.tot_len ∨ l'.consumed = l.consumed + l.rpc_len ∧ l.consumed.toNat < 2 ^ 31) := by
  obtain ⟨record, consumed, rfl, -, hc⟩ := (rpcMessage_spec ind env w l).next l' hn
  refine ⟨rfl, ?_⟩
  by_cases hd : l.Decodes
  · rcases hc with hc | hc
    · exact Or.inl hc
    · have := decodes_inside hd hcon
      exact Or.inr ⟨hc, by omega⟩
  · exact Or.inl ((rpcMessage_stray ind env w l hd).2.2.2 _ hn)

theorem not_lt_of_eq {x y : UInt32} (h : x = y) : ¬ x < y := by
  rw [h]
  exact UInt32.lt_irrefl _

/-- At the loop's condition: the packet's size, and a datagram's message ends it. -/
structure Ahead (env : Env) (l : Locals) : Prop where
  size : l.tot_len.toNat < 2 ^ 31
  datagram : env.proto ≠ IPPROTO_TCP → l.consumed + l.rpc_len = l.tot_len

theorem loopBody_advances (a : Ahead env l) (hlt : l.consumed < l.tot_len) (hn : (loopBody ind env w l).flow = .next l') :
    ¬ l'.consumed < l'.tot_len ∨ (Ahead env l' ∧ l'.tot_len = l.tot_len ∧ l.consumed < l'.consumed) := by
  have hsize := a.size
  have hcon := UInt32.lt_iff_toNat_lt.mp hlt
  rw [loopBody_eq] at hn
  split at hn
  · rename_i hp
    cases hs : (tcpSegment ind env w l.counted).flow with
    | next l₁ =>
      rw [andThen_next hs] at hn
      rcases tcpSegment_next ind env w _ hs with rfl | ⟨buffer, len, rfl⟩
      · -- a record whose front is in the packet
        have hmark : l.counted.afterMark.consumed.toNat = l.consumed.toNat + 4 := by
          show (l.consumed + 4).toNat = _
          rw [UInt32.toNat_add, show (4 : UInt32).toNat = 4 from rfl]
          omega
        have hsmall : l.counted.afterMark.consumed.toNat < 2 ^ 31 + 4 := by omega
        obtain ⟨htot, hc⟩ := rpcMessage_advances hsmall hsize hn
        rcases hc with hc | ⟨hc, hin⟩
        · exact Or.inl (not_lt_of_eq (hc.trans htot.symm))
        · refine Or.inr ⟨⟨by rw [htot]; exact hsize, fun hno => absurd hp hno⟩, htot, ?_⟩
          have hann : l.counted.afterMark.rpc_len.toNat < 2 ^ 31 := announced_lt _
          rw [hc, UInt32.lt_iff_toNat_lt, UInt32.toNat_add, hmark]
          rw [hmark] at hin
          omega
      · -- a record put together is the last
        obtain ⟨record, consumed, rfl, -, hc⟩ := (rpcMessage_spec ind env _ _).next l' hn
        refine Or.inl (not_lt_of_eq ?_)
        rcases hc with hc | hc
        · exact hc
        · exact hc.trans (UInt32.zero_add _)
    | _ =>
      rw [andThen_stop (by rw [hs]; nofun), hs] at hn
      cases hn
  · rename_i hp
    obtain ⟨record, consumed, rfl, -, hc⟩ := (rpcMessage_spec ind env w _).next l' hn
    refine Or.inl (not_lt_of_eq ?_)
    rcases hc with hc | hc
    · exact hc
    · exact hc.trans (a.datagram hp)

/-! ## The loop -/

theorem Reaches.ahead (a : Ahead env l) {w' : World} (hr : Reaches ind env w l w' l') : l'.consumed < l'.tot_len → Ahead env l' := by
  induction hr with
  | start => exact fun _ => a
  | turn hr hlt hn ih =>
    intro hlt'
    rcases loopBody_advances (ih hlt) hlt hn with hend | ⟨a', -⟩
    · exact absurd hlt' hend
    · exact a'

/-- An iteration that does not end the loop leaves it in the packet. -/
theorem loopBody_stays (hn : (loopBody ind env w l).flow = .next l') (hlt : l'.consumed < l'.tot_len) :
    l'.pp = l.pp ∧ l'.tot_len = l.tot_len := by
  rw [loopBody_eq] at hn
  split at hn
  · cases hs : (tcpSegment ind env w l.counted).flow with
    | next l₁ =>
      rw [andThen_next hs] at hn
      obtain ⟨record, consumed, rfl, -, hc⟩ := (rpcMessage_spec ind env _ _).next l' hn
      rcases tcpSegment_next ind env w _ hs with rfl | ⟨buffer, len, rfl⟩
      · exact ⟨rfl, rfl⟩
      · refine absurd hlt (not_lt_of_eq ?_)
        rcases hc with hc | hc
        · exact hc
        · exact hc.trans (UInt32.zero_add _)
    | _ =>
      rw [andThen_stop (by rw [hs]; nofun), hs] at hn
      cases hn
  · obtain ⟨record, consumed, rfl, -, -⟩ := (rpcMessage_spec ind env w _).next l' hn
    exact ⟨rfl, rfl⟩

theorem Reaches.inPacket (hh : headers h record = .ok (env, l)) {w' : World} (hr : Reaches ind env w l w' l') :
    l'.consumed < l'.tot_len → l'.pp = h.pp ∧ l'.tot_len = h.caplen := by
  induction hr with
  | start => exact fun _ => ⟨(headers_ok hh).pp, (headers_ok hh).tot_len⟩
  | turn hr hlt hn ih =>
    intro hlt'
    obtain ⟨hpp, htot⟩ := loopBody_stays hn hlt'
    exact ⟨hpp.trans (ih hlt).1, htot.trans (ih hlt).2⟩

/-- Fuel for every byte that is left is enough. -/
theorem loop_ends (fuel : Nat) : ∀ {w : World} {l : Locals}, (l.consumed < l.tot_len → Ahead env l) →
    l.tot_len.toNat - l.consumed.toNat < fuel → ∀ l', (loop ind env fuel w l).flow ≠ .next l' := by
  induction fuel with
  | zero => exact fun _ hf => absurd hf (Nat.not_lt_zero _)
  | succ fuel ih =>
    intro w l ha hf l' hn
    rw [loop] at hn
    split at hn
    · rename_i hlt
      cases hb : (loopBody ind env w l).flow with
      | next l₁ =>
        rw [andThen_next hb] at hn
        have hlt' := UInt32.lt_iff_toNat_lt.mp hlt
        rcases loopBody_advances (ha hlt) hlt hb with hend | ⟨a₁, htot, hcon⟩
        · refine ih (fun h => absurd h hend) ?_ l' hn
          have := UInt32.not_lt.mp hend
          rw [UInt32.le_iff_toNat_le] at this
          omega
        · refine ih (fun _ => a₁) ?_ l' hn
          rw [UInt32.lt_iff_toNat_lt] at hcon
          rw [htot]
          omega
      | _ =>
        rw [andThen_stop (by simp [hb]), hb] at hn
        cases hn
    · cases hn

theorem AtLoop.ahead (a : AtLoop h env l) (hcap : h.caplen.toNat < 2 ^ 31) : Ahead env l := by
  refine ⟨by rw [a.tot_len]; exact hcap, fun hno => ?_⟩
  rw [(a.proto.resolve_left hno).2]
  grind

/-- Whatever the packet, the memory and the tables, every iteration that comes back to the
    condition has got further or leaves nothing to do, and the loop ends. -/
theorem loop_terminates (hcap : h.caplen.toNat < 2 ^ 31) (ind : Indet) (w : World) (record : NfsPkt) :
    (processPacket ind w h record).exit ≠ .diverged ∧
    ∀ env l, headers h record = .ok (env, l) →
      (∃ fuel, ∀ n, fuel ≤ n → ∀ l', (loop ind env n w l).flow ≠ .next l') ∧
      ∀ w₁ l₁ l₂, Reaches ind env w l w₁ l₁ → l₁.consumed < l₁.tot_len → (loopBody ind env w₁ l₁).flow = .next l₂ →
        Advances l₁ l₂ := by
  refine ⟨?_, fun env l hh => ⟨⟨h.caplen.toNat + 1, fun n hn => ?_⟩, fun w₁ l₁ l₂ hr hlt hf => ?_⟩⟩
  · unfold processPacket
    cases hh : headers h record with
    | error rc => exact nofun
    | ok el =>
      obtain ⟨env, l⟩ := el
      have a := headers_ok hh
      have hends : ∀ l', (loop ind env (h.caplen.toNat + 3) w l).flow ≠ .next l' :=
        loop_ends (h.caplen.toNat + 3) (fun _ => a.ahead hcap) (by rw [a.tot_len]; omega)
      show (finishPacket record (loop ind env (h.caplen.toNat + 3) w l)).exit ≠ .diverged
      unfold finishPacket
      split
      · exact nofun
      · exact nofun
      · rename_i hf
        exact absurd hf (hends _)
      · exact nofun
  · have a := headers_ok hh
    exact loop_ends n (fun _ => a.ahead hcap) (by rw [a.tot_len]; omega)
  · have a := hr.ahead ((headers_ok hh).ahead hcap) hlt
    rcases loopBody_advances a hlt hf with hend | ⟨-, htot, hcon⟩
    · exact Or.inr hend
    · exact Or.inl ⟨htot, hcon⟩

/-- Two replies in a segment. -/
def twoReplies : Packet :=
  tcpPacket 100 ⟨1, 2, 3, 4⟩ 0 ([7, 8].flatMap fun xid => be32 (2 ^ 31 + 28) ++ be32 xid ++ be32 1 ++ List.replicate 20 0)

/-- They are looked at, and the loop ends. -/
theorem loop_terminates_replies :
    (processPacket Indet.zero World.init twoReplies NfsPkt.zero).exit ≠ .diverged ∧
    ∃ env l, headers twoReplies NfsPkt.zero = .ok (env, l) ∧ l.consumed < l.tot_len ∧
      (∃ fuel, ∀ n, fuel ≤ n → ∀ l', (loop Indet.zero env n World.init l).flow ≠ .next l') ∧
      ∀ w₁ l₁ l₂, Reaches Indet.zero env World.init l w₁ l₁ → l₁.consumed < l₁.tot_len →
        (loopBody Indet.zero env w₁ l₁).flow = .next l₂ → Advances l₁ l₂ := by
  obtain ⟨hexit, hloop⟩ := loop_terminates (h := twoReplies) (by decide) Indet.zero World.init NfsPkt.zero
  obtain ⟨env, l, hh, hlt⟩ : ∃ env l, headers twoReplies NfsPkt.zero = .ok (env, l) ∧ l.consumed < l.tot_len :=
    ⟨_, _, rfl, by decide +kernel⟩
  exact ⟨hexit, env, l, hh, hlt, hloop env l hh⟩

end Nfsdump.Record
