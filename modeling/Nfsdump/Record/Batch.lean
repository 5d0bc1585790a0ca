/-
  Nfsdump.Record.Batch — several whole records in one segment.

  The loop goes on to the next record when the one before it decodes, which every accepted
  message does that has something behind its header (`decodes_of_accepted`). So a segment of
  whole records hands each of them to `getRpcHeader`, in order (`packet_batch`).
-/

import Nfsdump.Record.Capture
import Nfsdump.Wire.Placement

namespace Nfsdump.Record

open ChainTable Wire

variable (ind : Indet) {env : Env} {w : World} {l : Locals} {room k : Nat} {rest m : List UInt8}
variable {h : Packet} {record : NfsPkt} {payload : List UInt8} {L : List (Node TcpFragment)}

theorem Locals.rpc_b_fits (hfit : l.pp.Fits l.tot_len.toNat) (hin : l.consumed.toNat ≤ l.tot_len.toNat) :
    l.rpc_b.Fits (l.tot_len - l.consumed).toNat := by
  have hfit' : l.pp.addr.toNat + l.tot_len.toNat < 2 ^ 32 := hfit
  show (l.pp.addr + l.consumed).toNat + (l.tot_len - l.consumed).toNat < 2 ^ 32
  rw [UInt32.toNat_add, UInt32.toNat_sub_of_le _ _ (UInt32.le_iff_toNat_le.mpr hin)]
  omega

/-- A message that is accepted, all of it in the packet, decodes. -/
theorem decodes_of_accepted (hm : l.rpc_b.Holds m) (hin : l.consumed.toNat + m.length ≤ l.tot_len.toNat)
    (hfit : l.pp.Fits l.tot_len.toNat) (hk : 0 < k) (hacc : Accepted k m) : l.Decodes := by
  obtain ⟨hpos, hlen⟩ := hacc
  have hle : l.consumed.toNat ≤ l.tot_len.toNat := by omega
  have hsub := UInt32.toNat_sub_of_le _ _ (UInt32.le_iff_toNat_le.mpr hle)
  obtain ⟨hrc, _⟩ := getRpcHeader_placed hm (n := l.tot_len - l.consumed) (by rw [hsub]; omega)
    (Locals.rpc_b_fits hfit hle) hpos
  unfold Locals.Decodes Locals.rpcHeader
  rw [hrc]
  refine ⟨hpos, ?_⟩
  have ht := l.tot_len.toNat_lt
  rw [UInt32.lt_iff_toNat_lt, UInt32.toNat_add]
  omega

/-- The records of a batch behind each other. -/
def joined (rs : List Rec) : List UInt8 := (rs.map Rec.bytes).flatten

theorem joined_cons (r : Rec) (rs : List Rec) : joined (r :: rs) = r.bytes ++ joined rs := rfl

/-- The iteration's announced length, when a whole record is in front. -/
theorem AtSegment.announced {r : Rec} (a : AtSegment env l room (r.bytes ++ rest)) :
    l.announced = UInt32.ofNat r.body.length := by
  have hr := a.fits
  rw [List.length_append, Rec.bytes_length] at hr
  have hp : l.rpc_b.Holds (r.mark ++ (r.body ++ rest)) := by
    have := a.holds
    rwa [Rec.bytes, List.append_assoc] at this
  have := Rec.mark_word hp (by omega)
  rwa [Locals.rpc_b, Ptr.word_add, UInt32.add_zero] at this

/-- One whole record: it is handed on and decoded, and the rest of the segment is next. -/
theorem record_step {r : Rec} (fuel : Nat) (a : AtSegment env l room (r.bytes ++ rest)) (hx : XidOk w)
    (hn : (lookup TcpTable.scheme w.tcp env.key).1 = none) (hfit : l.pp.Fits l.tot_len.toNat) (hk : 0 < k)
    (hacc : Accepted k r.body) :
    ∃ l' es w', loop ind env (fuel + 1) w l =
        { loop ind env fuel w' l' with events := es ++ (loop ind env fuel w' l').events } ∧
      handed es = [r.body] ∧ copies es = [] ∧ w'.tcp = w.tcp ∧ XidOk w' ∧ AtSegment env l' (room - 4) rest ∧
      l'.pp = l.pp ∧ l'.tot_len = l.tot_len := by
  have hr := a.fits
  have hin := a.inside
  rw [List.length_append, Rec.bytes_length] at hr hin
  have hann : l.counted.announced = UInt32.ofNat r.body.length := a.announced
  have hne : r.bytes ++ rest ≠ [] := List.ne_nil_of_length_pos (by rw [List.length_append, Rec.bytes_length]; omega)
  have hseg := tcpSegment_sole ind (l := l.counted) hn (by
    rw [a.counted.behindMark (by rw [List.length_append, Rec.bytes_length]; omega), hann, UInt32.le_iff_toNat_le,
      toNat_ofNat_lt (by omega), toNat_ofNat_lt (by omega)]
    omega)
  have hbehind : l.counted.afterMark.rpc_b.Holds (r.body ++ rest) := by
    rw [afterMark_rpc_b]
    have := a.holds
    rw [Rec.bytes, List.append_assoc] at this
    exact (Ptr.holds_append.mp this).2
  have hcon : (l.consumed + 4).toNat = l.consumed.toNat + 4 := by
    rw [UInt32.toNat_add, show (4 : UInt32).toNat = 4 from rfl]; omega
  have htot : l.tot_len.toNat = l.consumed.toNat + (4 + r.body.length + rest.length) := by
    rw [a.stop, UInt32.toNat_add, List.length_append, Rec.bytes_length, toNat_ofNat_lt (by omega)]; omega
  have hd : l.counted.afterMark.Decodes :=
    decodes_of_accepted (Ptr.holds_left hbehind) (by
      show (l.consumed + 4).toNat + _ ≤ l.tot_len.toNat
      omega) hfit hk hacc
  obtain ⟨rec', hflow⟩ := rpcMessage_decodes ind env w l.counted.afterMark hd hx
  have hspec := rpcMessage_spec ind env w l.counted.afterMark
  have hloop := loop_tcp ind (w := w) fuel a.proto (a.unfinished hne)
  rw [hseg, andThen_next rfl, andThen_next hflow] at hloop
  refine ⟨{ l.counted.afterMark with
      record := rec', consumed := l.counted.afterMark.consumed + l.counted.afterMark.rpc_len },
    [.tcpLookup env.key none, .mark l.counted.consumed] ++ (rpcMessage ind env w l.counted.afterMark).events,
    (rpcMessage ind env w l.counted.afterMark).world, ?_, ?_, ?_, hspec.tcp, (hspec.xid hx).1, ?_, rfl, rfl⟩
  · rw [hloop]
    simp only [List.append_assoc]
  · rw [handed_append, hspec.handed]
    show [] ++ [_] = _
    rw [List.nil_append]
    refine congrArg (· :: []) (Ptr.bytes_of_holds (Ptr.holds_left hbehind) ?_)
    show l.counted.announced.toNat = _
    rw [hann, toNat_ofNat_lt (by omega)]
  · rw [copies_append, hspec.copies]; rfl
  · have hnext : (l.consumed + 4 + UInt32.ofNat r.body.length).toNat = l.consumed.toNat + 4 + r.body.length := by
      rw [UInt32.toNat_add, hcon, toNat_ofNat_lt (by omega)]; omega
    refine ⟨a.proto, ?_, ?_, by omega, ?_, ?_⟩
    · have hrest := (Ptr.holds_append.mp hbehind).2
      rw [← hann] at hrest
      rw [Locals.rpc_b, Ptr.add_add] at hrest
      exact hrest
    · rw [← a.counted.behindMark (by rw [List.length_append, Rec.bytes_length]; omega)]
      rfl
    · show l.tot_len = l.consumed + 4 + l.counted.announced + UInt32.ofNat rest.length
      apply UInt32.toNat.inj
      rw [hann, UInt32.toNat_add, hnext, htot, toNat_ofNat_lt (by omega)]; omega
    · show (l.consumed + 4 + l.counted.announced).toNat + _ < _
      rw [hann, hnext]; omega

theorem loop_batch (hk : 0 < k) (rs : List Rec) : ∀ (fuel : Nat) (w : World) (l : Locals) (room : Nat),
    AtSegment env l room (joined rs) → rs.length < fuel → XidOk w →
    (lookup TcpTable.scheme w.tcp env.key).1 = none → l.pp.Fits l.tot_len.toNat → (∀ r ∈ rs, Accepted k r.body) →
    handed (loop ind env fuel w l).events = rs.map Rec.body ∧ copies (loop ind env fuel w l).events = [] ∧
      (loop ind env fuel w l).world.tcp = w.tcp ∧ XidOk (loop ind env fuel w l).world ∧
      ∃ l', (loop ind env fuel w l).flow = .done l' := by
  induction rs with
  | nil =>
    intro fuel w l room a hf hx _ _ _
    obtain ⟨fuel, rfl⟩ : ∃ n, fuel = n + 1 := ⟨fuel - 1, by simp only [List.length_nil] at hf; omega⟩
    have hlt : ¬ l.consumed < l.tot_len := by
      rw [a.stop]
      show ¬ l.consumed < l.consumed + 0
      rw [UInt32.add_zero]
      exact UInt32.lt_irrefl _
    simp only [loop, hlt, if_false]
    exact ⟨rfl, rfl, trivial, hx, l, rfl⟩
  | cons r rs ih =>
    intro fuel w l room a hf hx hn hfit hacc
    obtain ⟨fuel, rfl⟩ : ∃ n, fuel = n + 1 := ⟨fuel - 1, by simp only [List.length_cons] at hf; omega⟩
    rw [joined_cons] at a
    obtain ⟨l', es, w', hloop, hh, hc, ht, hx', a', hpp, htl⟩ := record_step ind fuel a hx hn hfit hk (hacc r (by simp))
    obtain ⟨h1, h2, h3, h4, h5⟩ := ih fuel w' l' _ a' (by simp only [List.length_cons] at hf; omega) hx' (by rw [ht]; exact hn)
      (by rw [hpp, htl]; exact hfit) (fun r hr => hacc r (List.mem_cons_of_mem _ hr))
    rw [hloop]
    refine ⟨?_, ?_, h3.trans ht, h4, h5⟩
    · rw [handed_append, hh, h1]; rfl
    · rw [copies_append, hc, h2]; rfl

theorem joined_length (rs : List Rec) : 4 * rs.length ≤ (joined rs).length := by
  induction rs with
  | nil => simp
  | cons r rs ih => rw [joined_cons, List.length_append, Rec.bytes_length, List.length_cons]; omega

/-- A segment of whole records. -/
theorem packet_batch {rs : List Rec} (hc : Carries h record env l (joined rs)) (hfit : h.pp.Fits h.caplen.toNat)
    (hL : Lists TcpTable.scheme w.tcp L) (hx : XidOk w) (hn : (lookup TcpTable.scheme w.tcp env.key).1 = none)
    (hk : 0 < k) (hacc : ∀ r ∈ rs, Accepted k r.body) :
    Processed (processPacket ind w h record) (rs.map Rec.body) [] L := by
  have a := headers_ok hc.parsed
  have hlen := joined_length rs
  have hsize := hc.size
  obtain ⟨h1, h2, h3, h4, l', h5⟩ := loop_batch ind hk rs (h.caplen.toNat + 3) w l _ hc.atSegment (by omega) hx hn
    (by rw [a.pp, a.tot_len]; exact hfit) hacc
  obtain ⟨f1, f2, f3, f4, f5⟩ := finishPacket_spec record (loop ind env (h.caplen.toNat + 3) w l) (by rw [h5]; nofun)
    (by rw [h5]; nofun)
  unfold processPacket
  rw [hc.parsed]
  refine ⟨f1.trans h1, fun hnil => ?_, f2.trans h2, by rw [f4, h3]; exact hL, by rw [f4]; exact h4, f5⟩
  -- a segment is not empty
  have hrs : rs = [] := List.map_eq_nil_iff.mp hnil
  exact absurd (by rw [hrs]; rfl) hc.nonempty

end Nfsdump.Record
