/-
  Nfsdump.Record.Status — the status of the replies of one segment.

  A reply's status is read at the sum of the header lengths, `h_len` among them, to which
  each record of the segment adds the four bytes of its mark. Everything else is read at
  `consumed`, which also counts the bodies.

  Proved, for a segment of complete accepted replies:
  - `statuses_batch`: the status recorded for a reply is the word that many marks, and its
    own header, into the segment;
  - `statuses_own_iff`: so each is the reply's own iff these words are the same as the words
    behind the replies' own accept_stat. For the first reply they are in the same place.
-/

import Nfsdump.Record.Arrivals
import Nfsdump.Record.Whole

namespace Nfsdump.Record

open ChainTable Wire

/-- The status recorded in each iteration that the loop goes on from. -/
def statuses (ind : Indet) (env : Env) : Nat → World → Locals → List UInt32
  | 0, _, _ => []
  | fuel + 1, w, l =>
    if l.consumed < l.tot_len then
      match (loopBody ind env w l).flow with
      | .next l' => l'.record.rpcStatus :: statuses ind env fuel (loopBody ind env w l).world l'
      | _ => []
    else []

/-- The loop's iterations on a packet. -/
def packetStatuses (ind : Indet) (w : World) (h : Packet) (record : NfsPkt) : List UInt32 :=
  match headers h record with
  | .error _ => []
  | .ok (env, l) => statuses ind env (h.caplen.toNat + 3) w l

/-- An accepted reply with its two status words. -/
structure AcceptedReply (m : List UInt8) : Prop where
  reply : (Ptr.ofBytes m).word 4 = REPLY
  accepted : (Ptr.ofBytes m).word 8 = 0
  complete : headerLength m + 8 ≤ m.length

instance (m : List UInt8) : Decidable (AcceptedReply m) :=
  decidable_of_iff ((Ptr.ofBytes m).word 4 = REPLY ∧ (Ptr.ofBytes m).word 8 = 0 ∧ headerLength m + 8 ≤ m.length)
    ⟨fun ⟨h1, h2, h3⟩ => ⟨h1, h2, h3⟩, fun ⟨h1, h2, h3⟩ => ⟨h1, h2, h3⟩⟩

/-- The word behind the accept_stat. -/
def ownStatus (m : List UInt8) : UInt32 := (Ptr.ofBytes m).word (UInt32.ofNat (headerLength m + 4))

/-- The word that many marks and the reply's header into the segment, and one further. -/
def readStatus (segment : List UInt8) (i : Nat) (m : List UInt8) : UInt32 :=
  (Ptr.ofBytes segment).word (UInt32.ofNat (4 * (i + 1) + headerLength m + 4))

variable {ind : Indet} {env : Env} {w : World} {l : Locals} {room k : Nat} {rest m : List UInt8}

/-! ## One reply -/

theorem AcceptedReply.isComplete (h : AcceptedReply m) : Complete m := Or.inr ⟨h.reply, h.complete⟩

theorem AcceptedReply.taken (h : AcceptedReply m) : Taken m := fun hcall => by
  rw [h.reply] at hcall
  exact absurd hcall (by decide)

theorem AcceptedReply.header_eq (h : AcceptedReply m) (hlen : m.length < 2 ^ 31) :
    0 < (header m).rc ∧ (header m).rc.toUInt32 = UInt32.ofNat (headerLength m) ∧ (header m).dir = REPLY := by
  have hcomplete := h.complete
  have hfit : (Ptr.ofBytes m).Fits (UInt32.ofNat m.length).toNat := by
    show (0 : UInt32).toNat + (UInt32.ofNat m.length).toNat < 2 ^ 32
    rw [toNat_ofNat_lt (by omega)]
    show 0 + m.length < 2 ^ 32
    omega
  obtain ⟨hrc, hdir⟩ := getRpcHeader_complete (Ptr.ofBytes_holds (by omega : m.length ≤ 2 ^ 32)) hfit
    (toNat_ofNat_lt (by omega)) h.isComplete
  rw [if_pos h.taken] at hrc
  have hpos : 0 < headerLength m := by unfold headerLength authSize; split <;> omega
  obtain ⟨hgt, hu⟩ := toInt32_pos hpos (by omega)
  unfold header
  rw [hrc, hdir]
  exact ⟨hgt, hu, h.reply⟩

theorem AcceptedReply.isAccepted (h : AcceptedReply m) (hlen : m.length < 2 ^ 31) : Accepted 8 m := by
  obtain ⟨hpos, hu, -⟩ := h.header_eq hlen
  have hcomplete := h.complete
  refine ⟨hpos, ?_⟩
  rw [hu, toNat_ofNat_lt (by omega)]
  exact hcomplete

/-- A reply that is decoded: the status is addressed through the header lengths. -/
theorem rpcMessage_status (ind : Indet) (env : Env) (w : World) (hd : l.Decodes) (hdir : l.rpcHeader.dir = REPLY) :
    ∃ record, (rpcMessage ind env w l).flow = .next { l with record := record, consumed := l.consumed + l.rpc_len } ∧
      record.rpcStatus = l.pp.word (l.e_len + l.i_len + l.h_len + l.rpcHeader.rc.toUInt32 + 4) := by
  have hncall : ¬ l.rpcHeader.dir = CALL := by rw [hdir]; decide
  have hdecode : ∃ d, l.decode w (ind.print_it l.cnt) = .ok d ∧
      d.record.rpcStatus = l.pp.word (l.e_len + l.i_len + l.h_len + l.rpcHeader.rc.toUInt32 + 4) := by
    unfold Locals.decode
    rw [if_neg hncall]
    refine ⟨_, rfl, ?_⟩
    unfold decodeReply
    simp only
    split <;> rfl
  obtain ⟨d, hok, hstatus⟩ := hdecode
  refine ⟨d.record, ?_, hstatus⟩
  rw [rpcMessage_of_decodes ind env w l hd, hok]
  refine (finishMessage_spec env l.pastHeader l.rpcHeader l.rpcHeader.rc.toUInt32 d).2.2.2.trans ?_
  unfold Locals.pastHeader
  congr 2
  simp only
  grind

/-- What one reply in front leaves, beside `record_step`. -/
structure Round (w : World) (l : Locals) (m : List UInt8) (w' : World) (l' : Locals) : Prop where
  tcp : w'.tcp = w.tcp
  pp : l'.pp = l.pp
  tot_len : l'.tot_len = l.tot_len
  lengths : l'.e_len + l'.i_len + l'.h_len = l.e_len + l.i_len + l.h_len + 4
  status : l'.record.rpcStatus = l.pp.word (l.e_len + l.i_len + l.h_len + 4 + UInt32.ofNat (headerLength m) + 4)

theorem reply_round (ind : Indet) {r : Rec} (a : AtSegment env l room (r.bytes ++ rest))
    (hn : (lookup TcpTable.scheme w.tcp env.key).1 = none) (hfit : l.pp.Fits l.tot_len.toNat) (hr : AcceptedReply r.body) :
    ∃ l', (loopBody ind env w l).flow = .next l' ∧ Round w l r.body (loopBody ind env w l).world l' ∧
      AtSegment env l' (room - 4) rest := by
  have hroom := a.fits
  have hin := a.inside
  rw [List.length_append, Rec.bytes_length] at hroom hin
  have hlen : r.body.length < 2 ^ 31 := by omega
  have hann : l.counted.announced = UInt32.ofNat r.body.length := a.announced
  have h4 : 4 ≤ (r.bytes ++ rest).length := by rw [List.length_append, Rec.bytes_length]; omega
  have hseg := tcpSegment_sole ind (l := l.counted) hn (by
    rw [a.counted.behindMark h4, hann, UInt32.le_iff_toNat_le, toNat_ofNat_lt (by omega), toNat_ofNat_lt (by omega)]
    omega)
  have hbehind : l.counted.afterMark.rpc_b.Holds (r.body ++ rest) := by
    rw [afterMark_rpc_b]
    have := a.holds
    rw [Rec.bytes, List.append_assoc] at this
    exact (Ptr.holds_append.mp this).2
  have hcon : (l.consumed + 4).toNat = l.consumed.toNat + 4 := by
    rw [UInt32.toNat_add, show (4 : UInt32).toNat = 4 from rfl]
    omega
  have htot : l.tot_len.toNat = l.consumed.toNat + (4 + r.body.length + rest.length) := by
    rw [a.stop, UInt32.toNat_add, List.length_append, Rec.bytes_length, toNat_ofNat_lt (by omega)]
    omega
  have hinside : (l.consumed + 4).toNat + r.body.length ≤ l.tot_len.toNat := by omega
  have hd : l.counted.afterMark.Decodes := decodes_of_accepted (Ptr.holds_left hbehind) hinside hfit (by decide : 0 < 8)
    (hr.isAccepted hlen)
  obtain ⟨hpos, hu, hdir⟩ := hr.header_eq hlen
  have hheader : l.counted.afterMark.rpcHeader.rc = (header r.body).rc ∧ l.counted.afterMark.rpcHeader.dir = (header r.body).dir := by
    have hsub : (l.tot_len - (l.consumed + 4)).toNat = l.tot_len.toNat - (l.consumed + 4).toNat :=
      UInt32.toNat_sub_of_le _ _ (UInt32.le_iff_toNat_le.mpr (by omega))
    refine getRpcHeader_placed (Ptr.holds_left hbehind) ?_ (Locals.rpc_b_fits hfit ?_) hpos
    · show r.body.length ≤ (l.tot_len - (l.consumed + 4)).toNat
      omega
    · show (l.consumed + 4).toNat ≤ l.tot_len.toNat
      omega
  obtain ⟨record, hflow, hstatus⟩ := rpcMessage_status ind env w hd (hheader.2.trans hdir)
  have hspec := rpcMessage_spec ind env w l.counted.afterMark
  have hbody : loopBody ind env w l = { rpcMessage ind env w l.counted.afterMark with
      events := [.tcpLookup env.key none, .mark l.counted.consumed] ++ (rpcMessage ind env w l.counted.afterMark).events } := by
    rw [loopBody_eq, if_pos a.proto, hseg, andThen_next rfl]
  rw [hbody]
  refine ⟨_, hflow, ⟨hspec.tcp, rfl, rfl, ?_, ?_⟩, a.proto, ?_, ?_, by omega, ?_, ?_⟩
  · show l.e_len + l.i_len + (l.h_len + 4) = _
    rw [UInt32.add_assoc (l.e_len + l.i_len) l.h_len 4]
  · rw [hstatus, hheader.1, hu]
    show l.pp.word (l.e_len + l.i_len + (l.h_len + 4) + _ + 4) = _
    rw [UInt32.add_assoc (l.e_len + l.i_len) l.h_len 4]
  · have hrest := (Ptr.holds_append.mp hbehind).2
    rw [← hann, Locals.rpc_b, Ptr.add_add] at hrest
    exact hrest
  · rw [← a.counted.behindMark h4]
    rfl
  · show l.tot_len = l.consumed + 4 + l.counted.announced + UInt32.ofNat rest.length
    apply UInt32.toNat.inj
    rw [hann, UInt32.toNat_add, UInt32.toNat_add, hcon, htot, toNat_ofNat_lt (by omega), toNat_ofNat_lt (by omega)]
    omega
  · show (l.consumed + 4 + l.counted.announced).toNat + _ < _
    rw [hann, UInt32.toNat_add, hcon, toNat_ofNat_lt (by omega)]
    omega

/-! ## All replies of the segment -/

theorem joined_append (rs ss : List Rec) : joined (rs ++ ss) = joined rs ++ joined ss := by
  rw [joined, List.map_append, List.flatten_append]
  rfl

/-- With `ds` done and `rs` to come, `base` the offset of the segment's payload. -/
theorem statuses_rest {all : List UInt8} {base : UInt32} (hall : (l.pp.add base).Holds all) (hsmall : all.length < 65536)
    (rs : List Rec) : ∀ (fuel : Nat) (w : World) (l' : Locals) (room : Nat) (ds : List Rec), all = joined (ds ++ rs) →
    AtSegment env l' room (joined rs) → rs.length < fuel → (lookup TcpTable.scheme w.tcp env.key).1 = none →
    l'.pp = l.pp → l'.pp.Fits l'.tot_len.toNat → l'.e_len + l'.i_len + l'.h_len = base + UInt32.ofNat (4 * ds.length) →
    (∀ r ∈ rs, AcceptedReply r.body) →
    statuses ind env fuel w l' = rs.mapIdx fun i r => readStatus all (ds.length + i) r.body := by
  induction rs with
  | nil =>
    intro fuel w l' room ds _ a hf _ _ _ _ _
    obtain ⟨fuel, rfl⟩ : ∃ n, fuel = n + 1 := ⟨fuel - 1, by simp only [List.length_nil] at hf; omega⟩
    have hlt : ¬ l'.consumed < l'.tot_len := by
      rw [a.stop]
      show ¬ l'.consumed < l'.consumed + 0
      rw [UInt32.add_zero]
      exact UInt32.lt_irrefl _
    rw [statuses, if_neg hlt]
    rfl
  | cons r rs ih =>
    intro fuel w l' room ds heq a hf hn hpp hfit hlengths hrs
    obtain ⟨fuel, rfl⟩ : ∃ n, fuel = n + 1 := ⟨fuel - 1, by simp only [List.length_cons] at hf; omega⟩
    rw [List.forall_mem_cons] at hrs
    rw [joined_cons] at a
    have hne : r.bytes ++ joined rs ≠ [] := List.ne_nil_of_length_pos (by rw [List.length_append, Rec.bytes_length]; omega)
    obtain ⟨l₂, hflow, hround, a₂⟩ := reply_round ind a hn hfit hrs.1
    rw [statuses, if_pos (a.unfinished hne)]
    simp only [hflow]
    rw [List.mapIdx_cons]
    refine congrArg₂ List.cons ?_ ?_
    · -- the word is inside of the segment: before it there are as many marks, and the reply has it
      have hin : 4 * (ds.length + 1) + headerLength r.body + 8 ≤ all.length := by
        have hds := joined_length ds
        have hbody := hrs.1.complete
        rw [heq, joined_append, joined_cons, List.length_append, List.length_append, Rec.bytes_length]
        omega
      rw [hround.status, hlengths, hpp, readStatus, Nat.add_zero]
      have hoff : base + UInt32.ofNat (4 * ds.length) + 4 + UInt32.ofNat (headerLength r.body) + 4 =
          base + UInt32.ofNat (4 * (ds.length + 1) + headerLength r.body + 4) := by
        rw [Nat.mul_add, UInt32.ofNat_add, UInt32.ofNat_add, UInt32.ofNat_add]
        simp only [UInt32.add_assoc]
        rfl
      rw [hoff, ← Ptr.word_add]
      exact fixed_words hall (by omega) (Nat.le_refl _) _ (by rw [toNat_ofNat_lt (by omega)]; omega)
    · rw [ih fuel _ l₂ _ (ds ++ [r]) (by rw [heq, List.append_assoc]; rfl) a₂ (by simp only [List.length_cons] at hf; omega)
        (by rw [hround.tcp]; exact hn) (hround.pp.trans hpp) (by rw [hround.pp, hround.tot_len]; exact hfit) ?_ hrs.2]
      · rw [List.length_append, List.length_singleton]
        exact congrArg (fun f => List.mapIdx f rs) (funext fun i => funext fun s => by
          rw [Nat.add_assoc, Nat.add_comm 1 i])
      · rw [hround.lengths, hlengths, List.length_append, List.length_singleton, Nat.mul_add, UInt32.ofNat_add, UInt32.add_assoc]
        rfl

variable {h : Packet} {record : NfsPkt} {c : Conn} {seq : UInt32} {e i t : Nat}

/-- The statuses recorded for the replies of a segment. -/
theorem statuses_batch {rs : List Rec} (f : TcpFrame h c seq e i t (joined rs)) (hfit : h.pp.Fits h.caplen.toNat)
    (hn : (lookup TcpTable.scheme w.tcp (c.key seq)).1 = none) (h1 : rs ≠ []) (hrs : ∀ r ∈ rs, AcceptedReply r.body) :
    packetStatuses ind w h record = rs.mapIdx fun j r => readStatus (joined rs) j r.body := by
  have hne : joined rs ≠ [] := by
    have hlen := joined_length rs
    have hpos := List.length_pos_iff.mpr h1
    exact List.ne_nil_of_length_pos (by omega)
  obtain ⟨env, l, hcar, hconn, hseq, -, -⟩ := f.carries hne record
  have a := headers_ok hcar.parsed
  have hkey : env.key = c.key seq := by rw [← hconn, ← hseq]; rfl
  have hsize := hcar.size
  have hlen := joined_length rs
  have hatom := hcar.atSegment
  have hbase : l.e_len + l.i_len + l.h_len = l.consumed + UInt32.ofNat (4 * ([] : List Rec).length) := by
    rw [a.consumed]
    exact (UInt32.add_zero _).symm
  unfold packetStatuses
  rw [hcar.parsed]
  refine (statuses_rest (l := l) hcar.holds hatom.fits.2 rs _ w l _ [] rfl hatom (by omega) (by rw [hkey]; exact hn) rfl
    (by rw [a.pp, a.tot_len]; exact hfit) hbase hrs).trans ?_
  exact congrArg (fun f => List.mapIdx f rs) (funext fun j => funext fun r => by rw [List.length_nil, Nat.zero_add])

/-- The first reply's status is its own. -/
theorem readStatus_first {r : Rec} {rs : List Rec} (hsmall : (joined (r :: rs)).length < 65536) (hr : AcceptedReply r.body) :
    readStatus (joined (r :: rs)) 0 r.body = ownStatus r.body := by
  have hall := Ptr.ofBytes_holds (by omega : (joined (r :: rs)).length ≤ 2 ^ 32)
  have hbody : ((Ptr.ofBytes (joined (r :: rs))).add 4).Holds r.body := by
    rw [joined_cons, Rec.bytes, List.append_assoc] at hall ⊢
    exact Ptr.holds_left (Ptr.holds_append.mp hall).2
  have hcomplete := hr.complete
  have hlen : r.body.length ≤ (joined (r :: rs)).length := by
    rw [joined_cons, List.length_append, Rec.bytes_length]
    omega
  rw [readStatus, ownStatus, show 4 * (0 + 1) + headerLength r.body + 4 = 4 + (headerLength r.body + 4) by omega, UInt32.ofNat_add,
    show UInt32.ofNat 4 = 4 from rfl, ← Ptr.word_add]
  exact fixed_words hbody (by omega) (Nat.le_refl _) _ (by rw [toNat_ofNat_lt (by omega)]; omega)

/-- Each reply of a segment gets its own status iff the words that the code reads for all
    but the first happen to be the same. -/
theorem statuses_own_iff {rs : List Rec} (f : TcpFrame h c seq e i t (joined rs)) (hfit : h.pp.Fits h.caplen.toNat)
    (hn : (lookup TcpTable.scheme w.tcp (c.key seq)).1 = none) (h1 : rs ≠ []) (hrs : ∀ r ∈ rs, AcceptedReply r.body) :
    packetStatuses ind w h record = rs.map (fun r => ownStatus r.body) ↔
      ∀ j (hj : j < rs.length), 0 < j → readStatus (joined rs) j (rs[j]).body = ownStatus (rs[j]).body := by
  have hsmall : (joined rs).length < 65536 := by
    obtain ⟨ha, hb, hp, hc⟩ := f.toFrame.small f.tcpWords.2.2
    exact hp
  rw [statuses_batch f hfit hn h1 hrs, List.ext_getElem_iff]
  simp only [List.length_mapIdx, List.length_map, true_and, List.getElem_mapIdx, List.getElem_map]
  constructor
  · exact fun hall j hj _ => hall j hj hj
  · intro hrest j hj _
    rcases Nat.eq_zero_or_pos j with rfl | hpos
    · obtain ⟨r, rs', rfl⟩ := List.exists_cons_of_ne_nil h1
      exact readStatus_first hsmall (hrs r List.mem_cons_self)
    · exact hrest j hj hpos

/-- A reply whose status is the mark in front of it. -/
def markReply (xid : UInt8) : Rec := ⟨true, [0, 0, 0, xid, 0, 0, 0, 1] ++ List.replicate 16 0 ++ [0x80, 0, 0, 28]⟩

theorem statuses_own_iff_two :
    packetStatuses Indet.zero World.init (tcpPacket 100 ⟨1, 2, 3, 4⟩ 0 (joined [voidReply 8, markReply 9])) NfsPkt.zero =
      [voidReply 8, markReply 9].map fun r => ownStatus r.body := by
  have f : TcpFrame (tcpPacket 100 ⟨1, 2, 3, 4⟩ 0 (joined [voidReply 8, markReply 9])) ⟨1, 2, 3, 4⟩ 0 14 20 20
      (joined [voidReply 8, markReply 9]) := tcpPacket_frame 100 _ 0 (by decide)
  apply (statuses_own_iff f (packetOf_fits ..) (lookup_idle tcp_init nofun 0) (by decide) (by decide)).mpr
  decide

/-- Of two replies in a segment, the second has the mark in front of it for a status. -/
theorem second_status_is_mark :
    (∀ r ∈ [voidReply 8, voidReply 9], AcceptedReply r.body) ∧
      packetStatuses Indet.zero World.init (tcpPacket 100 ⟨1, 2, 3, 4⟩ 0 (joined [voidReply 8, voidReply 9])) NfsPkt.zero ≠
        [voidReply 8, voidReply 9].map fun r => ownStatus r.body := by
  have hrs : ∀ r ∈ [voidReply 8, voidReply 9], AcceptedReply r.body := by decide
  refine ⟨hrs, ?_⟩
  rw [statuses_batch (tcpPacket_frame 100 _ 0 (by decide)) (packetOf_fits ..) (lookup_idle tcp_init nofun 0) (by decide) hrs]
  decide

end Nfsdump.Record
