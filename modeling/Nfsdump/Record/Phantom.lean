/-
  Nfsdump.Record.Phantom — what is decoded from a stream of records of any size.

  The records of one connection come in order, each from a segment of its own on. A record
  above the limit is rejected at its first segment, but nothing remembers that the rest of
  it is still to come: each further segment is taken for the start of a record. Proved:
  - `decoded_at_records`: when those segments do not look like one (`StrayAt`), only the
    bodies of records are decoded.
  - `oversize_decoded`: otherwise a call or reply in the middle of a record is.
-/

import Nfsdump.Record.Arrivals

namespace Nfsdump.Record

open ChainTable Wire

/-- A record and its segments as an item: above the limit only if it is in more than one. -/
def itemOf (k : Rec × List (List UInt8)) : Item :=
  if k.1.body.length ≤ 16384 ∨ k.2.length = 1 then .split k.1 k.2 else .oversize k.1 k.2

/-- Nothing is decoded but at the start of a record's body, when its last segment is there. -/
def RecordsOnly (records : List (Rec × List (List UInt8))) (s : Seg) (r : Result) : Prop :=
  decoded r.events = [] ∨ ∃ k ∈ records, s.out = some [k.1.body] ∧ handed r.events = [k.1.body]

theorem itemOf_ok {k : Rec × List (List UInt8)} (hcut : Cut k.1 k.2) (hlen : k.1.body.length < 2 ^ 31) : (itemOf k).Ok := by
  unfold itemOf
  split
  · rename_i h; exact ⟨hcut, h⟩
  · rename_i h
    rw [not_or] at h
    have hpos := List.length_pos_iff.mpr hcut.pieces_ne_nil
    exact ⟨hcut, by omega, by omega, hlen⟩

theorem parts_out_eq (body : List UInt8) (ps : List (List UInt8)) : ∀ (seq : UInt32), ∀ s ∈ parts seq body ps,
    s.out = some [] ∨ s.out = some [body] := by
  induction ps with
  | nil => intro seq s hs; cases hs
  | cons p ps ih =>
    intro seq s hs
    cases ps with
    | nil => rw [List.mem_singleton.mp hs]; exact Or.inr rfl
    | cons q ps =>
      rcases List.mem_cons.mp hs with rfl | hs
      · exact Or.inl rfl
      · exact ih _ s hs

theorem strays_out (ps : List (List UInt8)) : ∀ (seq : UInt32), ∀ s ∈ strays seq ps, s.out = none := by
  induction ps with
  | nil => intro seq s hs; cases hs
  | cons p ps ih =>
    intro seq s hs
    rcases List.mem_cons.mp hs with rfl | hs
    · rfl
    · exact ih _ s hs

/-- The segments of records complete a record or nothing. -/
theorem itemOf_out (records : List (Rec × List (List UInt8))) : ∀ (seq : UInt32), ∀ s ∈ segsOf seq (records.map itemOf),
    s.out = none ∨ s.out = some [] ∨ ∃ k ∈ records, s.out = some [k.1.body] := by
  induction records with
  | nil => intro seq s hs; cases hs
  | cons k records ih =>
    intro seq s hs
    rcases List.mem_append.mp hs with hs | hs
    · unfold itemOf at hs
      split at hs
      · rcases parts_out_eq _ _ _ s hs with h | h
        · exact Or.inr (Or.inl h)
        · exact Or.inr (Or.inr ⟨k, List.mem_cons_self .., h⟩)
      · rcases hk : k.2 with _ | ⟨p, ps⟩
        · rw [hk] at hs; cases hs
        · rw [hk] at hs
          rcases List.mem_cons.mp hs with rfl | hs
          · exact Or.inr (Or.inl rfl)
          · exact Or.inl (strays_out _ _ s hs)
    · rcases ih _ s hs with h | h | ⟨k', hk', h⟩
      · exact Or.inl h
      · exact Or.inr (Or.inl h)
      · exact Or.inr (Or.inr ⟨k', List.mem_cons_of_mem _ hk', h⟩)

theorem Outcome.recordsOnly {records : List (Rec × List (List UInt8))} {s : Seg} {r : Result} (h : Outcome s.out r)
    (hs : s.out = none ∨ s.out = some [] ∨ ∃ k ∈ records, s.out = some [k.1.body]) : RecordsOnly records s r := by
  rcases hs with hs | hs | ⟨k, hk, hs⟩
  · rw [hs] at h; exact Or.inl h
  · rw [hs] at h; exact Or.inl (h.2 rfl)
  · refine Or.inr ⟨k, hk, hs, ?_⟩
    rw [hs] at h; exact h.1

/-- Records of any size, each from a segment of its own on that holds its mark, from second
    30 on: if what is sent of the rejected ones does not look like records, nothing is
    decoded but records. -/
theorem decoded_at_records {w : World} (htcp : Lists TcpTable.scheme w.tcp []) (hxid : XidOk w) (c : Conn) (isn : UInt32)
    (records : List (Rec × List (List UInt8))) (hcut : ∀ k ∈ records, Cut k.1 k.2 ∧ k.1.body.length < 2 ^ 31)
    {caps : List Capture}
    (hframed : List.Forall₂ (fun s k => Arrival.Framed ⟨c, s, k⟩) (segsOf isn (records.map itemOf)) caps)
    (htime : ∀ k ∈ caps, 30 ≤ k.h.tv_sec.toNat) :
    List.Forall₂ (RecordsOnly records) (segsOf isn (records.map itemOf)) (processAll w caps) := by
  have hok : ∀ it ∈ records.map itemOf, it.Ok := fun it hit => by
    obtain ⟨k, hk, rfl⟩ := List.mem_map.mp hit
    exact itemOf_ok (hcut k hk).1 (hcut k hk).2
  have hrun := single_handled htcp hxid c isn hok hframed htime
  exact ((List.forall₂_and_left _ _).mpr ⟨itemOf_out records isn, hrun⟩).imp fun s r hs => hs.2.recordsOnly hs.1

/-- A record of 16385 bytes of ones in two segments, whose second announces a record longer
    than any, and a reply behind it. -/
def onesRecord : Rec := ⟨true, List.replicate 4 0xff ++ List.replicate 16381 0xff⟩

def onesPieces : List (List UInt8) := [be32 (2 ^ 31 + 16385) ++ List.replicate 4 0xff, List.replicate 16381 0xff]

theorem onesRecord_length : onesRecord.body.length = 16385 := by
  simp only [onesRecord, List.length_append, List.length_replicate]

theorem ones_cut : Cut onesRecord onesPieces := by
  refine ⟨?_, fun p hp => ?_, by decide⟩
  · rw [Rec.bytes, Rec.mark, onesRecord_length]
    simp only [onesPieces, onesRecord, List.flatten_cons, List.flatten_nil, List.append_nil, List.append_assoc, if_true]
  · simp only [onesPieces, List.mem_cons, List.not_mem_nil, or_false] at hp
    rcases hp with rfl | rfl
    · decide
    · exact List.ne_nil_of_length_pos (by rw [List.length_replicate]; decide)

theorem ones_stray (c : Conn) (seq : UInt32) :
    StrayAt (tcpPacket 100 c seq (List.replicate 16381 0xff)) (UInt32.ofNat (14 + 20 + 20))
      (List.replicate 16381 (0xff : UInt8)).length := by
  have f := tcpPacket_frame 100 c seq (show (List.replicate 16381 (0xff : UInt8)).length < 65496 by
    rw [List.length_replicate]; decide)
  have hw := Ptr.word_of_holds (show Ptr.Holds _ (0xff :: 0xff :: 0xff :: 0xff :: List.replicate 16377 0xff) from f.payload)
  rw [Ptr.word_add, UInt32.add_zero] at hw
  refine ⟨by rw [List.length_replicate]; decide, Or.inl ?_⟩
  rw [hw, List.length_replicate]
  decide

theorem decoded_at_records_ones :
    List.Forall₂ (RecordsOnly [(onesRecord, onesPieces), (voidReply 7, [(voidReply 7).bytes])])
      (segsOf 0 ([(onesRecord, onesPieces), (voidReply 7, [(voidReply 7).bytes])].map itemOf))
      (processAll World.init (captures 100 ⟨1, 2, 3, 4⟩ 0 (onesPieces ++ [(voidReply 7).bytes]))) := by
  have hplan : segsOf 0 ([(onesRecord, onesPieces), (voidReply 7, [(voidReply 7).bytes])].map itemOf) =
      [⟨0, be32 (2 ^ 31 + 16385) ++ List.replicate 4 0xff, some []⟩, ⟨8, List.replicate 16381 0xff, none⟩,
        ⟨8 + UInt32.ofNat 16381, (voidReply 7).bytes, some [(voidReply 7).body]⟩] := by
    have hbig : itemOf (onesRecord, onesPieces) = .oversize onesRecord onesPieces := by
      unfold itemOf
      rw [onesRecord_length, if_neg (by decide)]
    rw [List.map_cons, hbig]
    simp only [segsOf, Item.segs, onesPieces, strays, Item.bytes, List.flatten_cons, List.flatten_nil, List.length_append,
      List.length_replicate, List.length_nil]
    rfl
  have hcaps : captures 100 ⟨1, 2, 3, 4⟩ 0 (onesPieces ++ [(voidReply 7).bytes]) =
      [⟨Indet.zero, tcpPacket 100 ⟨1, 2, 3, 4⟩ 0 (be32 (2 ^ 31 + 16385) ++ List.replicate 4 0xff), NfsPkt.zero⟩,
        ⟨Indet.zero, tcpPacket 100 ⟨1, 2, 3, 4⟩ 8 (List.replicate 16381 0xff), NfsPkt.zero⟩,
        ⟨Indet.zero, tcpPacket 100 ⟨1, 2, 3, 4⟩ (8 + UInt32.ofNat 16381) (voidReply 7).bytes, NfsPkt.zero⟩] := by
    simp only [onesPieces, List.cons_append, List.nil_append, captures, List.length_append, List.length_replicate]
    rfl
  have hones : (List.replicate 16381 (0xff : UInt8)).length = 16381 := List.length_replicate
  refine decoded_at_records tcp_init xidOk_init ⟨1, 2, 3, 4⟩ 0 _ (fun k hk => ?_) ?_ (fun k hk => ?_)
  · simp only [List.mem_cons, List.not_mem_nil, or_false] at hk
    rcases hk with rfl | rfl
    · exact ⟨ones_cut, by rw [onesRecord_length]; decide⟩
    · exact ⟨⟨by decide, by decide, by decide⟩, by decide⟩
  · rw [hplan, hcaps]
    refine .cons ⟨by decide, packetOf_fits .., 14, 20, 20, tcpPacket_frame 100 _ _ (by decide), by simp⟩
      (.cons ⟨List.ne_nil_of_length_pos (by rw [hones]; decide), packetOf_fits .., 14, 20, 20,
          tcpPacket_frame 100 _ _ (by rw [hones]; decide), fun _ => ones_stray _ _⟩
        (.cons ⟨by decide, packetOf_fits .., 14, 20, 20, tcpPacket_frame 100 _ _ (by decide), by simp⟩ .nil))
  · rw [hcaps] at hk
    simp only [List.mem_cons, List.not_mem_nil, or_false] at hk
    rcases hk with rfl | rfl | rfl <;> decide

/-- A record of 16385 bytes, 32 of which, in a segment of their own, look like a reply behind
    its mark: the reply is looked up and printed. -/
def oversizePieces : List (List UInt8) :=
  [be32 (2 ^ 31 + 16385) ++ List.replicate 8 0, (voidReply 7).bytes, List.replicate 16345 0]

def oversizeRecord : Rec := ⟨true, List.replicate 8 0 ++ (voidReply 7).bytes ++ List.replicate 16345 0⟩

theorem oversize_cut : Cut oversizeRecord oversizePieces := by
  have hlen : oversizeRecord.body.length = 16385 := by
    simp only [oversizeRecord, List.length_append, List.length_replicate, Rec.bytes_length, voidReply, List.length_cons,
      List.length_nil]
  refine ⟨?_, fun p hp => ?_, by decide⟩
  · rw [Rec.bytes, Rec.mark, hlen]
    simp only [oversizePieces, oversizeRecord, List.flatten_cons, List.flatten_nil, List.append_nil, List.append_assoc,
      if_true]
  · simp only [oversizePieces, List.mem_cons, List.not_mem_nil, or_false] at hp
    rcases hp with rfl | rfl | rfl
    · decide
    · decide
    · exact List.ne_nil_of_length_pos (by rw [List.length_replicate]; decide)

theorem oversize_decoded :
    ∃ (c : Conn) (records : List (Rec × List (List UInt8))) (caps : List Capture),
      (∀ k ∈ records, Cut k.1 k.2 ∧ k.1.body.length < 2 ^ 31) ∧ Carried c 0 (records.flatMap Prod.snd) caps ∧
        (∀ k ∈ caps, k.h.tv_sec = 100) ∧
        ¬ List.Forall₂ (RecordsOnly records) (segsOf 0 (records.map itemOf)) (processAll World.init caps) := by
  have hlen : oversizeRecord.body.length = 16385 := by
    simp only [oversizeRecord, List.length_append, List.length_replicate, Rec.bytes_length, voidReply, List.length_cons,
      List.length_nil]
  refine ⟨⟨1, 2, 3, 4⟩, [(oversizeRecord, oversizePieces)], captures 100 ⟨1, 2, 3, 4⟩ 0 oversizePieces, fun k hk => ?_,
    captures_carried 100 ⟨1, 2, 3, 4⟩ oversizePieces (fun p hp => ?_) 0, fun k hk => ?_, fun hall => ?_⟩
  · rw [List.mem_singleton.mp hk]
    exact ⟨oversize_cut, by rw [hlen]; decide⟩
  · refine ⟨oversize_cut.nonempty p hp, ?_⟩
    simp only [oversizePieces, List.mem_cons, List.not_mem_nil, or_false] at hp
    rcases hp with rfl | rfl | rfl
    · decide
    · decide
    · rw [List.length_replicate]; decide
  · simp only [oversizePieces, captures, List.mem_cons, List.not_mem_nil, or_false] at hk
    rcases hk with rfl | rfl | rfl <;> rfl
  · -- the second packet's events
    have h2 : ((processAll World.init (captures 100 ⟨1, 2, 3, 4⟩ 0 oversizePieces))[1]?).map
        (fun r => ((decoded r.events).isEmpty, handed r.events)) = some (false, [(voidReply 7).body]) := by decide +kernel
    obtain ⟨r, hr, he⟩ := Option.map_eq_some_iff.mp h2
    obtain ⟨hd, hh⟩ := Prod.mk.inj he
    obtain ⟨hlt, rfl⟩ := List.getElem?_eq_some_iff.mp hr
    obtain ⟨hlen', hget⟩ := List.forall₂_iff_get.mp hall
    rcases hget 1 (by rw [hlen']; exact hlt) hlt with h | ⟨k, hk, _, h⟩
    · rw [List.get_eq_getElem] at h
      rw [h] at hd; cases hd
    · rw [List.get_eq_getElem, hh, List.mem_singleton.mp hk] at h
      have := congrArg List.length (List.cons.inj h).1
      rw [hlen] at this
      exact absurd this (by decide)

end Nfsdump.Record
