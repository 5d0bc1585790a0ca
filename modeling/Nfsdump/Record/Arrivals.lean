/-
  Nfsdump.Record.Arrivals — runs in which every connection's segments arrive in order,
  interleaved in any way, and none too long after another connection's.

  `arrivals_handled`: each packet is handled as its connection's plan says. From it:
  - `connections_isolated`: whatever shares a hash bucket and wherever sequence numbers
    wrap, a message is handed on at the packet with its last byte, and not before.
  - `segmentation_framed`: one connection's messages are handed on one for one when each
    segment holds whole records or part of a single one. What else a cut can do is lost: the
    rest of a segment that completes a record is dropped (`segmentation_tail_lost`).
-/

import Nfsdump.Record.Plan
import Nfsdump.Record.Reassembly

namespace Nfsdump.Record

open ChainTable Wire

structure Arrival where
  conn : Conn
  seg : Seg
  packet : Capture

/-- The packet is the segment's frame, in memory that does not wrap. -/
def Arrival.Framed (a : Arrival) : Prop :=
  a.seg.payload ≠ [] ∧ a.packet.h.pp.Fits a.packet.h.caplen.toNat ∧
    ∃ e i t, TcpFrame a.packet.h a.conn a.seg.seq e i t a.seg.payload ∧
      (a.seg.out = none → StrayAt a.packet.h (UInt32.ofNat (e + i + t)) a.seg.payload.length)

/-- No packet is before second 30, or more than 30 seconds after another connection's. -/
def Timely (run : List Arrival) : Prop :=
  (∀ a ∈ run, 30 ≤ a.packet.h.tv_sec.toNat) ∧
    ∀ a ∈ run, ∀ b ∈ run, b.conn ≠ a.conn → b.packet.h.tv_sec.toNat ≤ a.packet.h.tv_sec.toNat + 30

/-- The segments of the run that are `c`'s. -/
def sentBy (c : Conn) (run : List Arrival) : List Seg := (run.filter fun a => a.conn = c).map Arrival.seg

theorem sentBy_self (a : Arrival) (run : List Arrival) : sentBy a.conn (a :: run) = a.seg :: sentBy a.conn run := by
  simp [sentBy]

theorem sentBy_other {c : Conn} {a : Arrival} (h : a.conn ≠ c) (run : List Arrival) : sentBy c (a :: run) = sentBy c run := by
  simp [sentBy, h]

/-- What a run needs of the state it starts in. -/
structure Ready (w : World) (L : List (Node TcpFragment)) (run : List Arrival) : Prop where
  tcp : Lists TcpTable.scheme w.tcp L
  xid : XidOk w
  plans : ∀ c, ∃ segs, Track L c segs ∧ sentBy c run <+: segs
  fresh : ∀ n ∈ L, ∀ b ∈ run, b.conn ≠ n.val.conn → b.packet.h.tv_sec.toNat ≤ n.val.time.toNat + 30

/-- One packet of the run: it is handled as planned, and the rest of the run finds what it
    needs. -/
theorem arrival_step {w : World} {L : List (Node TcpFragment)} {a : Arrival} {run : List Arrival} (hr : Ready w L (a :: run))
    (hf : a.Framed) (ht : Timely (a :: run)) :
    Outcome a.seg.out (processPacket a.packet.ind w a.packet.h a.packet.record) ∧
      (∃ rc, (processPacket a.packet.ind w a.packet.h a.packet.record).exit = .returned rc) ∧
      ∃ L', Ready (processPacket a.packet.ind w a.packet.h a.packet.record).world L' run := by
  obtain ⟨hne, hfit, e, i, t, hframe, hstray⟩ := hf
  obtain ⟨env, l, hcar, hconn, hseq, hrec, hcon⟩ := hframe.carries hne a.packet.record
  obtain ⟨segs, htrack, hpre⟩ := hr.plans a.conn
  rw [sentBy_self] at hpre
  obtain ⟨rest, rfl⟩ := hpre
  have d : Delivery w L a.conn a.seg a.packet.h a.packet.record env l :=
    ⟨hr.tcp, hr.xid, hcar, by rw [← hconn, ← hseq]; rfl, by rw [hrec]; rfl, ht.1 a (List.mem_cons_self ..),
      fun n hn hc => hr.fresh n hn a (List.mem_cons_self ..) fun e => hc e.symm, hfit⟩
  have m := track_step a.packet.ind d htrack fun hnone => by rw [hcon]; exact hstray hnone
  obtain ⟨L', hL', htr, hagree, hnew⟩ := m.tcp
  refine ⟨m.outcome, m.exit, L', hL', m.xid, fun c => ?_, fun n hn b hb hc => ?_⟩
  · by_cases hc : a.conn = c
    · subst hc
      exact ⟨_, htr, List.prefix_append _ _⟩
    · obtain ⟨segs', htr', hpre'⟩ := hr.plans c
      rw [sentBy_other hc] at hpre'
      exact ⟨segs', htr'.congr fun n hn => hagree n (by rw [hn]; exact fun e => hc e.symm), hpre'⟩
  · rcases hnew n hn with hn | ⟨hnc, htime⟩
    · exact hr.fresh n hn b (List.mem_cons_of_mem _ hb) hc
    · rw [hnc] at hc
      rw [htime]
      exact ht.2 a (List.mem_cons_self ..) b (List.mem_cons_of_mem _ hb) hc

theorem arrivals_handled (run : List Arrival) : ∀ {w : World} {L : List (Node TcpFragment)}, Ready w L run →
    (∀ a ∈ run, a.Framed) → Timely run →
    List.Forall₂ (fun a r => Outcome a.seg.out r) run (processAll w (run.map Arrival.packet)) := by
  induction run with
  | nil => intro w L _ _ _; exact .nil
  | cons a run ih =>
    intro w L hr hf ht
    obtain ⟨hout, ⟨rc, hexit⟩, L', hr'⟩ := arrival_step hr (hf a (List.mem_cons_self ..)) ht
    have htail : Timely run := ⟨fun b hb => ht.1 b (List.mem_cons_of_mem _ hb),
      fun b hb b' hb' => ht.2 b (List.mem_cons_of_mem _ hb) b' (List.mem_cons_of_mem _ hb')⟩
    have hcont : ¬ (processPacket a.packet.ind w a.packet.h a.packet.record).exit = .aborted := by rw [hexit]; nofun
    rw [List.map_cons, processAll]
    simp only [if_neg hcont]
    exact .cons hout (ih hr' (fun b hb => hf b (List.mem_cons_of_mem _ hb)) htail)

/-- A run from an empty table, the connections having these plans. -/
theorem ready_start {w : World} (htcp : Lists TcpTable.scheme w.tcp []) (hxid : XidOk w) (isn : Conn → UInt32)
    (plan : Conn → List Item) (hok : ∀ c, ∀ it ∈ plan c, it.Ok) (run : List Arrival)
    (hplan : ∀ c, sentBy c run <+: segsOf (isn c) (plan c)) : Ready w [] run :=
  ⟨htcp, hxid, fun c => ⟨_, .idle (isn c) (plan c) (hok c) nofun, hplan c⟩, nofun⟩

/-! ## What a run hands on -/

/-- The messages a segment completes. -/
def Seg.completes (s : Seg) : List (List UInt8) := s.out.getD []

theorem mem_sentBy {a : Arrival} {run : List Arrival} (h : a ∈ run) : a.seg ∈ sentBy a.conn run :=
  List.mem_map.mpr ⟨a, List.mem_filter.mpr ⟨h, by simp⟩, rfl⟩

theorem parts_out (body : List UInt8) (ps : List (List UInt8)) : ∀ (seq : UInt32), ∀ s ∈ parts seq body ps, s.out ≠ none := by
  induction ps with
  | nil => intro seq s hs; cases hs
  | cons p ps ih =>
    intro seq s hs
    cases ps with
    | nil => rw [List.mem_singleton.mp hs]; nofun
    | cons q ps =>
      rcases List.mem_cons.mp hs with rfl | hs
      · nofun
      · exact ih _ s hs

/-- Nothing is in a stray segment unless a record is above the limit. -/
theorem segsOf_out (items : List Item) (hno : ∀ it ∈ items, ∀ r ps, it ≠ .oversize r ps) : ∀ (seq : UInt32),
    ∀ s ∈ segsOf seq items, s.out ≠ none := by
  induction items with
  | nil => intro seq s hs; cases hs
  | cons it items ih =>
    intro seq s hs
    rcases List.mem_append.mp hs with hs | hs
    · cases it with
      | split r pieces => exact parts_out _ _ _ s hs
      | batch rs => rw [List.mem_singleton.mp hs]; nofun
      | oversize r pieces => exact absurd rfl (hno _ (List.mem_cons_self ..) r pieces)
    · exact ih (fun i hi => hno i (List.mem_cons_of_mem _ hi)) _ s hs

theorem handed_of_outcomes {segs : List Seg} {rs : List Result} (h : List.Forall₂ (fun s r => Outcome s.out r) segs rs)
    (hout : ∀ s ∈ segs, s.out ≠ none) : rs.map (fun r => handed r.events) = segs.map Seg.completes := by
  induction h with
  | nil => rfl
  | @cons s r segs rs hr _ ih =>
    rw [List.map_cons, List.map_cons, ih fun x hx => hout x (List.mem_cons_of_mem _ hx)]
    congr 1
    unfold Seg.completes
    cases ho : s.out with
    | none => exact absurd ho (hout s (List.mem_cons_self ..))
    | some msgs =>
      rw [ho] at hr
      exact hr.1

/-! ## Interleaved connections -/

/-- Every connection cuts its records into segments of its own, each record starting one
    that holds its mark; `run` interleaves them. A message is handed on at its last segment. -/
theorem connections_isolated {w : World} (htcp : Lists TcpTable.scheme w.tcp []) (hxid : XidOk w) (isn : Conn → UInt32)
    (cuts : Conn → List (Rec × List (List UInt8)))
    (hcut : ∀ c, ∀ k ∈ cuts c, Cut k.1 k.2 ∧ 1 ≤ k.1.body.length ∧ k.1.body.length ≤ 16384) (run : List Arrival)
    (hsent : ∀ c, sentBy c run <+: segsOf (isn c) ((cuts c).map fun k => .split k.1 k.2))
    (hframed : ∀ a ∈ run, a.Framed) (htimely : Timely run) :
    (processAll w (run.map Arrival.packet)).map (fun r => handed r.events) = run.map fun a => a.seg.completes := by
  have hok : ∀ c, ∀ it ∈ (cuts c).map fun k => Item.split k.1 k.2, it.Ok := fun c it hit => by
    obtain ⟨k, hk, rfl⟩ := List.mem_map.mp hit
    obtain ⟨h1, _, h3⟩ := hcut c k hk
    exact ⟨h1, Or.inl h3⟩
  have hready := ready_start htcp hxid isn (fun c => (cuts c).map fun k => .split k.1 k.2) hok run hsent
  have hrun : List.Forall₂ (fun (s : Seg) r => Outcome s.out r) (run.map Arrival.seg) (processAll w (run.map Arrival.packet)) :=
    List.forall₂_map_left_iff.mpr (arrivals_handled run hready hframed htimely)
  rw [handed_of_outcomes hrun fun s hs => ?_, List.map_map]
  · rfl
  obtain ⟨a, ha, rfl⟩ := List.mem_map.mp hs
  refine segsOf_out _ (fun it hit r ps e => ?_) _ a.seg ((hsent a.conn).subset (mem_sentBy ha))
  obtain ⟨k, _, hk⟩ := List.mem_map.mp hit
  rw [e] at hk; cases hk

/-! ## One connection, cut anyhow -/

/-- Consecutive segments of a connection, each in a frame of its own. -/
def Carried (c : Conn) : UInt32 → List (List UInt8) → List Capture → Prop
  | _, [], [] => True
  | seq, p :: ps, k :: ks =>
    p ≠ [] ∧ (∃ e i t, TcpFrame k.h c seq e i t p) ∧ k.h.pp.Fits k.h.caplen.toNat ∧
      Carried c (seq + UInt32.ofNat p.length) ps ks
  | _, _, _ => False

/-- A cut in which each segment holds whole records or part of a single one, the first part
    the whole mark. -/
inductive Framing : List Rec → List (List UInt8) → Prop
  | nil : Framing [] []
  | whole (rs : List Rec) {ms : List Rec} {segs : List (List UInt8)} : Framing ms segs →
      Framing (rs ++ ms) (joined rs :: segs)
  | cut (r : Rec) (pieces : List (List UInt8)) {ms : List Rec} {segs : List (List UInt8)} : Cut r pieces →
      Framing ms segs → Framing (r :: ms) (pieces ++ segs)

def Item.payloads : Item → List (List UInt8)
  | .split _ pieces => pieces
  | .batch rs => [joined rs]
  | .oversize _ pieces => pieces

/-- Such a cut is a plan. -/
theorem Framing.items {ms : List Rec} {segs : List (List UInt8)} (h : Framing ms segs)
    (hms : ∀ r ∈ ms, r.body.length ≤ 16384 ∧ Accepted 8 r.body) :
    ∃ items : List Item, (∀ it ∈ items, it.Ok) ∧ (∀ it ∈ items, ∀ r ps, it ≠ .oversize r ps) ∧
      items.flatMap Item.payloads = segs ∧ items.flatMap Item.messages = ms.map Rec.body := by
  induction h with
  | nil => exact ⟨[], nofun, nofun, rfl, rfl⟩
  | @whole rs ms segs _ ih =>
    obtain ⟨items, hok, hno, hp, hm⟩ := ih fun r hr => hms r (List.mem_append_right _ hr)
    refine ⟨.batch rs :: items, fun it hit => ?_, fun it hit => ?_, ?_, ?_⟩
    · rcases List.mem_cons.mp hit with rfl | hit
      · exact fun r hr => (hms r (List.mem_append_left _ hr)).2
      · exact hok it hit
    · rcases List.mem_cons.mp hit with rfl | hit
      · nofun
      · exact hno it hit
    · rw [List.flatMap_cons, hp]; rfl
    · rw [List.flatMap_cons, hm, List.map_append]; rfl
  | @cut r pieces ms segs hcut _ ih =>
    obtain ⟨items, hok, hno, hp, hm⟩ := ih fun r hr => hms r (List.mem_cons_of_mem _ hr)
    refine ⟨.split r pieces :: items, fun it hit => ?_, fun it hit => ?_, ?_, ?_⟩
    · rcases List.mem_cons.mp hit with rfl | hit
      · exact ⟨hcut, Or.inl (hms r (List.mem_cons_self ..)).1⟩
      · exact hok it hit
    · rcases List.mem_cons.mp hit with rfl | hit
      · nofun
      · exact hno it hit
    · rw [List.flatMap_cons, hp]; rfl
    · rw [List.flatMap_cons, hm]; rfl

/-- The segments are consecutive from `seq` on. -/
def Chained : UInt32 → List Seg → Prop
  | _, [] => True
  | seq, s :: ss => s.seq = seq ∧ Chained (seq + UInt32.ofNat s.payload.length) ss

/-- A plan's segments: their payloads, and that they follow one another. -/
def Lays (seq : UInt32) (segs : List Seg) (payloads : List (List UInt8)) : Prop :=
  segs.map Seg.payload = payloads ∧ Chained seq segs

theorem Lays.cons {s : Seg} {segs : List Seg} {payloads : List (List UInt8)}
    (h : Lays (s.seq + UInt32.ofNat s.payload.length) segs payloads) : Lays s.seq (s :: segs) (s.payload :: payloads) :=
  ⟨by rw [List.map_cons, h.1], rfl, h.2⟩

theorem Lays.append (ps : List (List UInt8)) : ∀ {seq : UInt32} {ss ts : List Seg} {qs : List (List UInt8)}, Lays seq ss ps →
    Lays (seq + UInt32.ofNat ps.flatten.length) ts qs → Lays seq (ss ++ ts) (ps ++ qs) := by
  induction ps with
  | nil =>
    rintro seq ss ts qs ⟨h, _⟩ ht
    rw [List.map_eq_nil_iff.mp h]
    rwa [List.flatten_nil, List.length_nil, show seq + UInt32.ofNat 0 = seq from UInt32.add_zero seq] at ht
  | cons p ps ih =>
    rintro seq ss ts qs ⟨h, hc⟩ ht
    cases ss with
    | nil => cases h
    | cons s ss =>
      obtain ⟨rfl, rfl⟩ := List.cons.inj h
      obtain ⟨rfl, hc⟩ := hc
      rw [seq_flatten] at ht
      exact Lays.cons (ih ⟨rfl, hc⟩ ht)

theorem parts_lays (body : List UInt8) (ps : List (List UInt8)) : ∀ seq, Lays seq (parts seq body ps) ps := by
  induction ps with
  | nil => intro seq; exact ⟨rfl, trivial⟩
  | cons p ps ih =>
    intro seq
    cases ps with
    | nil => exact ⟨rfl, rfl, trivial⟩
    | cons q ps => exact Lays.cons (s := ⟨seq, p, some []⟩) (ih _)

theorem strays_lays (ps : List (List UInt8)) : ∀ seq, Lays seq (strays seq ps) ps := by
  induction ps with
  | nil => intro seq; exact ⟨rfl, trivial⟩
  | cons p ps ih => intro seq; exact Lays.cons (s := ⟨seq, p, none⟩) (ih _)

theorem segsOf_lays (items : List Item) : ∀ seq, Lays seq (segsOf seq items) (items.flatMap Item.payloads) := by
  induction items with
  | nil => intro seq; exact ⟨rfl, trivial⟩
  | cons it items ih =>
    intro seq
    rw [List.flatMap_cons]
    refine Lays.append it.payloads ?_ ?_
    · cases it with
      | split r pieces => exact parts_lays _ _ _
      | batch rs => exact ⟨rfl, rfl, trivial⟩
      | oversize r pieces =>
        cases pieces with
        | nil => exact ⟨rfl, trivial⟩
        | cons p ps => exact Lays.cons (s := ⟨seq, p, some []⟩) (strays_lays ps _)
    · have hb : it.payloads.flatten = it.bytes := by
        cases it with
        | split r pieces => rfl
        | batch rs => exact List.flatten_singleton ..
        | oversize r pieces => rfl
      rw [hb]
      exact ih _

theorem parts_completes (body : List UInt8) (ps : List (List UInt8)) : ∀ seq, ps ≠ [] →
    (parts seq body ps).flatMap Seg.completes = [body] := by
  induction ps with
  | nil => intro seq h; exact absurd rfl h
  | cons p ps ih =>
    intro seq _
    cases ps with
    | nil => rfl
    | cons q ps =>
      show [] ++ _ = _
      exact ih _ nofun

theorem Cut.pieces_ne_nil {r : Rec} {pieces : List (List UInt8)} (h : Cut r pieces) : pieces ≠ [] := fun e => by
  have := congrArg List.length h.whole
  rw [e, Rec.bytes_length, List.flatten_nil, List.length_nil] at this
  omega

theorem segsOf_completes (items : List Item) (hok : ∀ it ∈ items, it.Ok) (hno : ∀ it ∈ items, ∀ r ps, it ≠ .oversize r ps) :
    ∀ seq, (segsOf seq items).flatMap Seg.completes = items.flatMap Item.messages := by
  induction items with
  | nil => intro seq; rfl
  | cons it items ih =>
    intro seq
    rw [segsOf, List.flatMap_append, List.flatMap_cons, ih (fun i hi => hok i (List.mem_cons_of_mem _ hi))
      (fun i hi => hno i (List.mem_cons_of_mem _ hi))]
    congr 1
    cases it with
    | split r pieces => exact parts_completes _ _ _ (hok _ (List.mem_cons_self ..)).1.pieces_ne_nil
    | batch rs => exact List.append_nil _
    | oversize r pieces => exact absurd rfl (hno _ (List.mem_cons_self ..) r pieces)

/-- The captures of one connection as a run. -/
theorem single_run {c : Conn} {segs : List Seg} {caps : List Capture}
    (h : List.Forall₂ (fun s k => Arrival.Framed ⟨c, s, k⟩) segs caps) :
    ∃ run : List Arrival, run.map Arrival.packet = caps ∧ run.map Arrival.seg = segs ∧ ∀ a ∈ run, a.conn = c ∧ a.Framed := by
  induction h with
  | nil => exact ⟨[], rfl, rfl, nofun⟩
  | @cons s k segs caps hf _ ih =>
    obtain ⟨run, h1, h2, h3⟩ := ih
    refine ⟨⟨c, s, k⟩ :: run, by rw [List.map_cons, h1], by rw [List.map_cons, h2], fun a ha => ?_⟩
    rcases List.mem_cons.mp ha with rfl | ha
    · exact ⟨rfl, hf⟩
    · exact h3 a ha

theorem Carried.framed {c : Conn} (caps : List Capture) : ∀ {seq : UInt32} {segs : List Seg} {payloads : List (List UInt8)},
    Lays seq segs payloads → (∀ s ∈ segs, s.out ≠ none) → Carried c seq payloads caps →
    List.Forall₂ (fun s k => Arrival.Framed ⟨c, s, k⟩) segs caps := by
  induction caps with
  | nil =>
    rintro seq segs payloads ⟨hp, _⟩ _ hc
    cases payloads with
    | nil => rw [List.map_eq_nil_iff.mp hp]; exact .nil
    | cons p ps => exact hc.elim
  | cons k caps ih =>
    rintro seq segs payloads ⟨hp, hch⟩ hout hc
    cases payloads with
    | nil => exact hc.elim
    | cons p ps =>
      cases segs with
      | nil => cases hp
      | cons s segs =>
        obtain ⟨rfl, rfl⟩ := List.cons.inj hp
        obtain ⟨rfl, hch⟩ := hch
        obtain ⟨hne, ⟨e, i, t, hf⟩, hfit, hc⟩ := hc
        exact .cons ⟨hne, hfit, e, i, t, hf, fun hnone => absurd hnone (hout s (List.mem_cons_self ..))⟩
          (ih ⟨rfl, hch⟩ (fun x hx => hout x (List.mem_cons_of_mem _ hx)) hc)

/-- A run of one connection: its packets are handled as planned, whatever the times from
    second 30 on. -/
theorem single_handled {w : World} (htcp : Lists TcpTable.scheme w.tcp []) (hxid : XidOk w) (c : Conn) (isn : UInt32)
    {items : List Item} (hok : ∀ it ∈ items, it.Ok) {caps : List Capture}
    (hframed : List.Forall₂ (fun s k => Arrival.Framed ⟨c, s, k⟩) (segsOf isn items) caps)
    (htime : ∀ k ∈ caps, 30 ≤ k.h.tv_sec.toNat) :
    List.Forall₂ (fun s r => Outcome s.out r) (segsOf isn items) (processAll w caps) := by
  obtain ⟨run, rfl, hseg, hall⟩ := single_run hframed
  have hself : sentBy c run = segsOf isn items := by
    unfold sentBy
    rw [List.filter_eq_self.mpr fun a ha => by simpa using (hall a ha).1, hseg]
  have hready : Ready w [] run := by
    refine ready_start htcp hxid (fun _ => isn) (fun c' => if c' = c then items else []) (fun c' it hit => ?_) run fun c' => ?_
    · by_cases hc : c' = c
      · rw [if_pos hc] at hit; exact hok it hit
      · rw [if_neg hc] at hit; cases hit
    · by_cases hc : c' = c
      · rw [if_pos hc, hc, hself]
      · have hnone : sentBy c' run = [] := by
          unfold sentBy
          rw [List.filter_eq_nil_iff.mpr fun a ha => by simpa [(hall a ha).1] using fun e => hc e.symm]; rfl
        rw [hnone]
        exact List.nil_prefix
  have htimely : Timely run := ⟨fun a ha => htime _ (List.mem_map_of_mem ha), fun a ha b hb hne =>
    absurd ((hall b hb).1.trans (hall a ha).1.symm) hne⟩
  rw [← hseg]
  exact List.forall₂_map_left_iff.mpr (arrivals_handled run hready (fun a ha => (hall a ha).2) htimely)

/-- One connection's accepted messages, cut so that each segment holds whole records or part
    of one, are handed on one for one. -/
theorem segmentation_framed {w : World} (htcp : Lists TcpTable.scheme w.tcp []) (hxid : XidOk w) (c : Conn) (isn : UInt32)
    {ms : List Rec} {segs : List (List UInt8)} (hms : ∀ r ∈ ms, r.body.length ≤ 16384 ∧ Accepted 8 r.body)
    (hcut : Framing ms segs) {caps : List Capture} (hcaps : Carried c isn segs caps)
    (htime : ∀ k ∈ caps, 30 ≤ k.h.tv_sec.toNat) :
    (processAll w caps).flatMap (fun r => handed r.events) = ms.map Rec.body := by
  obtain ⟨items, hok, hno, rfl, hm⟩ := hcut.items hms
  have hout := segsOf_out items hno isn
  have hrun := single_handled htcp hxid c isn hok (Carried.framed caps (segsOf_lays items isn) hout hcaps) htime
  rw [List.flatMap_def, handed_of_outcomes hrun hout, ← List.flatMap_def, ← hm, segsOf_completes items hok hno isn]

/-! ## Runs there are -/

/-- The segments in frames without options, all captured at `tv_sec`. -/
def captures (tv_sec : UInt32) (c : Conn) : UInt32 → List (List UInt8) → List Capture
  | _, [] => []
  | seq, p :: ps => ⟨Indet.zero, tcpPacket tv_sec c seq p, NfsPkt.zero⟩ :: captures tv_sec c (seq + UInt32.ofNat p.length) ps

theorem captures_carried (tv_sec : UInt32) (c : Conn) (ps : List (List UInt8)) (h : ∀ p ∈ ps, p ≠ [] ∧ p.length < 65496) :
    ∀ seq, Carried c seq ps (captures tv_sec c seq ps) := by
  induction ps with
  | nil => intro seq; trivial
  | cons p ps ih =>
    intro seq
    obtain ⟨hne, hlen⟩ := h p (List.mem_cons_self ..)
    exact ⟨hne, ⟨14, 20, 20, tcpPacket_frame tv_sec c seq hlen⟩, packetOf_fits ..,
      ih (fun q hq => h q (List.mem_cons_of_mem _ hq)) _⟩

/-- An accepted reply without results beyond its two status words. -/
def voidReply (xid : UInt8) : Rec := ⟨true, [0, 0, 0, xid, 0, 0, 0, 1] ++ List.replicate 20 0⟩

/-- Three replies, the first cut in two, the others in one segment. -/
theorem segmentation_framed_three :
    (processAll World.init (captures 100 ⟨1, 2, 3, 4⟩ 0 [(voidReply 7).bytes.take 10, (voidReply 7).bytes.drop 10,
        joined [voidReply 8, voidReply 9]])).flatMap (fun r => handed r.events) =
      [(voidReply 7).body, (voidReply 8).body, (voidReply 9).body] :=
  segmentation_framed tcp_init xidOk_init ⟨1, 2, 3, 4⟩ 0
    (show ∀ r ∈ [voidReply 7, voidReply 8, voidReply 9], r.body.length ≤ 16384 ∧ Accepted 8 r.body by decide)
    (.cut (voidReply 7) [(voidReply 7).bytes.take 10, (voidReply 7).bytes.drop 10]
      ⟨by decide, by decide, by decide⟩ (.whole [voidReply 8, voidReply 9] .nil))
    (captures_carried 100 ⟨1, 2, 3, 4⟩ _ (by decide) 0) (by decide)

/-- Two replies in two segments, the second reply behind the end of the first: it is dropped
    with the rest of the segment that completes the first. -/
theorem segmentation_tail_lost :
    ∃ (c : Conn) (ms : List Rec) (segs : List (List UInt8)) (caps : List Capture),
      (∀ r ∈ ms, r.body.length ≤ 16384 ∧ Accepted 8 r.body) ∧ segs.flatten = joined ms ∧ Carried c 0 segs caps ∧
        (∀ k ∈ caps, k.h.tv_sec = 100) ∧
        (processAll World.init caps).flatMap (fun r => handed r.events) ≠ ms.map Rec.body := by
  refine ⟨⟨1, 2, 3, 4⟩, [voidReply 7, voidReply 8],
    [(voidReply 7).bytes.take 10, (voidReply 7).bytes.drop 10 ++ (voidReply 8).bytes], _, by decide, by decide,
    captures_carried 100 ⟨1, 2, 3, 4⟩ _ (by decide) 0, by decide, ?_⟩
  have h : (processAll World.init (captures 100 ⟨1, 2, 3, 4⟩ 0 [(voidReply 7).bytes.take 10,
      (voidReply 7).bytes.drop 10 ++ (voidReply 8).bytes])).flatMap (fun r => handed r.events) =
      [(voidReply 7).body] := by decide +kernel
  rw [h]
  decide

/-- Two connections, their replies cut in two and the pieces taking turns. -/
theorem connections_isolated_two :
    (processAll World.init [⟨Indet.zero, tcpPacket 100 ⟨1, 2, 3, 4⟩ 0 ((voidReply 7).bytes.take 10), NfsPkt.zero⟩,
        ⟨Indet.zero, tcpPacket 110 ⟨5, 6, 3, 4⟩ 0 ((voidReply 8).bytes.take 10), NfsPkt.zero⟩,
        ⟨Indet.zero, tcpPacket 120 ⟨1, 2, 3, 4⟩ 10 ((voidReply 7).bytes.drop 10), NfsPkt.zero⟩,
        ⟨Indet.zero, tcpPacket 130 ⟨5, 6, 3, 4⟩ 10 ((voidReply 8).bytes.drop 10), NfsPkt.zero⟩]).map
      (fun r => handed r.events) = [[], [], [(voidReply 7).body], [(voidReply 8).body]] := by
  have framed : ∀ (c : Conn) (tv_sec seq : UInt32) (p : List UInt8) (out : Option (List (List UInt8))),
      p ≠ [] ∧ p.length < 65496 → out ≠ none →
      Arrival.Framed ⟨c, ⟨seq, p, out⟩, ⟨Indet.zero, tcpPacket tv_sec c seq p, NfsPkt.zero⟩⟩ :=
    fun c tv_sec seq p out hp ho => by
      obtain ⟨_, _, hfit, _⟩ := captures_carried tv_sec c [p] (fun q hq => by rw [List.mem_singleton.mp hq]; exact hp) seq
      exact ⟨hp.1, hfit, 14, 20, 20, tcpPacket_frame tv_sec c seq hp.2, fun h => absurd h ho⟩
  refine connections_isolated tcp_init xidOk_init (fun _ => 0)
    (fun c => if c = ⟨1, 2, 3, 4⟩ then [(voidReply 7, [(voidReply 7).bytes.take 10, (voidReply 7).bytes.drop 10])]
      else if c = ⟨5, 6, 3, 4⟩ then [(voidReply 8, [(voidReply 8).bytes.take 10, (voidReply 8).bytes.drop 10])] else [])
    ?_ [⟨⟨1, 2, 3, 4⟩, ⟨0, (voidReply 7).bytes.take 10, some []⟩, _⟩,
      ⟨⟨5, 6, 3, 4⟩, ⟨0, (voidReply 8).bytes.take 10, some []⟩, _⟩,
      ⟨⟨1, 2, 3, 4⟩, ⟨10, (voidReply 7).bytes.drop 10, some [(voidReply 7).body]⟩, _⟩,
      ⟨⟨5, 6, 3, 4⟩, ⟨10, (voidReply 8).bytes.drop 10, some [(voidReply 8).body]⟩, _⟩] ?_ ?_ ?_
  · intro c k hk
    split at hk
    · rw [List.mem_singleton.mp hk]
      exact ⟨⟨by decide, by decide, by decide⟩, by decide, by decide⟩
    split at hk
    · rw [List.mem_singleton.mp hk]
      exact ⟨⟨by decide, by decide, by decide⟩, by decide, by decide⟩
    · cases hk
  · intro c
    by_cases h1 : c = ⟨1, 2, 3, 4⟩
    · rw [h1]; exact List.prefix_rfl
    · by_cases h2 : c = ⟨5, 6, 3, 4⟩
      · rw [h2]; exact List.prefix_rfl
      · have e1 : ¬ (⟨1, 2, 3, 4⟩ : Conn) = c := fun e => h1 e.symm
        have e2 : ¬ (⟨5, 6, 3, 4⟩ : Conn) = c := fun e => h2 e.symm
        rw [sentBy_other e1, sentBy_other e2, sentBy_other e1, sentBy_other e2]
        exact List.nil_prefix
  · intro a ha
    simp only [List.mem_cons, List.not_mem_nil, or_false] at ha
    rcases ha with rfl | rfl | rfl | rfl
    · exact framed _ _ _ _ _ (by decide) nofun
    · exact framed _ _ _ _ _ (by decide) nofun
    · exact framed _ _ _ _ _ (by decide) nofun
    · exact framed _ _ _ _ _ (by decide) nofun
  · refine ⟨by decide, by decide⟩

end Nfsdump.Record
