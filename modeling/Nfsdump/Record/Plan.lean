/-
  Nfsdump.Record.Plan — connections whose segments arrive in order.

  What a connection sends is a list of items: a record cut into segments, some whole records
  in one segment, or a record above the size limit cut into segments. Each item's segments
  say what is to become of them. `Track L c segs`: when the fragments `L` wait, the segments
  that `c` has still to send are `segs`. `track_step` is the simulation: a segment is
  handled as its plan says, and the other connections' fragments stay as they are.
-/

import Nfsdump.Record.Batch

namespace Nfsdump.Record

open ChainTable Wire

/-! ## Plans -/

/-- A segment and what becomes of it: the messages it completes are handed on, or (`none`)
    nothing in it is decoded. -/
structure Seg where
  seq : UInt32
  payload : List UInt8
  out : Option (List (List UInt8))

inductive Item where
  /-- A record in one segment or several. -/
  | split (r : Rec) (pieces : List (List UInt8))
  /-- Whole records in one segment. -/
  | batch (rs : List Rec)
  /-- A record above the size limit, in more than one segment. -/
  | oversize (r : Rec) (pieces : List (List UInt8))

/-- The pieces of a record, the last of which completes it. -/
def parts (seq : UInt32) (body : List UInt8) : List (List UInt8) → List Seg
  | [] => []
  | [p] => [⟨seq, p, some [body]⟩]
  | p :: q :: ps => ⟨seq, p, some []⟩ :: parts (seq + UInt32.ofNat p.length) body (q :: ps)

/-- Pieces of a rejected record. -/
def strays (seq : UInt32) : List (List UInt8) → List Seg
  | [] => []
  | p :: ps => ⟨seq, p, none⟩ :: strays (seq + UInt32.ofNat p.length) ps

def Item.segs (seq : UInt32) : Item → List Seg
  | .split r pieces => parts seq r.body pieces
  | .batch rs => [⟨seq, joined rs, some (rs.map Rec.body)⟩]
  | .oversize _ [] => []
  | .oversize _ (p :: ps) => ⟨seq, p, some []⟩ :: strays (seq + UInt32.ofNat p.length) ps

def Item.bytes : Item → List UInt8
  | .split _ pieces => pieces.flatten
  | .batch rs => joined rs
  | .oversize _ pieces => pieces.flatten

/-- The segments of a connection that is at sequence number `seq`. -/
def segsOf (seq : UInt32) : List Item → List Seg
  | [] => []
  | it :: items => it.segs seq ++ segsOf (seq + UInt32.ofNat it.bytes.length) items

/-- The pieces make up the record; the first holds its whole mark. -/
structure Cut (r : Rec) (pieces : List (List UInt8)) : Prop where
  whole : pieces.flatten = r.bytes
  nonempty : ∀ p ∈ pieces, p ≠ []
  mark : ∀ p ∈ pieces.head?, 4 ≤ p.length

def Item.Ok : Item → Prop
  | .split r pieces => Cut r pieces ∧ (r.body.length ≤ 16384 ∨ pieces.length = 1)
  | .batch rs => ∀ r ∈ rs, Accepted 8 r.body
  | .oversize r pieces => Cut r pieces ∧ 2 ≤ pieces.length ∧ 16384 < r.body.length ∧ r.body.length < 2 ^ 31

/-- The messages of a plan. -/
def Item.messages : Item → List (List UInt8)
  | .split r _ => [r.body]
  | .batch rs => rs.map Rec.body
  | .oversize _ _ => []

/-! ## The front of a record -/

theorem Rec.front {r : Rec} {p rest : List UInt8} (h : p ++ rest = r.bytes) (h4 : 4 ≤ p.length) :
    p = r.mark ++ p.drop 4 ∧ r.body = p.drop 4 ++ rest := by
  have hp : p = p.take 4 ++ p.drop 4 := (List.take_append_drop 4 p).symm
  rw [Rec.bytes, hp, List.append_assoc] at h
  have hlen : (p.take 4).length = r.mark.length := by
    rw [List.length_take, Nat.min_eq_left h4]; rfl
  obtain ⟨hm, hb⟩ := List.append_inj h hlen
  exact ⟨by rw [← hm]; exact hp, hb.symm⟩

/-- A segment that starts a record announces its length. -/
theorem announced_front {l : Locals} {r : Rec} {p rest : List UInt8} (hp : l.rpc_b.Holds p) (h : p ++ rest = r.bytes)
    (h4 : 4 ≤ p.length) (hlen : r.body.length < 2 ^ 31) : l.announced.toNat = r.body.length := by
  obtain ⟨hfront, _⟩ := r.front h h4
  rw [hfront] at hp
  have := Rec.mark_word hp hlen
  rw [Locals.rpc_b, Ptr.word_add, UInt32.add_zero] at this
  rw [Locals.announced, this, toNat_ofNat_lt (by omega)]

/-! ## Where a connection is in its plan -/

inductive Track (L : List (Node TcpFragment)) (c : Conn) : List Seg → Prop
  /-- Between records. -/
  | idle (seq : UInt32) (items : List Item) : (∀ it ∈ items, it.Ok) → (∀ n ∈ L, n.val.conn ≠ c) →
      Track L c (segsOf seq items)
  /-- In a record: node `n` has what was sent of it. -/
  | busy (seq : UInt32) (body got : List UInt8) (ps : List (List UInt8)) (items : List Item) (n : Node TcpFragment) :
      n ∈ L → (∀ m ∈ L, m.val.conn = c → m = n) → Pending n.val (c.key seq) body.length got →
      got ++ ps.flatten = body → (∀ p ∈ ps, p ≠ []) → (∀ it ∈ items, it.Ok) →
      Track L c (parts seq body ps ++ segsOf (seq + UInt32.ofNat ps.flatten.length) items)
  /-- In a record that was rejected. -/
  | rejected (seq : UInt32) (ps : List (List UInt8)) (items : List Item) : (∀ n ∈ L, n.val.conn ≠ c) →
      (∀ it ∈ items, it.Ok) → Track L c (strays seq ps ++ segsOf (seq + UInt32.ofNat ps.flatten.length) items)

variable {ind : Indet} {w : World} {h : Packet} {record : NfsPkt} {L L' : List (Node TcpFragment)} {c : Conn}
variable {env : Env} {l : Locals} {seg : Seg} {segs : List Seg}

/-- A connection's place depends on its own nodes only. -/
theorem Track.congr (h : Track L c segs) (hL : ∀ n, n.val.conn = c → (n ∈ L' ↔ n ∈ L)) : Track L' c segs := by
  cases h with
  | idle seq items hok hno => exact .idle seq items hok fun n hn e => hno n ((hL n e).mp hn) e
  | busy seq body got ps items n hn huniq hp hbody hne hok =>
    exact .busy seq body got ps items n ((hL n hp.conn).mpr hn) (fun m hm e => huniq m ((hL m e).mp hm) e) hp hbody hne hok
  | rejected seq ps items hno hok => exact .rejected seq ps items (fun n hn e => hno n ((hL n e).mp hn) e) hok

/-- Nothing waits for a connection's segment when no node is the connection's. -/
theorem lookup_idle (hL : Lists TcpTable.scheme w.tcp L) (hno : ∀ n ∈ L, n.val.conn ≠ c) (seq : UInt32) :
    (lookup TcpTable.scheme w.tcp (c.key seq)).1 = none := by
  rw [(lookup_lists hL (c.key seq)).1, List.find?_eq_none]
  intro n hn he
  exact hno n hn (conn_of_key (by simpa using he))

theorem find_busy {n : Node TcpFragment} (hn : n ∈ L) (huniq : ∀ m ∈ L, m.val.conn = c → m = n) {seq : UInt32}
    (hk : TcpTable.scheme.key n.val = c.key seq) :
    L.find? (fun m => TcpTable.scheme.key m.val = c.key seq) = some n := by
  have hsome : (L.find? fun m => TcpTable.scheme.key m.val = c.key seq).isSome = true := by
    rw [List.find?_isSome]; exact ⟨n, hn, by simpa using hk⟩
  obtain ⟨m, hm⟩ := Option.isSome_iff_exists.mp hsome
  have hconn : m.val.conn = c := conn_of_key (by simpa using List.find?_some hm)
  rw [hm, huniq m (List.mem_of_find?_eq_some hm) hconn]

/-! ## Nothing is culled in time -/

theorem not_stale {now : UInt32} (h30 : 30 ≤ now.toNat) (f : TcpFragment) (h : now.toNat ≤ f.time.toNat + 30) :
    staleFragment now f = false := by
  have hle : MAX_AGE ≤ now := UInt32.le_iff_toNat_le.mpr h30
  have hmax : MAX_AGE.toNat = 30 := rfl
  unfold staleFragment
  rw [decide_eq_false_iff_not, UInt32.lt_iff_toNat_lt, UInt32.toNat_sub_of_le _ _ hle]
  omega

theorem waiting_fresh {t : TcpTable} {f : TcpFragment} (h30 : 30 ≤ f.time.toNat)
    (hL : ∀ n ∈ L, f.time.toNat ≤ n.val.time.toNat + 30) : waiting t L f = ⟨t.next, f⟩ :: L := by
  unfold waiting
  refine sweep_none _ _ _ _ fun n hn => ?_
  unfold due
  rw [Bool.and_eq_false_iff]
  refine Or.inr (not_stale h30 _ ?_)
  rcases List.mem_cons.mp hn with rfl | hn
  · exact Nat.le_add_right _ _
  · exact hL n hn

/-! ## One segment -/

/-- Segment `seg` of connection `c` arrives in time, with the fragments `L` waiting. -/
structure Delivery (w : World) (L : List (Node TcpFragment)) (c : Conn) (seg : Seg) (h : Packet) (record : NfsPkt)
    (env : Env) (l : Locals) : Prop where
  tcp : Lists TcpTable.scheme w.tcp L
  xid : XidOk w
  carries : Carries h record env l seg.payload
  key : env.key = c.key seg.seq
  secs : l.record.secs = h.tv_sec
  late : 30 ≤ h.tv_sec.toNat
  fresh : ∀ n ∈ L, n.val.conn ≠ c → h.tv_sec.toNat ≤ n.val.time.toNat + 30
  fits : h.pp.Fits h.caplen.toNat

theorem Delivery.conn (d : Delivery w L c seg h record env l) : env.conn = c ∧ env.th_seq = seg.seq :=
  ⟨congrArg (fun k : TcpKey => (⟨k.srcHost, k.srcPort, k.dstHost, k.dstPort⟩ : Conn)) d.key,
    congrArg TcpKey.nextSeq d.key⟩

theorem Delivery.idle (d : Delivery w L c seg h record env l) (hno : ∀ n ∈ L, n.val.conn ≠ c) :
    (lookup TcpTable.scheme w.tcp env.key).1 = none := by
  rw [d.key]; exact lookup_idle d.tcp hno seg.seq

theorem Delivery.sole (ind : Indet) (d : Delivery w L c seg h record env l) (hno : ∀ n ∈ L, n.val.conn ≠ c) {r : Rec}
    (hr : seg.payload = r.bytes) : Processed (processPacket ind w h record) [r.body] [] L := by
  have a := d.carries.atSegment
  have hsize := a.fits.2
  have hlen : seg.payload.length = 4 + r.body.length := by rw [hr, Rec.bytes_length]
  have hfront : seg.payload ++ [] = r.bytes := by rw [List.append_nil, hr]
  have h4 : 4 ≤ seg.payload.length := by omega
  have hann := announced_front a.holds hfront h4 (by omega)
  have hp := packet_sole ind d.carries.parsed a h4 d.tcp d.xid (d.idle hno) (by rw [hann]; omega)
  rwa [← List.append_nil (seg.payload.drop 4), ← (r.front hfront h4).2] at hp

theorem Delivery.first (ind : Indet) (d : Delivery w L c seg h record env l) (hno : ∀ n ∈ L, n.val.conn ≠ c) {r : Rec}
    {rest : List UInt8} (hr : seg.payload ++ rest = r.bytes) (h4 : 4 ≤ seg.payload.length) (hrest : rest ≠ [])
    (hsmall : r.body.length ≤ 16384) :
    ∃ f cs, Pending f (c.key (seg.seq + UInt32.ofNat seg.payload.length)) r.body.length (seg.payload.drop 4) ∧
      f.time = h.tv_sec ∧ Processed (processPacket ind w h record) [] cs (⟨w.tcp.next, f⟩ :: L) := by
  have a := d.carries.atSegment
  have hpos := List.length_pos_iff.mpr hrest
  have hlen := congrArg List.length hr
  rw [List.length_append, Rec.bytes_length] at hlen
  have hann := announced_front a.holds hr h4 (by omega)
  obtain ⟨f, hp, htime, _, _, hproc⟩ := packet_first ind d.carries.parsed a h4 d.tcp d.xid (d.idle hno)
    (by rw [hann]; omega) (by rw [hann]; exact hsmall)
  obtain ⟨hconn, hseq⟩ := d.conn
  rw [hconn, hseq, hann] at hp
  rw [d.secs] at htime
  rw [waiting_fresh (by rw [htime]; exact d.late)
    (fun n hn => by rw [htime]; exact d.fresh n hn (hno n hn))] at hproc
  exact ⟨f, _, hp, htime, hproc⟩

theorem Delivery.rejected (ind : Indet) (d : Delivery w L c seg h record env l) (hno : ∀ n ∈ L, n.val.conn ≠ c) {r : Rec}
    {rest : List UInt8} (hr : seg.payload ++ rest = r.bytes) (h4 : 4 ≤ seg.payload.length) (hrest : rest ≠ [])
    (hbig : 16384 < r.body.length) (hlt : r.body.length < 2 ^ 31) :
    Processed (processPacket ind w h record) [] [] L := by
  have a := d.carries.atSegment
  have hpos := List.length_pos_iff.mpr hrest
  have hlen := congrArg List.length hr
  rw [List.length_append, Rec.bytes_length] at hlen
  have hann := announced_front a.holds hr h4 hlt
  exact packet_reject ind d.carries.parsed a h4 d.tcp d.xid (d.idle hno) (by rw [hann]; omega) (by rw [hann]; exact hbig)

/-- The connection's node is the one its segment is looked up by. -/
theorem Delivery.found (d : Delivery w L c seg h record env l) {n : Node TcpFragment} (hn : n ∈ L)
    (huniq : ∀ m ∈ L, m.val.conn = c → m = n) {len : Nat} {got : List UInt8} (hp : Pending n.val (c.key seg.seq) len got) :
    (lookup TcpTable.scheme w.tcp env.key).1 = some n ∧ ∀ m, m ∈ others L env.key ↔ m ∈ L ∧ m ≠ n := by
  have hf := find_busy hn huniq hp.key
  rw [← d.key] at hf
  exact ⟨by rw [(lookup_lists d.tcp env.key).1, hf], fun m => mem_eraseP_newest d.tcp.newest hf⟩

theorem Delivery.more (ind : Indet) (d : Delivery w L c seg h record env l) {n : Node TcpFragment} (hn : n ∈ L)
    (huniq : ∀ m ∈ L, m.val.conn = c → m = n) {len : Nat} {got : List UInt8} (hp : Pending n.val (c.key seg.seq) len got)
    (hlt : got.length + seg.payload.length < len) :
    ∃ f cs, Pending f (c.key (seg.seq + UInt32.ofNat seg.payload.length)) len (got ++ seg.payload) ∧ f.time = h.tv_sec ∧
      Processed (processPacket ind w h record) [] cs (⟨w.tcp.next, f⟩ :: others L env.key) := by
  have a := d.carries.atSegment
  obtain ⟨hfound, hmem⟩ := d.found hn huniq hp
  obtain ⟨f, hpf, htime, _, _, hproc⟩ := packet_more ind d.carries.parsed a d.carries.nonempty d.tcp d.xid hfound
    (by rw [d.key]; exact hp) hlt
  obtain ⟨hconn, hseq⟩ := d.conn
  rw [hconn, hseq] at hpf
  rw [d.secs] at htime
  rw [waiting_fresh (by rw [htime]; exact d.late) (fun m hm => by
    obtain ⟨hmL, hne⟩ := (hmem m).mp hm
    rw [htime]
    exact d.fresh m hmL fun e => hne (huniq m hmL e))] at hproc
  exact ⟨f, _, hpf, htime, hproc⟩

theorem Delivery.last (ind : Indet) (d : Delivery w L c seg h record env l) {n : Node TcpFragment} (hn : n ∈ L)
    (huniq : ∀ m ∈ L, m.val.conn = c → m = n) {got : List UInt8}
    (hp : Pending n.val (c.key seg.seq) (got ++ seg.payload).length got) :
    ∃ cs, Processed (processPacket ind w h record) [got ++ seg.payload] cs (others L env.key) := by
  obtain ⟨hfound, _⟩ := d.found hn huniq hp
  have hproc := packet_complete ind d.carries.parsed d.carries.atSegment d.carries.nonempty d.tcp d.xid hfound
    (by rw [d.key]; exact hp) (by rw [List.length_append])
  rw [List.length_append, Nat.add_sub_cancel_left, List.take_length] at hproc
  exact ⟨_, hproc⟩

/-- The `n` bytes at `off` start with a word that announces a record above the limit which
    they do not hold, or one which they hold and whose header `getRpcHeader` does not take or
    nothing follows. -/
def StrayAt (h : Packet) (off : UInt32) (n : Nat) : Prop :=
  4 ≤ n ∧
    ((16384 < (h.pp.word off &&& 0x7fffffff).toNat ∧ n < (h.pp.word off &&& 0x7fffffff).toNat + 4) ∨
      ((h.pp.word off &&& 0x7fffffff).toNat + 4 ≤ n ∧
        ¬ (0 < (getRpcHeader (h.pp.add (off + 4)) (h.caplen - (off + 4)) (-1) (-1)).rc ∧
          off + 4 + (getRpcHeader (h.pp.add (off + 4)) (h.caplen - (off + 4)) (-1) (-1)).rc.toUInt32 < h.caplen)))

theorem Delivery.stray (ind : Indet) (d : Delivery w L c seg h record env l) (hno : ∀ n ∈ L, n.val.conn ≠ c)
    (hs : StrayAt h l.consumed seg.payload.length) :
    decoded (processPacket ind w h record).events = [] ∧ XidOk (processPacket ind w h record).world ∧
      (∃ rc, (processPacket ind w h record).exit = .returned rc) ∧
      Lists TcpTable.scheme (processPacket ind w h record).world.tcp L := by
  have a := d.carries.atSegment
  have al := headers_ok d.carries.parsed
  have hn := d.idle hno
  have hsize := a.fits.2
  obtain ⟨h4, hs⟩ := hs
  rw [← al.pp, ← al.tot_len] at hs
  rcases hs with ⟨hbig, hlt⟩ | ⟨hle, hnd⟩
  · have hp := packet_reject ind d.carries.parsed a h4 d.tcp d.xid hn hlt hbig
    exact ⟨hp.quiet rfl, hp.xid, hp.exit, hp.tcp⟩
  · have hseg := tcpSegment_sole ind (l := l.counted) hn (by
      rw [a.counted.behindMark h4, UInt32.le_iff_toNat_le, toNat_ofNat_lt (by omega)]
      show l.announced.toNat ≤ _
      unfold Locals.announced
      omega)
    have hloop := loop_tcp ind (w := w) (h.caplen.toNat + 2) a.proto (a.unfinished d.carries.nonempty)
    rw [hseg, andThen_next rfl] at hloop
    obtain ⟨hdec, hworld, habort, hnext⟩ := rpcMessage_stray ind env w l.counted.afterMark hnd
    -- nothing is left for the loop
    have hout : ∃ o, (rpcMessage ind env w l.counted.afterMark).andThen (loop ind env (h.caplen.toNat + 2)) = o ∧
        decoded o.events = [] ∧ o.world = w ∧ o.flow ≠ .abort ∧ ∀ l', o.flow ≠ .next l' := by
      cases hf : (rpcMessage ind env w l.counted.afterMark).flow with
      | next l' =>
        have hlt : ¬ l'.consumed < l'.tot_len := by rw [hnext l' hf]; exact UInt32.lt_irrefl _
        refine ⟨_, andThen_next hf, ?_⟩
        simp only [loop, hlt, if_false, List.append_nil]
        exact ⟨hdec, hworld, by simp, by simp⟩
      | done l' => exact ⟨_, andThen_stop (by simp [hf]), hdec, hworld, habort, by simp [hf]⟩
      | ret rc l' => exact ⟨_, andThen_stop (by simp [hf]), hdec, hworld, habort, by simp [hf]⟩
      | abort => exact absurd hf habort
    obtain ⟨o, ho, h1, h2, h3, h5⟩ := hout
    rw [ho] at hloop
    obtain ⟨_, _, f3, f4, f5⟩ := finishPacket_spec record
      { o with events := [.tcpLookup env.key none, .mark l.counted.consumed] ++ o.events } h5 h3
    unfold processPacket
    rw [d.carries.parsed]
    simp only [hloop]
    refine ⟨by rw [f3, decoded_append, h1]; rfl, by rw [f4, h2]; exact d.xid, f5, by rw [f4, h2]; exact d.tcp⟩

/-! ## The simulation -/

def Outcome : Option (List (List UInt8)) → Result → Prop
  | some msgs, r => handed r.events = msgs ∧ (msgs = [] → decoded r.events = [])
  | none, r => decoded r.events = []

/-- The packet is handled as planned, `segs` are left to send, and only `c`'s fragments
    change. -/
structure Moved (L : List (Node TcpFragment)) (c : Conn) (segs : List Seg) (time : UInt32)
    (out : Option (List (List UInt8))) (r : Result) : Prop where
  outcome : Outcome out r
  xid : XidOk r.world
  exit : ∃ rc, r.exit = .returned rc
  tcp : ∃ L', Lists TcpTable.scheme r.world.tcp L' ∧ Track L' c segs ∧
    (∀ n, n.val.conn ≠ c → (n ∈ L' ↔ n ∈ L)) ∧ ∀ n ∈ L', n ∈ L ∨ (n.val.conn = c ∧ n.val.time = time)

/-- Nothing waits afterwards that did not before. -/
theorem Moved.still {msgs : List (List UInt8)} {cs : List (UInt32 × UInt32 × UInt32)} {r : Result}
    (hp : Processed r msgs cs L) (ht : Track L c segs) (time : UInt32) : Moved L c segs time (some msgs) r :=
  ⟨⟨hp.handed, hp.quiet⟩, hp.xid, hp.exit, L, hp.tcp, ht, fun _ _ => Iff.rfl, fun _ hn => Or.inl hn⟩

theorem seq_flatten (seq : UInt32) (p : List UInt8) (ps : List (List UInt8)) :
    seq + UInt32.ofNat (p :: ps).flatten.length = seq + UInt32.ofNat p.length + UInt32.ofNat ps.flatten.length := by
  rw [List.flatten_cons, List.length_append, UInt32.ofNat_add, UInt32.add_assoc]

theorem flatten_ne_nil {p : List UInt8} {ps : List (List UInt8)} (h : ∀ q ∈ p :: ps, q ≠ []) : (p :: ps).flatten ≠ [] := by
  rw [List.flatten_cons]
  exact fun e => h p (List.mem_cons_self ..) (List.append_eq_nil_iff.mp e).1

/-- The first segment of a record that is cut in pieces. -/
theorem split_step (ind : Indet) (d : Delivery w L c seg h record env l) (hno : ∀ n ∈ L, n.val.conn ≠ c) {r : Rec}
    {pieces : List (List UInt8)} {items : List Item} (hcut : Cut r pieces)
    (hsize : r.body.length ≤ 16384 ∨ pieces.length = 1) (hok : ∀ it ∈ items, it.Ok) {seq : UInt32}
    (hs : seg :: segs = parts seq r.body pieces ++ segsOf (seq + UInt32.ofNat pieces.flatten.length) items) :
    Moved L c segs h.tv_sec seg.out (processPacket ind w h record) := by
  cases pieces with
  | nil =>
    have := congrArg List.length hcut.whole
    rw [Rec.bytes_length, List.flatten_nil, List.length_nil] at this
    omega
  | cons p ps =>
    have h4 := hcut.mark p rfl
    have hwhole : p ++ ps.flatten = r.bytes := by rw [← List.flatten_cons]; exact hcut.whole
    cases ps with
    | nil =>
      obtain ⟨rfl, rfl⟩ := List.cons.inj hs
      have hp := d.sole ind hno (r := r) (by simpa using hwhole)
      exact Moved.still hp (.idle _ _ hok hno) h.tv_sec
    | cons q ps =>
      obtain ⟨rfl, rfl⟩ := List.cons.inj hs
      have hrest := flatten_ne_nil fun x hx => hcut.nonempty x (List.mem_cons_of_mem _ hx)
      obtain ⟨f, cs, hpend, htime, hp⟩ := d.first ind hno hwhole h4 hrest (hsize.resolve_right (by simp))
      refine ⟨⟨hp.handed, hp.quiet⟩, hp.xid, hp.exit, _, hp.tcp, ?_, fun n hn => ?_, fun n hn => ?_⟩
      · rw [seq_flatten]
        refine .busy _ r.body (p.drop 4) (q :: ps) items _ (List.mem_cons_self ..) (fun m hm hc => ?_) hpend
          (r.front hwhole h4).2.symm (fun x hx => hcut.nonempty x (List.mem_cons_of_mem _ hx)) hok
        rcases List.mem_cons.mp hm with rfl | hm
        · rfl
        · exact absurd hc (hno m hm)
      · rw [List.mem_cons]
        refine ⟨fun hm => hm.resolve_left fun e => hn (by rw [e]; exact hpend.conn), Or.inr⟩
      · rcases List.mem_cons.mp hn with rfl | hn
        · exact Or.inr ⟨hpend.conn, htime⟩
        · exact Or.inl hn

/-- A further segment of a record. -/
theorem busy_step (ind : Indet) (d : Delivery w L c seg h record env l) {n : Node TcpFragment} (hn : n ∈ L)
    (huniq : ∀ m ∈ L, m.val.conn = c → m = n) {body got : List UInt8} {p : List UInt8} {ps : List (List UInt8)}
    {items : List Item} {seq : UInt32} (hpend : Pending n.val (c.key seq) body.length got)
    (hbody : got ++ (p :: ps).flatten = body) (hne : ∀ q ∈ p :: ps, q ≠ []) (hok : ∀ it ∈ items, it.Ok)
    (hs : seg :: segs = parts seq body (p :: ps) ++ segsOf (seq + UInt32.ofNat (p :: ps).flatten.length) items) :
    Moved L c segs h.tv_sec seg.out (processPacket ind w h record) := by
  cases ps with
  | nil =>
    obtain ⟨rfl, rfl⟩ := List.cons.inj hs
    rw [List.flatten_cons, List.flatten_nil, List.append_nil] at hbody
    obtain ⟨cs, hp⟩ := d.last ind hn huniq (show Pending n.val _ (got ++ p).length got by rw [hbody]; exact hpend)
    obtain ⟨_, hmem⟩ := d.found hn huniq hpend
    rw [hbody] at hp
    refine ⟨⟨hp.handed, hp.quiet⟩, hp.xid, hp.exit, _, hp.tcp, .idle _ _ hok fun m hm hc => ?_, fun m hc => ?_, fun m hm => ?_⟩
    · obtain ⟨hmL, hne⟩ := (hmem m).mp hm
      exact hne (huniq m hmL hc)
    · rw [hmem]
      refine ⟨fun hm => hm.1, fun hm => ⟨hm, fun e => hc ?_⟩⟩
      rw [e]; exact hpend.conn
    · exact Or.inl ((hmem m).mp hm).1
  | cons q ps =>
    obtain ⟨rfl, rfl⟩ := List.cons.inj hs
    have hrest := List.length_pos_iff.mpr (flatten_ne_nil fun x hx => hne x (List.mem_cons_of_mem _ hx))
    have hlen := congrArg List.length hbody
    rw [List.flatten_cons, List.length_append, List.length_append] at hlen
    have hlt : got.length + p.length < body.length := by omega
    obtain ⟨f, cs, hpf, htime, hp⟩ := d.more ind hn huniq hpend hlt
    obtain ⟨_, hmem⟩ := d.found hn huniq hpend
    refine ⟨⟨hp.handed, hp.quiet⟩, hp.xid, hp.exit, _, hp.tcp, ?_, fun m hc => ?_, fun m hm => ?_⟩
    · rw [seq_flatten]
      refine .busy _ body (got ++ p) (q :: ps) items _ (List.mem_cons_self ..) (fun m hm hc => ?_) hpf
        (by rw [← hbody, List.flatten_cons, List.append_assoc]; rfl) (fun x hx => hne x (List.mem_cons_of_mem _ hx)) hok
      rcases List.mem_cons.mp hm with rfl | hm
      · rfl
      · obtain ⟨hmL, hne⟩ := (hmem m).mp hm
        exact absurd (huniq m hmL hc) hne
    · rw [List.mem_cons, hmem]
      constructor
      · rintro (rfl | hm)
        · exact absurd hpf.conn hc
        · exact hm.1
      · intro hm
        refine Or.inr ⟨hm, fun e => hc ?_⟩
        rw [e]; exact hpend.conn
    · rcases List.mem_cons.mp hm with rfl | hm
      · exact Or.inr ⟨hpf.conn, htime⟩
      · exact Or.inl ((hmem m).mp hm).1

/-- The first segment of an item. -/
theorem idle_step (ind : Indet) (d : Delivery w L c seg h record env l) (hno : ∀ n ∈ L, n.val.conn ≠ c) {seq : UInt32}
    {it : Item} {items : List Item} (hok : ∀ i ∈ it :: items, i.Ok) (hs : seg :: segs = segsOf seq (it :: items)) :
    Moved L c segs h.tv_sec seg.out (processPacket ind w h record) := by
  have hit := hok it (List.mem_cons_self ..)
  have hrest : ∀ i ∈ items, i.Ok := fun i hi => hok i (List.mem_cons_of_mem _ hi)
  cases it with
  | split r pieces => exact split_step ind d hno hit.1 hit.2 hrest hs
  | batch rs =>
    obtain ⟨rfl, rfl⟩ := List.cons.inj hs
    have hp := packet_batch ind (k := 8) d.carries d.fits d.tcp d.xid (d.idle hno) (by decide) hit
    exact Moved.still hp (.idle _ _ hrest hno) h.tv_sec
  | oversize r pieces =>
    obtain ⟨hcut, htwo, hbig, hlt⟩ := hit
    cases pieces with
    | nil => exact absurd htwo (by simp)
    | cons p ps =>
      cases ps with
      | nil => exact absurd htwo (by simp)
      | cons q ps =>
        obtain ⟨rfl, rfl⟩ := List.cons.inj hs
        have hwhole : p ++ (q :: ps).flatten = r.bytes := by rw [← List.flatten_cons]; exact hcut.whole
        have hne := flatten_ne_nil fun x hx => hcut.nonempty x (List.mem_cons_of_mem _ hx)
        have hp := d.rejected ind hno hwhole (hcut.mark p rfl) hne hbig hlt
        refine Moved.still hp ?_ h.tv_sec
        show Track L c (strays _ (q :: ps) ++ segsOf (seq + UInt32.ofNat (p :: q :: ps).flatten.length) items)
        rw [seq_flatten]
        exact .rejected _ _ _ hno hrest

/-- The next segment of a connection, wherever it is in its plan. -/
theorem track_step (ind : Indet) (d : Delivery w L c seg h record env l) (ht : Track L c (seg :: segs))
    (hstray : seg.out = none → StrayAt h l.consumed seg.payload.length) :
    Moved L c segs h.tv_sec seg.out (processPacket ind w h record) := by
  generalize hs : seg :: segs = all at ht
  cases ht with
  | idle seq items hok hno =>
    cases items with
    | nil => cases hs
    | cons it items => exact idle_step ind d hno hok hs
  | busy seq body got ps items n hn huniq hpend hbody hne hok =>
    cases ps with
    | nil =>
      have hlt := hpend.short.1
      rw [← hbody, List.flatten_nil, List.append_nil] at hlt
      exact absurd hlt (Nat.lt_irrefl _)
    | cons p ps =>
      have hseq : seg.seq = seq := by
        cases ps with
        | nil => obtain ⟨rfl, _⟩ := List.cons.inj hs; rfl
        | cons q ps => obtain ⟨rfl, _⟩ := List.cons.inj hs; rfl
      subst hseq
      exact busy_step ind d hn huniq hpend hbody hne hok hs
  | rejected seq ps items hno hok =>
    cases ps with
    | nil =>
      rw [List.flatten_nil, List.length_nil, show seq + UInt32.ofNat 0 = seq from UInt32.add_zero seq] at hs
      cases items with
      | nil => cases hs
      | cons it items => exact idle_step ind d hno hok hs
    | cons p ps =>
      obtain ⟨rfl, rfl⟩ := List.cons.inj hs
      obtain ⟨h1, h2, h3, h4⟩ := d.stray ind hno (hstray rfl)
      refine ⟨h1, h2, h3, L, h4, ?_, fun _ _ => Iff.rfl, fun _ hn => Or.inl hn⟩
      rw [seq_flatten]
      exact .rejected _ _ _ hno hok

end Nfsdump.Record
