/-
  Nfsdump.Record.Moved — the iterations of a packet when its datagram stands elsewhere in it.

  Two packets have one datagram at one place in memory, `e` and `e'` bytes into them
  (`Beside`). `Locals.moved` are the locals for one of them: the lengths differ by the
  headers', what is read is the same.

  Proved (`Beside.run`): the loop does the same to the tables, hands the same to
  `printRecord` and ends alike. Only a credential that claims a negative length would lead
  back into the link headers.
-/

import Nfsdump.Record.Ownership
import Nfsdump.Wire.SameBytes

namespace Nfsdump.Record

open ChainTable Wire

/-! ## The same effect -/

/-- The operations on the tables, and the calls of `printRecord`. -/
def Event.IsDeed : Event → Bool
  | .tcpLookup .. | .tcpInsert .. | .insertXid .. | .lookupXid .. | .printRecord .. => true
  | _ => false

/-- One address, and one memory but for the link header in front of the datagram at `base`. -/
structure SamePayload (base : UInt32) (p q : Ptr) : Prop where
  addr : p.addr = q.addr
  byte : ∀ j : UInt32, (p.addr + j - base).toNat < 2 ^ 32 - 22 → p.byte j = q.byte j

/-- One deed, of two frames of a datagram. -/
inductive SameDeed (base : UInt32) : Event → Event → Prop
  | table (e : Event) : SameDeed base e e
  | printRecord (record : NfsPkt) (payload_len proto actual_len : UInt32) {xdr xdr' : Ptr} : SamePayload base xdr xdr' →
      SameDeed base (.printRecord record xdr payload_len proto actual_len) (.printRecord record xdr' payload_len proto actual_len)

def SameDeeds (base : UInt32) (es es' : List Event) : Prop :=
  List.Forall₂ (SameDeed base) (es.filter Event.IsDeed) (es'.filter Event.IsDeed)

/-- The record is filled alike, the tables are left alike, and the same is done on the way. -/
structure SameEffect (base : UInt32) (r r' : Result) : Prop where
  record : r.record = r'.record
  world : r.world = r'.world
  deeds : SameDeeds base r.events r'.events

variable {base : UInt32} {es es' fs fs' : List Event}

theorem SameDeeds.refl (es : List Event) : SameDeeds base es es := by
  unfold SameDeeds
  induction es.filter Event.IsDeed with
  | nil => exact .nil
  | cons e es ih => exact .cons (.table e) ih

theorem SameDeeds.append (h : SameDeeds base es es') (h' : SameDeeds base fs fs') : SameDeeds base (es ++ fs) (es' ++ fs') := by
  unfold SameDeeds
  rw [List.filter_append, List.filter_append]
  exact List.rel_append h h'

/-- Other events do not count. -/
theorem SameDeeds.of_filter (h : es.filter Event.IsDeed = es'.filter Event.IsDeed) : SameDeeds base es es' := by
  unfold SameDeeds
  rw [h]
  exact SameDeeds.refl es'

/-! ## Two runs -/

/-- The locals where the datagram stands `e` bytes into the packet at `pp`; of its `n` bytes `x` are
    consumed. -/
def Locals.moved (l : Locals) (pp : Ptr) (e n x : UInt32) : Locals :=
  { l with pp := pp, tot_len := e + n, consumed := e + x, e_len := e }

/-- The packets at `pp` and `pp'` have the datagram of `n` bytes at `base` in them. -/
structure Beside (base : UInt32) (pp pp' : Ptr) (e e' n : UInt32) : Prop where
  addr : (pp.add e).addr = base
  mem : SameBytes (2 ^ 32 - 22) (pp.add e) (pp'.add e')
  left : e.toNat ≤ 22
  right : e'.toNat ≤ 22
  size : n.toNat ≤ 1492

/-- At the head of the loop, with bytes left. -/
structure AtHead (env : Env) (w : World) (l : Locals) (n x : UInt32) : Prop where
  headers : l.i_len.toNat + l.h_len.toNat ≤ x.toNat
  datagram : env.proto ≠ IPPROTO_TCP → x + l.rpc_len = n
  waits : ∀ f, (lookup TcpTable.scheme w.tcp env.key).1 = some f → l.i_len.toNat + l.h_len.toNat ≤ env.length.toNat
  length : env.length.toNat < 65536

/-- Where two runs leave an iteration: at one place of the datagram, or with the same record put
    together in the same buffer, or for good. -/
inductive SameFlow (env : Env) (w : World) (pp pp' : Ptr) (e e' n : UInt32) : Flow → Flow → Prop
  | next (l : Locals) (x : UInt32) : x.toNat + 22 < 2 ^ 32 → (x < n → AtHead env w l n x) →
      SameFlow env w pp pp' e e' n (.next (l.moved pp e n x)) (.next (l.moved pp' e' n x))
  | same (f : Flow) : SameFlow env w pp pp' e e' n f f
  | done {l l' : Locals} : l.record = l'.record → SameFlow env w pp pp' e e' n (.done l) (.done l')
  | ret (rc : Int32) {l l' : Locals} : l.record = l'.record → SameFlow env w pp pp' e e' n (.ret rc l) (.ret rc l')

structure SameOut (base : UInt32) (env : Env) (pp pp' : Ptr) (e e' n : UInt32) (o o' : Out) : Prop where
  world : o.world = o'.world
  deeds : SameDeeds base o.events o'.events
  flow : SameFlow env o.world pp pp' e e' n o.flow o'.flow

variable {ind : Indet} {env : Env} {w : World} {l : Locals} {pp pp' p q : Ptr} {e e' n x : UInt32}

theorem lt_moved (he : e.toNat ≤ 22) (hn : n.toNat ≤ 1492) (hx : x.toNat + 22 < 2 ^ 32) : e + x < e + n ↔ x < n := by
  rw [UInt32.lt_iff_toNat_lt, UInt32.lt_iff_toNat_lt, UInt32.toNat_add, UInt32.toNat_add]
  omega

namespace Beside

/-- What is read of the datagram. -/
theorem word (b : Beside base pp pp' e e' n) {y : UInt32} (hy : y.toNat + 26 ≤ 2 ^ 32) : pp'.word (e' + y) = pp.word (e + y) := by
  have := b.mem.symm.word (n := y) (by omega) (by decide)
  rwa [Ptr.word_add, Ptr.word_add] at this

/-- A message in it. -/
theorem message (b : Beside base pp pp' e e' n) (hx : x.toNat ≤ 1500) :
    SameBytes 0xB0000000 (l.moved pp e n x).rpc_b (l.moved pp' e' n x).rpc_b := by
  have := b.mem.add (n := x) (j := 0xB0000000) (by omega) (by decide)
  rwa [Ptr.add_add, Ptr.add_add] at this

theorem handed (b : Beside base pp pp' e e' n) (y : UInt32) : SamePayload base (pp.add (e + y)) (pp'.add (e' + y)) := by
  have haddr := b.mem.addr
  rw [Ptr.add_addr, Ptr.add_addr] at haddr
  refine ⟨?_, fun j hj => ?_⟩
  · rw [Ptr.add_addr, Ptr.add_addr, ← UInt32.add_assoc, ← UInt32.add_assoc, haddr]
  · have hplace : (pp.add (e + y)).addr + j - base = y + j := by
      have hbase := b.addr
      rw [Ptr.add_addr] at hbase ⊢
      rw [← hbase]
      grind
    rw [hplace] at hj
    have := b.mem.byte (y + j) hj
    rwa [Ptr.add_byte, Ptr.add_byte, ← UInt32.add_assoc, ← UInt32.add_assoc] at this

end Beside

/-! ## A message -/

theorem headerEvents_deeds (l : Locals) : l.headerEvents.filter Event.IsDeed = [] := by
  unfold Locals.headerEvents
  cases l.rpcHeader.notUnix <;> rfl

theorem freeReassembly_deeds (l : Locals) : (freeReassembly l).filter Event.IsDeed = [] := by
  unfold freeReassembly
  cases l.reassemblyBuffer <;> rfl

theorem SameDeeds.of_none (h : es.filter Event.IsDeed = []) (h' : es'.filter Event.IsDeed = []) : SameDeeds base es es' :=
  SameDeeds.of_filter (h.trans h'.symm)

theorem headerEvents_same (l l' : Locals) : SameDeeds base l.headerEvents l'.headerEvents :=
  SameDeeds.of_none (headerEvents_deeds l) (headerEvents_deeds l')

/-- A call is decoded from its first six words. -/
theorem decodeCall_same (h : SameBytes 24 p q) (w : World) (record : NfsPkt) (print_it : Int32) :
    decodeCall w record p print_it = decodeCall w record q print_it := by
  have fixed : ∀ y : UInt32, y.toNat ≤ 20 → p.word y = q.word y := fun y hy => h.word (by omega) (by decide)
  unfold decodeCall
  rw [fixed 0 (by decide), fixed 12 (by decide), fixed 16 (by decide), fixed 20 (by decide)]

theorem decodeReply_same (h : SameBytes 24 p q) (w : World) (record : NfsPkt) (acceptStatus status : UInt32) (print_it : Int32) :
    decodeReply w record p acceptStatus status print_it = decodeReply w record q acceptStatus status print_it := by
  unfold decodeReply
  rw [h.word (n := 0) (by decide) (by decide), h.word (n := 8) (by decide) (by decide)]

/-- The header of a message is the same in both packets. -/
theorem Beside.header (b : Beside base pp pp' e e' n) (hx : x.toNat ≤ 1500) (hs : SaneCredential (l.moved pp e n x).rpc_b) :
    (l.moved pp' e' n x).rpcHeader.rc = (l.moved pp e n x).rpcHeader.rc ∧
      (l.moved pp' e' n x).rpcHeader.dir = (l.moved pp e n x).rpcHeader.dir := by
  have hleft : (l.moved pp e n x).tot_len - (l.moved pp e n x).consumed = n - x := show e + n - (e + x) = n - x by grind
  have hright : (l.moved pp' e' n x).tot_len - (l.moved pp' e' n x).consumed = n - x := show e' + n - (e' + x) = n - x by grind
  have hsame := getRpcHeader_same (b.message (l := l) hx) hs (n - x)
  unfold Locals.rpcHeader
  rw [hleft, hright]
  exact ⟨hsame.1.symm, hsame.2.symm⟩

/-- So is what it decodes to. -/
theorem Beside.decode (b : Beside base pp pp' e e' n) (hx : x.toNat ≤ 1500) (hlen : l.i_len.toNat + l.h_len.toNat ≤ 1500)
    (hs : SaneCredential (l.moved pp e n x).rpc_b) (hpos : 0 < (l.moved pp e n x).rpcHeader.rc) (print_it : Int32) :
    (l.moved pp' e' n x).decode w print_it = (l.moved pp e n x).decode w print_it := by
  obtain ⟨hrc, hdir⟩ := b.header hx hs
  have hmsg := b.message (l := l) hx
  have h24 : SameBytes 24 (l.moved pp' e' n x).rpc_b (l.moved pp e n x).rpc_b :=
    ⟨hmsg.addr.symm, fun j hj => (hmsg.byte j (by omega)).symm⟩
  have hsmall := rc_lt _ hpos
  have haccept : (l.moved pp' e' n x).pp.word ((l.moved pp' e' n x).consumed + (l.moved pp' e' n x).rpcHeader.rc.toUInt32) =
      (l.moved pp e n x).pp.word ((l.moved pp e n x).consumed + (l.moved pp e n x).rpcHeader.rc.toUInt32) := by
    rw [hrc]
    show pp'.word (e' + x + _) = pp.word (e + x + _)
    rw [UInt32.add_assoc, UInt32.add_assoc]
    exact b.word (by rw [UInt32.toNat_add]; omega)
  have hstatus : (l.moved pp' e' n x).pp.word ((l.moved pp' e' n x).e_len + (l.moved pp' e' n x).i_len + (l.moved pp' e' n x).h_len +
        (l.moved pp' e' n x).rpcHeader.rc.toUInt32 + 4) =
      (l.moved pp e n x).pp.word ((l.moved pp e n x).e_len + (l.moved pp e n x).i_len + (l.moved pp e n x).h_len +
        (l.moved pp e n x).rpcHeader.rc.toUInt32 + 4) := by
    rw [hrc]
    show pp'.word (e' + l.i_len + l.h_len + _ + 4) = pp.word (e + l.i_len + l.h_len + _ + 4)
    simp only [UInt32.add_assoc]
    exact b.word (by
      simp only [UInt32.toNat_add, show (4 : UInt32).toNat = 4 from rfl]
      omega)
  unfold Locals.decode
  rw [hdir, decodeCall_same h24, decodeReply_same h24, haccept, hstatus]
  rfl

/-- Behind a header. -/
theorem pastHeader_moved : (l.moved pp e n x).pastHeader = l.moved pp e n (x + (l.moved pp e n x).rpcHeader.rc.toUInt32) := by
  unfold Locals.pastHeader
  show Locals.mk .. = Locals.mk ..
  rw [show (l.moved pp e n x).consumed = e + x from rfl, UInt32.add_assoc]
  rfl

/-- What is done with a decoded message. -/
theorem Beside.finish (b : Beside base pp pp' e e' n) (rh rh' : RpcHeader) (y rh_len : UInt32) (hy : y = x + rh_len) (d : Decoded)
    (hbound : x.toNat + l.rpc_len.toNat + 22 < 2 ^ 32)
    (hready : x + l.rpc_len < n → ∀ record, AtHead env d.world { l with record := record } n (x + l.rpc_len)) :
    SameOut base env pp pp' e e' n (finishMessage env rh rh_len (l.moved pp e n y) d)
      (finishMessage env rh' rh_len (l.moved pp' e' n y) d) := by
  have hend : ∀ a : UInt32, a + y + d.statusBytes + (l.rpc_len - (rh_len + d.statusBytes)) = a + (x + l.rpc_len) := by
    intro a
    rw [hy]
    grind
  have hnext : ∀ (ptr : Ptr) (a : UInt32) (r : RpcHeader), (finishMessage env r rh_len (l.moved ptr a n y) d).flow =
      .next (Locals.moved { l with record := d.record } ptr a n (x + l.rpc_len)) := by
    intro ptr a r
    show Flow.next (Locals.mk ptr (a + n) (a + y + d.statusBytes + (l.rpc_len - (rh_len + d.statusBytes))) _ _ _ _ _ _ _) = _
    rw [hend]
    rfl
  refine ⟨rfl, ?_, ?_⟩
  · show SameDeeds base (d.events ++ _ :: _) (d.events ++ _ :: _)
    refine (SameDeeds.refl d.events).append ?_
    by_cases hp : d.print_it ≠ 0
    · rw [if_pos hp, if_pos hp]
      unfold printEvents
      have hlen : ∀ a : UInt32, a + n - (a + y + d.statusBytes) = n - (y + d.statusBytes) := by
        intro a
        grind
      unfold SameDeeds
      show List.Forall₂ _ [Event.printRecord d.record (pp.add (e + y + d.statusBytes)) _ _ (e + n - (e + y + d.statusBytes))]
        [Event.printRecord d.record (pp'.add (e' + y + d.statusBytes)) _ _ (e' + n - (e' + y + d.statusBytes))]
      rw [hlen, hlen, UInt32.add_assoc, UInt32.add_assoc]
      exact .cons (.printRecord _ _ _ _ (b.handed _)) .nil
    · rw [if_neg hp, if_neg hp]
      exact SameDeeds.refl _
  · rw [hnext, hnext]
    refine .next _ _ ?_ fun hlt => hready hlt d.record
    rw [UInt32.toNat_add]
    omega

/-- A message that is decoded. -/
theorem Beside.decoded (b : Beside base pp pp' e e' n) (hx : x.toNat ≤ 1500) (hlen : l.i_len.toNat + l.h_len.toNat ≤ 1500)
    (hs : SaneCredential (l.moved pp e n x).rpc_b) (hbound : x.toNat + l.rpc_len.toNat + 22 < 2 ^ 32)
    (hready : x + l.rpc_len < n → ∀ w' record, w'.tcp = w.tcp → AtHead env w' { l with record := record } n (x + l.rpc_len))
    (hd : (l.moved pp e n x).Decodes) (hd' : (l.moved pp' e' n x).Decodes) :
    SameOut base env pp pp' e e' n (rpcMessage ind env w (l.moved pp e n x)) (rpcMessage ind env w (l.moved pp' e' n x)) := by
  have hdecode := b.decode (w := w) hx hlen hs hd.1 (ind.print_it l.cnt)
  rw [rpcMessage_of_decodes ind env w _ hd, rpcMessage_of_decodes ind env w _ hd',
    show (l.moved pp' e' n x).decode w (ind.print_it (l.moved pp' e' n x).cnt) = (l.moved pp e n x).decode w
      (ind.print_it l.cnt) from hdecode,
    show (l.moved pp e n x).decode w (ind.print_it (l.moved pp e n x).cnt) = (l.moved pp e n x).decode w (ind.print_it l.cnt) from rfl]
  cases hok : (l.moved pp e n x).decode w (ind.print_it l.cnt) with
  | error ev => exact ⟨rfl, (headerEvents_same _ _).append (SameDeeds.refl ev), .same _⟩
  | ok d =>
    have htcp := ((decode_spec w _ _).2 d hok).2.2.1
    have hfin := b.finish (l.moved pp e n x).rpcHeader (l.moved pp' e' n x).rpcHeader (x + (l.moved pp e n x).rpcHeader.rc.toUInt32)
      (l.moved pp e n x).rpcHeader.rc.toUInt32 rfl d hbound fun hlt record => hready hlt d.world record htcp
    have hright : (l.moved pp' e' n x).pastHeader = l.moved pp' e' n (x + (l.moved pp e n x).rpcHeader.rc.toUInt32) := by
      rw [pastHeader_moved, (b.header hx hs).1]
    rw [pastHeader_moved, hright, (b.header hx hs).1]
    exact ⟨hfin.world, (headerEvents_same _ _).append hfin.deeds, hfin.flow⟩

theorem eq_moved : e + x = e + n ↔ x = n := by
  constructor
  · intro h
    grind
  · rintro rfl
    rfl

/-- A message without a record. -/
theorem Beside.stray (b : Beside base pp pp' e e' n) (hx : x.toNat ≤ 1500) (hs : SaneCredential (l.moved pp e n x).rpc_b)
    (hd : ¬ (l.moved pp e n x).Decodes) (hd' : ¬ (l.moved pp' e' n x).Decodes) :
    SameOut base env pp pp' e e' n (rpcMessage ind env w (l.moved pp e n x)) (rpcMessage ind env w (l.moved pp' e' n x)) := by
  obtain ⟨hrc, hdir⟩ := b.header hx hs
  have hword : (l.moved pp' e' n x).rpc_b.word 20 = (l.moved pp e n x).rpc_b.word 20 :=
    (b.message hx).symm.word (by decide) (by decide)
  have hend : (l.moved pp' e' n x).pastHeader.consumed = (l.moved pp' e' n x).tot_len ↔
      (l.moved pp e n x).pastHeader.consumed = (l.moved pp e n x).tot_len := by
    rw [pastHeader_moved, pastHeader_moved, hrc]
    exact eq_moved.trans eq_moved.symm
  have hfree : SameDeeds base (freeReassembly (l.moved pp e n x)) (freeReassembly (l.moved pp' e' n x)) :=
    .of_none (freeReassembly_deeds _) (freeReassembly_deeds _)
  rw [rpcMessage_of_not_decodes ind env w _ hd, rpcMessage_of_not_decodes ind env w _ hd', hrc, hdir, hword]
  by_cases h0 : (l.moved pp e n x).rpcHeader.rc = 0
  · rw [if_pos h0, if_pos h0]
    exact ⟨rfl, ((headerEvents_same _ _).append (SameDeeds.refl _)).append hfree, .ret 0 rfl⟩
  rw [if_neg h0, if_neg h0]
  by_cases hneg : (l.moved pp e n x).rpcHeader.rc < 0
  · rw [if_pos hneg, if_pos hneg]
    exact ⟨rfl, (headerEvents_same _ _).append hfree, .ret (-5) rfl⟩
  rw [if_neg hneg, if_neg hneg]
  simp only [hend]
  split
  · rename_i hnull
    have hn : x + (l.moved pp e n x).rpcHeader.rc.toUInt32 = n := by
      have := hnull.1
      rw [pastHeader_moved] at this
      exact eq_moved.mp this
    rw [pastHeader_moved, pastHeader_moved, hrc, hn]
    have hsize := b.size
    exact ⟨rfl, headerEvents_same _ _, .next l n (by omega) fun hlt => absurd hlt (UInt32.lt_irrefl n)⟩
  · exact ⟨rfl, headerEvents_same _ _, .done rfl⟩

theorem Beside.turn (b : Beside base pp pp' e e' n) (hx : x.toNat ≤ 1500) (hlen : l.i_len.toNat + l.h_len.toNat ≤ 1500)
    (hs : SaneCredential (l.moved pp e n x).rpc_b) (hbound : x.toNat + l.rpc_len.toNat + 22 < 2 ^ 32)
    (hready : x + l.rpc_len < n → ∀ w' record, w'.tcp = w.tcp → AtHead env w' { l with record := record } n (x + l.rpc_len)) :
    SameOut base env pp pp' e e' n (rpcMessage ind env w (l.moved pp e n x)) (rpcMessage ind env w (l.moved pp' e' n x)) := by
  have hdecodes : (l.moved pp' e' n x).Decodes ↔ (l.moved pp e n x).Decodes := by
    unfold Locals.Decodes
    rw [(b.header hx hs).1]
    refine and_congr_right fun hpos => ?_
    have hsmall := rc_lt _ hpos
    have hy : (x + (l.moved pp e n x).rpcHeader.rc.toUInt32).toNat + 22 < 2 ^ 32 := by
      rw [UInt32.toNat_add]
      omega
    show e' + x + _ < e' + n ↔ e + x + _ < e + n
    rw [UInt32.add_assoc, UInt32.add_assoc, lt_moved b.left b.size hy, lt_moved b.right b.size hy]
  by_cases hd : (l.moved pp e n x).Decodes
  · exact b.decoded hx hlen hs hbound hready hd (hdecodes.mpr hd)
  · exact b.stray hx hs hd fun hd' => hd (hdecodes.mp hd')

/-! ## The loop -/

/-- Events in front that are no deeds but for those of the tables. -/
theorem SameOut.after {o o' : Out} (h : SameOut base env pp pp' e e' n o o') (hes : SameDeeds base es es') :
    SameOut base env pp pp' e e' n { o with events := es ++ o.events } { o' with events := es' ++ o'.events } :=
  ⟨h.world, hes.append h.deeds, h.flow⟩

theorem SameOut.refl (o : Out) : SameOut base env pp pp' e e' n o o := ⟨rfl, SameDeeds.refl _, .same _⟩

/-- Where an iteration goes on, the loop does so alike if it does from related places. -/
theorem SameOut.andThen {o o' : Out} {k : World → Locals → Out} (h : SameOut base env pp pp' e e' n o o')
    (hnext : ∀ l x, o.flow = .next (l.moved pp e n x) → x.toNat + 22 < 2 ^ 32 → (x < n → AtHead env o.world l n x) →
      SameOut base env pp pp' e e' n (k o.world (l.moved pp e n x)) (k o.world (l.moved pp' e' n x))) :
    SameOut base env pp pp' e e' n (o.andThen k) (o'.andThen k) := by
  obtain ⟨es, w, f⟩ := o
  obtain ⟨es', w', f'⟩ := o'
  obtain ⟨hworld, hdeeds, hflow⟩ := h
  obtain rfl : w = w' := hworld
  cases hflow with
  | next l x hx hr => exact (hnext l x rfl hx hr).after hdeeds
  | same f =>
    cases f with
    | next l => exact (SameOut.refl _).after hdeeds
    | done l => exact ⟨rfl, hdeeds, .same _⟩
    | ret rc l => exact ⟨rfl, hdeeds, .same _⟩
    | abort => exact ⟨rfl, hdeeds, .same _⟩
  | done hrecord => exact ⟨rfl, hdeeds, .done hrecord⟩
  | ret rc hrecord => exact ⟨rfl, hdeeds, .ret rc hrecord⟩

theorem Beside.announced (b : Beside base pp pp' e e' n) (hx : x.toNat ≤ 1500) :
    (l.moved pp' e' n x).announced = (l.moved pp e n x).announced :=
  congrArg (· &&& 0x7fffffff) (b.word (by omega))

/-- What is copied from the datagram. -/
theorem Beside.copy (b : Beside base pp pp' e e' n) {y len : UInt32} (hy : y.toNat ≤ 1500) (hlen : len.toNat ≤ 65536) (buf : Ptr)
    (dst : UInt32) :
    buf.memcpy dst (pp'.add (e' + y)) len = buf.memcpy dst (pp.add (e + y)) len := by
  have hsame := b.mem.symm.add (n := y) (j := 65536) (by omega) (by decide)
  rw [Ptr.add_add, Ptr.add_add] at hsame
  exact hsame.memcpy buf dst hlen

theorem toNat_add_four (h : x.toNat ≤ 1496) : (x + 4).toNat = x.toNat + 4 := by
  rw [UInt32.toNat_add, show (4 : UInt32).toNat = 4 from rfl]
  omega

theorem afterMark_moved : (l.moved pp e n x).afterMark =
    Locals.moved { l with rpc_len := (l.moved pp e n x).announced, h_len := l.h_len + 4 } pp e n (x + 4) := by
  unfold Locals.afterMark
  show Locals.mk _ _ (e + x + 4) _ _ _ _ _ _ _ = _
  rw [UInt32.add_assoc]
  rfl

/-- Behind the mark of a record that no fragment waits for. -/
theorem Beside.marked (b : Beside base pp pp' e e' n) (hp : env.proto = IPPROTO_TCP) (hlt : x < n) (hr : AtHead env w l n x)
    (hn : (lookup TcpTable.scheme w.tcp env.key).1 = none) (hs : SaneCredential (l.moved pp e n x).afterMark.rpc_b) :
    SameOut base env pp pp' e e' n (rpcMessage ind env w (l.moved pp e n x).afterMark)
      (rpcMessage ind env w (l.moved pp' e' n x).afterMark) := by
  have hx := UInt32.lt_iff_toNat_lt.mp hlt
  have hsize := b.size
  have hheaders := hr.headers
  have hbig := announced_lt (l.moved pp e n x)
  have hx4 : (x + 4).toNat = x.toNat + 4 := toNat_add_four (by omega)
  have hh4 : (l.h_len + 4).toNat = l.h_len.toNat + 4 := toNat_add_four (by omega)
  rw [afterMark_moved] at hs ⊢
  rw [afterMark_moved, b.announced (by omega)]
  refine b.turn (by omega) ?_ hs ?_ fun _ w' record htcp => ⟨?_, fun h => absurd hp h, fun f hf => ?_, hr.length⟩
  · show l.i_len.toNat + (l.h_len + 4).toNat ≤ 1500
    omega
  · show (x + 4).toNat + (l.moved pp e n x).announced.toNat + 22 < 2 ^ 32
    omega
  · show l.i_len.toNat + (l.h_len + 4).toNat ≤ (x + 4 + (l.moved pp e n x).announced).toNat
    rw [UInt32.toNat_add (x + 4)]
    omega
  · rw [htcp, hn] at hf
    cases hf

/-- A record that is to be continued. -/
theorem Beside.begun (b : Beside base pp pp' e e' n) (hlt : x < n) (hw : Tables w) (hn : (lookup TcpTable.scheme w.tcp env.key).1 = none)
    (hlen : ¬ (l.moved pp e n x).announced ≤ env.length - l.i_len - (l.h_len + 4)) (hbig : ¬ (l.moved pp e n x).announced > 16384) :
    SameOut base env pp pp' e e' n (tcpSegment ind env w (l.moved pp e n x)) (tcpSegment ind env w (l.moved pp' e' n x)) := by
  have hx := UInt32.lt_iff_toNat_lt.mp hlt
  have hsize := b.size
  have hword : (l.moved pp' e' n x).announced = (l.moved pp e n x).announced := b.announced (by omega)
  have hroom : (env.length - l.i_len - (l.h_len + 4)).toNat ≤ 65536 := by
    have h1 := UInt32.lt_iff_toNat_lt.mp (UInt32.not_le.mp hlen)
    have h2 := UInt32.le_iff_toNat_le.mp (UInt32.not_lt.mp hbig)
    rw [show (16384 : UInt32).toNat = 16384 from rfl] at h2
    omega
  have hcopy := b.copy (y := x + 4) (by rw [toNat_add_four (by omega)]; omega) hroom (ind.malloc w.nextBuf) 0
  rw [← UInt32.add_assoc, ← UInt32.add_assoc] at hcopy
  have hfragment : firstFragment ind env w (l.moved pp' e' n x) = firstFragment ind env w (l.moved pp e n x) := by
    unfold firstFragment
    rw [hword]
    exact congrArg (fun copy => TcpFragment.mk env.srcHost env.dstHost _ _ _ ⟨w.nextBuf, _, copy⟩ _ _ l.record.secs) hcopy
  obtain ⟨L, hL⟩ := hw.tcp
  obtain ⟨t', freed, hok, -⟩ := insert_lists (staleFragment l.record.secs) hL (firstFragment ind env w (l.moved pp e n x))
  rw [tcpSegment_first_eq ind hn hlen hbig hok,
    tcpSegment_first_eq (l := l.moved pp' e' n x) ind hn (by rw [hword]; exact hlen) (by rw [hword]; exact hbig)
      (by rw [hfragment]; exact hok), hfragment]
  refine ⟨rfl, SameDeeds.append ?_ (SameDeeds.refl _), .ret (-12) rfl⟩
  exact SameDeeds.of_filter (by simp [List.filter_cons, Event.IsDeed])

/-- A segment that no fragment waits for. -/
theorem Beside.front (b : Beside base pp pp' e e' n) (hp : env.proto = IPPROTO_TCP) (hlt : x < n) (hr : AtHead env w l n x)
    (hw : Tables w)
    (hn : (lookup TcpTable.scheme w.tcp env.key).1 = none)
    (hs : ∀ bp a m, .rpcHeader bp a m ∈ ((tcpSegment ind env w (l.moved pp e n x)).andThen (rpcMessage ind env)).events →
      SaneCredential bp) :
    SameOut base env pp pp' e e' n ((tcpSegment ind env w (l.moved pp e n x)).andThen (rpcMessage ind env))
      ((tcpSegment ind env w (l.moved pp' e' n x)).andThen (rpcMessage ind env)) := by
  have hx := UInt32.lt_iff_toNat_lt.mp hlt
  have hsize := b.size
  have hword : (l.moved pp' e' n x).announced = (l.moved pp e n x).announced := b.announced (by omega)
  by_cases hlen : (l.moved pp e n x).announced ≤ env.length - l.i_len - (l.h_len + 4)
  · rw [tcpSegment_sole ind hn hlen, andThen_next rfl] at hs ⊢
    rw [tcpSegment_sole (l := l.moved pp' e' n x) ind hn (by rw [hword]; exact hlen), andThen_next rfl]
    exact SameOut.after (b.marked hp hlt hr hn (hs _ _ _ (List.mem_append_right _ (rpcHeader_mem ind env w _)))) (SameDeeds.of_filter rfl)
  by_cases hbig : (l.moved pp e n x).announced > 16384
  · rw [tcpSegment_reject ind hn hlen hbig,
      tcpSegment_reject (l := l.moved pp' e' n x) ind hn (by rw [hword]; exact hlen) (by rw [hword]; exact hbig)]
    exact ⟨rfl, SameDeeds.of_filter rfl, .ret (-11) rfl⟩
  · exact (b.begun hlt hw hn hlen hbig).andThen fun l₁ x₁ hf _ _ => by
      obtain ⟨L, hL⟩ := hw.tcp
      obtain ⟨rc, l', hret⟩ := (tcpSegment_first ind hL hn hlen hbig).flow
      rw [hret] at hf
      cases hf

/-- A segment that a fragment waits for. -/
theorem Beside.rest (b : Beside base pp pp' e e' n) (hlt : x < n) (hr : AtHead env w l n x) (hw : Tables w) (hfs : Fragments w)
    {f : Node TcpFragment} (hn : (lookup TcpTable.scheme w.tcp env.key).1 = some f) :
    SameOut base env pp pp' e e' n ((tcpSegment ind env w (l.moved pp e n x)).andThen (rpcMessage ind env))
      ((tcpSegment ind env w (l.moved pp' e' n x)).andThen (rpcMessage ind env)) := by
  have hx := UInt32.lt_iff_toNat_lt.mp hlt
  have hsize := b.size
  obtain ⟨hoff, hun⟩ := found_offset hfs hn
  have hshort := hun.short
  by_cases hmore : env.offset f.val + (env.length - l.i_len - l.h_len) < f.val.rpc_len
  · have hroom : (env.length - l.i_len - l.h_len).toNat ≤ 65536 := by
      have hwaits := hr.waits f hn
      have hlength := hr.length
      rw [UInt32.toNat_sub, UInt32.toNat_sub]
      omega
    have hfragment : nextFragment env (l.moved pp' e' n x) f.val = nextFragment env (l.moved pp e n x) f.val :=
      congrArg (fun copy => TcpFragment.mk env.srcHost env.dstHost _ _ _ { f.val.buffer with ptr := copy } f.val.rpc_len _ l.record.secs)
        (b.copy (by omega) hroom f.val.buffer.ptr (env.offset f.val))
    obtain ⟨L, hL⟩ := hw.tcp
    obtain ⟨_, hL', -⟩ := lookup_lists hL env.key
    obtain ⟨t', freed, hok, -⟩ := insert_lists (staleFragment l.record.secs) hL' (nextFragment env (l.moved pp e n x) f.val)
    rw [tcpSegment_more_eq (l := l.moved pp e n x) ind hn hmore hok,
      tcpSegment_more_eq (l := l.moved pp' e' n x) ind hn hmore (by rw [hfragment]; exact hok), hfragment, andThen_stop (by simp),
      andThen_stop (by simp)]
    refine ⟨rfl, SameDeeds.append ?_ (SameDeeds.refl _), .ret (-13) rfl⟩
    exact SameDeeds.of_filter (by simp [List.filter_cons, Event.IsDeed])
  · have hroom : (f.val.rpc_len - env.offset f.val).toNat ≤ 65536 := by
      have hfill := hun.fill
      rw [hoff, UInt32.toNat_sub]
      omega
    have hbuffer : (l.moved pp' e' n x).assembled (env.filled (l.moved pp' e' n x) f.val (f.val.rpc_len - env.offset f.val))
      f.val.rpc_len =
        (l.moved pp e n x).assembled (env.filled (l.moved pp e n x) f.val (f.val.rpc_len - env.offset f.val)) f.val.rpc_len :=
      congrArg (fun copy => (l.moved pp e n x).assembled { f.val.buffer with ptr := copy } f.val.rpc_len)
        (b.copy (by omega) hroom f.val.buffer.ptr (env.offset f.val))
    rw [tcpSegment_complete (l := l.moved pp e n x) ind hn hmore, tcpSegment_complete (l := l.moved pp' e' n x) ind hn hmore,
      andThen_next rfl, andThen_next rfl, hbuffer]
    exact (SameOut.refl _).after (SameDeeds.of_filter (by simp [List.filter_cons, Event.IsDeed]))

theorem Beside.body (b : Beside base pp pp' e e' n) (hlt : x < n) (hr : AtHead env w l n x) (hw : Tables w) (hfs : Fragments w)
    (hs : ∀ bp a m, .rpcHeader bp a m ∈ (loopBody ind env w (l.moved pp e n x)).events → SaneCredential bp) :
    SameOut base env pp pp' e e' n (loopBody ind env w (l.moved pp e n x)) (loopBody ind env w (l.moved pp' e' n x)) := by
  have hr' : AtHead env w l.counted n x := ⟨hr.headers, hr.datagram, hr.waits, hr.length⟩
  rw [loopBody_eq] at hs ⊢
  rw [loopBody_eq]
  by_cases hp : env.proto = IPPROTO_TCP
  · rw [if_pos hp] at hs ⊢
    rw [if_pos hp]
    cases hn : (lookup TcpTable.scheme w.tcp env.key).1 with
    | none => exact b.front hp hlt hr' hw hn hs
    | some f => exact b.rest hlt hr' hw hfs hn
  · rw [if_neg hp] at hs ⊢
    rw [if_neg hp]
    have hx := UInt32.lt_iff_toNat_lt.mp hlt
    have hsize := b.size
    have hheaders := hr.headers
    have hend := hr.datagram hp
    have hlen : l.rpc_len = n - x := by grind
    refine b.turn (l := l.counted) (by omega) (by show l.i_len.toNat + l.h_len.toNat ≤ 1500; omega)
      (hs _ _ _ (rpcHeader_mem ..)) ?_ fun hlt' => absurd hlt' ?_
    · show x.toNat + l.rpc_len.toNat + 22 < 2 ^ 32
      rw [hlen, UInt32.toNat_sub_of_le _ _ (UInt32.le_of_lt hlt)]
      omega
    · show ¬ x + l.rpc_len < n
      rw [hend]
      exact UInt32.lt_irrefl n

theorem events_andThen {o : Out} {k : World → Locals → Out} : ∀ ev ∈ o.events, ev ∈ (o.andThen k).events := by
  intro ev hev
  unfold Out.andThen
  split
  · exact List.mem_append_left _ hev
  · exact hev

theorem Beside.run (b : Beside base pp pp' e e' n) (fuel : Nat) : ∀ {w : World} {l : Locals} {x : UInt32}, x.toNat + 22 < 2 ^ 32 →
    (x < n → AtHead env w l n x) → Tables w → Fragments w →
    (∀ bp a m, .rpcHeader bp a m ∈ (loop ind env fuel w (l.moved pp e n x)).events → SaneCredential bp) →
    SameOut base env pp pp' e e' n (loop ind env fuel w (l.moved pp e n x)) (loop ind env fuel w (l.moved pp' e' n x)) := by
  induction fuel with
  | zero => exact fun hx hr _ _ _ => ⟨rfl, SameDeeds.refl [], .next _ _ hx hr⟩
  | succ fuel ih =>
    intro w l x hx hr hw hfs hs
    have hleft : (l.moved pp e n x).consumed < (l.moved pp e n x).tot_len ↔ x < n := lt_moved b.left b.size hx
    have hright : (l.moved pp' e' n x).consumed < (l.moved pp' e' n x).tot_len ↔ x < n := lt_moved b.right b.size hx
    rw [loop] at hs ⊢
    rw [loop]
    by_cases hlt : x < n
    · rw [if_pos (hleft.mpr hlt)] at hs ⊢
      rw [if_pos (hright.mpr hlt)]
      have hbody : SameOut base env pp pp' e e' n (loopBody ind env w (l.moved pp e n x)) (loopBody ind env w (l.moved pp' e' n x)) :=
        b.body hlt (hr hlt) hw hfs fun bp a m hm => hs bp a m (events_andThen _ hm)
      refine hbody.andThen fun l₁ x₁ hf hx₁ hr₁ => ?_
      rw [andThen_next hf] at hs
      exact ih hx₁ hr₁ (loopBody_asserts ind env _ hw).1 (loopBody_fragments ind env _ hfs)
        fun bp a m hm => hs bp a m (List.mem_append_right _ hm)
    · rw [if_neg (hleft.not.mpr hlt), if_neg (hright.not.mpr hlt)]
      exact ⟨rfl, SameDeeds.refl [], .done rfl⟩

theorem SameOut.finish {o o' : Out} (h : SameOut base env pp pp' e e' n o o') (record : NfsPkt) :
    SameEffect base (finishPacket record o) (finishPacket record o') := by
  obtain ⟨es, w, f⟩ := o
  obtain ⟨es', w', f'⟩ := o'
  obtain ⟨hworld, hdeeds, hflow⟩ := h
  cases hflow with
  | next l x hx hr => exact ⟨rfl, hworld, hdeeds⟩
  | same f =>
    cases f with
    | next l => exact ⟨rfl, hworld, hdeeds⟩
    | done l => exact ⟨rfl, hworld, hdeeds.append (SameDeeds.refl _)⟩
    | ret rc l => exact ⟨rfl, hworld, hdeeds⟩
    | abort => exact ⟨rfl, hworld, hdeeds⟩
  | done hrecord => exact ⟨hrecord, hworld, hdeeds.append (SameDeeds.of_none (freeReassembly_deeds _) (freeReassembly_deeds _))⟩
  | ret rc hrecord => exact ⟨hrecord, hworld, hdeeds⟩

end Nfsdump.Record
