/-
  Nfsdump.Record.Message — what the second half of an iteration, `rpcMessage`, can do.

  Whatever the message: it is handed to `getRpcHeader` once, the TCP table is left alone,
  and when the loop goes on it goes on at the end of the message or of the packet
  (`rpcMessage_next`). So an iteration whose message ends the packet is the last
  (`loop_last`).
-/

import Nfsdump.Record.Frame

namespace Nfsdump.Record

open ChainTable Wire

/-- The byte strings handed to `getRpcHeader`: `rpc_len` bytes from the header pointer. -/
def handed (es : List Event) : List (List UInt8) :=
  es.filterMap fun e => match e with
    | .rpcHeader bp rpc_len _ => some (bp.bytes rpc_len)
    | _ => none

@[simp] theorem handed_nil : handed [] = [] := rfl
@[simp] theorem handed_append (xs ys : List Event) : handed (xs ++ ys) = handed xs ++ handed ys := List.filterMap_append

/-- The copies into reassembly buffers: offset, length and the buffer's size. -/
def copies (es : List Event) : List (UInt32 × UInt32 × UInt32) :=
  es.filterMap fun e => match e with
    | .memcpy _ dst _ len size => some (dst, len, size)
    | _ => none

@[simp] theorem copies_nil : copies [] = [] := rfl
@[simp] theorem copies_append (xs ys : List Event) : copies (xs ++ ys) = copies xs ++ copies ys := List.filterMap_append

/-- What is done for a message that is taken for a call or a reply. -/
def decoded (es : List Event) : List Event :=
  es.filter fun e => match e with
    | .insertXid .. | .lookupXid .. | .printRecord .. => true
    | _ => false

@[simp] theorem decoded_nil : decoded [] = [] := rfl
@[simp] theorem decoded_append (xs ys : List Event) : decoded (xs ++ ys) = decoded xs ++ decoded ys := List.filter_append ..

/-- The XID table is a list of waiting calls. -/
def XidOk (w : World) : Prop := ∃ L, Lists XidTable.scheme w.xid L

theorem handed_free (l : Locals) : handed (freeReassembly l) = [] := by
  cases h : l.reassemblyBuffer <;> simp [freeReassembly, h, handed]

theorem copies_free (l : Locals) : copies (freeReassembly l) = [] := by
  cases h : l.reassemblyBuffer <;> simp [freeReassembly, h, copies]

theorem decoded_free (l : Locals) : decoded (freeReassembly l) = [] := by
  cases h : l.reassemblyBuffer <;> simp [freeReassembly, h, decoded]

theorem handed_notUnix (o : Option UInt32) : handed (o.map Event.notAuthUnix).toList = [] := by
  cases o <;> simp [handed]

theorem copies_header (bp : Ptr) (n m : UInt32) (o : Option UInt32) :
    copies (.rpcHeader bp n m :: (o.map Event.notAuthUnix).toList) = [] := by
  cases o <;> simp [copies]

theorem copies_rhLenZero (cnt : UInt32) : copies (if cnt > 1 then [Event.rhLenZero cnt] else []) = [] := by
  split <;> rfl

variable (ind : Indet) (env : Env) (w : World) (l : Locals)

/-! ## Decoding -/

theorem decodeCall_spec (record : NfsPkt) (rpc_b : Ptr) (print_it : Int32) :
    (∀ ev, decodeCall w record rpc_b print_it = .error ev → handed ev = [] ∧ copies ev = [] ∧ ¬ XidOk w) ∧
    ∀ d, decodeCall w record rpc_b print_it = .ok d →
      handed d.events = [] ∧ copies d.events = [] ∧ d.world.tcp = w.tcp ∧ d.world.nextBuf = w.nextBuf ∧
        d.record.secs = record.secs ∧ (XidOk w → XidOk d.world) := by
  unfold decodeCall hashInsertXid
  refine ⟨fun ev h => ?_, fun d h => ?_⟩
  · simp only at h
    split at h
    · rename_i f hi
      cases h
      refine ⟨rfl, rfl, fun ⟨L, hL⟩ => ?_⟩
      obtain ⟨_, _, hok, _⟩ := insert_lists (staleCall record.secs) hL
        ⟨rpc_b.word 0, record.srcHost, record.srcPort, rpc_b.word 16,
          if rpc_b.word 12 = MOUNT_PROGRAM then rpc_b.word 20 + MOUNT_PROC_BASE else rpc_b.word 20, record.secs⟩
      rw [hok] at hi; cases hi
    · cases h
  · simp only at h
    split at h
    · cases h
    · rename_i xid freed hi
      cases h
      refine ⟨rfl, rfl, rfl, rfl, rfl, fun ⟨L, hL⟩ => ?_⟩
      obtain ⟨t', _, hok, hl, _⟩ := insert_lists (staleCall record.secs) hL
        ⟨rpc_b.word 0, record.srcHost, record.srcPort, rpc_b.word 16,
          if rpc_b.word 12 = MOUNT_PROGRAM then rpc_b.word 20 + MOUNT_PROC_BASE else rpc_b.word 20, record.secs⟩
      rw [hok] at hi; cases hi
      exact ⟨_, hl⟩

theorem decodeReply_spec (record : NfsPkt) (rpc_b : Ptr) (acceptStatus status : UInt32) (print_it : Int32) :
    let d := decodeReply w record rpc_b acceptStatus status print_it
    handed d.events = [] ∧ copies d.events = [] ∧ d.world.tcp = w.tcp ∧ d.world.nextBuf = w.nextBuf ∧
      d.record.secs = record.secs ∧ (XidOk w → XidOk d.world) := by
  intro d
  have hd : d = decodeReply w record rpc_b acceptStatus status print_it := rfl
  unfold decodeReply hashLookupXid at hd
  simp only at hd
  have keep : XidOk w → XidOk { w with xid := (lookup XidTable.scheme w.xid
      ⟨rpc_b.word 0, record.dstHost, record.dstPort⟩).2 } := by
    rintro ⟨L, hL⟩
    exact ⟨_, (lookup_lists hL _).2.1⟩
  split at hd
  · rename_i xid hl
    rw [hd]
    exact ⟨rfl, rfl, rfl, rfl, rfl, fun hw => by have := keep hw; rwa [hl] at this⟩
  · rename_i p xid hl
    rw [hd]
    exact ⟨rfl, rfl, rfl, rfl, rfl, fun hw => by have := keep hw; rwa [hl] at this⟩

theorem finishMessage_spec (rh : RpcHeader) (rh_len : UInt32) (d : Decoded) :
    let o := finishMessage env rh rh_len l d
    handed o.events = handed d.events ∧ copies o.events = copies d.events ∧ o.world = d.world ∧
      o.flow = .next { l with record := d.record, consumed := l.consumed + l.rpc_len - rh_len } := by
  refine ⟨?_, ?_, rfl, ?_⟩
  · unfold finishMessage printEvents
    rw [handed_append]
    split <;> simp [handed]
  · unfold finishMessage printEvents
    rw [copies_append]
    split <;> simp [copies]
  · unfold finishMessage
    simp only
    congr 2
    grind

/-! ## The message -/

/-- The message has a header and something behind it. -/
def Locals.Decodes (l : Locals) : Prop :=
  0 < l.rpcHeader.rc ∧ l.consumed + l.rpcHeader.rc.toUInt32 < l.tot_len

/-- What it is decoded to. -/
def Locals.decode (l : Locals) (w : World) (print_it : Int32) : Except (List Event) Decoded :=
  if l.rpcHeader.dir = CALL then decodeCall w l.record l.rpc_b print_it
  else .ok (decodeReply w l.record l.rpc_b (l.pp.word (l.consumed + l.rpcHeader.rc.toUInt32))
    (l.pp.word (l.e_len + l.i_len + l.h_len + l.rpcHeader.rc.toUInt32 + 4)) print_it)

def Locals.pastHeader (l : Locals) : Locals := { l with consumed := l.consumed + l.rpcHeader.rc.toUInt32 }

def Locals.headerEvents (l : Locals) : List Event :=
  .rpcHeader l.rpc_b l.rpc_len (l.tot_len - l.consumed) :: (l.rpcHeader.notUnix.map Event.notAuthUnix).toList

theorem rpcMessage_of_decodes (hd : l.Decodes) : rpcMessage ind env w l = match l.decode w (ind.print_it l.cnt) with
    | .error ev => ⟨l.headerEvents ++ ev, w, .abort⟩
    | .ok d =>
      let o := finishMessage env l.rpcHeader l.rpcHeader.rc.toUInt32 l.pastHeader d
      { o with events := l.headerEvents ++ o.events } := by
  obtain ⟨hpos, hlt⟩ := hd
  have h0 : ¬ l.rpcHeader.rc = 0 := fun h => by rw [h] at hpos; exact absurd hpos (by decide)
  have hneg : ¬ l.rpcHeader.rc < 0 := fun h => Int32.lt_irrefl (Int32.lt_trans h hpos)
  have hne : ¬ (l.consumed + l.rpcHeader.rc.toUInt32 = l.tot_len ∧ l.rpcHeader.dir = CALL ∧ l.rpc_b.word 20 = NFSPROC_NULL) :=
    fun h => UInt32.ne_of_lt hlt h.1
  have hge : ¬ l.consumed + l.rpcHeader.rc.toUInt32 ≥ l.tot_len := UInt32.not_le.mpr hlt
  unfold rpcMessage Locals.decode
  simp only [h0, hneg, hne, hge, if_false]
  by_cases hdir : l.rpcHeader.dir = CALL
  · simp only [if_pos hdir]
    cases decodeCall w l.record l.rpc_b (ind.print_it l.cnt) with
    | error ev => rfl
    | ok d => rfl
  · simp only [if_neg hdir]
    rfl

theorem decodes_of (h0 : ¬ l.rpcHeader.rc = 0) (hneg : ¬ l.rpcHeader.rc < 0)
    (hge : ¬ l.consumed + l.rpcHeader.rc.toUInt32 ≥ l.tot_len) : l.Decodes := by
  refine ⟨?_, UInt32.not_le.mp hge⟩
  rw [Int32.lt_iff_toInt_lt]
  rw [Int32.lt_iff_toInt_lt] at hneg
  have hz : l.rpcHeader.rc.toInt ≠ (0 : Int32).toInt := fun e => h0 (Int32.toInt.inj e)
  omega

theorem rpcMessage_of_not_decodes (hd : ¬ l.Decodes) : rpcMessage ind env w l =
    if l.rpcHeader.rc = 0 then
      ⟨l.headerEvents ++ (if l.cnt > 1 then [.rhLenZero l.cnt] else []) ++ freeReassembly l, w, .ret 0 l⟩
    else if l.rpcHeader.rc < 0 then ⟨l.headerEvents ++ freeReassembly l, w, .ret (-5) l⟩
    else if l.pastHeader.consumed = l.tot_len ∧ l.rpcHeader.dir = CALL ∧ l.rpc_b.word 20 = NFSPROC_NULL then
      ⟨l.headerEvents, w, .next l.pastHeader⟩
    else ⟨l.headerEvents, w, .done l.pastHeader⟩ := by
  unfold rpcMessage
  simp only
  split
  · rfl
  split
  · rfl
  split
  · rename_i hnull
    exact (if_pos hnull).symm
  split
  · rename_i hnull _
    exact (if_neg hnull).symm
  · rename_i h0 hneg _ hge
    exact absurd (decodes_of l h0 hneg hge) hd

/-- How a message that does not decode ends: with no header in it, with none that can be read, with a
    null call, or with nothing behind its header. -/
inductive Stray (w : World) (l : Locals) : Out → Prop where
  | empty : Stray w l ⟨l.headerEvents ++ (if l.cnt > 1 then [.rhLenZero l.cnt] else []) ++ freeReassembly l, w, .ret 0 l⟩
  | unread : Stray w l ⟨l.headerEvents ++ freeReassembly l, w, .ret (-5) l⟩
  | null : l.pastHeader.consumed = l.tot_len → Stray w l ⟨l.headerEvents, w, .next l.pastHeader⟩
  | bare : Stray w l ⟨l.headerEvents, w, .done l.pastHeader⟩

theorem rpcMessage_of_stray (hd : ¬ l.Decodes) : Stray w l (rpcMessage ind env w l) := by
  rw [rpcMessage_of_not_decodes ind env w l hd]
  split
  · exact .empty
  split
  · exact .unread
  split
  · rename_i hnull
    exact .null hnull.1
  · exact .bare

theorem decode_spec (print_it : Int32) :
    (∀ ev, l.decode w print_it = .error ev → handed ev = [] ∧ copies ev = [] ∧ ¬ XidOk w) ∧
    ∀ d, l.decode w print_it = .ok d →
      handed d.events = [] ∧ copies d.events = [] ∧ d.world.tcp = w.tcp ∧ d.world.nextBuf = w.nextBuf ∧
        d.record.secs = l.record.secs ∧ (XidOk w → XidOk d.world) := by
  unfold Locals.decode
  split
  · exact decodeCall_spec w l.record l.rpc_b print_it
  · refine ⟨nofun, fun d hd => ?_⟩
    cases hd
    exact decodeReply_spec w l.record l.rpc_b _ _ print_it

structure MessageSpec (w : World) (l : Locals) (o : Out) : Prop where
  handed : handed o.events = [l.rpc_b.bytes l.rpc_len]
  copies : copies o.events = []
  tcp : o.world.tcp = w.tcp
  nextBuf : o.world.nextBuf = w.nextBuf
  xid : XidOk w → XidOk o.world ∧ o.flow ≠ .abort
  next : ∀ l', o.flow = .next l' → ∃ record consumed, l' = { l with record := record, consumed := consumed } ∧
    record.secs = l.record.secs ∧ (consumed = l.tot_len ∨ consumed = l.consumed + l.rpc_len)

theorem handed_header (bp : Ptr) (n m : UInt32) (o : Option UInt32) :
    handed (.rpcHeader bp n m :: (o.map Event.notAuthUnix).toList) = [bp.bytes n] := by
  have := handed_notUnix o
  simp only [handed] at this
  simp [handed, this]

theorem handed_rhLenZero (cnt : UInt32) : handed (if cnt > 1 then [Event.rhLenZero cnt] else []) = [] := by
  split <;> rfl

theorem handed_headerEvents : handed l.headerEvents = [l.rpc_b.bytes l.rpc_len] := handed_header ..

theorem copies_headerEvents : copies l.headerEvents = [] := copies_header ..

theorem decoded_headerEvents : decoded l.headerEvents = [] := by
  unfold Locals.headerEvents
  cases l.rpcHeader.notUnix <;> rfl

theorem MessageSpec.decodes (hd : l.Decodes) : MessageSpec w l (rpcMessage ind env w l) := by
  rw [rpcMessage_of_decodes ind env w l hd]
  obtain ⟨herr, hok⟩ := decode_spec w l (ind.print_it l.cnt)
  cases he : l.decode w (ind.print_it l.cnt) with
  | error ev =>
    obtain ⟨h1, h2, h3⟩ := herr ev he
    refine ⟨?_, ?_, rfl, rfl, fun hw => absurd hw h3, fun l' h => by cases h⟩
    · rw [handed_append, h1, handed_headerEvents]; rfl
    · rw [copies_append, h2, copies_headerEvents]; rfl
  | ok d =>
    obtain ⟨h1, h2, h3, h4, h5, h6⟩ := hok d he
    obtain ⟨f1, f2, f3, f4⟩ := finishMessage_spec env l.pastHeader l.rpcHeader l.rpcHeader.rc.toUInt32 d
    refine ⟨?_, ?_, by rw [f3]; exact h3, by rw [f3]; exact h4, fun hw => ⟨by rw [f3]; exact h6 hw, by rw [f4]; nofun⟩,
      fun l' h => ?_⟩
    · rw [handed_append, f1, h1, handed_headerEvents]; rfl
    · rw [copies_append, f2, h2, copies_headerEvents]; rfl
    · rw [f4] at h
      cases h
      refine ⟨d.record, _, rfl, h5, Or.inr ?_⟩
      show l.consumed + l.rpcHeader.rc.toUInt32 + l.rpc_len - l.rpcHeader.rc.toUInt32 = _
      grind

theorem rpcMessage_spec : MessageSpec w l (rpcMessage ind env w l) := by
  by_cases hd : l.Decodes
  · exact MessageSpec.decodes ind env w l hd
  have hstray := rpcMessage_of_stray ind env w l hd
  have hev := handed_headerEvents l
  have cev := copies_headerEvents l
  generalize rpcMessage ind env w l = o at hstray ⊢
  cases hstray with
  | empty =>
    refine ⟨?_, ?_, rfl, rfl, fun hw => ⟨hw, by simp⟩, fun l' h => by cases h⟩
    · rw [handed_append, handed_append, handed_free, handed_rhLenZero]
      simpa using hev
    · rw [copies_append, copies_append, copies_free, copies_rhLenZero]
      simpa using cev
  | unread =>
    refine ⟨?_, ?_, rfl, rfl, fun hw => ⟨hw, by simp⟩, fun l' h => by cases h⟩
    · rw [handed_append, handed_free]
      simpa using hev
    · rw [copies_append, copies_free]
      simpa using cev
  | null hnull =>
    refine ⟨hev, cev, rfl, rfl, fun hw => ⟨hw, by simp⟩, fun l' h => ?_⟩
    cases h
    exact ⟨l.record, _, rfl, rfl, Or.inl hnull⟩
  | bare => exact ⟨hev, cev, rfl, rfl, fun hw => ⟨hw, by simp⟩, fun l' h => by cases h⟩

/-- A message that decodes leaves the loop at its end. -/
theorem rpcMessage_decodes (hd : l.Decodes) (hx : XidOk w) :
    ∃ record, (rpcMessage ind env w l).flow = .next { l with record := record, consumed := l.consumed + l.rpc_len } := by
  rw [rpcMessage_of_decodes ind env w l hd]
  cases he : l.decode w (ind.print_it l.cnt) with
  | error ev => exact absurd hx ((decode_spec w l _).1 ev he).2.2
  | ok d =>
    refine ⟨d.record, (finishMessage_spec env l.pastHeader l.rpcHeader l.rpcHeader.rc.toUInt32 d).2.2.2.trans ?_⟩
    unfold Locals.pastHeader
    congr 2
    simp only
    grind

/-- One that does not is looked at and left. -/
theorem rpcMessage_stray (hd : ¬ l.Decodes) :
    decoded (rpcMessage ind env w l).events = [] ∧ (rpcMessage ind env w l).world = w ∧
      (rpcMessage ind env w l).flow ≠ .abort ∧
      ∀ l', (rpcMessage ind env w l).flow = .next l' → l'.consumed = l'.tot_len := by
  have hstray := rpcMessage_of_stray ind env w l hd
  have dev := decoded_headerEvents l
  have dfree := decoded_free l
  have dzero : decoded (if l.cnt > 1 then [Event.rhLenZero l.cnt] else []) = [] := by
    split <;> rfl
  generalize rpcMessage ind env w l = o at hstray ⊢
  cases hstray with
  | empty =>
    refine ⟨?_, rfl, by simp, fun l' h => by cases h⟩
    rw [decoded_append, decoded_append, dfree, dzero, dev]; rfl
  | unread =>
    refine ⟨?_, rfl, by simp, fun l' h => by cases h⟩
    rw [decoded_append, dfree, dev]; rfl
  | null hnull =>
    refine ⟨dev, rfl, by simp, fun l' h => ?_⟩
    cases h
    exact hnull
  | bare => exact ⟨dev, rfl, by simp, fun l' h => by cases h⟩

theorem rpcMessage_events :
    ∃ more, (rpcMessage ind env w l).events = l.headerEvents ++ more := by
  by_cases hd : l.Decodes
  · rw [rpcMessage_of_decodes ind env w l hd]
    cases l.decode w (ind.print_it l.cnt) with
    | error ev => exact ⟨_, rfl⟩
    | ok d => exact ⟨_, rfl⟩
  · rw [rpcMessage_of_not_decodes ind env w l hd]
    split
    · exact ⟨_, List.append_assoc ..⟩
    split
    · exact ⟨_, rfl⟩
    split
    · exact ⟨[], (List.append_nil _).symm⟩
    · exact ⟨[], (List.append_nil _).symm⟩

/-- The message is handed over. -/
theorem rpcHeader_mem :
    .rpcHeader l.rpc_b l.rpc_len (l.tot_len - l.consumed) ∈ (rpcMessage ind env w l).events := by
  obtain ⟨more, hmore⟩ := rpcMessage_events ind env w l
  rw [hmore]
  exact List.mem_append_left _ List.mem_cons_self

/-- And no other message. -/
theorem rpcHeader_sole {bp : Ptr} {a m : UInt32} (h : .rpcHeader bp a m ∈ (rpcMessage ind env w l).events) : bp = l.rpc_b := by
  obtain ⟨more, hmore⟩ := rpcMessage_events ind env w l
  have hhanded := (rpcMessage_spec ind env w l).handed
  rw [hmore, handed_append, handed_headerEvents] at hhanded
  rw [hmore, List.mem_append] at h
  rcases h with h | h
  · rcases List.mem_cons.mp h with h | h
    · exact (Event.rpcHeader.inj h).1
    · obtain ⟨flavor, -, hflavor⟩ := Option.map_eq_some_iff.mp (Option.mem_toList.mp h)
      cases hflavor
  · have hnone : handed more = [] := (List.cons.inj hhanded).2
    have hmem : bp.bytes a ∈ handed more := List.mem_filterMap.mpr ⟨_, h, rfl⟩
    rw [hnone] at hmem
    cases hmem

/-- The record the packet ends with; `record` is the one it was called with. -/
def Flow.record (record : NfsPkt) : Flow → NfsPkt
  | .next l | .done l | .ret _ l => l.record
  | .abort => record

/-- The last iteration: a message that ends with the packet leaves nothing to the loop. -/
theorem loop_last (fuel : Nat) (hl : l.consumed + l.rpc_len = l.tot_len) :
    ∃ o, (rpcMessage ind env w l).andThen (loop ind env (fuel + 1)) = o ∧
      o.events = (rpcMessage ind env w l).events ∧ o.world = (rpcMessage ind env w l).world ∧
      (∀ l', o.flow ≠ .next l') ∧ (XidOk w → o.flow ≠ .abort) ∧
      ∀ r, o.flow.record r = (rpcMessage ind env w l).flow.record r := by
  have hs := rpcMessage_spec ind env w l
  have stop : (∀ l', (rpcMessage ind env w l).flow ≠ .next l') →
      (rpcMessage ind env w l).andThen (loop ind env (fuel + 1)) = rpcMessage ind env w l := andThen_stop
  cases hf : (rpcMessage ind env w l).flow with
  | next l' =>
    obtain ⟨record, consumed, rfl, _, hc⟩ := hs.next l' hf
    have hc' : consumed = l.tot_len := by
      rcases hc with hc | hc
      · exact hc
      · rw [hc, hl]
    have hlt : ¬ consumed < l.tot_len := by rw [hc']; exact UInt32.lt_irrefl _
    refine ⟨_, andThen_next hf, ?_⟩
    simp only [loop, hlt, if_false, List.append_nil]
    exact ⟨trivial, trivial, nofun, nofun, fun _ => rfl⟩
  | done _ =>
    rw [hf] at stop
    refine ⟨_, stop nofun, rfl, rfl, ?_⟩
    rw [hf]; exact ⟨nofun, nofun, fun _ => rfl⟩
  | ret _ _ =>
    rw [hf] at stop
    refine ⟨_, stop nofun, rfl, rfl, ?_⟩
    rw [hf]; exact ⟨nofun, nofun, fun _ => rfl⟩
  | abort =>
    rw [hf] at stop
    refine ⟨_, stop nofun, rfl, rfl, ?_⟩
    rw [hf]; exact ⟨nofun, fun hw => absurd hf (hs.xid hw).2, fun _ => rfl⟩

/-- Behind the loop only memory is freed. -/
theorem finishPacket_events (record : NfsPkt) (out : Out) :
    ∃ es, (finishPacket record out).events = out.events ++ es ∧ ∀ e ∈ es, ∃ id, e = .free id := by
  unfold finishPacket
  cases out.flow with
  | done l =>
    refine ⟨_, rfl, fun e he => ?_⟩
    obtain ⟨id, -, rfl⟩ := Option.map_eq_some_iff.mp (Option.mem_toList.mp he)
    exact ⟨id, rfl⟩
  | _ => exact ⟨[], (List.append_nil _).symm, by simp⟩

end Nfsdump.Record
