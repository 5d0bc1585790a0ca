/-
  Nfsdump.Record.Print — whether a message that reaches the print decision is printed.

  `print_it` has no initial value. It is set to 0 for a reply that was not accepted and to 1
  for a reply without a call, in this order, and for no other message. Proved
  (`printsByTraffic_iff`): the traffic decides what is printed, and decides it as it should,
  exactly for the packets in which every message that gets there is a reply which was either
  accepted or matched with its call, but not both.
-/

import Nfsdump.Record.Segment

namespace Nfsdump.Record

open ChainTable Wire

/-- The lines printed. -/
def lines (es : List Event) : List Event :=
  es.filter fun e => match e with
    | .printRecord .. | .trailer .. => true
    | _ => false

/-- A call, or a reply with both its status words 0. -/
def PrintCase.Wanted : PrintCase → Prop
  | .call => True
  | .reply rp_stat accept_stat _ => rp_stat = 0 ∧ accept_stat = 0

/-- The same lines whatever `print_it` starts with, and those that are wanted. -/
def PrintsByTraffic (malloc : Nat → Ptr) (w : World) (h : Packet) (record : NfsPkt) : Prop :=
  (∀ p q : UInt32 → Int32, lines (processPacket ⟨malloc, p⟩ w h record).events =
    lines (processPacket ⟨malloc, q⟩ w h record).events) ∧
  ∀ p kind printed, .decision kind printed ∈ (processPacket ⟨malloc, p⟩ w h record).events →
    (printed = true ↔ kind.Wanted)

/-- Assigned on every path: a rejected reply to a known call, or an accepted one to none. -/
def PrintCase.Assigned : PrintCase → Prop
  | .call => False
  | .reply rp_stat accept_stat known => (rp_stat = 0 ∧ accept_stat = 0) ↔ known = false

/-- What the message ahead is if it gets as far as the print decision. -/
def Locals.printCase (w : World) (l : Locals) : Option PrintCase :=
  let rh := l.rpcHeader
  let consumed := l.consumed + rh.rc.toUInt32
  if rh.rc ≤ 0 ∨ consumed ≥ l.tot_len then none
  else if rh.dir = CALL then
    match decodeCall w l.record l.rpc_b 0 with
    | .error _ => none
    | .ok _ => some .call
  else
    some (.reply (l.rpc_b.word 8) (l.pp.word consumed)
      (hashLookupXid w.xid l.record.secs (l.rpc_b.word 0) l.record.dstHost l.record.dstPort).1.isSome)

/-- The states in which the loop comes to a message. -/
def messages (ind : Indet) (env : Env) : Nat → World → Locals → List (World × Locals)
  | 0, _, _ => []
  | fuel + 1, w, l =>
    if l.consumed < l.tot_len then
      let l := { l with cnt := l.cnt + 1 }
      let o : Out := if env.proto = IPPROTO_TCP then tcpSegment ind env w l else ⟨[], w, .next l⟩
      match o.flow with
      | .next l =>
        let o' := rpcMessage ind env o.world l
        (o.world, l) :: match o'.flow with
          | .next l => messages ind env fuel o'.world l
          | _ => []
      | _ => []
    else []

/-- The messages of the packet that get as far as the print decision. -/
def printCases (malloc : Nat → Ptr) (w : World) (h : Packet) (record : NfsPkt) : List PrintCase :=
  match headers h record with
  | .error _ => []
  | .ok (env, l) =>
    (messages ⟨malloc, fun _ => 0⟩ env (h.caplen.toNat + 3) w l).filterMap fun (w, l) => l.printCase w

/-- What `print_it` is at the decision when it was `p`. -/
def PrintCase.flag (p : Int32) : PrintCase → Int32
  | .call => p
  | .reply _ _ false => 1
  | .reply rp_stat accept_stat true => if rp_stat ≠ 0 ∨ accept_stat ≠ 0 then 0 else p

/-- With 0 to begin with, `print_it` is 0 for every reply to a known call. -/
theorem flag_known_zero (rp_stat accept_stat : UInt32) : (PrintCase.reply rp_stat accept_stat true).flag 0 = 0 := ite_self _

/-- Every decision among `es` was made with the value its kind gives to some start value in
    `P`. -/
def Decided (P : Int32 → Prop) (es : List Event) : Prop :=
  ∀ kind printed, .decision kind printed ∈ es → ∃ p, P p ∧ printed = decide (kind.flag p ≠ 0)

theorem Decided.append {P : Int32 → Prop} {xs ys : List Event} (hx : Decided P xs) (hy : Decided P ys) : Decided P (xs ++ ys) :=
  fun kind printed hm => by
    rcases List.mem_append.mp hm with hm | hm
    · exact hx kind printed hm
    · exact hy kind printed hm

/-- No decision is among them. -/
theorem Decided.of_none {P : Int32 → Prop} {es : List Event} (h : ∀ kind printed, .decision kind printed ∉ es) : Decided P es :=
  fun kind printed hm => absurd hm (h kind printed)

variable {ind : Indet} {env : Env} {w : World} {l : Locals} {record : NfsPkt} {rpc_b : Ptr}

theorem decodeCall_flag {p : Int32} {d : Decoded} (h : decodeCall w record rpc_b p = .ok d) :
    d.print_it = d.kind.flag p ∧ ∀ kind printed, .decision kind printed ∉ d.events := by
  unfold decodeCall at h
  simp only at h
  split at h
  · cases h
  · cases h
    exact ⟨rfl, by simp⟩

theorem decodeReply_flag (a s : UInt32) (p : Int32) :
    (decodeReply w record rpc_b a s p).print_it = (decodeReply w record rpc_b a s p).kind.flag p ∧
      ∀ kind printed, .decision kind printed ∉ (decodeReply w record rpc_b a s p).events := by
  unfold decodeReply
  simp only
  split
  · exact ⟨rfl, by simp⟩
  · exact ⟨rfl, by simp⟩

theorem decodeCall_error {p : Int32} {ev : List Event} (h : decodeCall w record rpc_b p = .error ev) :
    ∀ kind printed, .decision kind printed ∉ ev := by
  unfold decodeCall at h
  simp only at h
  split at h
  · cases h; simp
  · cases h

theorem decodeCall_cases (w : World) (record : NfsPkt) (rpc_b : Ptr) (x y : Int32) :
    (∃ ev, decodeCall w record rpc_b x = .error ev ∧ decodeCall w record rpc_b y = .error ev) ∨
      ∃ d d', decodeCall w record rpc_b x = .ok d ∧ decodeCall w record rpc_b y = .ok d' ∧ d'.kind = .call := by
  unfold decodeCall
  simp only
  split
  · exact .inl ⟨_, rfl, rfl⟩
  · exact .inr ⟨_, _, rfl, rfl, rfl⟩

theorem finishMessage_decided {P : Int32 → Prop} (rh : RpcHeader) (rh_len : UInt32) {d : Decoded} {p : Int32} (hp : P p)
    (hd : d.print_it = d.kind.flag p ∧ ∀ kind printed, .decision kind printed ∉ d.events) :
    Decided P (finishMessage env rh rh_len l d).events := by
  intro kind printed hm
  unfold finishMessage printEvents at hm
  simp only at hm
  rcases List.mem_append.mp hm with hm | hm
  · exact absurd hm (hd.2 kind printed)
  rcases List.mem_cons.mp hm with hm | hm
  · cases hm
    exact ⟨p, hp, by rw [hd.1]⟩
  · split at hm
    · simp at hm
    · simp at hm

theorem notDecision_header (bp : Ptr) (n m : UInt32) (o : Option UInt32) :
    ∀ kind printed, Event.decision kind printed ∉ Event.rpcHeader bp n m :: (o.map Event.notAuthUnix).toList := by
  intro kind printed
  cases o <;> simp

theorem notDecision_free (l : Locals) : ∀ kind printed, Event.decision kind printed ∉ freeReassembly l := by
  intro kind printed
  unfold freeReassembly
  cases l.reassemblyBuffer <;> simp

theorem rpcMessage_decided {P : Int32 → Prop} (hp : P (ind.print_it l.cnt)) : Decided P (rpcMessage ind env w l).events := by
  have hev := notDecision_header l.rpc_b l.rpc_len (l.tot_len - l.consumed) l.rpcHeader.notUnix
  have hev' : Decided P _ := .of_none hev
  unfold rpcMessage
  simp only
  split
  · refine (hev'.append ?_).append (.of_none (notDecision_free l))
    split
    · exact .of_none (by simp)
    · exact .of_none (by simp)
  split
  · exact hev'.append (.of_none (notDecision_free l))
  split
  · exact hev'
  split
  · exact hev'
  split
  · split
    · rename_i ev' he
      exact hev'.append (.of_none (decodeCall_error he))
    · rename_i d hd
      exact hev'.append (finishMessage_decided _ _ hp (decodeCall_flag hd))
  · exact hev'.append (finishMessage_decided _ _ hp (decodeReply_flag _ _ _))

theorem notDecision_freeBuffers (freed : List (Node TcpFragment)) :
    ∀ kind printed, Event.decision kind printed ∉ freeBuffers freed := by
  intro kind printed hm
  obtain ⟨n, _, hn⟩ := List.mem_map.mp hm
  cases hn

theorem tcpSegment_notDecision : ∀ kind printed, Event.decision kind printed ∉ (tcpSegment ind env w l).events := by
  intro kind printed hm
  unfold tcpSegment at hm
  simp only at hm
  split at hm
  · split at hm
    · simp at hm
    split at hm
    · simp at hm
    split at hm
    · simp at hm
    · rcases List.mem_append.mp hm with hm | hm
      · simp at hm
      · exact notDecision_freeBuffers _ _ _ hm
  · rename_i n tcp _
    generalize (if env.th_seq - n.val.firstSeq + (env.length - l.i_len - l.h_len) > n.val.rpc_len then n.val.rpc_len
      else env.th_seq - n.val.firstSeq + (env.length - l.i_len - l.h_len)) = last at hm
    split at hm
    · simp at hm
    split at hm
    · simp at hm
    · rcases List.mem_append.mp hm with hm | hm
      · simp at hm
      · exact notDecision_freeBuffers _ _ _ hm

theorem Decided.andThen {P : Int32 → Prop} {o : Out} {k : World → Locals → Out} (ho : Decided P o.events)
    (hk : ∀ w l, Decided P (k w l).events) : Decided P (o.andThen k).events := by
  unfold Out.andThen
  split
  · exact ho.append (hk _ _)
  · exact ho

theorem loop_decided {P : Int32 → Prop} (hp : ∀ n, P (ind.print_it n)) (fuel : Nat) :
    ∀ w l, Decided P (loop ind env fuel w l).events := by
  induction fuel with
  | zero => intro w l; exact .of_none (by simp [loop])
  | succ fuel ih =>
    intro w l
    unfold loop
    split
    · refine Decided.andThen ?_ ih
      unfold loopBody
      split
      · exact Decided.andThen (.of_none tcpSegment_notDecision) fun w l => rpcMessage_decided (hp l.cnt)
      · exact rpcMessage_decided (hp _)
    · exact .of_none (by simp)

theorem finishPacket_decided {P : Int32 → Prop} {o : Out} (h : Decided P o.events) : Decided P (finishPacket record o).events := by
  unfold finishPacket
  split
  · exact h.append (.of_none (notDecision_free _))
  · exact h
  · exact h
  · exact h

/-- Whether a message is printed is settled by its kind and the value `print_it` had. -/
theorem processPacket_decided {P : Int32 → Prop} (hp : ∀ n, P (ind.print_it n)) (w : World) (h : Packet) (record : NfsPkt) :
    Decided P (processPacket ind w h record).events := by
  unfold processPacket
  split
  · exact .of_none (by simp)
  · exact finishPacket_decided (loop_decided hp _ _ _)

/-! ## The messages that get there -/

/-- The messages whose decision is among `es`. -/
def kinds (es : List Event) : List PrintCase :=
  es.filterMap fun e => match e with
    | .decision kind _ => some kind
    | _ => none

theorem mem_kinds {es : List Event} {kind : PrintCase} : kind ∈ kinds es ↔ ∃ printed, .decision kind printed ∈ es := by
  constructor
  · intro hk
    obtain ⟨e, he, hek⟩ := List.mem_filterMap.mp hk
    cases e with
    | decision k printed => cases hek; exact ⟨printed, he⟩
    | _ => cases hek
  · rintro ⟨printed, hm⟩
    exact List.mem_filterMap.mpr ⟨_, hm, rfl⟩

theorem kinds_append (xs ys : List Event) : kinds (xs ++ ys) = kinds xs ++ kinds ys := List.filterMap_append

theorem kinds_of_none {es : List Event} (h : ∀ kind printed, .decision kind printed ∉ es) : kinds es = [] := by
  refine List.eq_nil_iff_forall_not_mem.mpr fun kind hk => ?_
  obtain ⟨printed, hm⟩ := mem_kinds.mp hk
  exact h kind printed hm

theorem kinds_finishMessage (rh : RpcHeader) (rh_len : UInt32) {d : Decoded}
    (hd : ∀ kind printed, .decision kind printed ∉ d.events) : kinds (finishMessage env rh rh_len l d).events = [d.kind] := by
  unfold finishMessage printEvents
  simp only
  rw [kinds_append, kinds_of_none hd, List.nil_append]
  split
  · rfl
  · rfl

theorem decodeReply_kind (a s : UInt32) (p : Int32) : (decodeReply w record rpc_b a s p).kind =
    .reply (rpc_b.word 8) a (hashLookupXid w.xid record.secs (rpc_b.word 0) record.dstHost record.dstPort).1.isSome := by
  unfold decodeReply
  simp only
  split
  · rename_i xid hl
    rw [hl]; rfl
  · rename_i n xid hl
    rw [hl]; rfl

theorem printCase_none (h : l.rpcHeader.rc ≤ 0 ∨ l.consumed + l.rpcHeader.rc.toUInt32 ≥ l.tot_len) : l.printCase w = none :=
  if_pos h

theorem printCase_call (h : ¬(l.rpcHeader.rc ≤ 0 ∨ l.consumed + l.rpcHeader.rc.toUInt32 ≥ l.tot_len))
    (hdir : l.rpcHeader.dir = CALL) : l.printCase w = match decodeCall w l.record l.rpc_b 0 with
      | .error _ => none
      | .ok _ => some .call :=
  (if_neg h).trans (if_pos hdir)

theorem printCase_reply (h : ¬(l.rpcHeader.rc ≤ 0 ∨ l.consumed + l.rpcHeader.rc.toUInt32 ≥ l.tot_len))
    (hdir : l.rpcHeader.dir ≠ CALL) : l.printCase w =
      some (.reply (l.rpc_b.word 8) (l.pp.word (l.consumed + l.rpcHeader.rc.toUInt32))
        (hashLookupXid w.xid l.record.secs (l.rpc_b.word 0) l.record.dstHost l.record.dstPort).1.isSome) :=
  (if_neg h).trans (if_neg hdir)

/-- One iteration reaches the decision with the message it found, or not at all. -/
theorem kinds_rpcMessage : kinds (rpcMessage ind env w l).events = (l.printCase w).toList := by
  have hev := kinds_of_none (notDecision_header l.rpc_b l.rpc_len (l.tot_len - l.consumed) l.rpcHeader.notUnix)
  have hfree := kinds_of_none (notDecision_free l)
  unfold rpcMessage
  simp only
  split
  · rename_i hz
    rw [printCase_none (.inl (by rw [hz]; decide)), kinds_append, kinds_append, hev, hfree]
    split
    · rfl
    · rfl
  rename_i hz
  split
  · rename_i hneg
    rw [printCase_none (.inl (Int32.le_of_lt hneg)), kinds_append, hev, hfree]; rfl
  rename_i hneg
  split
  · rename_i hnull
    rw [printCase_none (.inr (UInt32.le_of_eq hnull.1.symm)), hev]; rfl
  split
  · rename_i hge
    rw [printCase_none (.inr hge), hev]; rfl
  rename_i hge
  have hpos : ¬(l.rpcHeader.rc ≤ 0 ∨ l.consumed + l.rpcHeader.rc.toUInt32 ≥ l.tot_len) := by
    rintro (hle | hge')
    · exact hneg (Int32.lt_of_le_of_ne hle hz)
    · exact hge hge'
  split
  · rename_i hdir
    rw [printCase_call hpos hdir]
    rcases decodeCall_cases w l.record l.rpc_b 0 (ind.print_it l.cnt) with ⟨ev, h0, hq⟩ | ⟨_, d, h0, hq, hk⟩
    · rw [h0, hq, kinds_append, hev, kinds_of_none (decodeCall_error hq)]; rfl
    · rw [h0, hq, kinds_append, hev, kinds_finishMessage _ _ (decodeCall_flag hq).2, hk]; rfl
  · rename_i hdir
    rw [printCase_reply hpos hdir, kinds_append, hev, kinds_finishMessage _ _ (decodeReply_flag _ _ _).2, decodeReply_kind]
    rfl

theorem kinds_andThen (o : Out) (k : World → Locals → Out) : kinds (o.andThen k).events =
    kinds o.events ++ match o.flow with
      | .next l => kinds (k o.world l).events
      | _ => [] := by
  unfold Out.andThen
  cases o.flow with
  | next l => exact kinds_append _ _
  | _ => exact (List.append_nil _).symm

theorem kinds_loop (fuel : Nat) : ∀ w l,
    kinds (loop ind env fuel w l).events = (messages ind env fuel w l).filterMap fun (w, l) => l.printCase w := by
  induction fuel with
  | zero => intro w l; rfl
  | succ fuel ih =>
    intro w l
    unfold loop messages
    split
    · unfold loopBody
      simp only
      generalize { l with cnt := l.cnt + 1 } = l
      -- a datagram is as a segment that holds its message and nothing else
      have hstep : (if env.proto = IPPROTO_TCP then (tcpSegment ind env w l).andThen (rpcMessage ind env)
          else rpcMessage ind env w l) =
          (if env.proto = IPPROTO_TCP then tcpSegment ind env w l else ⟨[], w, .next l⟩).andThen (rpcMessage ind env) := by
        split
        · rfl
        · rfl
      rw [hstep]
      have hseg : kinds (if env.proto = IPPROTO_TCP then tcpSegment ind env w l else ⟨[], w, .next l⟩).events = [] := by
        split
        · exact kinds_of_none tcpSegment_notDecision
        · rfl
      generalize (if env.proto = IPPROTO_TCP then tcpSegment ind env w l else ⟨[], w, .next l⟩) = o at hseg ⊢
      cases hf : o.flow with
      | next l' =>
        rw [andThen_next hf, kinds_andThen]
        simp only
        rw [kinds_append, hseg, kinds_rpcMessage, List.nil_append]
        rw [List.filterMap_cons]
        cases (rpcMessage ind env o.world l').flow with
        | next l =>
          simp only
          rw [ih]
          cases l'.printCase o.world <;> rfl
        | _ => cases l'.printCase o.world <;> rfl
      | _ =>
        have hs : ∀ l, o.flow ≠ .next l := by simp [hf]
        rw [andThen_stop hs, andThen_stop hs, hseg]; rfl
    · rfl

theorem kinds_finishPacket (o : Out) : kinds (finishPacket record o).events = kinds o.events := by
  unfold finishPacket
  split
  · simp only
    rw [kinds_append, kinds_of_none (notDecision_free _), List.append_nil]
  · rfl
  · rfl
  · rfl

theorem printCases_eq (malloc : Nat → Ptr) (w : World) (h : Packet) (record : NfsPkt) :
    printCases malloc w h record = kinds (processPacket ⟨malloc, fun _ => 0⟩ w h record).events := by
  unfold printCases processPacket
  cases headers h record with
  | error _ => rfl
  | ok r =>
    obtain ⟨env, l⟩ := r
    show List.filterMap _ _ = _
    rw [kinds_finishPacket, kinds_loop]

/-! ## Two runs -/

section TwoRuns

variable {malloc : Nat → Ptr} (p q : UInt32 → Int32)

/-- `print_it` is assigned for every message among `es` that gets to the decision. -/
def AllAssigned (es : List Event) : Prop := ∀ kind printed, .decision kind printed ∈ es → kind.Assigned

theorem decodeReply_assigned (a s : UInt32) (x y : Int32) (h : (decodeReply w record rpc_b a s y).kind.Assigned) :
    decodeReply w record rpc_b a s x = decodeReply w record rpc_b a s y := by
  unfold decodeReply at h ⊢
  simp only at h ⊢
  split
  · rfl
  · rename_i n xid hl
    rw [hl] at h
    have hrej : rpc_b.word 8 ≠ 0 ∨ a ≠ 0 := by
      by_contra hc
      rw [not_or, not_not, not_not] at hc
      exact absurd (h.mp hc) (by decide)
    rw [if_pos hrej, if_pos hrej]

/-- An iteration whose message has it assigned does the same in both runs. -/
theorem rpcMessage_assigned (h : AllAssigned (rpcMessage ⟨malloc, q⟩ env w l).events) :
    rpcMessage ⟨malloc, p⟩ env w l = rpcMessage ⟨malloc, q⟩ env w l := by
  unfold rpcMessage at h ⊢
  simp only at h ⊢
  split
  · rfl
  split
  · rfl
  split
  · rfl
  split
  · rfl
  rename_i h0 h1 h2 h3
  rw [if_neg h0, if_neg h1, if_neg h2, if_neg h3] at h
  split
  · rename_i hdir
    rw [if_pos hdir] at h
    rcases decodeCall_cases w l.record l.rpc_b (p l.cnt) (q l.cnt) with
      ⟨ev, hp, hq⟩ | ⟨_, d, _, hq, hkind⟩
    · rw [hp, hq]
    · rw [hq] at h
      -- a call's decision is there, and it is not assigned
      have hcall := h d.kind _ (List.mem_append_right _ (List.mem_append_right _ (List.mem_cons_self ..)))
      rw [hkind] at hcall
      exact hcall.elim
  · rename_i hdir
    rw [if_neg hdir] at h
    have hk := h _ _ (List.mem_append_right _ (List.mem_append_right _ (List.mem_cons_self ..)))
    rw [decodeReply_assigned _ _ (p l.cnt) (q l.cnt) hk]

theorem andThen_assigned {o o' : Out} {k k' : World → Locals → Out} (ho : AllAssigned o'.events → o = o')
    (hk : ∀ w l, AllAssigned (k' w l).events → k w l = k' w l) (h : AllAssigned (o'.andThen k').events) :
    o.andThen k = o'.andThen k' := by
  cases hf : o'.flow with
  | next l =>
    rw [andThen_next hf] at h ⊢
    have he : o = o' := ho fun kind printed hm => h kind printed (List.mem_append_left _ hm)
    rw [he, andThen_next hf, hk _ _ fun kind printed hm => h kind printed (List.mem_append_right _ hm)]
  | done _ =>
    have hs : ∀ l, o'.flow ≠ .next l := by rw [hf]; nofun
    rw [andThen_stop hs] at h ⊢
    rw [ho h, andThen_stop hs]
  | ret _ _ =>
    have hs : ∀ l, o'.flow ≠ .next l := by rw [hf]; nofun
    rw [andThen_stop hs] at h ⊢
    rw [ho h, andThen_stop hs]
  | abort =>
    have hs : ∀ l, o'.flow ≠ .next l := by rw [hf]; nofun
    rw [andThen_stop hs] at h ⊢
    rw [ho h, andThen_stop hs]

theorem loop_assigned (fuel : Nat) : ∀ w l, AllAssigned (loop ⟨malloc, q⟩ env fuel w l).events →
    loop ⟨malloc, p⟩ env fuel w l = loop ⟨malloc, q⟩ env fuel w l := by
  induction fuel with
  | zero => intro w l _; rfl
  | succ fuel ih =>
    intro w l h
    unfold loop at h ⊢
    split
    · rename_i hlt
      rw [if_pos hlt] at h
      refine andThen_assigned (fun hb => ?_) ih h
      unfold loopBody at hb ⊢
      split
      · rename_i hp
        rw [if_pos hp] at hb
        exact andThen_assigned (fun _ => rfl) (fun w l => rpcMessage_assigned p q) hb
      · rename_i hp
        rw [if_neg hp] at hb
        exact rpcMessage_assigned p q hb
    · rfl

theorem processPacket_assigned {h : Packet} (hall : AllAssigned (processPacket ⟨malloc, q⟩ w h record).events) :
    processPacket ⟨malloc, p⟩ w h record = processPacket ⟨malloc, q⟩ w h record := by
  unfold processPacket at hall ⊢
  split
  · rfl
  · rename_i env l hh
    rw [hh] at hall
    have hloop : AllAssigned (finishPacket record (loop ⟨malloc, q⟩ env (h.caplen.toNat + 3) w l)).events := hall
    rw [loop_assigned p q _ w l fun kind printed hm => hloop kind printed ?_]
    unfold finishPacket
    split
    · exact List.mem_append_left _ hm
    · exact hm
    · exact hm
    · exact hm

end TwoRuns

/-- The traffic decides what is printed, and as it should, iff each message that gets to the
    decision is a reply that was accepted or is matched with its call, but not both. -/
theorem printsByTraffic_iff (malloc : Nat → Ptr) (w : World) (h : Packet) (record : NfsPkt) :
    PrintsByTraffic malloc w h record ↔ ∀ kind ∈ printCases malloc w h record, kind.Assigned := by
  have hzero : Decided (fun x => x = 0) (processPacket ⟨malloc, fun _ => 0⟩ w h record).events :=
    processPacket_decided (fun _ => rfl) w h record
  constructor
  · rintro ⟨_, hwant⟩ kind hk
    rw [printCases_eq] at hk
    obtain ⟨printed, he⟩ := mem_kinds.mp hk
    obtain ⟨x, rfl, hx⟩ := hzero kind printed he
    have hw := hwant _ kind printed he
    cases kind with
    | call => exact absurd (hw.mpr trivial) (by rw [hx]; decide)
    | reply rp acc known =>
      cases known with
      | false => exact ⟨fun _ => rfl, fun _ => hw.mp (by rw [hx]; rfl)⟩
      | true =>
        rw [flag_known_zero] at hx
        refine ⟨fun hacc => ?_, nofun⟩
        rw [hx] at hw
        exact absurd (hw.mpr hacc) (by decide)
  · intro hall
    have hassigned : AllAssigned (processPacket ⟨malloc, fun _ => 0⟩ w h record).events := fun kind printed hm =>
      hall kind (by rw [printCases_eq]; exact mem_kinds.mpr ⟨_, hm⟩)
    have same : ∀ p : UInt32 → Int32, processPacket ⟨malloc, p⟩ w h record = processPacket ⟨malloc, fun _ => 0⟩ w h record :=
      fun p => processPacket_assigned p _ hassigned
    refine ⟨fun p q => by rw [same p, same q], fun p kind printed hm => ?_⟩
    rw [same p] at hm
    obtain ⟨x, rfl, hx⟩ := hzero kind printed hm
    have ha := hassigned kind printed hm
    cases kind with
    | call => exact ha.elim
    | reply rp acc known =>
      cases known with
      | false =>
        rw [hx]
        exact ⟨fun _ => ha.mpr rfl, fun _ => rfl⟩
      | true =>
        rw [hx, flag_known_zero]
        exact ⟨nofun, fun hacc => absurd (ha.mp hacc) (by decide)⟩

/-- A call is printed when `print_it` happens to be 1 and not when it happens to be 0. -/
theorem call_printed_by_chance :
    ∃ (c : Conn) (seq : UInt32) (call : List UInt8),
      ¬ PrintsByTraffic Indet.zero.malloc World.init (tcpPacket 100 c seq (Rec.bytes ⟨true, call⟩)) NfsPkt.zero := by
  refine ⟨⟨1, 2, 3, 4⟩, 0, callBytes 7 1 [0, 0, 0, 0], fun ⟨same, _⟩ => ?_⟩
  have h0 : (lines (processPacket ⟨Indet.zero.malloc, fun _ => 0⟩ World.init
      (tcpPacket 100 ⟨1, 2, 3, 4⟩ 0 (Rec.bytes ⟨true, callBytes 7 1 [0, 0, 0, 0]⟩)) NfsPkt.zero).events).length = 0 := by
    decide +kernel
  have h1 : (lines (processPacket ⟨Indet.zero.malloc, fun _ => 1⟩ World.init
      (tcpPacket 100 ⟨1, 2, 3, 4⟩ 0 (Rec.bytes ⟨true, callBytes 7 1 [0, 0, 0, 0]⟩)) NfsPkt.zero).events).length = 2 := by
    decide +kernel
  rw [same (fun _ => 0) (fun _ => 1), h1] at h0
  exact absurd h0 (by decide)

end Nfsdump.Record
