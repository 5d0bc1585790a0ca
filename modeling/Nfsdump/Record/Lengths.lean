/-
  Nfsdump.Record.Lengths — the lengths the decoders' bounds checks start from: `maxlen` of
  `getRpcHeader`, `actual_len` of `printRecord`, and `payload_len`, which `printRecord` is
  given as well and `consumed` is moved by.

  Each is a 32-bit difference taken from `consumed`, which has by then been moved past a
  record mark, a header the message chooses the length of, and a reply's two status words.
  Only the move past the header is checked. Proved (`lengths_exact_iff`): in any iteration
  on any packet and tables the lengths are the integers they stand for iff each of the three
  moves stays inside what there is (`Fits`); a mark that is cut off breaks that
  (`cut_mark_wraps`).
-/

import Nfsdump.Record.Progress

namespace Nfsdump.Record

open ChainTable Wire

variable {ind : Indet} {env : Env} {w w' : World} {l l' : Locals} {h : Packet} {record : NfsPkt}

/-! ## Lengths passed on -/

/-- The lengths given to `getRpcHeader`. -/
def maxlens (es : List Event) : List UInt32 :=
  es.filterMap fun e => match e with
    | .rpcHeader _ _ maxlen => some maxlen
    | _ => none

/-- The lengths given to `printRecord`. -/
def actual_lens (es : List Event) : List UInt32 :=
  es.filterMap fun e => match e with
    | .printRecord _ _ _ _ actual_len => some actual_len
    | _ => none

/-- The record lengths given to `printRecord`. -/
def payload_lens (es : List Event) : List UInt32 :=
  es.filterMap fun e => match e with
    | .printRecord _ _ payload_len _ _ => some payload_len
    | _ => none

@[simp] theorem maxlens_append (xs ys : List Event) : maxlens (xs ++ ys) = maxlens xs ++ maxlens ys := List.filterMap_append

@[simp] theorem actual_lens_append (xs ys : List Event) : actual_lens (xs ++ ys) = actual_lens xs ++ actual_lens ys :=
  List.filterMap_append

@[simp] theorem payload_lens_append (xs ys : List Event) : payload_lens (xs ++ ys) = payload_lens xs ++ payload_lens ys :=
  List.filterMap_append

/-- None is given any. -/
structure Unsized (es : List Event) : Prop where
  maxlen : maxlens es = []
  actual_len : actual_lens es = []
  payload_len : payload_lens es = []

/-- The same lengths are given. -/
structure SameSizes (es es' : List Event) : Prop where
  maxlen : maxlens es = maxlens es'
  actual_len : actual_lens es = actual_lens es'
  payload_len : payload_lens es = payload_lens es'

theorem Unsized.front {xs : List Event} (hx : Unsized xs) (ys : List Event) : SameSizes (xs ++ ys) ys where
  maxlen := by rw [maxlens_append, hx.maxlen]; rfl
  actual_len := by rw [actual_lens_append, hx.actual_len]; rfl
  payload_len := by rw [payload_lens_append, hx.payload_len]; rfl

theorem Unsized.append {xs ys : List Event} (hx : Unsized xs) (hy : Unsized ys) : Unsized (xs ++ ys) where
  maxlen := (hx.front ys).maxlen.trans hy.maxlen
  actual_len := (hx.front ys).actual_len.trans hy.actual_len
  payload_len := (hx.front ys).payload_len.trans hy.payload_len

theorem unsized_freeBuffers (freed : List (Node TcpFragment)) : Unsized (freeBuffers freed) := by
  unfold freeBuffers
  constructor
  · rw [maxlens, List.filterMap_map]
    exact List.filterMap_eq_nil_iff.mpr fun _ _ => rfl
  · rw [actual_lens, List.filterMap_map]
    exact List.filterMap_eq_nil_iff.mpr fun _ _ => rfl
  · rw [payload_lens, List.filterMap_map]
    exact List.filterMap_eq_nil_iff.mpr fun _ _ => rfl

theorem unsized_free (l : Locals) : Unsized (freeReassembly l) := by
  unfold freeReassembly
  cases l.reassemblyBuffer with
  | none => exact ⟨rfl, rfl, rfl⟩
  | some id => exact ⟨rfl, rfl, rfl⟩

theorem sized_headerEvents (l : Locals) :
    maxlens l.headerEvents = [l.tot_len - l.consumed] ∧ actual_lens l.headerEvents = [] ∧ payload_lens l.headerEvents = [] := by
  unfold Locals.headerEvents
  cases l.rpcHeader.notUnix with
  | none => exact ⟨rfl, rfl, rfl⟩
  | some flavor => exact ⟨rfl, rfl, rfl⟩

/-! ## The message of an iteration -/

/-- A message to be looked at: it starts at byte `start` of the `total` there are. -/
structure Message where
  start : Nat
  total : Nat
  world : World
  locals : Locals

/-- What there is to look at once the segment is dealt with: in the packet, behind a mark in
    the packet, or in a reassembly buffer that the segment completes. -/
def message (h : Packet) (env : Env) (w : World) (l : Locals) : Option Message :=
  if env.proto = IPPROTO_TCP then
    match lookup TcpTable.scheme w.tcp env.key with
    | (none, _) =>
      if l.announced ≤ env.length - l.i_len - (l.h_len + 4) then
        some ⟨l.consumed.toNat + 4, h.caplen.toNat, w, l.counted.afterMark⟩
      else none
    | (some n, tcp) =>
      if env.offset n.val + (env.length - l.i_len - l.h_len) < n.val.rpc_len then none
      else some ⟨0, n.val.rpc_len.toNat, { w with tcp := tcp },
        l.counted.assembled (env.filled l n.val (n.val.rpc_len - env.offset n.val)) n.val.rpc_len⟩
  else some ⟨l.consumed.toNat, h.caplen.toNat, w, l.counted⟩

/-- A segment that leaves no message is the end of the packet. -/
theorem tcpSegment_waits (ind : Indet) (l : Locals) (hL : ∀ n, (lookup TcpTable.scheme w.tcp env.key).1 = some n →
      env.offset n.val + (env.length - l.i_len - l.h_len) < n.val.rpc_len)
    (hlen : (lookup TcpTable.scheme w.tcp env.key).1 = none → ¬ l.announced ≤ env.length - l.i_len - (l.h_len + 4)) :
    Unsized (tcpSegment ind env w l).events ∧ ∀ l', (tcpSegment ind env w l).flow ≠ .next l' := by
  unfold Locals.announced at hlen
  unfold tcpSegment tcpLookup
  simp only [show (⟨env.th_seq, env.srcHost, env.src_port.toUInt16, env.dstHost, env.dst_port.toUInt16⟩ : TcpKey) = env.key
    from rfl]
  split
  · rename_i tcp hl
    rw [hl] at hlen
    rw [if_neg (hlen rfl)]
    split
    · exact ⟨⟨rfl, rfl, rfl⟩, by simp⟩
    split
    · exact ⟨⟨rfl, rfl, rfl⟩, by simp⟩
    · exact ⟨Unsized.append ⟨rfl, rfl, rfl⟩ (unsized_freeBuffers _), by simp⟩
  · rename_i n tcp hl
    have hlt := hL n (by rw [hl])
    unfold Env.offset at hlt
    rw [if_neg (UInt32.lt_asymm hlt), if_neg (UInt32.ne_of_lt hlt)]
    split
    · exact ⟨⟨rfl, rfl, rfl⟩, by simp⟩
    · exact ⟨Unsized.append ⟨rfl, rfl, rfl⟩ (unsized_freeBuffers _), by simp⟩

/-- Lengths are passed on for the iteration's message, and for nothing else; it goes on as the
    message's part does. -/
theorem loopBody_sizes (ind : Indet) (h : Packet) (env : Env) (w : World) (l : Locals) :
    match message h env w l with
    | none => Unsized (loopBody ind env w l).events
    | some m => SameSizes (loopBody ind env w l).events (rpcMessage ind env m.world m.locals).events ∧
        (loopBody ind env w l).flow = (rpcMessage ind env m.world m.locals).flow := by
  have hbody := loopBody_eq ind env w l
  unfold message
  by_cases hp : env.proto = IPPROTO_TCP
  · rw [if_pos hp] at hbody
    rw [if_pos hp, hbody]
    rcases hl : lookup TcpTable.scheme w.tcp env.key with ⟨found, tcp⟩
    cases found with
    | none =>
      have hn : (lookup TcpTable.scheme w.tcp env.key).1 = none := by rw [hl]
      by_cases hlen : l.announced ≤ env.length - l.i_len - (l.h_len + 4)
      · simp only [if_pos hlen]
        rw [tcpSegment_sole ind (l := l.counted) hn hlen, andThen_next rfl]
        exact ⟨Unsized.front ⟨rfl, rfl, rfl⟩ _, rfl⟩
      · simp only [if_neg hlen]
        obtain ⟨hsize, hstop⟩ := tcpSegment_waits ind l.counted (fun n hs => by rw [hn] at hs; cases hs)
          (fun _ => hlen)
        rw [andThen_stop hstop]
        exact hsize
    | some n =>
      have hn : (lookup TcpTable.scheme w.tcp env.key).1 = some n := by rw [hl]
      by_cases hlt : env.offset n.val + (env.length - l.i_len - l.h_len) < n.val.rpc_len
      · simp only [if_pos hlt]
        obtain ⟨hsize, hstop⟩ := tcpSegment_waits ind l.counted
          (fun n' hs => by rw [hn] at hs; cases hs; exact hlt) (fun hs => by rw [hn] at hs; cases hs)
        rw [andThen_stop hstop]
        exact hsize
      · simp only [if_neg hlt]
        rw [tcpSegment_complete ind (l := l.counted) hn hlt, andThen_next rfl, hl]
        exact ⟨Unsized.front ⟨rfl, rfl, rfl⟩ _, rfl⟩
  · rw [if_neg hp] at hbody
    rw [if_neg hp, hbody]
    exact ⟨⟨rfl, rfl, rfl⟩, rfl⟩

/-! ## The message's own lengths -/

/-- The bytes taken for its header, with the two status words of a reply. -/
def Locals.headerBytes (l : Locals) : Nat := l.rpcHeader.rc.toUInt32.toNat + if l.rpcHeader.dir = CALL then 0 else 8

/-- `rpc_len - rh_len` as `finishMessage` has it. -/
def Locals.payload_len (l : Locals) : UInt32 :=
  l.rpc_len - (l.rpcHeader.rc.toUInt32 + if l.rpcHeader.dir = CALL then 0 else 8)

/-- A message that decodes is printed: a call if the memory of `print_it` says so and the
    table takes it, a reply if nothing waits for it or it is accepted. -/
def Locals.Printed (l : Locals) (w : World) (print_it : Int32) : Prop :=
  if l.rpcHeader.dir = CALL then print_it ≠ 0 ∧ ∃ d, decodeCall w l.record l.rpc_b print_it = .ok d
  else (lookup XidTable.scheme w.xid ⟨l.rpc_b.word 0, l.record.dstHost, l.record.dstPort⟩).1 = none ∨
    (l.rpc_b.word 8 = 0 ∧ l.pp.word (l.consumed + l.rpcHeader.rc.toUInt32) = 0 ∧ print_it ≠ 0)

theorem decode_sizes {d : Decoded} {print_it : Int32} (hok : l.decode w print_it = .ok d) :
    Unsized d.events ∧ d.statusBytes = (if l.rpcHeader.dir = CALL then 0 else 8) ∧
      (d.print_it ≠ 0 ↔ l.Printed w print_it) := by
  unfold Locals.Printed
  unfold Locals.decode at hok
  split at hok
  · rename_i hcall
    simp only [if_pos hcall]
    have hdecode := hok
    unfold decodeCall at hok
    simp only at hok
    split at hok
    · cases hok
    · cases hok
      exact ⟨⟨rfl, rfl, rfl⟩, rfl, fun hp => ⟨hp, _, hdecode⟩, fun hp => hp.1⟩
  · rename_i hreply
    simp only [if_neg hreply]
    cases hok
    unfold decodeReply hashLookupXid
    simp only
    rcases lookup XidTable.scheme w.xid ⟨l.rpc_b.word 0, l.record.dstHost, l.record.dstPort⟩ with ⟨found, xid⟩
    cases found with
    | none => exact ⟨⟨rfl, rfl, rfl⟩, rfl, fun _ => Or.inl rfl, fun _ => (by decide : (1 : Int32) ≠ 0)⟩
    | some p =>
      refine ⟨⟨rfl, rfl, rfl⟩, rfl, ?_⟩
      simp only [reduceCtorEq, false_or]
      split
      · rename_i hbad
        refine ⟨fun hp => absurd rfl hp, fun hp => ?_⟩
        rcases hbad with hbad | hbad
        · exact absurd hp.1 hbad
        · exact absurd hp.2.1 hbad
      · rename_i hgood
        rw [not_or, not_not, not_not] at hgood
        exact ⟨fun hp => ⟨hgood.1, hgood.2, hp⟩, fun hp => hp.2.2⟩

theorem lens_of_quiet {es : List Event} (hq : decoded es = []) : actual_lens es = [] ∧ payload_lens es = [] := by
  constructor
  · refine List.filterMap_eq_nil_iff.mpr fun e he => ?_
    have hno := List.filter_eq_nil_iff.mp hq e he
    cases e with
    | printRecord => exact absurd rfl hno
    | _ => rfl
  · refine List.filterMap_eq_nil_iff.mpr fun e he => ?_
    have hno := List.filter_eq_nil_iff.mp hq e he
    cases e with
    | printRecord => exact absurd rfl hno
    | _ => rfl

theorem maxlens_rpcMessage (ind : Indet) (env : Env) (w : World) (l : Locals) :
    maxlens (rpcMessage ind env w l).events = [l.tot_len - l.consumed] := by
  have hhead : maxlens l.headerEvents = [l.tot_len - l.consumed] := (sized_headerEvents l).1
  by_cases hd : l.Decodes
  · rw [rpcMessage_of_decodes ind env w l hd]
    cases he : l.decode w (ind.print_it l.cnt) with
    | error ev =>
      have hev : maxlens ev = [] := by
        unfold Locals.decode decodeCall at he
        simp only at he
        split at he
        · split at he
          · cases he; rfl
          · cases he
        · cases he
      rw [maxlens_append, hhead, hev]; rfl
    | ok d =>
      simp only
      unfold finishMessage printEvents
      rw [maxlens_append, hhead, maxlens_append, (decode_sizes he).1.maxlen]
      split <;> rfl
  · have hzero : maxlens (if l.cnt > 1 then [Event.rhLenZero l.cnt] else []) = [] := by
      split <;> rfl
    have hstray := rpcMessage_of_stray ind env w l hd
    generalize rpcMessage ind env w l = o at hstray ⊢
    cases hstray with
    | empty =>
      rw [maxlens_append, maxlens_append, (unsized_free l).maxlen, hzero, List.append_nil, List.append_nil]
      exact hhead
    | unread =>
      rw [maxlens_append, (unsized_free l).maxlen, List.append_nil]
      exact hhead
    | null => exact hhead
    | bare => exact hhead

/-- The length given to `printRecord`, if the message is printed. -/
theorem actual_lens_rpcMessage (ind : Indet) (env : Env) (w : World) (l : Locals) (x : UInt32) :
    x ∈ actual_lens (rpcMessage ind env w l).events ↔
      l.Decodes ∧ l.Printed w (ind.print_it l.cnt) ∧ x = l.tot_len - (l.consumed + UInt32.ofNat l.headerBytes) := by
  by_cases hd : l.Decodes
  · rw [rpcMessage_of_decodes ind env w l hd]
    cases he : l.decode w (ind.print_it l.cnt) with
    | error ev =>
      unfold Locals.decode at he
      split at he
      · rename_i hcall
        have hev : actual_lens ev = [] := by
          have hcopy := he
          unfold decodeCall at hcopy
          simp only at hcopy
          split at hcopy
          · cases hcopy; rfl
          · cases hcopy
        rw [actual_lens_append, (sized_headerEvents l).2.1, hev]
        refine ⟨fun hx => (nomatch hx), fun ⟨_, hp, _⟩ => ?_⟩
        unfold Locals.Printed at hp
        rw [if_pos hcall] at hp
        obtain ⟨-, d, hok⟩ := hp
        rw [he] at hok
        cases hok
      · cases he
    | ok d =>
      obtain ⟨hun, hbytes, hprint⟩ := decode_sizes he
      have hat : l.pastHeader.consumed + d.statusBytes = l.consumed + UInt32.ofNat l.headerBytes := by
        show l.consumed + l.rpcHeader.rc.toUInt32 + d.statusBytes = _
        unfold Locals.headerBytes
        rw [hbytes, UInt32.ofNat_add, UInt32.ofNat_toNat, UInt32.add_assoc]
        split <;> rfl
      simp only
      unfold finishMessage
      rw [actual_lens_append, (sized_headerEvents l).2.1, actual_lens_append, hun.actual_len]
      by_cases hp : d.print_it ≠ 0
      · rw [if_pos hp]
        show x ∈ [l.tot_len - (l.pastHeader.consumed + d.statusBytes)] ↔ _
        rw [List.mem_singleton, hat]
        exact ⟨fun hx => ⟨hd, hprint.mp hp, hx⟩, fun hx => hx.2.2⟩
      · rw [if_neg hp]
        exact ⟨fun hx => (nomatch hx), fun ⟨_, hx, _⟩ => absurd (hprint.mpr hx) hp⟩
  · rw [(lens_of_quiet (rpcMessage_stray ind env w l hd).1).1]
    exact ⟨fun hx => (nomatch hx), fun hx => absurd hx.1 hd⟩

/-- The header's bytes as `rh_len` has them at the end. -/
theorem headerBytes_eq (l : Locals) :
    l.rpcHeader.rc.toUInt32 + (if l.rpcHeader.dir = CALL then 0 else 8) = UInt32.ofNat l.headerBytes := by
  unfold Locals.headerBytes
  rw [UInt32.ofNat_add, UInt32.ofNat_toNat]
  split <;> rfl

/-- The record's length is given to `printRecord` as it is computed. -/
theorem payload_lens_rpcMessage (ind : Indet) (env : Env) (w : World) (l : Locals) {x : UInt32}
    (hx : x ∈ payload_lens (rpcMessage ind env w l).events) :
    l.Decodes ∧ (∃ d, l.decode w (ind.print_it l.cnt) = .ok d) ∧ x = l.payload_len := by
  by_cases hd : l.Decodes
  · rw [rpcMessage_of_decodes ind env w l hd] at hx
    cases he : l.decode w (ind.print_it l.cnt) with
    | error ev =>
      rw [he] at hx
      have hev : payload_lens ev = [] := by
        unfold Locals.decode decodeCall at he
        simp only at he
        split at he
        · split at he
          · cases he; rfl
          · cases he
        · cases he
      rw [payload_lens_append, (sized_headerEvents l).2.2, hev] at hx
      cases hx
    | ok d =>
      obtain ⟨hun, hbytes, -⟩ := decode_sizes he
      rw [he] at hx
      simp only at hx
      unfold finishMessage at hx
      rw [payload_lens_append, (sized_headerEvents l).2.2, payload_lens_append, hun.payload_len] at hx
      refine ⟨hd, ⟨d, rfl⟩, ?_⟩
      by_cases hp : d.print_it ≠ 0
      · rw [if_pos hp] at hx
        unfold Locals.payload_len
        rw [← hbytes]
        exact List.mem_singleton.mp hx
      · rw [if_neg hp] at hx
        cases hx
  · rw [(lens_of_quiet (rpcMessage_stray ind env w l hd).1).2] at hx
    cases hx

/-- A message that decodes is stepped past by its record's length. -/
theorem next_rpcMessage (ind : Indet) (env : Env) (w : World) {l : Locals} (hd : l.Decodes) :
    (∀ d, l.decode w (ind.print_it l.cnt) = .ok d → ∃ l', (rpcMessage ind env w l).flow = .next l') ∧
      ∀ l', (rpcMessage ind env w l).flow = .next l' → (∃ d, l.decode w (ind.print_it l.cnt) = .ok d) ∧
        l'.consumed = l.consumed + UInt32.ofNat l.headerBytes + l.payload_len := by
  rw [rpcMessage_of_decodes ind env w l hd]
  cases he : l.decode w (ind.print_it l.cnt) with
  | error ev =>
    refine ⟨fun d h => ?_, fun l' h => ?_⟩
    · cases h
    · cases h
  | ok d =>
    refine ⟨fun _ _ => ⟨_, rfl⟩, fun l' h => ⟨⟨d, rfl⟩, ?_⟩⟩
    obtain ⟨-, hbytes, -⟩ := decode_sizes he
    obtain rfl := Flow.next.inj h
    show l.consumed + l.rpcHeader.rc.toUInt32 + d.statusBytes + (l.rpc_len - (l.rpcHeader.rc.toUInt32 + d.statusBytes)) = _
    rw [Locals.payload_len, hbytes, UInt32.add_assoc l.consumed, headerBytes_eq]

/-! ## Exact lengths -/

/-- A 32-bit difference is the integer it stands for iff it does not wrap. -/
theorem sub_exact_iff (a : UInt32) (n : Nat) : ((a - UInt32.ofNat n).toNat : Int) = a.toNat - n ↔ n ≤ a.toNat := by
  have ha := a.toNat_lt
  rw [UInt32.toNat_sub, UInt32.toNat_ofNat']
  omega

/-- All lengths of the iteration are what they stand for: of the `total` bytes there are,
    those from the header and from the payload on; of the record, those behind the header, which
    `printRecord` is given and a message that decodes is stepped past by. -/
structure LengthsExact (ind : Indet) (h : Packet) (env : Env) (w : World) (l : Locals) : Prop where
  maxlen : ∀ x ∈ maxlens (loopBody ind env w l).events, ∃ m ∈ message h env w l,
    (x.toNat : Int) = m.total - m.start ∧ x.toNat ≤ m.total
  actual_len : ∀ x ∈ actual_lens (loopBody ind env w l).events, ∃ m ∈ message h env w l,
    (x.toNat : Int) = m.total - (m.start + m.locals.headerBytes) ∧ x.toNat ≤ m.total
  payload_len : ∀ x ∈ payload_lens (loopBody ind env w l).events, ∃ m ∈ message h env w l,
    (x.toNat : Int) = m.locals.rpc_len.toNat - m.locals.headerBytes
  step : ∀ m ∈ message h env w l, m.locals.Decodes → ∀ l', (loopBody ind env w l).flow = .next l' →
    ∃ payload_len : UInt32, l'.consumed = m.locals.consumed + UInt32.ofNat m.locals.headerBytes + payload_len ∧
      (payload_len.toNat : Int) = m.locals.rpc_len.toNat - m.locals.headerBytes

/-- What is moved past is there: the mark, the header in the record if the table takes the
    message, and of what is printed the header in the packet. -/
structure Message.Fits (ind : Indet) (m : Message) : Prop where
  mark : m.start ≤ m.total
  record : m.locals.Decodes → (∃ d, m.locals.decode m.world (ind.print_it m.locals.cnt) = .ok d) →
    m.locals.headerBytes ≤ m.locals.rpc_len.toNat
  printed : m.locals.Decodes → m.locals.Printed m.world (ind.print_it m.locals.cnt) → m.start + m.locals.headerBytes ≤ m.total

/-- The iteration's message is where its locals say. -/
theorem message_at (htot : l.tot_len = h.caplen) {m : Message} (hm : message h env w l = some m) :
    m.locals.consumed = UInt32.ofNat m.start ∧ m.locals.tot_len.toNat = m.total := by
  unfold message at hm
  split at hm
  · split at hm
    · split at hm
      · cases hm
        refine ⟨?_, congrArg UInt32.toNat htot⟩
        show l.consumed + 4 = _
        rw [UInt32.ofNat_add, UInt32.ofNat_toNat]
        rfl
      · cases hm
    · split at hm
      · cases hm
      · cases hm
        exact ⟨rfl, rfl⟩
  · cases hm
    exact ⟨UInt32.ofNat_toNat.symm, congrArg UInt32.toNat htot⟩

theorem payload_len_exact_iff (l : Locals) :
    (l.payload_len.toNat : Int) = l.rpc_len.toNat - l.headerBytes ↔ l.headerBytes ≤ l.rpc_len.toNat := by
  unfold Locals.payload_len
  rw [headerBytes_eq]
  exact sub_exact_iff _ _

/-- One iteration. -/
theorem iteration_exact_iff (htot : l.tot_len = h.caplen) :
    LengthsExact ind h env w l ↔ ∀ m ∈ message h env w l, m.Fits ind := by
  have hsizes := loopBody_sizes ind h env w l
  cases hm : message h env w l with
  | none =>
    rw [hm] at hsizes
    refine ⟨fun _ m hm => (nomatch hm), fun _ => ⟨fun x hx => ?_, fun x hx => ?_, fun x hx => ?_, fun m hm' => ?_⟩⟩
    · rw [hsizes.maxlen] at hx; cases hx
    · rw [hsizes.actual_len] at hx; cases hx
    · rw [hsizes.payload_len] at hx; cases hx
    · rw [hm] at hm'; cases hm'
  | some m =>
    rw [hm] at hsizes
    obtain ⟨hstart, htotal⟩ := message_at htot hm
    obtain ⟨hsizes, hflow⟩ := hsizes
    have hmax := hsizes.maxlen.trans (maxlens_rpcMessage ind env m.world m.locals)
    have hact := actual_lens_rpcMessage ind env m.world m.locals
    rw [← hsizes.actual_len] at hact
    have hhead : UInt32.ofNat m.start + UInt32.ofNat m.locals.headerBytes = UInt32.ofNat (m.start + m.locals.headerBytes) :=
      (UInt32.ofNat_add _ _).symm
    rw [hstart] at hmax
    simp only [hstart, hhead] at hact
    have hfirst := sub_exact_iff m.locals.tot_len m.start
    have hrest := sub_exact_iff m.locals.tot_len (m.start + m.locals.headerBytes)
    rw [htotal] at hfirst hrest
    constructor
    · intro he m' hm'
      cases hm'
      refine ⟨?_, fun hd hok => ?_, fun hd hp => ?_⟩
      · obtain ⟨m', hm', hx, -⟩ := he.maxlen _ (by rw [hmax]; exact List.mem_singleton_self _)
        rw [hm] at hm'
        cases hm'
        exact hfirst.mp hx
      · obtain ⟨d, hok⟩ := hok
        obtain ⟨l', hl'⟩ := (next_rpcMessage ind env m.world hd).1 d hok
        obtain ⟨payload_len, hstep, hexact⟩ := he.step m hm hd l' (hflow.trans hl')
        rw [((next_rpcMessage ind env m.world hd).2 l' hl').2] at hstep
        rw [← UInt32.add_right_inj _ |>.mp hstep] at hexact
        exact (payload_len_exact_iff _).mp hexact
      · obtain ⟨m', hm', hx, -⟩ := he.actual_len _ ((hact _).mpr ⟨hd, hp, rfl⟩)
        rw [hm] at hm'
        cases hm'
        exact hrest.mp (by exact_mod_cast hx)
    · intro hf
      have hfit := hf m rfl
      refine ⟨fun x hx => ⟨m, hm, ?_⟩, fun x hx => ⟨m, hm, ?_⟩, fun x hx => ⟨m, hm, ?_⟩, fun m' hm' hd l' hl' => ?_⟩
      · rw [hmax, List.mem_singleton] at hx
        have hexact := hfirst.mpr hfit.mark
        rw [hx]
        exact ⟨hexact, by omega⟩
      · obtain ⟨hd, hp, rfl⟩ := (hact x).mp hx
        have hexact := hrest.mpr (hfit.printed hd hp)
        refine ⟨by exact_mod_cast hexact, by omega⟩
      · rw [hsizes.payload_len] at hx
        obtain ⟨hd, hok, rfl⟩ := payload_lens_rpcMessage ind env m.world m.locals hx
        exact (payload_len_exact_iff _).mpr (hfit.record hd hok)
      · rw [hm] at hm'
        cases hm'
        obtain ⟨hok, hstep⟩ := (next_rpcMessage ind env m.world hd).2 _ (hflow.symm.trans hl')
        exact ⟨_, hstep, (payload_len_exact_iff _).mpr (hfit.record hd hok)⟩

/-- Over the iterations of a packet. -/
theorem lengths_exact_iff (ind : Indet) (w : World) (h : Packet) (record : NfsPkt) :
    (∀ env l, headers h record = .ok (env, l) → ∀ w₁ l₁, Reaches ind env w l w₁ l₁ → l₁.consumed < l₁.tot_len →
      LengthsExact ind h env w₁ l₁) ↔
    ∀ env l, headers h record = .ok (env, l) → ∀ w₁ l₁, Reaches ind env w l w₁ l₁ → l₁.consumed < l₁.tot_len →
      ∀ m ∈ message h env w₁ l₁, m.Fits ind := by
  refine forall_congr' fun env => forall_congr' fun l => forall_congr' fun hh => forall_congr' fun w₁ =>
    forall_congr' fun l₁ => forall_congr' fun hr => forall_congr' fun hlt => ?_
  exact iteration_exact_iff (hr.inPacket hh hlt).2

/-- A segment of two bytes, the front half of a mark. -/
def cutMark : Packet := tcpPacket 100 ⟨1, 2, 3, 4⟩ 0 [0x80, 0]

/-- Its mark is read past its end, and `maxlen` is 2^32 - 2 where there are -2 bytes. -/
theorem cut_mark_wraps :
    ∃ env l, headers cutMark NfsPkt.zero = .ok (env, l) ∧ Reaches Indet.zero env World.init l World.init l ∧
      l.consumed < l.tot_len ∧ maxlens (loopBody Indet.zero env World.init l).events = [0xfffffffe] ∧
      ¬ LengthsExact Indet.zero cutMark env World.init l := by
  have f : TcpFrame cutMark ⟨1, 2, 3, 4⟩ 0 14 20 20 [0x80, 0] := tcpPacket_frame 100 _ 0 (by decide)
  refine ⟨_, _, headers_tcp f (by decide) NfsPkt.zero, .start, by decide, ?_⟩
  generalize hl : (⟨cutMark.pp, cutMark.caplen, UInt32.ofNat (14 + 20 + 20), UInt32.ofNat 14, UInt32.ofNat 20, UInt32.ofNat 20, 0,
    Conn.fill ⟨1, 2, 3, 4⟩ cutMark NfsPkt.zero, none, 0⟩ : Locals) = l
  generalize henv : (⟨IPPROTO_TCP, UInt32.ofNat (20 + 20 + [0x80, (0 : UInt8)].length), 0, 1, 3, (2 : UInt16).toUInt32,
    (4 : UInt16).toUInt32⟩ : Env) = env
  have htot : l.tot_len = cutMark.caplen := by rw [← hl]
  have hcon : l.consumed = 54 := by rw [← hl]; rfl
  have hcap : cutMark.caplen = 56 := by decide
  have hm : message cutMark env World.init l = some ⟨l.consumed.toNat + 4, cutMark.caplen.toNat, World.init, l.counted.afterMark⟩ := by
    have hlen : l.announced ≤ env.length - l.i_len - (l.h_len + 4) := by
      rw [← hl, ← henv]
      decide
    have hn : lookup TcpTable.scheme World.init.tcp env.key = (none, World.init.tcp) := rfl
    have hp : env.proto = IPPROTO_TCP := by rw [← henv]
    unfold message
    rw [if_pos hp]
    simp only [hn, if_pos hlen]
  have hsizes := loopBody_sizes Indet.zero cutMark env World.init l
  rw [hm] at hsizes
  refine ⟨?_, fun he => ?_⟩
  · rw [hsizes.1.maxlen, maxlens_rpcMessage]
    show [l.tot_len - (l.consumed + 4)] = _
    rw [htot, hcon, hcap]
    rfl
  · have hmark : l.consumed.toNat + 4 ≤ cutMark.caplen.toNat := ((iteration_exact_iff htot).mp he _ hm).mark
    rw [hcon, hcap] at hmark
    exact absurd hmark (by decide)

end Nfsdump.Record
