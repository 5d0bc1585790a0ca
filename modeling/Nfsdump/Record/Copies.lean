/-
  Nfsdump.Record.Copies — what the reassembly reads of a packet and writes to a buffer,
  whatever the packets.

  The number of bytes copied comes from the IP header's total length; what is captured is
  `caplen`, and the two are not compared. Proved:
  - `run_fragments`: on tables that any run of packets leaves, every fragment has a buffer
    of its record's length, at most 16384, that is not full.
  - `captured_iff`: on such tables all marks and copies of a packet's iterations are within
    the packet and the buffers iff the captured bytes reach as far as the mark and the copy
    do, and a segment that continues a record is not shorter than its own headers (`Intact`).
  - `short_capture_copied`: a packet cut off by the snap length breaks that.
-/

import Nfsdump.Record.Lengths

namespace Nfsdump.Record

open ChainTable Wire

variable {ind : Indet} {env : Env} {w w' : World} {l l' : Locals} {h : Packet} {record : NfsPkt} {L : List (Node TcpFragment)}

/-! ## Fragments after any run -/

/-- The tables that packets, whatever is in them, can leave. -/
inductive Run : World → Prop
  | init : Run World.init
  | packet {w : World} (ind : Indet) (h : Packet) (record : NfsPkt) : Run w → Run (processPacket ind w h record).world

/-- How many bytes of its record a fragment has. -/
def TcpFragment.fill (f : TcpFragment) : UInt32 := f.nextSeq - f.firstSeq

/-- The buffer is as long as the record, and something is missing. -/
structure Unfilled (f : TcpFragment) : Prop where
  size : f.buffer.size = f.rpc_len
  short : f.rpc_len.toNat ≤ 16384
  fill : f.fill.toNat < f.rpc_len.toNat

/-- All fragments are such. -/
def Fragments (w : World) : Prop := ∃ L, Lists TcpTable.scheme w.tcp L ∧ ∀ n ∈ L, Unfilled n.val

theorem waiting_unfilled {t : TcpTable} {f : TcpFragment} (hL : ∀ n ∈ L, Unfilled n.val) (hf : Unfilled f) :
    ∀ n ∈ waiting t L f, Unfilled n.val := by
  intro n hn
  rcases List.mem_cons.mp ((sweep_sublist _ _ (⟨t.next, f⟩ :: L) []).subset hn) with rfl | hn
  · exact hf
  · exact hL n hn

theorem firstFragment_unfilled (ind : Indet) (env : Env) (w : World) (l : Locals)
    (hlen : ¬ l.announced ≤ env.length - l.i_len - (l.h_len + 4)) (hbig : ¬ l.announced > 16384) :
    Unfilled (firstFragment ind env w l) := by
  refine ⟨rfl, ?_, ?_⟩
  · have hle := UInt32.not_lt.mp hbig
    rw [UInt32.le_iff_toNat_le] at hle
    exact hle
  · have hfill : (firstFragment ind env w l).fill = env.length - l.i_len - (l.h_len + 4) := add_sub_self _ _
    rw [hfill]
    exact UInt32.lt_iff_toNat_lt.mp (UInt32.not_le.mp hlen)

theorem nextFragment_unfilled {f : TcpFragment} (hf : Unfilled f)
    (hlt : env.offset f + (env.length - l.i_len - l.h_len) < f.rpc_len) : Unfilled (nextFragment env l f) := by
  refine ⟨hf.size, hf.short, ?_⟩
  have hfill : (nextFragment env l f).fill = env.offset f + (env.length - l.i_len - l.h_len) := by
    show env.th_seq + (env.length - l.i_len - l.h_len) - f.firstSeq = _
    unfold Env.offset
    grind
  rw [hfill]
  exact UInt32.lt_iff_toNat_lt.mp hlt

theorem tcpSegment_fragments (ind : Indet) (env : Env) (l : Locals) (hw : Fragments w) :
    Fragments (tcpSegment ind env w l).world := by
  obtain ⟨L, hL, hall⟩ := hw
  cases hn : (lookup TcpTable.scheme w.tcp env.key).1 with
  | none =>
    by_cases hlen : l.announced ≤ env.length - l.i_len - (l.h_len + 4)
    · rw [tcpSegment_sole ind hn hlen]
      exact ⟨L, hL, hall⟩
    by_cases hbig : l.announced > 16384
    · rw [tcpSegment_reject ind hn hlen hbig]
      exact ⟨L, hL, hall⟩
    · have hs := tcpSegment_first ind hL hn hlen hbig
      exact ⟨_, hs.tcp, waiting_unfilled hall (firstFragment_unfilled ind env w l hlen hbig)⟩
  | some n =>
    obtain ⟨hfind, hL', -⟩ := lookup_lists hL env.key
    rw [hn] at hfind
    have hothers : ∀ n ∈ others L env.key, Unfilled n.val := fun n hn => hall n (List.mem_of_mem_eraseP hn)
    by_cases hlt : env.offset n.val + (env.length - l.i_len - l.h_len) < n.val.rpc_len
    · have hs := tcpSegment_more ind hL hn hlt
      have hf := hall n (List.mem_of_find?_eq_some hfind.symm)
      exact ⟨_, hs.tcp, waiting_unfilled hothers (nextFragment_unfilled hf hlt)⟩
    · rw [tcpSegment_complete ind hn hlt]
      exact ⟨_, hL', hothers⟩

theorem rpcMessage_fragments (ind : Indet) (env : Env) (l : Locals) (hw : Fragments w) :
    Fragments (rpcMessage ind env w l).world := by
  unfold Fragments
  rw [(rpcMessage_spec ind env w l).tcp]
  exact hw

theorem loopBody_fragments (ind : Indet) (env : Env) (l : Locals) (hw : Fragments w) :
    Fragments (loopBody ind env w l).world := by
  rw [loopBody_eq]
  split
  · have hs := tcpSegment_fragments ind env l.counted hw
    cases hf : (tcpSegment ind env w l.counted).flow with
    | next l' =>
      rw [andThen_next hf]
      exact rpcMessage_fragments ind env l' hs
    | _ =>
      rw [andThen_stop (by rw [hf]; nofun)]
      exact hs
  · exact rpcMessage_fragments ind env l.counted hw

theorem loop_fragments (ind : Indet) (env : Env) (fuel : Nat) :
    ∀ {w : World} {l : Locals}, Fragments w → Fragments (loop ind env fuel w l).world := by
  induction fuel with
  | zero => exact fun hw => hw
  | succ fuel ih =>
    intro w l hw
    rw [loop]
    split
    · have hb := loopBody_fragments ind env l hw
      cases hf : (loopBody ind env w l).flow with
      | next l' =>
        rw [andThen_next hf]
        exact ih hb
      | _ =>
        rw [andThen_stop (by simp [hf])]
        exact hb
    · exact hw

theorem run_fragments (hw : Run w) : Fragments w := by
  induction hw with
  | init => exact ⟨[], empty_lists TcpTable.scheme (by decide), fun _ hn => nomatch hn⟩
  | packet ind h record _ ih =>
    unfold processPacket
    cases hh : headers h record with
    | error rc => exact ih
    | ok el =>
      obtain ⟨env, l⟩ := el
      simp only
      have hloop := loop_fragments ind env (h.caplen.toNat + 3) (l := l) ih
      unfold finishPacket
      split
      · exact hloop
      · exact hloop
      · exact hloop
      · exact hloop

theorem Reaches.fragments (hr : Reaches ind env w l w' l') (hw : Fragments w) : Fragments w' := by
  induction hr with
  | start => exact hw
  | turn _ _ _ ih => exact loopBody_fragments ind env _ ih

/-! ## Marks and copies -/

/-- The record marks read and the copies made. -/
def accesses (es : List Event) : List Event :=
  es.filter fun e => match e with
    | .mark _ | .memcpy .. => true
    | _ => false

@[simp] theorem accesses_append (xs ys : List Event) : accesses (xs ++ ys) = accesses xs ++ accesses ys := List.filter_append ..

theorem accesses_freeBuffers (freed : List (Node TcpFragment)) : accesses (freeBuffers freed) = [] := by
  unfold accesses freeBuffers
  rw [List.filter_map]
  exact List.map_eq_nil_iff.mpr (List.filter_eq_nil_iff.mpr fun _ _ => by simp)

/-- What a segment makes the code read and copy. -/
theorem tcpSegment_accesses (ind : Indet) (env : Env) (w : World) (l : Locals) :
    accesses (tcpSegment ind env w l).events =
      match (lookup TcpTable.scheme w.tcp env.key).1 with
      | none => .mark l.consumed :: if l.announced ≤ env.length - l.i_len - (l.h_len + 4) ∨ l.announced > 16384 then []
        else [.memcpy w.nextBuf 0 (l.consumed + 4) (env.length - l.i_len - (l.h_len + 4)) l.announced]
      | some n =>
        let lastOffset := env.offset n.val + (env.length - l.i_len - l.h_len)
        [.memcpy n.val.buffer.id (env.offset n.val) l.consumed
          ((if lastOffset > n.val.rpc_len then n.val.rpc_len else lastOffset) - env.offset n.val) n.val.buffer.size] := by
  unfold Locals.announced Env.offset
  unfold tcpSegment tcpLookup
  simp only [show (⟨env.th_seq, env.srcHost, env.src_port.toUInt16, env.dstHost, env.dst_port.toUInt16⟩ : TcpKey) = env.key
    from rfl]
  rcases lookup TcpTable.scheme w.tcp env.key with ⟨found, tcp⟩
  cases found with
  | none =>
    simp only
    split
    · rename_i hlen
      rw [if_pos (Or.inl hlen)]
      rfl
    split
    · rename_i hbig
      rw [if_pos (Or.inr hbig)]
      rfl
    · rename_i hlen hbig
      rw [if_neg (not_or.mpr ⟨hlen, hbig⟩)]
      split
      · rfl
      · rw [accesses_append, accesses_freeBuffers]
        rfl
  | some n =>
    simp only
    generalize (if env.th_seq - n.val.firstSeq + (env.length - l.i_len - l.h_len) > n.val.rpc_len then n.val.rpc_len
      else env.th_seq - n.val.firstSeq + (env.length - l.i_len - l.h_len)) = last
    split
    · rfl
    split
    · rfl
    · rw [accesses_append, accesses_freeBuffers]
      rfl

theorem accesses_headerEvents (l : Locals) : accesses l.headerEvents = [] := by
  unfold Locals.headerEvents
  cases l.rpcHeader.notUnix with
  | none => rfl
  | some flavor => rfl

theorem accesses_free (l : Locals) : accesses (freeReassembly l) = [] := by
  unfold freeReassembly
  cases l.reassemblyBuffer with
  | none => rfl
  | some id => rfl

theorem accesses_decode {print_it : Int32} :
    (∀ ev, l.decode w print_it = .error ev → accesses ev = []) ∧ ∀ d, l.decode w print_it = .ok d → accesses d.events = [] := by
  unfold Locals.decode
  split
  · unfold decodeCall
    simp only
    split
    · exact ⟨fun ev he => by cases he; rfl, fun d hd => (nomatch hd)⟩
    · exact ⟨fun ev he => (nomatch he), fun d hd => by cases hd; rfl⟩
  · refine ⟨fun ev he => (nomatch he), fun d hd => ?_⟩
    cases hd
    unfold decodeReply
    simp only
    split
    · rfl
    · rfl

/-- A message is looked at where it is. -/
theorem rpcMessage_accesses (ind : Indet) (env : Env) (w : World) (l : Locals) : accesses (rpcMessage ind env w l).events = [] := by
  by_cases hd : l.Decodes
  · rw [rpcMessage_of_decodes ind env w l hd]
    cases he : l.decode w (ind.print_it l.cnt) with
    | error ev =>
      simp only
      rw [accesses_append, accesses_headerEvents, accesses_decode.1 ev he]
      rfl
    | ok d =>
      simp only
      unfold finishMessage printEvents
      rw [accesses_append, accesses_headerEvents, accesses_append, accesses_decode.2 d he]
      split
      · rfl
      · rfl
  · have hhead : accesses l.headerEvents = [] := accesses_headerEvents l
    have hzero : accesses (if l.cnt > 1 then [Event.rhLenZero l.cnt] else []) = [] := by
      split
      · rfl
      · rfl
    have hstray := rpcMessage_of_stray ind env w l hd
    generalize rpcMessage ind env w l = o at hstray ⊢
    cases hstray with
    | empty =>
      rw [accesses_append, accesses_append, accesses_free, hzero, List.append_nil, List.append_nil]
      exact hhead
    | unread =>
      rw [accesses_append, accesses_free, List.append_nil]
      exact hhead
    | null => exact hhead
    | bare => exact hhead

theorem loopBody_accesses (ind : Indet) (env : Env) (w : World) (l : Locals) :
    accesses (loopBody ind env w l).events =
      if env.proto = IPPROTO_TCP then accesses (tcpSegment ind env w l.counted).events else [] := by
  rw [loopBody_eq]
  split
  · cases hf : (tcpSegment ind env w l.counted).flow with
    | next l' =>
      rw [andThen_next hf, accesses_append, rpcMessage_accesses, List.append_nil]
    | _ => rw [andThen_stop (by rw [hf]; nofun)]
  · exact rpcMessage_accesses ind env w l.counted

/-- A mark or a copy within the packet and the buffer. -/
def Event.Captured (h : Packet) : Event → Prop
  | .mark off => off.toNat + 4 ≤ h.caplen.toNat
  | .memcpy _ dst src len size => src.toNat + len.toNat ≤ h.caplen.toNat ∧ dst.toNat + len.toNat ≤ size.toNat
  | _ => True

theorem captured_memcpy (id : Nat) (dst src len size : UInt32) : (Event.memcpy id dst src len size).Captured h ↔
    src.toNat + len.toNat ≤ h.caplen.toNat ∧ dst.toNat + len.toNat ≤ size.toNat := Iff.rfl

theorem captured_accesses (es : List Event) : (∀ e ∈ es, e.Captured h) ↔ ∀ e ∈ accesses es, e.Captured h := by
  constructor
  · intro hall e he
    exact hall e (List.mem_filter.mp he).1
  · intro hall e he
    cases e with
    | mark off => exact hall _ (List.mem_filter.mpr ⟨he, rfl⟩)
    | memcpy id dst src len size => exact hall _ (List.mem_filter.mpr ⟨he, rfl⟩)
    | _ => trivial

/-! ## What has to be captured -/

/-- The captured bytes reach as far as is read and copied: the mark, and the datagram's part
    of a record that goes on; of a segment that continues a record, what is missing there.
    A datagram that ends inside of its headers is taken for one without end, unless the
    fragment has the bytes that are short. -/
def Intact (h : Packet) (env : Env) (w : World) (l : Locals) : Prop :=
  match (lookup TcpTable.scheme w.tcp env.key).1 with
  | none =>
    let room := env.length - l.i_len - (l.h_len + 4)
    l.consumed.toNat + 4 ≤ h.caplen.toNat ∧
      (¬ l.announced ≤ room → l.announced.toNat ≤ 16384 → l.consumed.toNat + 4 + room.toNat ≤ h.caplen.toNat)
  | some n =>
    let headers := l.i_len.toNat + l.h_len.toNat
    let missing := n.val.rpc_len.toNat - n.val.fill.toNat
    if headers ≤ env.length.toNat then l.consumed.toNat + min (env.length.toNat - headers) missing ≤ h.caplen.toNat
    else env.length.toNat + n.val.fill.toNat < headers ∧ l.consumed.toNat + missing ≤ h.caplen.toNat

theorem front_captured_iff (hn : (lookup TcpTable.scheme w.tcp env.key).1 = none) :
    (∀ e ∈ accesses (tcpSegment ind env w l).events, e.Captured h) ↔ Intact h env w l := by
  rw [tcpSegment_accesses]
  unfold Intact
  rw [hn]
  simp only [List.forall_mem_cons]
  refine and_congr_right fun hmark => ?_
  have hmark' : l.consumed.toNat + 4 ≤ h.caplen.toNat := hmark
  have hcap := h.caplen.toNat_lt
  have hbehind : (l.consumed + 4).toNat = l.consumed.toNat + 4 := by
    rw [UInt32.toNat_add, show (4 : UInt32).toNat = 4 from rfl]
    omega
  have hbig : l.announced > 16384 ↔ ¬ l.announced.toNat ≤ 16384 := by
    rw [gt_iff_lt, UInt32.lt_iff_toNat_lt, show (16384 : UInt32).toNat = 16384 from rfl, Nat.not_le]
  by_cases hlen : l.announced ≤ env.length - l.i_len - (l.h_len + 4)
  · rw [if_pos (Or.inl hlen)]
    exact ⟨fun _ hno => absurd hlen hno, fun _ _ he => nomatch he⟩
  by_cases hsize : l.announced > 16384
  · rw [if_pos (Or.inr hsize)]
    exact ⟨fun _ _ hle => absurd hle (hbig.mp hsize), fun _ _ he => nomatch he⟩
  rw [if_neg (not_or.mpr ⟨hlen, hsize⟩), List.forall_mem_singleton]
  have hroom := UInt32.lt_iff_toNat_lt.mp (UInt32.not_le.mp hlen)
  rw [captured_memcpy, hbehind]
  constructor
  · exact fun hcopy _ _ => hcopy.1
  · intro hcopy
    refine ⟨hcopy hlen (not_not.mp fun hno => hsize (hbig.mpr hno)), ?_⟩
    rw [show (0 : UInt32).toNat = 0 from rfl]
    omega

/-- The fragment found is the one that the segment's number continues. -/
theorem found_offset (hw : Fragments w) {n : Node TcpFragment} (hn : (lookup TcpTable.scheme w.tcp env.key).1 = some n) :
    env.offset n.val = n.val.fill ∧ Unfilled n.val := by
  obtain ⟨L, hL, hall⟩ := hw
  have hfind := (lookup_lists hL env.key).1
  rw [hn] at hfind
  have hkey : TcpTable.scheme.key n.val = env.key := by simpa using List.find?_some hfind.symm
  have hseq : n.val.nextSeq = env.th_seq := congrArg TcpKey.nextSeq hkey
  refine ⟨?_, hall n (List.mem_of_find?_eq_some hfind.symm)⟩
  unfold Env.offset TcpFragment.fill
  rw [hseq]

/-- How many bytes a segment adds to its fragment, and that they have room. -/
theorem copy_length {fill size length i_len h_len : UInt32} (hfill : fill.toNat < size.toNat) (hsize : size.toNat ≤ 16384)
    (hi : i_len.toNat ≤ 60) (hh : h_len.toNat ≤ 60) (hlen : length.toNat < 65536) :
    let len := (if fill + (length - i_len - h_len) > size then size else fill + (length - i_len - h_len)) - fill
    if i_len.toNat + h_len.toNat ≤ length.toNat then
      len.toNat = min (length.toNat - (i_len.toNat + h_len.toNat)) (size.toNat - fill.toNat)
    else if length.toNat + fill.toNat < i_len.toNat + h_len.toNat then len.toNat = size.toNat - fill.toNat
    else size.toNat < fill.toNat + len.toNat := by
  intro len
  have hroom : (length - i_len - h_len).toNat = (length.toNat + 2 ^ 32 - i_len.toNat + 2 ^ 32 - h_len.toNat) % 2 ^ 32 := by
    rw [UInt32.toNat_sub, UInt32.toNat_sub]
    omega
  have hsum : (fill + (length - i_len - h_len)).toNat = (fill.toNat + (length - i_len - h_len).toNat) % 2 ^ 32 := UInt32.toNat_add ..
  have hcases : len.toNat = (min (fill + (length - i_len - h_len)).toNat size.toNat + 2 ^ 32 - fill.toNat) % 2 ^ 32 := by
    show (_ - fill).toNat = _
    rw [UInt32.toNat_sub]
    split
    · rename_i hgt
      have := UInt32.lt_iff_toNat_lt.mp hgt
      omega
    · rename_i hle
      have := UInt32.not_lt.mp hle
      rw [UInt32.le_iff_toNat_le] at this
      omega
  split
  · omega
  · split
    · omega
    · omega

theorem rest_captured_iff (hw : Fragments w) {n : Node TcpFragment} (hn : (lookup TcpTable.scheme w.tcp env.key).1 = some n)
    (hi : l.i_len.toNat ≤ 60) (hh : l.h_len.toNat ≤ 60) (hlen : env.length.toNat < 65536) :
    (∀ e ∈ accesses (tcpSegment ind env w l).events, e.Captured h) ↔ Intact h env w l := by
  obtain ⟨hoff, hun⟩ := found_offset hw hn
  have hcopy := copy_length hun.fill hun.short hi hh hlen
  rw [tcpSegment_accesses]
  unfold Intact
  rw [hn]
  simp only [List.forall_mem_singleton, hoff] at hcopy ⊢
  generalize (if n.val.fill + (env.length - l.i_len - l.h_len) > n.val.rpc_len then n.val.rpc_len
    else n.val.fill + (env.length - l.i_len - l.h_len)) - n.val.fill = len at hcopy ⊢
  have hfill := hun.fill
  rw [captured_memcpy, hun.size]
  split
  · rename_i hin
    rw [if_pos hin] at hcopy
    omega
  · rename_i hout
    rw [if_neg hout] at hcopy
    split at hcopy
    · omega
    · omega

/-! ## The iterations of a packet -/

/-- A record's front is followed by another only while no fragment waits. -/
theorem loopBody_again (hp : env.proto = IPPROTO_TCP) (hn : (loopBody ind env w l).flow = .next l')
    (hlt : l'.consumed < l'.tot_len) :
    (lookup TcpTable.scheme w.tcp env.key).1 = none ∧ (loopBody ind env w l).world.tcp = w.tcp := by
  rw [loopBody_eq, if_pos hp] at hn ⊢
  cases hf : (lookup TcpTable.scheme w.tcp env.key).1 with
  | none =>
    refine ⟨rfl, ?_⟩
    by_cases hlen : l.announced ≤ env.length - l.i_len - (l.h_len + 4)
    · rw [tcpSegment_sole ind (l := l.counted) hf hlen, andThen_next rfl]
      exact (rpcMessage_spec ind env w _).tcp
    · obtain ⟨-, hstop⟩ := tcpSegment_waits ind l.counted (fun n hs => by rw [hf] at hs; cases hs) (fun _ => hlen)
      rw [andThen_stop hstop] at hn
      exact absurd hn (hstop l')
  | some n =>
    by_cases hmore : env.offset n.val + (env.length - l.i_len - l.h_len) < n.val.rpc_len
    · obtain ⟨-, hstop⟩ := tcpSegment_waits ind l.counted (fun n' hs => by rw [hf] at hs; cases hs; exact hmore)
        (fun hs => by rw [hf] at hs; cases hs)
      rw [andThen_stop hstop] at hn
      exact absurd hn (hstop l')
    · -- a record put together is the last
      rw [tcpSegment_complete ind (l := l.counted) hf hmore, andThen_next rfl] at hn
      obtain ⟨record, consumed, rfl, -, hc⟩ := (rpcMessage_spec ind env _ _).next l' hn
      refine absurd hlt (not_lt_of_eq ?_)
      rcases hc with hc | hc
      · exact hc
      · exact hc.trans (UInt32.zero_add _)

/-- A fragment is found in the first iteration or not at all. -/
theorem Reaches.found_first (hp : env.proto = IPPROTO_TCP) (hr : Reaches ind env w l w' l') (hlt : l'.consumed < l'.tot_len)
    {n : Node TcpFragment} (hn : (lookup TcpTable.scheme w'.tcp env.key).1 = some n) : l' = l := by
  cases hr with
  | start => rfl
  | turn hr _ hf =>
    obtain ⟨hnone, htcp⟩ := loopBody_again hp hf hlt
    rw [htcp, hnone] at hn
    cases hn

theorem iteration_captured_iff (hw : Fragments w) (hh : headers h record = .ok (env, l)) (hr : Reaches ind env w l w' l')
    (hlt : l'.consumed < l'.tot_len) :
    (∀ e ∈ (loopBody ind env w' l').events, e.Captured h) ↔ (env.proto = IPPROTO_TCP → Intact h env w' l') := by
  have a := headers_ok hh
  rw [captured_accesses, loopBody_accesses]
  split
  · rename_i hp
    rw [forall_prop_of_true hp]
    cases hn : (lookup TcpTable.scheme w'.tcp env.key).1 with
    | none => exact front_captured_iff (l := l'.counted) hn
    | some n =>
      obtain rfl := hr.found_first hp hlt hn
      exact rest_captured_iff (l := l'.counted) (hr.fragments hw) hn a.lengths.2.1 a.lengths.2.2 a.length
  · rename_i hp
    exact ⟨fun _ h => absurd h hp, fun _ _ he => nomatch he⟩

/-- In the iterations of a packet, on the tables of any run. -/
theorem captured_iff (hw : Run w) (ind : Indet) (h : Packet) (record : NfsPkt) :
    (∀ env l, headers h record = .ok (env, l) → ∀ w₁ l₁, Reaches ind env w l w₁ l₁ → l₁.consumed < l₁.tot_len →
      ∀ e ∈ (loopBody ind env w₁ l₁).events, e.Captured h) ↔
    ∀ env l, headers h record = .ok (env, l) → ∀ w₁ l₁, Reaches ind env w l w₁ l₁ → l₁.consumed < l₁.tot_len →
      env.proto = IPPROTO_TCP → Intact h env w₁ l₁ := by
  refine forall_congr' fun env => forall_congr' fun l => forall_congr' fun hh => forall_congr' fun w₁ =>
    forall_congr' fun l₁ => forall_congr' fun hr => forall_congr' fun hlt => ?_
  exact iteration_captured_iff (run_fragments hw) hh hr hlt

/-- The start of a record of 100 bytes: 20 bytes of it are in the segment, two are captured. -/
def cutOff : Packet := { tcpPacket 100 ⟨1, 2, 3, 4⟩ 0 (be32 0x80000064 ++ List.replicate 20 0) with caplen := 60 }

theorem captured_iff_cutOff :
    (∀ env l, headers cutOff NfsPkt.zero = .ok (env, l) → ∀ w₁ l₁, Reaches Indet.zero env World.init l w₁ l₁ →
      l₁.consumed < l₁.tot_len → ∀ e ∈ (loopBody Indet.zero env w₁ l₁).events, e.Captured cutOff) ↔
    ∀ env l, headers cutOff NfsPkt.zero = .ok (env, l) → ∀ w₁ l₁, Reaches Indet.zero env World.init l w₁ l₁ →
      l₁.consumed < l₁.tot_len → env.proto = IPPROTO_TCP → Intact cutOff env w₁ l₁ :=
  captured_iff .init Indet.zero cutOff NfsPkt.zero

/-- Twenty bytes are copied from byte 58 of a packet of 60. -/
theorem short_capture_copied : cutOff.caplen = 60 ∧
    ∃ env l, headers cutOff NfsPkt.zero = .ok (env, l) ∧ Reaches Indet.zero env World.init l World.init l ∧
      l.consumed < l.tot_len ∧ .memcpy 0 0 58 20 100 ∈ accesses (loopBody Indet.zero env World.init l).events ∧
      ¬ ∀ e ∈ (loopBody Indet.zero env World.init l).events, e.Captured cutOff := by
  refine ⟨rfl, ⟨IPPROTO_TCP, 64, 0, 1, 3, 2, 4⟩,
    ⟨cutOff.pp, 60, 54, 14, 20, 20, 0, Conn.fill ⟨1, 2, 3, 4⟩ cutOff NfsPkt.zero, none, 0⟩, rfl, .start, by decide, ?_⟩
  generalize hl : (⟨cutOff.pp, 60, 54, 14, 20, 20, 0, Conn.fill ⟨1, 2, 3, 4⟩ cutOff NfsPkt.zero, none, 0⟩ : Locals) = l
  have hmem : .memcpy 0 0 58 20 100 ∈ accesses (loopBody Indet.zero ⟨IPPROTO_TCP, 64, 0, 1, 3, 2, 4⟩ World.init l).events := by
    have hann : l.counted.announced = 100 := by rw [← hl]; decide
    have hroom : (64 : UInt32) - l.counted.i_len - (l.counted.h_len + 4) = 20 := by rw [← hl]; rfl
    have hcon : l.counted.consumed + 4 = 58 := by rw [← hl]; rfl
    have hn : (lookup TcpTable.scheme World.init.tcp (Env.key ⟨IPPROTO_TCP, 64, 0, 1, 3, 2, 4⟩)).1 = none := rfl
    rw [loopBody_accesses, if_pos rfl, tcpSegment_accesses, hn, hann]
    simp only [hroom, hcon]
    exact List.mem_cons_of_mem _ (List.mem_singleton_self _)
  refine ⟨hmem, fun hall => ?_⟩
  have hcopy : (58 : UInt32).toNat + (20 : UInt32).toNat ≤ cutOff.caplen.toNat := ((captured_accesses _).mp hall _ hmem).1
  exact absurd hcopy (by decide)

end Nfsdump.Record
