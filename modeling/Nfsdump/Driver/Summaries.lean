/-
  Nfsdump.Driver.Summaries — what the summaries say of the logs.

  Every record printed is counted in the block of its version, in the total of its direction
  and, when the version has its procedure, in the procedure's counter. The blocks start at
  zero with each log.

  Proved:
  - `seen_writeEvents3`, `seen_writeEvents2`: what printing some events counts;
  - `summaries_tell`: as long as no two logs have one name, each log's summary has the numbers
    of its records, and the blocks have those of the records in the temporary file.
-/

import Nfsdump.Driver.Chapters

namespace Nfsdump.Driver

open Record Decode Wire

/-! ## Records -/

def recordOf : Event → Option NfsPkt
  | .printRecord record _ _ _ _ => some record
  | _ => none

/-- The records that events print. -/
def recordsOf (es : List Event) : List NfsPkt := es.filterMap recordOf

def direction (r : NfsPkt) : Direction := if r.rpcCall = CALL then .call else .reply

/-- The record is of the version and direction, and of the procedure if one is given. -/
def counted {π : Type} (version : UInt32) (number : π → UInt32) (dir : Direction) (q : Option π) (r : NfsPkt) : Bool :=
  r.nfsVersion = version ∧ direction r = dir ∧ ∀ q' ∈ q, r.nfsProc = number q'

/-- How many there are, as a counter has it. -/
def number3 (rs : List NfsPkt) (dir : Direction) (q : Option Proc3) : UInt32 := UInt32.ofNat (rs.countP (counted 3 Proc3.number dir q))
def number2 (rs : List NfsPkt) (dir : Direction) (q : Option Proc2) : UInt32 := UInt32.ofNat (rs.countP (counted 2 Proc2.number dir q))

/-- The summary's columns are the numbers of the records. -/
structure Tells (sm : Summary) (rs : List NfsPkt) : Prop where
  total3 : sm.v3.1 = (number3 rs .call none, number3 rs .reply none)
  lines3 : (sm.v3.2.map fun l => (l.name, l.calls, l.replies)) =
    statProcs.map fun q => (q.name, number3 rs .call (some q), number3 rs .reply (some q))
  total2 : sm.v2.1 = (number2 rs .call none, number2 rs .reply none)
  lines2 : (sm.v2.2.map fun l => (l.name, l.calls, l.replies)) =
    statProcs2.map fun q => (q.2, number2 rs .call (some q.1), number2 rs .reply (some q.1))

variable {o : Opts} {b : Args} {lib : XdrLib} {count : UInt32} {overflow : ℤ → Int32} {zone : Zone}

/-! ## What is counted of a record -/

def counters3 (r : NfsPkt) : List (Direction × Tally Proc3) :=
  if r.nfsVersion = 3 then Counted (direction r) (Proc3.ofNumber r.nfsProc) false else []

def counters2 (r : NfsPkt) : List (Direction × Tally Proc2) :=
  if r.nfsVersion = 2 then Counted (direction r) (Proc2.ofNumber r.nfsProc) true else []

section Behind

variable {α β : Type}

theorem seen_before3 {x : Dec α} {f : α → Dec β} {a : α} (hv : x.val = some a) (hx : Quiet x) :
    Trace.seen Act.message3 (x >>= f) = Trace.seen Act.message3 (f a) := by
  rw [Trace.seen_bind_some _ f hv, seen_quiet3 hx, List.nil_append]

theorem seen_before2 {x : Dec α} {f : α → Dec β} {a : α} (hv : x.val = some a) (hx : Quiet x) :
    Trace.seen Act.message2 (x >>= f) = Trace.seen Act.message2 (f a) := by
  rw [Trace.seen_bind_some _ f hv, seen_quiet2 hx, List.nil_append]

theorem seen_behind3 {x : Dec α} {f : α → Dec β} (hf : ∀ a, Quiet (f a)) :
    Trace.seen Act.message3 (x >>= f) = Trace.seen Act.message3 x := by
  cases hx : x.val with
  | none => rw [Trace.seen_bind_none _ f hx]
  | some a => rw [Trace.seen_bind_some _ f hx, seen_quiet3 (hf a), List.append_nil]

theorem seen_behind2 {x : Dec α} {f : α → Dec β} (hf : ∀ a, Quiet (f a)) :
    Trace.seen Act.message2 (x >>= f) = Trace.seen Act.message2 x := by
  cases hx : x.val with
  | none => rw [Trace.seen_bind_none _ f hx]
  | some a => rw [Trace.seen_bind_some _ f hx, seen_quiet2 (hf a), List.append_nil]

end Behind

theorem quiet_hostIp (ipa : UInt32) : Quiet (printHostIp o ipa) := by
  unfold printHostIp
  split <;> exact quiet_fprintf _

theorem quiet_pure : Quiet (pure () : Dec Unit) := fun _ ha => absurd ha List.not_mem_nil

section Printing

variable (record : NfsPkt) (xdr : Ptr) (payload_len proto actual_len : UInt32)

theorem counts_printCall3 (hcall : record.rpcCall = CALL) :
    Trace.seen Act.message3 (printCall o b lib count record xdr actual_len) = counters3 record := by
  unfold printCall counters3 direction
  rw [if_pos hcall]
  split
  · exact (seen_behind3 fun _ => quiet_pure).trans counts_v3_call
  · split
    · exact (seen_behind3 fun _ => quiet_pure).trans (Trace.seen_eq_nil v2_call_quiet3)
    · exact seen_quiet3 (quiet_fprintf _)

theorem counts_printCall2 (hcall : record.rpcCall = CALL) :
    Trace.seen Act.message2 (printCall o b lib count record xdr actual_len) = counters2 record := by
  unfold printCall counters2 direction
  rw [if_pos hcall]
  split
  · next h3 =>
    rw [if_neg (by rw [h3]; decide)]
    exact (seen_behind2 fun _ => quiet_pure).trans (Trace.seen_eq_nil v3_call_quiet2)
  · split
    · exact (seen_behind2 fun _ => quiet_pure).trans counts_v2_call
    · exact seen_quiet2 (quiet_fprintf _)

theorem counts_printReplyBody3 (hcall : record.rpcCall ≠ CALL) :
    Trace.seen Act.message3 (printReplyBody o b lib count record xdr actual_len) = counters3 record := by
  unfold printReplyBody counters3 direction
  rw [if_neg hcall]
  split
  · exact (seen_behind3 fun _ => quiet_pure).trans counts_v3_resp
  · split
    · exact (seen_behind3 fun _ => quiet_pure).trans (Trace.seen_eq_nil v2_resp_quiet3)
    · exact seen_quiet3 (quiet_fprintf _)

theorem counts_printReplyBody2 (hcall : record.rpcCall ≠ CALL) :
    Trace.seen Act.message2 (printReplyBody o b lib count record xdr actual_len) = counters2 record := by
  unfold printReplyBody counters2 direction
  rw [if_neg hcall]
  split
  · next h3 =>
    rw [if_neg (by rw [h3]; decide)]
    exact (seen_behind2 fun _ => quiet_pure).trans (Trace.seen_eq_nil v3_resp_quiet2)
  · split
    · exact (seen_behind2 fun _ => quiet_pure).trans counts_v2_resp
    · exact seen_quiet2 (quiet_fprintf _)

/-- What a reply's line has behind its body. -/
theorem quiet_replyEnd : Quiet (do
    fprintf [.lit "status=", .x record.rpcStatus, .lit " "]
    fprintf [.lit "pl=", .d payload_len.toInt32, .lit " "]) := by
  simp

/-- A record is counted by the printer of its body. -/
theorem counts_printRecord (record : NfsPkt) (xdr : Ptr) (payload_len proto actual_len : UInt32) :
    Trace.seen Act.message3 (printRecord o b lib count record xdr payload_len proto actual_len) = counters3 record ∧
      Trace.seen Act.message2 (printRecord o b lib count record xdr payload_len proto actual_len) = counters2 record := by
  unfold printRecord
  simp only [seen_fprintf3, seen_fprintf2, seen_before3 (printHostIp_val _) (quiet_hostIp _),
    seen_before2 (printHostIp_val _) (quiet_hostIp _)]
  unfold printBody
  by_cases hcall : record.rpcCall = CALL
  · rw [if_pos hcall]
    exact ⟨counts_printCall3 record xdr actual_len hcall, counts_printCall2 record xdr actual_len hcall⟩
  · rw [if_neg hcall]
    exact ⟨(seen_behind3 fun _ => quiet_replyEnd record payload_len).trans (counts_printReplyBody3 record xdr actual_len hcall),
      (seen_behind2 fun _ => quiet_replyEnd record payload_len).trans (counts_printReplyBody2 record xdr actual_len hcall)⟩

end Printing

theorem quiet_trailer (ids : Option (Int32 × Int32)) (con len : UInt32) (longpkt : Option UInt32) :
    Quiet (printTrailer ids con len longpkt) := by
  have hids : Quiet (printIds ids) := by cases ids <;> simp [printIds]
  have hlong : Quiet (printLongpkt longpkt) := by cases longpkt <;> simp [printLongpkt]
  unfold printTrailer
  simp [hids, hlong]

theorem counts_event (e : Event) :
    Trace.seen Act.message3 (e.write o b lib count) = ((recordOf e).toList.flatMap counters3) ∧
      Trace.seen Act.message2 (e.write o b lib count) = ((recordOf e).toList.flatMap counters2) := by
  have hquiet : Quiet (e.write o b lib count) →
      Trace.seen Act.message3 (e.write o b lib count) = [] ∧ Trace.seen Act.message2 (e.write o b lib count) = [] :=
    fun hq => ⟨seen_quiet3 hq, seen_quiet2 hq⟩
  cases e with
  | printRecord record xdr payload_len proto actual_len =>
    obtain ⟨h3, h2⟩ : Trace.seen Act.message3 (Record.printRecord o b lib count record xdr payload_len proto actual_len) = _ ∧
        Trace.seen Act.message2 (Record.printRecord o b lib count record xdr payload_len proto actual_len) = _ :=
      counts_printRecord record xdr payload_len proto actual_len
    exact ⟨h3.trans (List.append_nil _).symm, h2.trans (List.append_nil _).symm⟩
  | trailer ids con len longpkt => exact hquiet (by simp [Event.write, quiet_trailer])
  | rhLenZero cnt => exact hquiet (quiet_fprintf _)
  | _ => exact hquiet quiet_pure

theorem counts_writeEvents {es : List Event} (h : (writeEvents o b lib count es).val ≠ none) :
    Trace.seen Act.message3 (writeEvents o b lib count es) = (recordsOf es).flatMap counters3 ∧
      Trace.seen Act.message2 (writeEvents o b lib count es) = (recordsOf es).flatMap counters2 := by
  induction es with
  | nil => exact ⟨rfl, rfl⟩
  | cons e es ih =>
    obtain ⟨u, hu⟩ := Option.ne_none_iff_exists'.mp h
    obtain ⟨u', hu', hrest⟩ := Trace.of_val_bind hu
    obtain ⟨h3, h2⟩ := ih (by rw [hrest]; exact Option.some_ne_none _)
    have hsplit : recordsOf (e :: es) = (recordOf e).toList ++ recordsOf es := by
      unfold recordsOf
      rw [List.filterMap_cons]
      cases recordOf e <;> rfl
    rw [writeEvents, Trace.seen_bind_some _ _ hu', Trace.seen_bind_some _ _ hu', (counts_event e).1, (counts_event e).2, h3, h2, hsplit,
      List.flatMap_append, List.flatMap_append]
    exact ⟨rfl, rfl⟩

/-! ## Numbers -/

section Numbers

variable {π : Type} [DecidableEq π]

theorem bumpAll_count (dir : Direction) (ms : List (Direction × Tally π)) (t : Tally π) : ∀ f : Tally π → UInt32,
    bumpAll dir f ms t = f t + UInt32.ofNat (ms.count (dir, t)) := by
  induction ms with
  | nil => exact fun f => (UInt32.add_zero _).symm
  | cons m ms ih =>
    intro f
    have hstep : bumpAll dir f (m :: ms) = bumpAll dir (if m.1 = dir then bumped f m.2 else f) ms := rfl
    rw [hstep, ih, List.count_cons]
    by_cases hm : m = (dir, t)
    · subst hm
      simp only [if_true, bumped, beq_self_eq_true, UInt32.ofNat_add]
      grind
    · have hne : (m == (dir, t)) = false := beq_eq_false_iff_ne.mpr hm
      rw [hne]
      split
      · next hdir =>
        have ht : t ≠ m.2 := fun ht => hm (by rw [ht, ← hdir])
        simp [bumped, ht]
      · simp

/-- A record is counted at most once under a counter. -/
theorem count_counted (number : π → UInt32) (ofNumber : UInt32 → Option π) (unknown : Bool)
    (hof : ∀ op q, ofNumber op = some q ↔ op = number q) (version : UInt32) (dir : Direction) (q : Option π) (r : NfsPkt) :
    (if r.nfsVersion = version then Counted (direction r) (ofNumber r.nfsProc) unknown else []).count (dir, q.elim .total .proc) =
      if counted version number dir q r then 1 else 0 := by
  unfold counted
  by_cases hv : r.nfsVersion = version
  · rw [if_pos hv]
    by_cases hd : direction r = dir
    · cases q with
      | none =>
        cases ofNumber r.nfsProc <;> cases unknown <;> simp [Counted, hv, hd]
      | some q =>
        have hq : r.nfsProc = number q ↔ ofNumber r.nfsProc = some q := (hof _ _).symm
        cases hop : ofNumber r.nfsProc with
        | none => cases unknown <;> simp [Counted, hv, hd, hq, hop]
        | some q' => simp [Counted, hv, hd, hq, hop, List.count_cons]
    · cases ofNumber r.nfsProc <;> cases unknown <;> simp [Counted, hd]
  · simp [hv]

theorem count_flatMap (f : NfsPkt → List (Direction × Tally π)) (m : Direction × Tally π) (p : NfsPkt → Bool)
    (h : ∀ r, (f r).count m = if p r then 1 else 0) (rs : List NfsPkt) : (rs.flatMap f).count m = rs.countP p := by
  induction rs with
  | nil => rfl
  | cons r rs ih => rw [List.flatMap_cons, List.count_append, h, ih, List.countP_cons, Nat.add_comm]

end Numbers

theorem ofNumber3_iff (op : UInt32) (q : Proc3) : Proc3.ofNumber op = some q ↔ op = q.number :=
  ⟨fun h => (Proc3.number_of_ofNumber h).symm, fun h => h ▸ Proc3.ofNumber_number q⟩

theorem ofNumber2_iff (op : UInt32) (q : Proc2) : Proc2.ofNumber op = some q ↔ op = q.number := by
  constructor
  · intro h
    have hfound := List.find?_some h
    exact (of_decide_eq_true hfound).symm
  · exact fun h => h ▸ Proc2.ofNumber_number q

/-- The blocks behind a printer that started with empty ones. -/
theorem tallied_number3 {es : List Event} (h : (writeEvents o b lib count es).val ≠ none) (dir : Direction) (q : Option Proc3) :
    (tallied .init (writeEvents o b lib count es)).v3.of dir (q.elim .total .proc) = number3 (recordsOf es) dir q := by
  have hzero : NfsStat.init.of dir = fun _ : Tally Proc3 => (0 : UInt32) := by cases dir <;> rfl
  show (tally3 .init _).of dir _ = _
  rw [of_tally3, (counts_writeEvents h).1, bumpAll_count, count_flatMap counters3 _ _
    (count_counted Proc3.number Proc3.ofNumber false ofNumber3_iff 3 dir q), hzero]
  exact UInt32.zero_add _

theorem tallied_number2 {es : List Event} (h : (writeEvents o b lib count es).val ≠ none) (dir : Direction) (q : Option Proc2) :
    (tallied .init (writeEvents o b lib count es)).v2.of dir (q.elim .total .proc) = number2 (recordsOf es) dir q := by
  have hzero : NfsStat.init.of dir = fun _ : Tally Proc2 => (0 : UInt32) := by cases dir <;> rfl
  show (tally2 .init _).of dir _ = _
  rw [of_tally2, (counts_writeEvents h).2, bumpAll_count, count_flatMap counters2 _ _
    (count_counted Proc2.number Proc2.ofNumber true ofNumber2_iff 2 dir q), hzero]
  exact UInt32.zero_add _

theorem summary_tells {es : List Event} (h : (writeEvents o b lib count es).val ≠ none) (overflow : ℤ → Int32) (w : World)
    (pcap : PcapStat) : Tells (summaryOf overflow (tallied .init (writeEvents o b lib count es)) w pcap) (recordsOf es) := by
  refine ⟨?_, ?_, ?_, ?_⟩
  · exact Prod.ext (tallied_number3 h .call none) (tallied_number3 h .reply none)
  · show (statProcs.map (statLine overflow _)).map _ = _
    rw [List.map_map]
    refine List.map_congr_left fun q _ => ?_
    exact Prod.ext rfl (Prod.ext (tallied_number3 h .call (some q)) (tallied_number3 h .reply (some q)))
  · exact Prod.ext (tallied_number2 h .call none) (tallied_number2 h .reply none)
  · show (statProcs2.map (statLine2 overflow _)).map _ = _
    rw [List.map_map]
    refine List.map_congr_left fun q _ => ?_
    exact Prod.ext rfl (Prod.ext (tallied_number2 h .call (some q.1)) (tallied_number2 h .reply (some q.1)))

/-! ## Summaries of a run -/

/-- A chapter's records. -/
def Chapter.records (c : Chapter) : List NfsPkt := recordsOf (eventsOf c.world c.packets)

theorem prints_left {xs ys : List Event} (h : (writeEvents o b lib count (xs ++ ys)).val ≠ none) :
    (writeEvents o b lib count xs).val ≠ none := by
  intro hno
  rw [writeEvents_bind_val, hno] at h
  exact h rfl

theorem chained_prints {cs : List Chapter} {w : World} {ks : List Capture} (hw : Tables w) (hcs : Chained w cs)
    (hprints : (writeEvents o b lib count (eventsOf w (handedOut (cs, ks)))).val ≠ none) :
    ∀ c ∈ cs, (writeEvents o b lib count (eventsOf c.world c.packets)).val ≠ none := by
  induction cs generalizing w with
  | nil => exact fun _ hc => absurd hc List.not_mem_nil
  | cons c cs ih =>
    obtain ⟨rfl, hcap, hcs⟩ := hcs
    have hall : handedOut (c :: cs, ks) = c.packets ++ handedOut (cs, ks) := by
      simp only [handedOut, List.flatMap_cons, List.append_assoc]
    rw [hall] at hprints
    have hc : (writeEvents o b lib count (eventsOf c.world c.packets)).val ≠ none :=
      prints_left (eventsOf_append hcap hw ▸ hprints)
    rw [prints_append hcap hw hc] at hprints
    exact List.forall_mem_cons.mpr ⟨hc, ih (tables_after hcap hw) hcs hprints⟩

theorem records_flatten {cs : List Chapter} {w : World} {ks : List Capture} (hw : Tables w) (hcs : Chained w cs) :
    cs.flatMap Chapter.records ++ recordsOf (eventsOf (worldAfter w (cs.flatMap Chapter.packets)) ks) =
      recordsOf (eventsOf w (handedOut (cs, ks))) := by
  induction cs generalizing w with
  | nil => rfl
  | cons c cs ih =>
    obtain ⟨rfl, hcap, hcs⟩ := hcs
    have hall : handedOut (c :: cs, ks) = c.packets ++ handedOut (cs, ks) := by
      simp only [handedOut, List.flatMap_cons, List.append_assoc]
    rw [hall, eventsOf_append hcap hw, List.flatMap_cons, List.flatMap_cons, worldAfter_append, List.append_assoc,
      ih (tables_after hcap hw) hcs]
    exact (List.filterMap_append ..).symm

/-- Each log's summary has the numbers of its records, the blocks in memory have those of the
    records behind the last log, and together these are the records of all packets. -/
theorem summaries_tell (o : Opts) (b : Args) (lib : XdrLib) (count : UInt32) (overflow : ℤ → Int32) (zone : Zone) (minutes n : Nat)
    (hm : 1 ≤ minutes) (basename tmpname : Text) (files : Files) (cnt EndOfLife : Int) (rounds : List Round) (hne : rounds ≠ [])
    (hrounds : ∀ r ∈ rounds, Captures r.packets) (hticks : Nondecreasing (ticks rounds))
    (hspan : WithinCentury zone (60 * minutes) (ticks rounds))
    (hown : OwnNames zone basename tmpname (starts minutes n cnt EndOfLife rounds)) :
    let r := chaptersOf minutes n cnt EndOfLife rounds
    let rest := recordsOf (eventsOf (worldAfter World.init (r.1.flatMap Chapter.packets)) r.2)
    r.1.flatMap Chapter.records ++ rest = recordsOf (eventsOf World.init (handedOut r)) ∧
      ∀ s ∈ (Site.init minutes n basename tmpname files).mainLoop o b lib count overflow zone cnt EndOfLife rounds,
        (∀ c ∈ r.1, ∃ sm, s.files (sumName zone basename c.start) = some (.summary sm) ∧ Tells sm c.records) ∧
          ∀ w pcap, Tells (summaryOf overflow s.stats w pcap) rest := by
  intro r rest
  obtain ⟨hdies, hleaves⟩ := run_leaves o b lib count overflow zone minutes n hm basename tmpname files cnt EndOfLife rounds hne hrounds
    hticks hspan hown
  have hchained : Chained World.init r.1 :=
    chapters_chained rounds _ _ _ _ _ (fun _ => rfl) (fun _ h => absurd h List.not_mem_nil) hrounds
  refine ⟨records_flatten ledger_init.tables hchained, fun s hs => ?_⟩
  have h := hleaves s hs
  have hprints : (nfsdump o b lib count (handedOut r)).val ≠ none := by
    intro hno
    rw [hdies.mpr hno] at hs
    exact Option.not_mem_none _ hs
  refine ⟨fun c hc => ⟨_, h.summaries c hc, summary_tells (chained_prints ledger_init.tables hchained hprints c hc) _ _ _⟩, ?_⟩
  intro w pcap
  rw [h.stats]
  exact summary_tells h.prints overflow w pcap

theorem summaries_tell_two_rounds :
    let r := chaptersOf 30 24 (-1) (-1) twoRounds
    let rest := recordsOf (eventsOf (worldAfter World.init (r.1.flatMap Chapter.packets)) r.2)
    r.1.flatMap Chapter.records ++ rest = recordsOf (eventsOf World.init (handedOut r)) ∧
      ∀ s ∈ twoRoundsRun,
        (∀ c ∈ r.1, ∃ sm, s.files (sumName eastern2006 "log".toList c.start) = some (.summary sm) ∧ Tells sm c.records) ∧
          ∀ w pcap, Tells (summaryOf (fun _ => 0) s.stats w pcap) rest :=
  summaries_tell hashing buffers XdrLib.memStream 0 (fun _ => 0) eastern2006 30 24 (by decide) _ _ _ _ _ twoRounds (List.cons_ne_nil _ _)
    (by decide) (by decide) (by decide) ⟨by decide, by decide⟩

end Nfsdump.Driver
