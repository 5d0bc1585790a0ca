/-
  Nfsdump.Driver.Logs — what main's files hold (nfsdump2/nfsdump.c, `main`, `updateOutFile`
  and `printSummary`).

  A round of the loop hands packets to `packetPrinter`, which writes its records to the
  temporary file and counts them in the statistics blocks. When an interval is over
  `updateOutFile` renames the file and writes the blocks to a summary beside it.

  Proved (`pcap_loop_eq`): a round's packets, one after the other, do to the file and the
  blocks what all their events do at once, unless a printer follows NULL.
-/

import Nfsdump.Driver.IntervalLoop
import Nfsdump.Record.Ownership
import Nfsdump.Record.PrintRecord
import Nfsdump.Decode.Percent

namespace Nfsdump.Driver

open Record Decode

/-! ## Statistics -/

/-- The lines of `nfs_v2_stat_print`, in their order. -/
def statProcs2 : List (Proc2 × String) :=
  [(.read, "read"), (.write, "write"), (.getattr, "getattr"), (.lookup, "lookup"), (.setattr, "setattr"), (.create, "create"),
   (.remove, "remove"), (.readdir, "readdir"), (.readlink, "readlink"), (.rename, "rename"), (.link, "link"),
   (.symlink, "symlink"), (.mkdir, "mkdir"), (.rmdir, "rmdir"), (.statfs, "statfs"), (.null, "null"), (.root, "root"),
   (.writecache, "wrcache")]

def statLine2 (overflow : ℤ → Int32) (p : NfsV2Stat) (q : Proc2 × String) : StatLine where
  name := q.2
  calls := p.calls (.proc q.1)
  replies := p.replies (.proc q.1)
  pct := compute_pct overflow (p.calls (.proc q.1)).toInt32 (p.calls .total).toInt32
  volume :=
    match q.1 with
    | .read => some (p.read_m, p.read_b)
    | .write => some (p.write_m, p.write_b)
    | _ => none

def nfs_v2_stat_print (overflow : ℤ → Int32) (p : NfsV2Stat) : (UInt32 × UInt32) × List StatLine :=
  ((p.calls .total, p.replies .total), statProcs2.map (statLine2 overflow p))

/-- What `pcap_stats` says: the packets received and dropped, if it does not fail. -/
abbrev PcapStat := Option (UInt32 × UInt32)

/-- What is in a summary. -/
structure Summary where
  v3 : (UInt32 × UInt32) × List StatLine
  v2 : (UInt32 × UInt32) × List StatLine
  pcap : PcapStat
  xidHashElemCnt : Int

def summaryOf (overflow : ℤ → Int32) (stats : Blocks) (w : World) (pcap : PcapStat) : Summary :=
  ⟨nfs_v3_stat_print overflow stats.v3, nfs_v2_stat_print overflow stats.v2, pcap, w.xid.elemCnt⟩

/-- The blocks behind a printer. -/
def tallied (stats : Blocks) (x : Dec Unit) : Blocks := ⟨tally2 stats.v2 x, tally3 stats.v3 x⟩

/-! ## Files -/

inductive Content where
  | text (t : Text)
  | summary (s : Summary)

abbrev Files := Text → Option Content

/-- `fopen (name, "w+")` -/
def Files.fopen (files : Files) (name : Text) : Files := Function.update files name (some (.text []))

/-- Text goes to the end of the file that is open under the name. -/
def Files.write (files : Files) (name t : Text) : Files :=
  match files name with
  | some (.text s) => Function.update files name (some (.text (s ++ t)))
  | _ => files

def Files.rename (files : Files) (old new : Text) : Files := Function.update (Function.update files old none) new (files old)

def Files.summarize (files : Files) (name : Text) (s : Summary) : Files := Function.update files name (some (.summary s))

/-! ## The loop -/

/-- Everything that main works on. -/
structure Site where
  main : Main
  world : World
  stats : Blocks
  files : Files
  stdout : Text

/-- One round of the loop: what the clock says, the packets that `pcap_loop` hands out, and
    what `pcap_stats` says when it is asked. -/
structure Round where
  tick : Tick
  packets : List Capture
  pcap : PcapStat

/-- `fclose`, `rename` and `printSummary`, when a file is open. -/
def Site.closeFiles (overflow : ℤ → Int32) (pcap : PcapStat) (s : Site) : Site :=
  let i := s.main.interval
  if s.main.outFile then
    let s := match i.cur_logname with
      | some name => { s with files := s.files.rename i.tmpname name }
      | none => s
    match i.cur_sumname with
    | some name => { s with files := s.files.summarize name (summaryOf overflow s.stats s.world pcap), stats := .init }
    | none => s
  else s

def Site.updateOutFile (overflow : ℤ → Int32) (zone : Zone) (clock : Nat) (pcap : PcapStat) (s : Site) : Site :=
  let s' := s.closeFiles overflow pcap
  { s' with main := Driver.updateOutFile zone clock s.main, files := s'.files.fopen s.main.interval.tmpname }

/-- To `OutFile`. -/
def Site.write (t : Text) (s : Site) : Site :=
  if s.main.outFile then { s with files := s.files.write s.main.interval.tmpname t } else { s with stdout := s.stdout ++ t }

section Loop

variable (o : Opts) (b : Args) (lib : XdrLib) (count : UInt32)

/-- The program may die of a packet. -/
def Site.packetPrinter (s : Site) (c : Capture) : Option Site :=
  let r := processPacket c.ind s.world c.h c.record
  let x := writeEvents o b lib count r.events
  match r.exit, x.val with
  | .returned _, some _ => some { s.write (Decode.text (out x)) with world := r.world, stats := tallied s.stats x }
  | _, _ => none

def Site.pcap_loop (s : Site) (packets : List Capture) : Option Site := packets.foldlM (Site.packetPrinter o b lib count) s

variable (overflow : ℤ → Int32) (zone : Zone) (cnt EndOfLife : Int)

def Site.mainLoop : Site → List Round → Option Site
  | s, [] => some s
  | s, r :: rs =>
    if cnt > 0 ∧ (s.main.total_cnt : Int) ≥ cnt then some s
    else if EndOfLife > 0 ∧ (r.tick.now : Int) ≥ EndOfLife then
      some (if s.main.interval.active then s.updateOutFile overflow zone r.tick.clock r.pcap else s)
    else if s.main.interval.active ∧ r.tick.now ≥ s.main.interval.end_time then
      let s := s.updateOutFile overflow zone r.tick.clock r.pcap
      if s.main.interval.iters ≤ 0 then some s
      else do
        let m := { s.main with interval := { s.main.interval with iters := s.main.interval.iters - 1 } }
        let s ← Site.pcap_loop o b lib count { s with main := m } r.packets
        Site.mainLoop { s with main := { s.main with total_cnt := s.main.total_cnt + PACKET_POLL_CNT } } rs
    else do
      let s ← Site.pcap_loop o b lib count s r.packets
      Site.mainLoop { s with main := { s.main with total_cnt := s.main.total_cnt + PACKET_POLL_CNT } } rs

/-- At the start of the loop, in a directory with `files`. -/
def Site.init (minutes n : Nat) (basename tmpname : Text) (files : Files) : Site :=
  ⟨Main.init minutes n basename tmpname, World.init, .init, files, []⟩

end Loop

/-! ## What packets print -/

/-- The tables behind the packets. -/
def worldAfter (w : World) (ks : List Capture) : World := ks.foldl (fun w c => (processPacket c.ind w c.h c.record).world) w

def eventsOf (w : World) (ks : List Capture) : List Event := (processAll w ks).flatMap Result.events

/-- No packet is as long as an `int` can say. -/
def Captures (ks : List Capture) : Prop := ∀ c ∈ ks, c.h.caplen.toNat + 4 < 2 ^ 31

instance (ks : List Capture) : Decidable (Captures ks) := inferInstanceAs (Decidable (∀ c ∈ ks, _ < _))

variable {o : Opts} {b : Args} {lib : XdrLib} {count : UInt32} {overflow : ℤ → Int32} {zone : Zone} {cnt EndOfLife : Int}
variable {s s' : Site} {w : World} {ks ks' : List Capture}

theorem tables_after (hks : Captures ks) (hw : Tables w) : Tables (worldAfter w ks) := by
  induction ks generalizing w with
  | nil => exact hw
  | cons c ks ih =>
    have hc := List.forall_mem_cons.mp hks
    exact ih hc.2 (processPacket_returns hc.1 hw c.ind c.record).2.1

theorem worldAfter_append (w : World) (ks ks' : List Capture) : worldAfter w (ks ++ ks') = worldAfter (worldAfter w ks) ks' :=
  List.foldl_append

theorem eventsOf_cons (c : Capture) (hc : c.h.caplen.toNat + 4 < 2 ^ 31) (hw : Tables w) : eventsOf w (c :: ks) =
    (processPacket c.ind w c.h c.record).events ++ eventsOf (processPacket c.ind w c.h c.record).world ks := by
  obtain ⟨⟨rc, hrc⟩, -⟩ := processPacket_returns hc hw c.ind c.record
  have hgo : ¬ (processPacket c.ind w c.h c.record).exit = .aborted := by simp [hrc]
  simp only [eventsOf, processAll, if_neg hgo, List.flatMap_cons]

theorem eventsOf_append (hks : Captures ks) (hw : Tables w) :
    eventsOf w (ks ++ ks') = eventsOf w ks ++ eventsOf (worldAfter w ks) ks' := by
  induction ks generalizing w with
  | nil => rfl
  | cons c ks ih =>
    have hc := List.forall_mem_cons.mp hks
    have hnext := (processPacket_returns hc.1 hw c.ind c.record).2.1
    rw [List.cons_append, eventsOf_cons c hc.1 hw, eventsOf_cons c hc.1 hw, ih hc.2 hnext, List.append_assoc]
    rfl

theorem writeEvents_bind_val {xs ys : List Event} : (writeEvents o b lib count (xs ++ ys)).val =
    (writeEvents o b lib count xs).val.bind fun _ => (writeEvents o b lib count ys).val := by
  rw [writeEvents_append]
  cases h : (writeEvents o b lib count xs).val with
  | none => rw [Trace.bind_none _ h]; rfl
  | some u => rw [Trace.val_bind _ h]; rfl

theorem out_writeEvents_append {xs ys : List Event} (h : (writeEvents o b lib count xs).val ≠ none) :
    Decode.text (out (writeEvents o b lib count (xs ++ ys))) =
      Decode.text (out (writeEvents o b lib count xs)) ++ Decode.text (out (writeEvents o b lib count ys)) := by
  obtain ⟨u, hu⟩ := Option.ne_none_iff_exists'.mp h
  rw [writeEvents_append, out_bind _ hu, text_append]

theorem tallied_append {xs ys : List Event} (stats : Blocks) (h : (writeEvents o b lib count xs).val ≠ none) :
    tallied stats (writeEvents o b lib count (xs ++ ys)) =
      tallied (tallied stats (writeEvents o b lib count xs)) (writeEvents o b lib count ys) := by
  obtain ⟨u, hu⟩ := Option.ne_none_iff_exists'.mp h
  simp only [tallied, tally2, tally3, writeEvents_append, Trace.seen_bind_some _ _ hu, List.foldl_append]

/-! ## Packets of a round -/

theorem Files.write_text {files : Files} {name u : Text} (h : files name = some (.text u)) (t : Text) :
    files.write name t = Function.update files name (some (.text (u ++ t))) := by
  unfold Files.write
  rw [h]

theorem Files.write_other {files : Files} {name : Text} (h : ∀ u, files name ≠ some (.text u)) (t : Text) :
    files.write name t = files := by
  unfold Files.write
  split
  · next u hu => exact absurd hu (h u)
  · rfl

theorem Files.write_write (files : Files) (name t t' : Text) : (files.write name t).write name t' = files.write name (t ++ t') := by
  by_cases h : ∃ u, files name = some (.text u)
  · obtain ⟨u, hu⟩ := h
    rw [Files.write_text hu, Files.write_text (Function.update_self ..), Files.write_text hu, Function.update_idem, List.append_assoc]
  · have hno := not_exists.mp h
    rw [Files.write_other hno, Files.write_other hno, Files.write_other hno]

theorem Files.write_nil (files : Files) (name : Text) : files.write name [] = files := by
  unfold Files.write
  split
  · next u hu => rw [List.append_nil, ← hu, Function.update_eq_self]
  · rfl

theorem Site.write_main (t : Text) (s : Site) : (s.write t).main = s.main := by
  unfold Site.write
  split <;> rfl

theorem Site.write_nil (s : Site) : s.write [] = s := by
  unfold Site.write
  split
  · rw [Files.write_nil]
  · rw [List.append_nil]

variable (o b lib count) in
/-- The site behind packets that were printed. -/
def Site.printed (s : Site) (ks : List Capture) : Site :=
  let x := writeEvents o b lib count (eventsOf s.world ks)
  { s.write (Decode.text (out x)) with world := worldAfter s.world ks, stats := tallied s.stats x }

/-- A round prints its packets, unless a printer follows NULL. -/
theorem pcap_loop_eq (hks : Captures ks) (hw : Tables s.world) : Site.pcap_loop o b lib count s ks =
    (writeEvents o b lib count (eventsOf s.world ks)).val.map fun _ => s.printed o b lib count ks := by
  induction ks generalizing s with
  | nil =>
    show some s = some _
    simp only [Site.printed, eventsOf, processAll, List.flatMap_nil, writeEvents, out_pure, text_nil, Site.write_nil]
    rfl
  | cons c ks ih =>
    have hc := List.forall_mem_cons.mp hks
    obtain ⟨⟨rc, hrc⟩, hnext, -⟩ := processPacket_returns hc.1 hw c.ind c.record
    rw [eventsOf_cons c hc.1 hw, writeEvents_bind_val]
    show (Site.packetPrinter o b lib count s c).bind (Site.pcap_loop o b lib count · ks) = _
    cases hx : (writeEvents o b lib count (processPacket c.ind s.world c.h c.record).events).val with
    | none => simp only [Site.packetPrinter, hrc, hx, Option.bind_none, Option.map_none]
    | some u =>
      have hne : (writeEvents o b lib count (processPacket c.ind s.world c.h c.record).events).val ≠ none := by simp [hx]
      simp only [Site.packetPrinter, hrc, hx, Option.bind_some]
      rw [ih hc.2 hnext]
      refine congrArg (Option.map · _) (funext fun _ => ?_)
      simp only [Site.printed, eventsOf_cons c hc.1 hw, out_writeEvents_append hne, tallied_append _ hne]
      unfold Site.write
      split
      · simp only [Files.write_write]
        rfl
      · simp only [List.append_assoc]
        rfl

end Nfsdump.Driver
