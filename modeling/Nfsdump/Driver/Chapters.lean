/-
  Nfsdump.Driver.Chapters — which packets are in which log.

  Proved, for any packets, clock and zone, and any state of the directory before:
  - `Kept.mainLoop`: names and counters go as in `Driver.mainLoop`, the logs and summaries are
    those of the chapters that the clock makes of the rounds (`chapters`), and the temporary
    file holds the packets behind them;
  - `logs_concatenate`: as long as no two logs have one name, the logs and the temporary file,
    one behind the other, are what nfsdump prints of all the packets handed out.
-/

import Nfsdump.Decode.WriteCall
import Nfsdump.Driver.Logs

namespace Nfsdump.Driver

open Record Decode

variable {o : Opts} {b : Args} {lib : XdrLib} {count : UInt32} {overflow : ℤ → Int32} {zone : Zone} {cnt EndOfLife : Int}
variable {s s' : Site} {w : World} {ks ks' : List Capture}

/-! ## Chapters -/

/-- An interval that is over: its start, the tables then, the packets handed out in it, and
    what `pcap_stats` says at its end. -/
structure Chapter where
  start : Nat
  world : World
  packets : List Capture
  pcap : PcapStat

/-- The chapters that end, and the packets behind the last of them; `w` are the tables at the
    start of the current chapter, and `ks` its packets so far. -/
def chapters (secs : Nat) (cnt EndOfLife : Int) : Nat → Nat → Option Nat → World → List Capture → List Round →
    List Chapter × List Capture
  | _, _, _, _, ks, [] => ([], ks)
  | iters, total_cnt, cur, w, ks, r :: rs =>
    let closed := cur.toList.map fun c => ⟨c, w, ks, r.pcap⟩
    if cnt > 0 ∧ (total_cnt : Int) ≥ cnt then ([], ks)
    else if EndOfLife > 0 ∧ (r.tick.now : Int) ≥ EndOfLife then (closed, [])
    else if ∀ c ∈ cur, r.tick.now ≥ c + secs then
      if iters ≤ 0 then (closed, [])
      else
        let next := chapters secs cnt EndOfLife (iters - 1) (total_cnt + PACKET_POLL_CNT) (some (intervalStart secs r.tick.clock))
          (worldAfter w ks) r.packets rs
        (closed ++ next.1, next.2)
    else chapters secs cnt EndOfLife iters (total_cnt + PACKET_POLL_CNT) cur w (ks ++ r.packets) rs

/-- All packets of some chapters and of what is behind them. -/
def handedOut (r : List Chapter × List Capture) : List Capture := r.1.flatMap Chapter.packets ++ r.2

section Published

variable (o : Opts) (b : Args) (lib : XdrLib) (count : UInt32) (overflow : ℤ → Int32) (zone : Zone)

/-- What is printed of packets. -/
def logOf (w : World) (ks : List Capture) : Text := Decode.text (out (writeEvents o b lib count (eventsOf w ks)))

def Chapter.log (c : Chapter) : Text := logOf o b lib count c.world c.packets

def Chapter.summary (c : Chapter) : Summary :=
  summaryOf overflow (tallied .init (writeEvents o b lib count (eventsOf c.world c.packets))) (worldAfter c.world c.packets) c.pcap

def txtName (basename : Text) (start : Nat) : Text := logName basename (localtime zone start) ".txt".toList
def sumName (basename : Text) (start : Nat) : Text := logName basename (localtime zone start) ".sum".toList

/-- The directory with a chapter's log and summary. -/
def publish (basename : Text) (files : Files) (c : Chapter) : Files :=
  Function.update (Function.update files (txtName zone basename c.start) (some (.text (c.log o b lib count))))
    (sumName zone basename c.start) (some (.summary (c.summary o b lib count overflow)))

/-- A directory and, once a file was opened, the temporary file. -/
def withTemp (files : Files) (tmpname : Text) (cur : Option Nat) (t : Text) : Files :=
  match cur with
  | none => files
  | some _ => Function.update files tmpname (some (.text t))

/-- Between two rounds: `files` is the directory without the temporary file, `cur` the start of
    the current chapter, `w` the tables then and `ks` its packets so far. -/
structure Kept (s : Site) (files : Files) (cur : Option Nat) (w : World) (ks : List Capture) : Prop where
  rotates : Rotates zone s.main cur
  sumname : s.main.interval.cur_sumname = cur.map fun c => sumName zone s.main.interval.basename c
  tables : Tables w
  captures : Captures ks
  prints : (writeEvents o b lib count (eventsOf w ks)).val ≠ none
  world : s.world = worldAfter w ks
  stats : s.stats = tallied .init (writeEvents o b lib count (eventsOf w ks))
  files : s.files = withTemp files s.main.interval.tmpname cur (logOf o b lib count w ks)
  fresh : cur = none → ks = []

end Published

variable {files : Files} {cur : Option Nat} {secs : Nat}

theorem chapters_starts (rounds : List Round) : ∀ (iters total_cnt : Nat) (cur : Option Nat) (w : World) (ks : List Capture),
    (chapters secs cnt EndOfLife iters total_cnt cur w ks rounds).1.map Chapter.start =
      finished secs cnt EndOfLife iters total_cnt cur (rounds.map Round.tick) := by
  induction rounds with
  | nil => exact fun _ _ _ _ _ => rfl
  | cons r rs ih =>
    intro iters total_cnt cur w ks
    have hclosed : (cur.toList.map fun c => (⟨c, w, ks, r.pcap⟩ : Chapter)).map Chapter.start = cur.toList := by
      rw [List.map_map]
      exact List.map_id _
    rw [chapters, List.map_cons, finished]
    split
    · rfl
    · split
      · exact hclosed
      · split
        · split
          · rw [hclosed, List.append_nil]
          · rw [List.map_append, hclosed, ih]
        · exact ih ..

theorem closeFiles_none (hout : s.main.outFile = false) (pcap : PcapStat) : s.closeFiles overflow pcap = s := by
  simp only [Site.closeFiles, hout, Bool.false_eq_true, if_false]

theorem closeFiles_some {log sum : Text} (hout : s.main.outFile = true) (hlog : s.main.interval.cur_logname = some log)
    (hsum : s.main.interval.cur_sumname = some sum) (pcap : PcapStat) : s.closeFiles overflow pcap =
      { s with
        files := (s.files.rename s.main.interval.tmpname log).summarize sum (summaryOf overflow s.stats s.world pcap)
        stats := .init } := by
  simp only [Site.closeFiles, hout, hlog, hsum, if_true]

theorem closeFiles_world (pcap : PcapStat) : (s.closeFiles overflow pcap).world = s.world := by
  unfold Site.closeFiles
  simp only
  split
  · split <;> split <;> rfl
  · rfl

/-- What is in the directory once `updateOutFile` is done. -/
theorem reopened (files : Files) (tmp log sum t : Text) (x : Summary) :
    ((Files.rename (Function.update files tmp (some (.text t))) tmp log).summarize sum x).fopen tmp =
      Function.update (Function.update (Function.update files log (some (.text t))) sum (some (.summary x))) tmp (some (.text [])) := by
  funext n
  unfold Files.fopen Files.summarize Files.rename
  by_cases htmp : n = tmp
  · rw [htmp, Function.update_self, Function.update_self]
  · rw [Function.update_of_ne htmp, Function.update_of_ne htmp]
    by_cases hsum : n = sum
    · rw [hsum, Function.update_self, Function.update_self]
    · rw [Function.update_of_ne hsum, Function.update_of_ne hsum, Function.update_self]
      by_cases hlog : n = log
      · rw [hlog, Function.update_self, Function.update_self]
      · rw [Function.update_of_ne hlog, Function.update_of_ne hlog, Function.update_of_ne htmp, Function.update_of_ne htmp]

/-- The chapter ends: its log and its summary are in the directory, and a new temporary file
    is open. -/
theorem Kept.update (h : Kept o b lib count zone s files cur w ks) (overflow : ℤ → Int32) (clock k total : Nat) (pcap : PcapStat) :
    Kept o b lib count zone
      { s.updateOutFile overflow zone clock pcap with
        main := { (s.updateOutFile overflow zone clock pcap).main with
          interval := { (s.updateOutFile overflow zone clock pcap).main.interval with iters := k }, total_cnt := total } }
      ((cur.toList.map fun c => (⟨c, w, ks, pcap⟩ : Chapter)).foldl (publish o b lib count overflow zone s.main.interval.basename) files)
      (some (intervalStart s.main.interval.secs clock)) (worldAfter w ks) [] := by
  obtain ⟨hsecs, hbase, -, -, -⟩ := closeOut_interval s.main
  have htmp : s.main.closeOut.interval.tmpname = s.main.interval.tmpname := by
    unfold Main.closeOut
    split <;> rfl
  refine ⟨h.rotates.update clock k total, ?_, tables_after h.captures h.tables, ?_, ?_, ?_, ?_, ?_, ?_⟩
  · simp only [Site.updateOutFile, Driver.updateOutFile, hsecs, hbase]
    rfl
  · exact fun _ hc => absurd hc List.not_mem_nil
  · exact Option.some_ne_none _
  · exact (closeFiles_world pcap).trans h.world
  · show (s.closeFiles overflow pcap).stats = .init
    cases cur with
    | none =>
      rw [closeFiles_none h.rotates.outFile, h.stats, h.fresh rfl]
      rfl
    | some c => rw [closeFiles_some h.rotates.outFile h.rotates.logname h.sumname]
  · show (s.closeFiles overflow pcap).files.fopen s.main.interval.tmpname =
      Function.update _ s.main.closeOut.interval.tmpname (some (.text []))
    rw [htmp]
    cases cur with
    | none =>
      rw [closeFiles_none h.rotates.outFile, h.files]
      rfl
    | some c =>
      rw [closeFiles_some h.rotates.outFile h.rotates.logname h.sumname, h.files, withTemp, reopened, h.stats, h.world]
      rfl
  · exact fun hno => absurd hno (Option.some_ne_none _)

theorem Kept.updated (h : Kept o b lib count zone s files cur w ks) (overflow : ℤ → Int32) (clock : Nat) (pcap : PcapStat) :
    Kept o b lib count zone (s.updateOutFile overflow zone clock pcap)
      ((cur.toList.map fun c => (⟨c, w, ks, pcap⟩ : Chapter)).foldl (publish o b lib count overflow zone s.main.interval.basename) files)
      (some (intervalStart s.main.interval.secs clock)) (worldAfter w ks) [] :=
  h.update overflow clock (s.updateOutFile overflow zone clock pcap).main.interval.iters
    (s.updateOutFile overflow zone clock pcap).main.total_cnt pcap

/-- Packets are handed out in the chapter. -/
theorem Kept.printed (h : Kept o b lib count zone s files cur w ks) (hopen : cur.isSome) (hks' : Captures ks')
    (hprints : (writeEvents o b lib count (eventsOf s.world ks')).val ≠ none) :
    Kept o b lib count zone (s.printed o b lib count ks') files cur w (ks ++ ks') := by
  obtain ⟨c, rfl⟩ := Option.isSome_iff_exists.mp hopen
  have hout : s.main.outFile = true := h.rotates.outFile
  have hall : eventsOf w (ks ++ ks') = eventsOf w ks ++ eventsOf s.world ks' := by rw [eventsOf_append h.captures h.tables, h.world]
  have hmain : (s.printed o b lib count ks').main = s.main := Site.write_main _ s
  refine ⟨?_, ?_, h.tables, ?_, ?_, ?_, ?_, ?_, fun hno => absurd hno (Option.some_ne_none _)⟩
  · exact hmain ▸ h.rotates
  · exact hmain ▸ h.sumname
  · exact fun k hk => (List.mem_append.mp hk).elim (h.captures k) (hks' k)
  · rw [hall, writeEvents_bind_val]
    obtain ⟨u, hu⟩ := Option.ne_none_iff_exists'.mp h.prints
    rw [hu]
    exact hprints
  · show worldAfter s.world ks' = _
    rw [worldAfter_append, h.world]
  · show tallied s.stats _ = _
    rw [hall, tallied_append _ h.prints, h.stats]
  · show (s.write _).files = _
    have hfile : s.files s.main.interval.tmpname = some (.text (logOf o b lib count w ks)) := by
      rw [h.files]
      exact Function.update_self ..
    rw [hmain, Site.write, if_pos hout]
    show s.files.write _ _ = Function.update files _ _
    rw [Files.write_text hfile, h.files, withTemp, Function.update_idem]
    unfold logOf
    rw [hall, out_writeEvents_append h.prints]

/-- A change of the counter of packets, or of the intervals left, is none of the files'. -/
theorem Kept.counted (h : Kept o b lib count zone s files cur w ks) (total : Nat) :
    Kept o b lib count zone { s with main := { s.main with total_cnt := total } } files cur w ks :=
  ⟨⟨h.rotates.active, h.rotates.outFile, h.rotates.logname, h.rotates.end_time⟩, h.sumname, h.tables, h.captures, h.prints, h.world,
    h.stats, h.files, h.fresh⟩

theorem printed_main (s : Site) (ks : List Capture) : (s.printed o b lib count ks).main = s.main := Site.write_main _ s

theorem prints_append (hks : Captures ks) (hw : Tables w) (hprints : (writeEvents o b lib count (eventsOf w ks)).val ≠ none)
    (ks' : List Capture) : (writeEvents o b lib count (eventsOf w (ks ++ ks'))).val =
      (writeEvents o b lib count (eventsOf (worldAfter w ks) ks')).val := by
  obtain ⟨u, hu⟩ := Option.ne_none_iff_exists'.mp hprints
  rw [eventsOf_append hks hw, writeEvents_bind_val, hu, Option.bind_some]

theorem flatMap_closed (hfresh : cur = none → ks = []) (w : World) (pcap : PcapStat) :
    (cur.toList.map fun c => (⟨c, w, ks, pcap⟩ : Chapter)).flatMap Chapter.packets = ks := by
  cases cur with
  | none => exact (hfresh rfl).symm
  | some c => exact List.append_nil ks

theorem handedOut_closed (hfresh : cur = none → ks = []) (w : World) (pcap : PcapStat) (next : List Chapter × List Capture) :
    handedOut ((cur.toList.map fun c => (⟨c, w, ks, pcap⟩ : Chapter)) ++ next.1, next.2) = ks ++ handedOut next := by
  rw [handedOut, List.flatMap_append, flatMap_closed hfresh, List.append_assoc]
  rfl

/-- The packets handed out so far are the first of all, and behind them come those of the next rounds. -/
theorem handedOut_chapters (secs : Nat) (cnt EndOfLife : Int) (rounds : List Round) :
    ∀ (iters total_cnt : Nat) (cur : Option Nat) (w : World) (ks : List Capture), (cur = none → ks = []) → ∃ more,
      handedOut (chapters secs cnt EndOfLife iters total_cnt cur w ks rounds) = ks ++ more ∧ more <+: rounds.flatMap Round.packets := by
  induction rounds with
  | nil => exact fun _ _ _ _ ks _ => ⟨[], (List.append_nil ks).symm, List.prefix_refl []⟩
  | cons r rs ih =>
    intro iters total_cnt cur w ks hfresh
    have hnil : ([] : List Capture) <+: (r :: rs).flatMap Round.packets := List.nil_prefix
    have hlast : handedOut ((cur.toList.map fun c => (⟨c, w, ks, r.pcap⟩ : Chapter)), []) = ks ++ [] :=
      congrArg (· ++ []) (flatMap_closed hfresh w r.pcap)
    rw [chapters]
    split
    · exact ⟨[], (List.append_nil ks).symm, hnil⟩
    · split
      · exact ⟨[], hlast, hnil⟩
      · split
        · split
          · exact ⟨[], hlast, hnil⟩
          · obtain ⟨more, hmore, hprefix⟩ := ih _ (total_cnt + PACKET_POLL_CNT) (some (intervalStart secs r.tick.clock)) (worldAfter w ks)
              r.packets fun hno => absurd hno (Option.some_ne_none _)
            refine ⟨r.packets ++ more, ?_, ?_⟩
            · rw [handedOut_closed hfresh, hmore]
            · rw [List.flatMap_cons]
              exact (List.prefix_append_right_inj _).mpr hprefix
        · next hnot =>
          have hopen : cur ≠ none := by
            rintro rfl
            exact hnot fun _ hc => absurd hc (Option.not_mem_none _)
          obtain ⟨more, hmore, hprefix⟩ := ih iters (total_cnt + PACKET_POLL_CNT) cur w (ks ++ r.packets) fun hno => absurd hno hopen
          refine ⟨r.packets ++ more, by rw [hmore, List.append_assoc], ?_⟩
          rw [List.flatMap_cons]
          exact (List.prefix_append_right_inj _).mpr hprefix

/-- What a run comes to: it dies iff a printer follows NULL; or else names and counters are
    those of `Driver.mainLoop`, and the files those of the chapters. -/
structure Outcome (o : Opts) (b : Args) (lib : XdrLib) (count : UInt32) (overflow : ℤ → Int32) (zone : Zone) (basename : Text)
    (files : Files) (w : World) (r : List Chapter × List Capture) (main : Main) (opened : Prop) (result : Option Site) : Prop where
  dies : result = none ↔ (writeEvents o b lib count (eventsOf w (handedOut r))).val = none
  main : ∀ s' ∈ result, s'.main = main
  kept : ∀ s' ∈ result, ∃ cur', (opened → cur'.isSome) ∧
    Kept o b lib count zone s' (r.1.foldl (publish o b lib count overflow zone basename) files) cur'
      (worldAfter w (r.1.flatMap Chapter.packets)) r.2

variable {basename : Text}

/-- A run that ends here. -/
theorem Outcome.stop (overflow : ℤ → Int32) (basename : Text) (opened : Prop) (h : Kept o b lib count zone s files cur w ks)
    (hopen : opened → cur.isSome) :
    Outcome o b lib count overflow zone basename files w ([], ks) s.main opened (some s) := by
  refine ⟨iff_of_false (Option.some_ne_none _) h.prints, fun s' hs' => ?_, fun s' hs' => ⟨cur, hopen, ?_⟩⟩
  · exact Option.some_inj.mp hs' ▸ rfl
  · exact Option.some_inj.mp hs' ▸ h

/-- `updateOutFile` in front of the rest of a run. -/
theorem Outcome.behind {next : List Chapter × List Capture} {main : Main} (opened : Prop) {result : Option Site} {pcap : PcapStat}
    (h : Kept o b lib count zone s files cur w ks)
    (hnext : Outcome o b lib count overflow zone basename
      ((cur.toList.map fun c => (⟨c, w, ks, pcap⟩ : Chapter)).foldl (publish o b lib count overflow zone basename) files)
      (worldAfter w ks) next main True result) :
    Outcome o b lib count overflow zone basename files w ((cur.toList.map fun c => (⟨c, w, ks, pcap⟩ : Chapter)) ++ next.1, next.2)
      main opened result := by
  refine ⟨?_, hnext.main, fun s' hs' => ?_⟩
  · rw [handedOut_closed h.fresh, prints_append h.captures h.tables h.prints]
    exact hnext.dies
  · obtain ⟨cur', ho, hkept⟩ := hnext.kept s' hs'
    refine ⟨cur', fun _ => ho trivial, ?_⟩
    rwa [List.foldl_append, List.flatMap_append, flatMap_closed h.fresh, worldAfter_append]

/-- A round of packets in front of the rest of a run. -/
theorem Outcome.round {rs : List Round} {p : List Capture} {iters total : Nat} (opened : Prop)
    (h : Kept o b lib count zone s files cur w ks) (hbase : s.main.interval.basename = basename) (hsecs : s.main.interval.secs = secs)
    (hiters : s.main.interval.iters = iters) (htotal : s.main.total_cnt = total) (hopen : cur.isSome) (hp : Captures p)
    (ih : ∀ {s : Site} {files : Files} {cur : Option Nat} {w : World} {ks : List Capture},
      Kept o b lib count zone s files cur w ks → s.main.interval.basename = basename →
      Outcome o b lib count overflow zone basename files w
        (chapters s.main.interval.secs cnt EndOfLife s.main.interval.iters s.main.total_cnt cur w ks rs)
        (Driver.mainLoop zone cnt EndOfLife s.main (rs.map Round.tick)) (cur.isSome ∨ (rs ≠ [] ∧ s.main.total_cnt = 0))
        (s.mainLoop o b lib count overflow zone cnt EndOfLife rs)) :
    Outcome o b lib count overflow zone basename files w
      (chapters secs cnt EndOfLife iters (total + PACKET_POLL_CNT) cur w (ks ++ p) rs)
      (Driver.mainLoop zone cnt EndOfLife { s.main with total_cnt := s.main.total_cnt + PACKET_POLL_CNT } (rs.map Round.tick)) opened
      ((s.pcap_loop o b lib count p).bind fun s =>
        Site.mainLoop o b lib count overflow zone cnt EndOfLife
          { s with main := { s.main with total_cnt := s.main.total_cnt + PACKET_POLL_CNT } } rs) := by
  subst hsecs hiters htotal
  have htables : Tables s.world := h.world ▸ tables_after h.captures h.tables
  rw [pcap_loop_eq hp htables]
  rcases hx : (writeEvents o b lib count (eventsOf s.world p)).val with _ | u
  · refine ⟨iff_of_true rfl ?_, fun s' hs' => absurd hs' (Option.not_mem_none _), fun s' hs' => absurd hs' (Option.not_mem_none _)⟩
    obtain ⟨more, hmore, -⟩ := handedOut_chapters s.main.interval.secs cnt EndOfLife rs
      s.main.interval.iters (s.main.total_cnt + PACKET_POLL_CNT) cur w (ks ++ p) fun hno => absurd hopen (by simp [hno])
    rw [hmore, List.append_assoc, prints_append h.captures h.tables h.prints, ← h.world, eventsOf_append hp htables, writeEvents_bind_val,
      hx, Option.bind_none]
  · have hk := (h.printed hopen hp (by simp [hx])).counted (s.main.total_cnt + PACKET_POLL_CNT)
    have hrest := ih hk ((congrArg (·.interval.basename) (printed_main s p)).trans hbase)
    simp only [printed_main] at hrest
    rw [Option.map_some, Option.bind_some, printed_main]
    refine ⟨hrest.dies, hrest.main, fun s' hs' => ?_⟩
    obtain ⟨cur', ho, hkept⟩ := hrest.kept s' hs'
    exact ⟨cur', fun _ => ho (Or.inl hopen), hkept⟩

theorem Kept.mainLoop (rounds : List Round) : ∀ {s : Site} {files : Files} {cur : Option Nat} {w : World} {ks : List Capture},
    Kept o b lib count zone s files cur w ks → s.main.interval.basename = basename → (∀ r ∈ rounds, Captures r.packets) →
    Outcome o b lib count overflow zone basename files w
      (chapters s.main.interval.secs cnt EndOfLife s.main.interval.iters s.main.total_cnt cur w ks rounds)
      (Driver.mainLoop zone cnt EndOfLife s.main (rounds.map Round.tick))
      (cur.isSome ∨ (rounds ≠ [] ∧ s.main.total_cnt = 0))
      (s.mainLoop o b lib count overflow zone cnt EndOfLife rounds) := by
  induction rounds with
  | nil => exact fun h _ _ => Outcome.stop _ _ _ h fun ho => ho.resolve_right fun hr => hr.1 rfl
  | cons r rs ih =>
    intro s files cur w ks h hbase hrounds
    obtain ⟨hr, hrs⟩ := List.forall_mem_cons.mp hrounds
    have hbase' : (s.updateOutFile overflow zone r.tick.clock r.pcap).main.interval.basename = basename :=
      (closeOut_interval s.main).2.1.trans hbase
    have hupdated := h.updated overflow r.tick.clock r.pcap
    rw [hbase] at hupdated
    have hstop := Outcome.behind (cur.isSome ∨ (r :: rs ≠ [] ∧ s.main.total_cnt = 0)) h
      (Outcome.stop overflow basename True hupdated fun _ => rfl)
    rw [List.append_nil] at hstop
    rw [chapters, Site.mainLoop, List.map_cons, Driver.mainLoop]
    split
    · next hcnt =>
      refine Outcome.stop _ _ _ h fun ho => ho.resolve_right fun hfirst => ?_
      rw [hfirst.2] at hcnt
      omega
    · split
      · rw [if_pos h.rotates.active, if_pos h.rotates.active]
        exact hstop
      · simp only [h.rotates.active, true_and, h.rotates.due_iff]
        obtain ⟨hsecs, -, hiters, -, htotal⟩ := closeOut_interval s.main
        have hleft : (s.updateOutFile overflow zone r.tick.clock r.pcap).main.interval.iters = s.main.interval.iters := hiters
        have hmain : (Driver.updateOutFile zone r.tick.clock s.main).interval.iters = s.main.interval.iters := hiters
        simp only [hleft, hmain]
        split
        · split
          · exact hstop
          · have hopened := h.update overflow r.tick.clock (s.main.interval.iters - 1)
              (s.updateOutFile overflow zone r.tick.clock r.pcap).main.total_cnt r.pcap
            rw [hbase] at hopened
            have hround := Outcome.behind (cur.isSome ∨ (r :: rs ≠ [] ∧ s.main.total_cnt = 0)) h
              (Outcome.round True hopened hbase' hsecs rfl htotal rfl hr fun hk hb => ih hk hb hrs)
            exact hround
        · next hnot =>
          have hopen : cur.isSome := by
            rw [Option.isSome_iff_ne_none]
            rintro rfl
            exact hnot fun _ hc => absurd hc (Option.not_mem_none _)
          exact Outcome.round _ h hbase rfl rfl rfl hopen hr fun hk hb => ih hk hb hrs

/-! ## Chapters in a row -/

/-- Each chapter starts with the tables that the one before it left. -/
def Chained : World → List Chapter → Prop
  | _, [] => True
  | w, c :: cs => c.world = w ∧ Captures c.packets ∧ Chained (worldAfter w c.packets) cs

theorem chained_closed (hfresh : cur = none → ks = []) (hks : Captures ks) (w : World) (pcap : PcapStat) {cs : List Chapter}
    (h : Chained (worldAfter w ks) cs) : Chained w ((cur.toList.map fun c => ⟨c, w, ks, pcap⟩) ++ cs) := by
  cases cur with
  | none => rwa [hfresh rfl] at h
  | some c => exact ⟨rfl, hks, h⟩

theorem chapters_chained (rounds : List Round) : ∀ (iters total_cnt : Nat) (cur : Option Nat) (w : World) (ks : List Capture),
    (cur = none → ks = []) → Captures ks → (∀ r ∈ rounds, Captures r.packets) →
    Chained w (chapters secs cnt EndOfLife iters total_cnt cur w ks rounds).1 := by
  induction rounds with
  | nil => exact fun _ _ _ _ _ _ _ _ => trivial
  | cons r rs ih =>
    intro iters total_cnt cur w ks hfresh hks hrounds
    obtain ⟨hr, hrs⟩ := List.forall_mem_cons.mp hrounds
    have hnil : Chained (worldAfter w ks) [] := trivial
    have hclosed := chained_closed hfresh hks w r.pcap hnil
    rw [List.append_nil] at hclosed
    rw [chapters]
    split
    · trivial
    · split
      · exact hclosed
      · split
        · split
          · exact hclosed
          · exact chained_closed hfresh hks w r.pcap (ih _ _ _ _ _ (fun hno => absurd hno (Option.some_ne_none _)) hr hrs)
        · next hnot =>
          have hopen : cur ≠ none := by
            rintro rfl
            exact hnot fun _ hc => absurd hc (Option.not_mem_none _)
          exact ih _ _ _ _ _ (fun hno => absurd hno hopen) (fun k hk => (List.mem_append.mp hk).elim (hks k) (hr k)) hrs

/-- The logs of chapters in a row are what all their packets print. -/
theorem logs_flatten {cs : List Chapter} {w : World} (hw : Tables w) (hcs : Chained w cs)
    (hprints : (writeEvents o b lib count (eventsOf w (handedOut (cs, ks)))).val ≠ none) :
    (cs.flatMap fun c => c.log o b lib count) ++ logOf o b lib count (worldAfter w (cs.flatMap Chapter.packets)) ks =
      logOf o b lib count w (handedOut (cs, ks)) := by
  induction cs generalizing w with
  | nil => rfl
  | cons c cs ih =>
    obtain ⟨rfl, hcap, hcs⟩ := hcs
    have hall : handedOut (c :: cs, ks) = c.packets ++ handedOut (cs, ks) := by
      simp only [handedOut, List.flatMap_cons, List.append_assoc]
    have hc : (writeEvents o b lib count (eventsOf c.world c.packets)).val ≠ none := by
      intro hno
      rw [hall, eventsOf_append hcap hw, writeEvents_bind_val, hno] at hprints
      exact hprints rfl
    rw [hall, prints_append hcap hw hc] at hprints
    rw [List.flatMap_cons, List.flatMap_cons, worldAfter_append, List.append_assoc, ih (tables_after hcap hw) hcs hprints, hall]
    simp only [logOf, Chapter.log, eventsOf_append hcap hw, out_writeEvents_append hc]

/-! ## The directory read back -/

/-- What `cat` writes of a file. -/
def Files.cat (files : Files) (name : Text) : Text :=
  match files name with
  | some (.text t) => t
  | _ => []

theorem txtName_ne_sumName (basename : Text) (c c' : Nat) : txtName zone basename c ≠ sumName zone basename c' := by
  intro h
  have h' : (basename ++ '-' :: logDate (localtime zone c)) ++ ".txt".toList =
      (basename ++ '-' :: logDate (localtime zone c')) ++ ".sum".toList := by
    simpa only [txtName, sumName, logName, List.append_assoc, List.cons_append] using h
  exact absurd (List.append_inj' h' rfl).2 (by decide)

theorem sumName_inj {basename : Text} {c c' : Nat} (h : sumName zone basename c = sumName zone basename c') :
    txtName zone basename c = txtName zone basename c' := by
  simp only [sumName, txtName, logName] at h ⊢
  rw [List.append_cancel_right (List.tail_eq_of_cons_eq (List.append_cancel_left h))]

theorem publish_other {n : Text} (cs : List Chapter) (h : ∀ c ∈ cs, n ≠ txtName zone basename c.start ∧ n ≠ sumName zone basename c.start)
    (files : Files) : cs.foldl (publish o b lib count overflow zone basename) files n = files n := by
  induction cs generalizing files with
  | nil => rfl
  | cons c cs ih =>
    obtain ⟨hc, hcs⟩ := List.forall_mem_cons.mp h
    rw [List.foldl_cons, ih hcs, publish, Function.update_of_ne hc.2, Function.update_of_ne hc.1]

/-- Chapters of different names are all in the directory. -/
theorem published (cs : List Chapter) (h : cs.Pairwise fun c c' => txtName zone basename c.start ≠ txtName zone basename c'.start)
    (files : Files) : ∀ c ∈ cs,
      cs.foldl (publish o b lib count overflow zone basename) files (txtName zone basename c.start) = some (.text (c.log o b lib count)) ∧
      cs.foldl (publish o b lib count overflow zone basename) files (sumName zone basename c.start) =
        some (.summary (c.summary o b lib count overflow)) := by
  induction cs generalizing files with
  | nil => exact fun _ hc => absurd hc List.not_mem_nil
  | cons c cs ih =>
    obtain ⟨hc, hcs⟩ := List.pairwise_cons.mp h
    rw [List.forall_mem_cons]
    refine ⟨?_, ih hcs _⟩
    rw [List.foldl_cons, publish_other cs (fun c' hc' => ⟨hc c' hc', txtName_ne_sumName _ _ _⟩),
      publish_other cs (fun c' hc' => ⟨(txtName_ne_sumName _ _ _).symm, fun heq => hc c' hc' (sumName_inj heq)⟩), publish,
      Function.update_self, Function.update_of_ne (txtName_ne_sumName _ _ _), Function.update_self]
    exact ⟨rfl, rfl⟩

theorem mainLoop_tmpname (ticks : List Tick) (m : Main) :
    (Driver.mainLoop zone cnt EndOfLife m ticks).interval.tmpname = m.interval.tmpname := by
  have hupdate : ∀ (m : Main) (clock : Nat), (Driver.updateOutFile zone clock m).interval.tmpname = m.interval.tmpname := by
    intro m clock
    show m.closeOut.interval.tmpname = _
    unfold Main.closeOut
    split <;> rfl
  induction ticks generalizing m with
  | nil => rfl
  | cons tick ticks ih =>
    rw [Driver.mainLoop]
    split
    · rfl
    · split
      · split
        · exact hupdate m tick.clock
        · rfl
      · split
        · dsimp only
          split
          · exact hupdate m tick.clock
          · exact (ih _).trans (hupdate m tick.clock)
        · exact ih _

theorem kept_init (minutes n : Nat) (basename tmpname : Text) (files : Files) :
    Kept o b lib count zone (Site.init minutes n basename tmpname files) files none World.init [] :=
  ⟨rotates_init minutes n basename tmpname, rfl, ledger_init.tables, fun _ h => absurd h List.not_mem_nil,
    Option.some_ne_none _, rfl, rfl,
    rfl, fun _ => rfl⟩

/-- The chapters of a whole run. -/
def chaptersOf (minutes n : Nat) (cnt EndOfLife : Int) (rounds : List Round) : List Chapter × List Capture :=
  chapters (60 * minutes) cnt EndOfLife n 0 none World.init [] rounds

def ticks (rounds : List Round) : List Tick := rounds.map Round.tick

/-- The starts of a whole run's chapters. -/
def starts (minutes n : Nat) (cnt EndOfLife : Int) (rounds : List Round) : List Nat :=
  finished (60 * minutes) cnt EndOfLife n 0 none (ticks rounds)

/-- The logs have names of their own: of two no start is in the other's minute of local time,
    and the temporary file is called otherwise. -/
structure OwnNames (zone : Zone) (basename tmpname : Text) (starts : List Nat) : Prop where
  minutes : starts.Pairwise fun a b => localMinute zone a ≠ localMinute zone b
  tmp : ∀ a ∈ starts, tmpname ≠ txtName zone basename a ∧ tmpname ≠ sumName zone basename a

theorem starts_distinct {minutes n : Nat} {rounds : List Round} {tmpname : Text} (hm : 1 ≤ minutes)
    (hticks : Nondecreasing (ticks rounds))
    (hspan : WithinCentury zone (60 * minutes) (ticks rounds))
    (hown : OwnNames zone basename tmpname (starts minutes n cnt EndOfLife rounds)) :
    (starts minutes n cnt EndOfLife rounds).Pairwise fun a b => txtName zone basename a ≠ txtName zone basename b := by
  obtain ⟨-, hmem⟩ := finished_ascending cnt EndOfLife (by omega : 0 < 60 * minutes) (ticks rounds) n 0 none
    (fun _ h => absurd h (Option.not_mem_none _)) hticks.now_le
  refine hown.minutes.imp_of_mem fun ha hb hne heq => hne ?_
  obtain ⟨s, hs, rfl⟩ := (hmem _ ha).2.resolve_left (Option.not_mem_none _)
  obtain ⟨t, ht, rfl⟩ := (hmem _ hb).2.resolve_left (Option.not_mem_none _)
  exact (logName_eq_iff (hspan s hs t ht)).mp heq

/-- What a run leaves, when the logs have names of their own. -/
structure Leaves (o : Opts) (b : Args) (lib : XdrLib) (count : UInt32) (overflow : ℤ → Int32) (zone : Zone) (basename tmpname : Text)
    (r : List Chapter × List Capture) (s : Site) : Prop where
  logs : ∀ c ∈ r.1, s.files (txtName zone basename c.start) = some (.text (c.log o b lib count))
  summaries : ∀ c ∈ r.1, s.files (sumName zone basename c.start) = some (.summary (c.summary o b lib count overflow))
  tmp : s.files tmpname = some (.text (logOf o b lib count (worldAfter World.init (r.1.flatMap Chapter.packets)) r.2))
  stats : s.stats = tallied .init (writeEvents o b lib count (eventsOf (worldAfter World.init (r.1.flatMap Chapter.packets)) r.2))
  prints : (writeEvents o b lib count (eventsOf (worldAfter World.init (r.1.flatMap Chapter.packets)) r.2)).val ≠ none

section Runs

variable (o : Opts) (b : Args) (lib : XdrLib) (count : UInt32) (overflow : ℤ → Int32) (zone : Zone) (minutes n : Nat) (hm : 1 ≤ minutes)
  (basename tmpname : Text) (files : Files) (cnt EndOfLife : Int) (rounds : List Round) (hne : rounds ≠ [])
  (hrounds : ∀ r ∈ rounds, Captures r.packets) (hticks : Nondecreasing (ticks rounds))
  (hspan : WithinCentury zone (60 * minutes) (ticks rounds))
  (hown : OwnNames zone basename tmpname (starts minutes n cnt EndOfLife rounds))
include hm hne hrounds hticks hspan hown

theorem run_leaves :
    let r := chaptersOf minutes n cnt EndOfLife rounds
    let run := (Site.init minutes n basename tmpname files).mainLoop o b lib count overflow zone cnt EndOfLife rounds
    (run = none ↔ (nfsdump o b lib count (handedOut r)).val = none) ∧
      ∀ s ∈ run, Leaves o b lib count overflow zone basename tmpname r s := by
  intro r run
  have hout : Outcome o b lib count overflow zone basename files World.init r
      (Driver.mainLoop zone cnt EndOfLife (Main.init minutes n basename tmpname) (ticks rounds)) (false ∨ (rounds ≠ [] ∧ 0 = 0)) run :=
    (kept_init minutes n basename tmpname files).mainLoop rounds rfl hrounds
  refine ⟨hout.dies, fun s hs => ?_⟩
  obtain ⟨cur, hopen, hkept⟩ := hout.kept s hs
  obtain ⟨c, rfl⟩ := Option.isSome_iff_exists.mp (hopen (Or.inr ⟨hne, rfl⟩))
  have hstarts : r.1.map Chapter.start = starts minutes n cnt EndOfLife rounds := chapters_starts rounds n 0 none World.init []
  have hdistinct := starts_distinct hm hticks hspan hown
  rw [← hstarts, List.pairwise_map] at hdistinct
  have htmp : s.main.interval.tmpname = tmpname := (congrArg (·.interval.tmpname) (hout.main s hs)).trans (mainLoop_tmpname _ _)
  have hfiles := hkept.files
  rw [htmp, withTemp] at hfiles
  have hother : ∀ ch ∈ r.1, tmpname ≠ txtName zone basename ch.start ∧ tmpname ≠ sumName zone basename ch.start :=
    fun ch hch => hown.tmp _ (hstarts ▸ List.mem_map_of_mem hch)
  refine ⟨fun ch hch => ?_, fun ch hch => ?_, ?_, hkept.stats, hkept.prints⟩
  · rw [hfiles, Function.update_of_ne (hother ch hch).1.symm, (published _ hdistinct files ch hch).1]
  · rw [hfiles, Function.update_of_ne (hother ch hch).2.symm, (published _ hdistinct files ch hch).2]
  · rw [hfiles, Function.update_self]

/-- Unless a printer follows NULL, the logs and behind them the temporary file hold what
    nfsdump prints of all the packets handed out. -/
theorem logs_concatenate :
    handedOut (chaptersOf minutes n cnt EndOfLife rounds) <+: rounds.flatMap Round.packets ∧
      ((Site.init minutes n basename tmpname files).mainLoop o b lib count overflow zone cnt EndOfLife rounds = none ↔
        (nfsdump o b lib count (handedOut (chaptersOf minutes n cnt EndOfLife rounds))).val = none) ∧
      ∀ s ∈ (Site.init minutes n basename tmpname files).mainLoop o b lib count overflow zone cnt EndOfLife rounds,
        ((starts minutes n cnt EndOfLife rounds).flatMap fun a => s.files.cat (txtName zone basename a)) ++ s.files.cat tmpname =
          Decode.text (out (nfsdump o b lib count (handedOut (chaptersOf minutes n cnt EndOfLife rounds)))) := by
  obtain ⟨hdies, hleaves⟩ := run_leaves o b lib count overflow zone minutes n hm basename tmpname files cnt EndOfLife rounds hne hrounds
    hticks hspan hown
  obtain ⟨more, hmore, hprefix⟩ := handedOut_chapters (60 * minutes) cnt EndOfLife rounds n 0 none World.init [] fun _ => rfl
  refine ⟨(hmore : handedOut (chaptersOf minutes n cnt EndOfLife rounds) = more) ▸ hprefix, hdies, fun s hs => ?_⟩
  have hprints : (nfsdump o b lib count (handedOut (chaptersOf minutes n cnt EndOfLife rounds))).val ≠ none := by
    intro hno
    rw [hdies.mpr hno] at hs
    exact Option.not_mem_none _ hs
  have h := hleaves s hs
  have hstarts : (chaptersOf minutes n cnt EndOfLife rounds).1.map Chapter.start = starts minutes n cnt EndOfLife rounds :=
    chapters_starts rounds n 0 none World.init []
  have hlogs : ∀ ch ∈ (chaptersOf minutes n cnt EndOfLife rounds).1,
      s.files.cat (txtName zone basename ch.start) = ch.log o b lib count := by
    intro ch hch
    rw [Files.cat, h.logs ch hch]
  rw [← hstarts, List.flatMap_map, List.flatMap_congr hlogs, Files.cat, h.tmp]
  exact logs_flatten ledger_init.tables (chapters_chained rounds _ _ _ _ _ (fun _ => rfl) (fun _ h => absurd h List.not_mem_nil) hrounds)
    hprints

end Runs

/-- Names are hashed. -/
def hashing : Opts := ⟨false, false, false, fun _ => []⟩

theorem buffers_ne : (0x8049000 : UInt32) ≠ 0 := by decide

/-- Where arguments are decoded. -/
def buffers : Args := ⟨0x8049000, buffers_ne⟩

/-- Two half hours, with a packet in each. -/
def twoRounds : List Round := (halfHours 2).map fun t => ⟨t, [⟨Indet.zero, udpPacket 7 ⟨1, 2, 3, 4⟩ [0, 0, 0, 1], NfsPkt.zero⟩], none⟩

def twoRoundsRun : Option Site :=
  (Site.init 30 24 "log".toList "TEMP-LOG".toList fun _ => none).mainLoop hashing buffers XdrLib.memStream 0
    (fun _ => 0) eastern2006 (-1) (-1)
    twoRounds

theorem logs_concatenate_two_rounds :
    handedOut (chaptersOf 30 24 (-1) (-1) twoRounds) <+: twoRounds.flatMap Round.packets ∧
      (twoRoundsRun = none ↔ (nfsdump hashing buffers XdrLib.memStream 0 (handedOut (chaptersOf 30 24 (-1) (-1) twoRounds))).val = none) ∧
      ∀ s ∈ twoRoundsRun,
        ((starts 30 24 (-1) (-1) twoRounds).flatMap fun a => s.files.cat (txtName eastern2006 "log".toList a)) ++
          s.files.cat "TEMP-LOG".toList =
            Decode.text (out (nfsdump hashing buffers XdrLib.memStream 0 (handedOut (chaptersOf 30 24 (-1) (-1) twoRounds)))) :=
  logs_concatenate hashing buffers XdrLib.memStream 0 (fun _ => 0) eastern2006 30 24 (by decide) _ _ _ _ _ twoRounds
    (List.cons_ne_nil _ _)
    (by decide) (by decide) (by decide) ⟨by decide, by decide⟩

end Nfsdump.Driver
