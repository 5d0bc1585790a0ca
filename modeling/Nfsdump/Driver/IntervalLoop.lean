/-
  Nfsdump.Driver.IntervalLoop — the loop of main that cuts the log into intervals
  (nfsdump2/nfsdump.c, `main` and `updateOutFile`).

  A log is written under a temporary name, and renamed when its interval is over. Its name
  has the local date, hour and minute at which its interval starts; intervals start at
  multiples of their length in UTC.

  Proved, for any clock that does not go back, any length, number of intervals and end of
  life, and any time zone:
  - `mainLoop_renamed`: the logs renamed are named after the starts of the intervals that
    the clock finishes (`finished`), each later than the one before;
  - `logs_distinct_iff`: over less than a hundred years their names are different iff no two
    of these starts are in the same minute of local time. Where the zone sets the clock back
    an hour two can be: `logs_overwritten`.
-/

import Nfsdump.Lib.Calendar
import Nfsdump.Lib.Digits

namespace Nfsdump.Driver

open Calendar

/-! ## Names -/

abbrev Text := List Char

/-- `%.2d` -/
def dec2 (n : Int) : Text :=
  let digits := Nat.toDigits 10 n.natAbs
  (if n < 0 then ['-'] else []) ++ (List.replicate (2 - digits.length) '0' ++ digits)

/-- The offset from UTC, in seconds, at each second. -/
abbrev Zone := Nat → Int

/-- `localtime_r` -/
def localtime (zone : Zone) (clock : Nat) : Tm := ofSeconds (clock + zone clock)

def logDate (tm : Tm) : Text :=
  dec2 ((tm.year - 1900).tmod 100) ++ dec2 (1 + tm.mon) ++ dec2 tm.mday ++ '-' :: (dec2 tm.hour ++ dec2 tm.min)

def logName (basename : Text) (tm : Tm) (suffix : Text) : Text := basename ++ '-' :: (logDate tm ++ suffix)

/-! ## The loop -/

/-- `intervalDesc_t` -/
structure IntervalDesc where
  active : Bool
  secs : Nat
  iters : Nat
  end_time : Nat
  basename : Text
  tmpname : Text
  cur_sumname : Option Text
  cur_logname : Option Text
  deriving DecidableEq, Repr

structure Main where
  interval : IntervalDesc
  /-- `OutFile` is not stdout. -/
  outFile : Bool
  total_cnt : Nat
  /-- What the temporary file was renamed to so far. -/
  renamed : List Text
  deriving DecidableEq, Repr

/-- What the clock says in one round: to `gettimeofday`, and to `time` if it is asked. -/
structure Tick where
  now : Nat
  clock : Nat
  deriving DecidableEq, Repr

def Main.closeOut (m : Main) : Main :=
  if m.outFile then
    { m with
      renamed := m.renamed ++ m.interval.cur_logname.toList
      interval := { m.interval with cur_logname := none, cur_sumname := none } }
  else m

def updateOutFile (zone : Zone) (clock : Nat) (m : Main) : Main :=
  let m := m.closeOut
  let i := m.interval
  let currClock := clock - clock % i.secs
  let tm := localtime zone currClock
  { m with
    interval := { i with
      end_time := currClock + i.secs
      cur_logname := some (logName i.basename tm ".txt".toList)
      cur_sumname := some (logName i.basename tm ".sum".toList) }
    outFile := true }

def PACKET_POLL_CNT : Nat := 200

/-- The rounds of the loop; `cnt` and `EndOfLife` are negative if they are not given. -/
def mainLoop (zone : Zone) (cnt EndOfLife : Int) : Main → List Tick → Main
  | m, [] => m
  | m, tick :: ticks =>
    if cnt > 0 ∧ (m.total_cnt : Int) ≥ cnt then m
    else if EndOfLife > 0 ∧ (tick.now : Int) ≥ EndOfLife then
      if m.interval.active then updateOutFile zone tick.clock m else m
    else if m.interval.active ∧ tick.now ≥ m.interval.end_time then
      let m := updateOutFile zone tick.clock m
      if m.interval.iters ≤ 0 then m
      else
        mainLoop zone cnt EndOfLife
          { m with interval := { m.interval with iters := m.interval.iters - 1 }, total_cnt := m.total_cnt + PACKET_POLL_CNT } ticks
    else mainLoop zone cnt EndOfLife { m with total_cnt := m.total_cnt + PACKET_POLL_CNT } ticks

/-- With `-I minutes -N n -B basename -T tmpname`. -/
def Main.init (minutes n : Nat) (basename tmpname : Text) : Main :=
  ⟨⟨true, 60 * minutes, n, 0, basename, tmpname, none, none⟩, false, 0, []⟩

/-! ## Same name, same minute -/

def localMinute (zone : Zone) (clock : Nat) : Int := (clock + zone clock) / 60

theorem dec2_of_lt {n : Int} (h0 : 0 ≤ n) (h : n < 100) : dec2 n = Digits.fixed 10 2 n.natAbs := by
  rw [dec2, if_neg (by omega), List.nil_append, Digits.pad_toDigits (by decide) (by decide) (by omega)]

theorem dec2_injective {n k : Int} (h : dec2 n = dec2 k) : n = k := by
  have hminus : ∀ a : Nat, '-' ∉ List.replicate (2 - (Nat.toDigits 10 a).length) '0' ++ Nat.toDigits 10 a := by
    intro a hmem
    rcases List.mem_append.mp hmem with hmem | hmem
    · exact absurd (List.eq_of_mem_replicate hmem) (by decide)
    · exact absurd (Digits.isDigit_toDigits hmem) (by decide)
  simp only [dec2] at h
  by_cases hn : n < 0 <;> by_cases hk : k < 0
  · rw [if_pos hn, if_pos hk] at h
    have := Digits.padded_injective (by decide) (by decide) (by decide) (List.append_cancel_left h)
    omega
  · rw [if_pos hn, if_neg hk, List.nil_append] at h
    exact absurd (h ▸ List.mem_append_left _ (List.mem_singleton_self '-')) (hminus k.natAbs)
  · rw [if_neg hn, if_pos hk, List.nil_append] at h
    exact absurd (h ▸ List.mem_append_left _ (List.mem_singleton_self '-')) (hminus n.natAbs)
  · rw [if_neg hn, if_neg hk] at h
    have := Digits.padded_injective (by decide) (by decide) (by decide) (List.append_cancel_left h)
    omega

theorem tmod_century {y y' : Int} (h : (y - 1900).tmod 100 = (y' - 1900).tmod 100) : y % 100 = y' % 100 := by
  have e := Int.mul_tdiv_add_tmod (y - 1900) 100
  have e' := Int.mul_tdiv_add_tmod (y' - 1900) 100
  omega

/-- The date in a name has the fields of the time at two digits each, but for the year. -/
theorem logDate_injective {s t : Int} (h : logDate (ofSeconds s) = logDate (ofSeconds t)) :
    (ofSeconds s).year % 100 = (ofSeconds t).year % 100 ∧ (ofSeconds s).mon = (ofSeconds t).mon ∧
      (ofSeconds s).mday = (ofSeconds t).mday ∧ (ofSeconds s).hour = (ofSeconds t).hour ∧
      (ofSeconds s).min = (ofSeconds t).min := by
  have width : ∀ n : Int, 0 ≤ n → n < 100 → (dec2 n).length = 2 := by
    intro n h0 hlt
    rw [dec2_of_lt h0 hlt, Digits.fixed_length]
  obtain ⟨hs1, hs2, hs3, hs4, hs5, hs6, hs7⟩ := ofSeconds_ranges s
  obtain ⟨ht1, ht2, ht3, ht4, ht5, ht6, ht7⟩ := ofSeconds_ranges t
  simp only [logDate, List.append_assoc] at h
  -- from the right, all parts but the year have their width
  have htail := List.append_inj' h (by
    simp only [List.length_append, List.length_cons, width _ hs6 (by omega), width _ ht6 (by omega), width _ hs4 (by omega),
      width _ ht4 (by omega), width _ (by omega : 0 ≤ (ofSeconds s).mday) (by omega),
      width _ (by omega : 0 ≤ (ofSeconds t).mday) (by omega), width (1 + (ofSeconds s).mon) (by omega) (by omega),
      width (1 + (ofSeconds t).mon) (by omega) (by omega)])
  obtain ⟨hyear, hrest⟩ := htail
  obtain ⟨hmon, hrest⟩ := List.append_inj hrest (by rw [width _ (by omega) (by omega), width _ (by omega) (by omega)])
  obtain ⟨hmday, hrest⟩ := List.append_inj hrest (by rw [width _ (by omega) (by omega), width _ (by omega) (by omega)])
  obtain ⟨hhour, hmin⟩ := List.append_inj (List.tail_eq_of_cons_eq hrest)
    (by rw [width _ (by omega) (by omega), width _ (by omega) (by omega)])
  have := dec2_injective hmon
  exact ⟨tmod_century (dec2_injective hyear), by omega, dec2_injective hmday, dec2_injective hhour, dec2_injective hmin⟩

theorem logName_eq_iff {zone : Zone} {basename suffix : Text} {a b : Nat}
    (hspan : |(localtime zone a).stamp - (localtime zone b).stamp| < century) :
    logName basename (localtime zone a) suffix = logName basename (localtime zone b) suffix ↔
      localMinute zone a = localMinute zone b := by
  constructor
  · intro h
    have hdate := List.append_cancel_right (List.tail_eq_of_cons_eq (List.append_cancel_left h))
    obtain ⟨hy, hm, hd, hh, hn⟩ := logDate_injective hdate
    exact ofSeconds_minute_of_century hspan hy hm hd hh hn
  · intro h
    obtain ⟨hy, hm, hd, hh, hn⟩ := ofSeconds_of_minute h
    simp only [logName, logDate, localtime, hy, hm, hd, hh, hn]

/-! ## The intervals that the clock finishes -/

/-- When the interval of a reading starts. -/
def intervalStart (secs clock : Nat) : Nat := clock - clock % secs

/-- The starts of the intervals that end, from the rounds to come and the start of the current one. -/
def finished (secs : Nat) (cnt EndOfLife : Int) : Nat → Nat → Option Nat → List Tick → List Nat
  | _, _, _, [] => []
  | iters, total_cnt, cur, tick :: ticks =>
    if cnt > 0 ∧ (total_cnt : Int) ≥ cnt then []
    else if EndOfLife > 0 ∧ (tick.now : Int) ≥ EndOfLife then cur.toList
    else if ∀ c ∈ cur, tick.now ≥ c + secs then
      cur.toList ++
        if iters ≤ 0 then []
        else finished secs cnt EndOfLife (iters - 1) (total_cnt + PACKET_POLL_CNT) (some (intervalStart secs tick.clock)) ticks
    else finished secs cnt EndOfLife iters (total_cnt + PACKET_POLL_CNT) cur ticks

variable {zone : Zone} {m : Main} {secs : Nat} {cnt EndOfLife : Int} {cur : Option Nat}

/-- The new interval starts at or after the end of the old one. -/
theorem intervalStart_ge {c clock : Nat} (hpos : 0 < secs) (hdvd : secs ∣ c) (hle : c + secs ≤ clock) :
    c + secs ≤ intervalStart secs clock := by
  obtain ⟨k, rfl⟩ := hdvd
  have hsplit := Nat.div_add_mod clock secs
  have hq : k + 1 ≤ clock / secs := (Nat.le_div_iff_mul_le hpos).mpr (by rw [Nat.add_mul, Nat.one_mul, Nat.mul_comm]; exact hle)
  have hmul := Nat.mul_le_mul_left secs hq
  rw [Nat.mul_add, Nat.mul_one] at hmul
  unfold intervalStart
  omega

theorem intervalStart_dvd (secs clock : Nat) : secs ∣ intervalStart secs clock := Nat.dvd_sub_mod clock

/-- Intervals end one after the other, and each is the interval of a reading. -/
theorem finished_ascending (cnt EndOfLife : Int) (hpos : 0 < secs) (ticks : List Tick) : ∀ (iters total_cnt : Nat) (cur : Option Nat),
    (∀ c ∈ cur, secs ∣ c) → (∀ t ∈ ticks, t.now ≤ t.clock) →
    (finished secs cnt EndOfLife iters total_cnt cur ticks).Pairwise (· < ·) ∧
      ∀ s ∈ finished secs cnt EndOfLife iters total_cnt cur ticks,
        (∀ c ∈ cur, c ≤ s) ∧ (s ∈ cur ∨ ∃ t ∈ ticks, s = intervalStart secs t.clock) := by
  induction ticks with
  | nil => exact fun _ _ _ _ _ => ⟨List.Pairwise.nil, fun _ h => nomatch h⟩
  | cons tick ticks ih =>
    intro iters total_cnt cur hdvd hticks
    rw [List.forall_mem_cons] at hticks
    have hcur : ∀ s ∈ cur.toList, (∀ c ∈ cur, c ≤ s) ∧ (s ∈ cur ∨ ∃ t ∈ tick :: ticks, s = intervalStart secs t.clock) := by
      intro s hs
      rw [Option.mem_toList] at hs
      refine ⟨fun c hc => ?_, Or.inl hs⟩
      rw [Option.mem_unique hc hs]
    have hone : cur.toList.Pairwise (· < ·) := by
      cases cur with
      | none => exact List.Pairwise.nil
      | some c => exact List.pairwise_singleton _ c
    rw [finished]
    split
    · exact ⟨List.Pairwise.nil, fun _ h => nomatch h⟩
    · split
      · exact ⟨hone, hcur⟩
      · split
        · next hdue =>
          split
          · rw [List.append_nil]
            exact ⟨hone, hcur⟩
          · obtain ⟨hasc, hmem⟩ := ih (iters - 1) (total_cnt + PACKET_POLL_CNT) (some (intervalStart secs tick.clock))
              (fun c hc => Option.mem_some_iff.mp hc ▸ intervalStart_dvd secs tick.clock) hticks.2
            have hlater : ∀ c ∈ cur, c < intervalStart secs tick.clock := by
              intro c hc
              have hge := intervalStart_ge hpos (hdvd c hc) ((hdue c hc).trans hticks.1)
              omega
            rw [List.pairwise_append]
            refine ⟨⟨hone, hasc, fun c hc s hs => ?_⟩, fun s hs => ?_⟩
            · exact Nat.lt_of_lt_of_le (hlater c (Option.mem_toList.mp hc)) ((hmem s hs).1 _ rfl)
            · rcases List.mem_append.mp hs with hs | hs
              · exact hcur s hs
              · obtain ⟨hge, hstart⟩ := hmem s hs
                refine ⟨fun c hc => Nat.le_of_lt (Nat.lt_of_lt_of_le (hlater c hc) (hge _ rfl)), Or.inr ?_⟩
                rcases hstart with hstart | ⟨t, ht, hs⟩
                · exact ⟨tick, List.mem_cons_self, (Option.mem_some_iff.mp hstart).symm⟩
                · exact ⟨t, List.mem_cons_of_mem _ ht, hs⟩
        · obtain ⟨hasc, hmem⟩ := ih iters (total_cnt + PACKET_POLL_CNT) cur hdvd hticks.2
          refine ⟨hasc, fun s hs => ⟨(hmem s hs).1, (hmem s hs).2.imp_right ?_⟩⟩
          exact fun ⟨t, ht, hs⟩ => ⟨t, List.mem_cons_of_mem _ ht, hs⟩

/-! ## The logs renamed -/

/-- Between two rounds, with `cur` the start of the current interval. -/
structure Rotates (zone : Zone) (m : Main) (cur : Option Nat) : Prop where
  active : m.interval.active = true
  outFile : m.outFile = cur.isSome
  logname : m.interval.cur_logname = cur.map fun c => logName m.interval.basename (localtime zone c) ".txt".toList
  end_time : m.interval.end_time = (cur.map (· + m.interval.secs)).getD 0

theorem Rotates.closeOut (h : Rotates zone m cur) : m.closeOut.renamed =
    m.renamed ++ cur.toList.map fun c => logName m.interval.basename (localtime zone c) ".txt".toList := by
  cases cur with
  | none =>
    have hout : m.outFile = false := h.outFile
    simp [Main.closeOut, hout]
  | some c =>
    have hout : m.outFile = true := h.outFile
    simp [Main.closeOut, hout, h.logname]

theorem closeOut_interval (m : Main) : m.closeOut.interval.secs = m.interval.secs ∧
    m.closeOut.interval.basename = m.interval.basename ∧ m.closeOut.interval.iters = m.interval.iters ∧
    m.closeOut.interval.active = m.interval.active ∧ m.closeOut.total_cnt = m.total_cnt := by
  unfold Main.closeOut
  split <;> exact ⟨rfl, rfl, rfl, rfl, rfl⟩

theorem Rotates.due_iff (h : Rotates zone m cur) (now : Nat) :
    now ≥ m.interval.end_time ↔ ∀ c ∈ cur, now ≥ c + m.interval.secs := by
  rw [h.end_time]
  cases cur with
  | none => simp
  | some c => simp

theorem Rotates.update (h : Rotates zone m cur) (clock k c : Nat) :
    Rotates zone
      { updateOutFile zone clock m with
        interval := { (updateOutFile zone clock m).interval with iters := k }, total_cnt := c }
      (some (intervalStart m.interval.secs clock)) := by
  obtain ⟨hsecs, -, -, hactive, -⟩ := closeOut_interval m
  refine ⟨hactive.trans h.active, rfl, ?_, ?_⟩
  · simp only [updateOutFile, hsecs]
    rfl
  · simp only [updateOutFile, hsecs]
    rfl

theorem mainLoop_renamed (ticks : List Tick) : ∀ {m : Main} {cur : Option Nat}, Rotates zone m cur →
    (mainLoop zone cnt EndOfLife m ticks).renamed =
      m.renamed ++ (finished m.interval.secs cnt EndOfLife m.interval.iters m.total_cnt cur ticks).map
        fun c => logName m.interval.basename (localtime zone c) ".txt".toList := by
  induction ticks with
  | nil => exact fun _ => (List.append_nil _).symm
  | cons tick ticks ih =>
    intro m cur h
    rw [mainLoop, finished]
    split
    · exact (List.append_nil _).symm
    · split
      · rw [if_pos h.active]
        exact h.closeOut
      · simp only [h.active, true_and, h.due_iff]
        split
        · obtain ⟨hsecs, hbase, hiters, -, htotal⟩ := closeOut_interval m
          have hleft : (updateOutFile zone tick.clock m).interval.iters = m.interval.iters := hiters
          simp only [hleft]
          split
          · rw [List.append_nil]
            exact h.closeOut
          · refine (ih (h.update tick.clock _ _)).trans ?_
            simp only [updateOutFile, hsecs, hbase, htotal, h.closeOut, List.map_append, List.append_assoc]
        · exact ih ⟨h.active, h.outFile, h.logname, h.end_time⟩

theorem rotates_init (minutes n : Nat) (basename tmpname : Text) : Rotates zone (Main.init minutes n basename tmpname) none :=
  ⟨rfl, rfl, rfl, rfl⟩

/-! ## Finished logs are not overwritten -/

/-- The clock does not go back. -/
def Nondecreasing (ticks : List Tick) : Prop := (ticks.flatMap fun t => [t.now, t.clock]).Pairwise (· ≤ ·)

instance (ticks : List Tick) : Decidable (Nondecreasing ticks) := inferInstanceAs (Decidable (List.Pairwise _ _))

theorem Nondecreasing.now_le {ticks : List Tick} (h : Nondecreasing ticks) : ∀ t ∈ ticks, t.now ≤ t.clock := by
  intro t ht
  have hpair := (List.pairwise_flatMap.mp h).1 t ht
  exact List.rel_of_pairwise_cons hpair (List.mem_singleton_self _)

/-- All readings fall into less than a hundred years of local time. -/
def WithinCentury (zone : Zone) (secs : Nat) (ticks : List Tick) : Prop :=
  ∀ s ∈ ticks, ∀ t ∈ ticks,
    |(localtime zone (intervalStart secs s.clock)).stamp - (localtime zone (intervalStart secs t.clock)).stamp| < century

instance (zone : Zone) (secs : Nat) (ticks : List Tick) : Decidable (WithinCentury zone secs ticks) :=
  inferInstanceAs (Decidable (∀ s ∈ ticks, ∀ t ∈ ticks, _ < _))

theorem logs_distinct_iff (zone : Zone) (minutes n : Nat) (hm : 1 ≤ minutes) (basename tmpname : Text) (cnt EndOfLife : Int)
    (ticks : List Tick) (hticks : Nondecreasing ticks) (hspan : WithinCentury zone (60 * minutes) ticks) :
    (mainLoop zone cnt EndOfLife (Main.init minutes n basename tmpname) ticks).renamed.Nodup ↔
      ∀ a ∈ finished (60 * minutes) cnt EndOfLife n 0 none ticks, ∀ b ∈ finished (60 * minutes) cnt EndOfLife n 0 none ticks,
        a < b → localMinute zone a ≠ localMinute zone b := by
  obtain ⟨hasc, hmem⟩ := finished_ascending cnt EndOfLife (by omega : 0 < 60 * minutes) ticks n 0 none
    (fun _ h => nomatch h) hticks.now_le
  have hname : ∀ a ∈ finished (60 * minutes) cnt EndOfLife n 0 none ticks, ∀ b ∈ finished (60 * minutes) cnt EndOfLife n 0 none ticks,
      (logName basename (localtime zone a) ".txt".toList = logName basename (localtime zone b) ".txt".toList ↔
        localMinute zone a = localMinute zone b) := by
    intro a ha b hb
    obtain ⟨s, hs, rfl⟩ := (hmem a ha).2.resolve_left (fun h => nomatch h)
    obtain ⟨t, ht, rfl⟩ := (hmem b hb).2.resolve_left (fun h => nomatch h)
    exact logName_eq_iff (hspan s hs t ht)
  rw [mainLoop_renamed ticks (rotates_init minutes n basename tmpname)]
  show (List.map _ _).Nodup ↔ _
  constructor
  · intro h a ha b hb hlt hminute
    exact Nat.ne_of_lt hlt (List.inj_on_of_nodup_map h ha hb ((hname a ha b hb).mpr hminute))
  · intro h
    refine List.Nodup.map_on (fun a ha b hb heq => ?_) (hasc.imp Nat.ne_of_lt)
    have hminute := (hname a ha b hb).mp heq
    rcases Nat.lt_trichotomy a b with hlt | heq | hlt
    · exact absurd hminute (h a ha b hb hlt)
    · exact heq
    · exact absurd hminute.symm (h b hb a ha hlt)

/-! ## A night in October -/

/-- US Eastern time, around the end of daylight saving in 2006. -/
def eastern2006 : Zone := fun clock => if clock < 1162101600 then -14400 else -18000

/-- A reading at the start of every half hour from one o'clock on. -/
def halfHours (k : Nat) : List Tick := (List.range k).map fun i => ⟨1162098000 + 1800 * i, 1162098000 + 1800 * i⟩

/-- The logs of 01:00 and 01:30 have names of their own. -/
theorem logs_distinct_iff_half_hours :
    (mainLoop eastern2006 (-1) (-1) (Main.init 30 24 "log".toList "TEMP-LOG".toList) (halfHours 3)).renamed.Nodup ∧
      (mainLoop eastern2006 (-1) (-1) (Main.init 30 24 "log".toList "TEMP-LOG".toList) (halfHours 3)).renamed.length = 2 :=
  ⟨(logs_distinct_iff eastern2006 30 24 (by decide) _ _ _ _ _ (by decide) (by decide)).mpr (by decide), by decide⟩

/-- The log of 01:00 is finished twice. -/
theorem logs_overwritten : Nondecreasing (halfHours 4) ∧ WithinCentury eastern2006 (60 * 30) (halfHours 4) ∧
    ¬ (mainLoop eastern2006 (-1) (-1) (Main.init 30 24 "log".toList "TEMP-LOG".toList) (halfHours 4)).renamed.Nodup := by
  decide

end Nfsdump.Driver
