/-
  Nfsdump.Pathtree.Sweeps — when `Parser.cleanup` goes through the calls, and which it
  deletes.

  Every call comes with a timestamp, and `nextCleanup` says from which one on the next
  call sweeps. A sweep moves it to its own timestamp and not `cleanupInterval` further,
  which the constructor sets and nothing reads: so a call sweeps unless it is earlier than
  one in front of it (`sweeps_times`).

  Proved, over any log and for any options:
  - `sweeps_spaced_iff`: sweeps keep the interval exactly when the calls do, those aside
    that are earlier than one in front of them; and a sweep deletes exactly the calls
    that are too old at its timestamp.
-/

import Nfsdump.Lib.Records
import Nfsdump.Pathtree.Pairing

namespace Nfsdump.Pathtree

variable {o : Options} {s : Parser} {row : Row}

/-! ## Sweeps -/

/-- `processCall` comes to `cleanup`. -/
def Options.Keeps (o : Options) (row : Row) : Prop := OFFSET.PARAM_START ≤ row.length ∧ o.Accepts row

instance (o : Options) (row : Row) : Decidable (o.Keeps row) := by
  unfold Options.Keeps Options.Accepts
  infer_instance

/-- The `forEach` of a `cleanup`: its timestamp, and the parser on both sides of it. -/
structure Sweep where
  timestamp : Num
  before : Parser
  after : Parser

/-- The sweep the row makes, if it makes one. -/
def Options.sweep (o : Options) (s : Parser) (row : Row) : Option Sweep :=
  if o.Keeps row ∧ (timestampOf row).lt s.nextCleanup = false then
    some ⟨timestampOf row, s, o.cleanup s (timestampOf row)⟩
  else none

def Options.sweeps (o : Options) (s : Parser) : List Row → List Sweep
  | [] => []
  | row :: rows => (o.sweep s row).toList ++ o.sweeps (o.processRow s row).1 rows

/-- What `cleanup` leaves behind a row is what the row's sweep leaves. -/
theorem cleanup_sweep (h : o.Keeps row) : o.cleanup s (timestampOf row) = ((o.sweep s row).map Sweep.after).getD s := by
  unfold Options.sweep
  cases hlt : (timestampOf row).lt s.nextCleanup with
  | true => simp [Options.cleanup, hlt]
  | false => simp [h]

theorem processRow_nextCleanup :
    (o.processRow s row).1.nextCleanup = ((o.sweep s row).map Sweep.timestamp).getD s.nextCleanup := by
  by_cases hkeep : o.Keeps row
  · rw [processRow_call hkeep.1 hkeep.2]
    unfold Options.sweep Options.cleanup
    cases hlt : (timestampOf row).lt s.nextCleanup with
    | true => simp
    | false => simp [hkeep]
  · rw [Options.sweep, if_neg fun h => hkeep h.1]
    by_cases hcols : OFFSET.PARAM_START ≤ row.length
    · have hcall : ¬ o.Accepts row := fun h => hkeep ⟨hcols, h⟩
      by_cases hreply : IsReply row
      · rw [processRow_reply hcols hreply]
        cases s.calls (replyKeyOf row) <;> rfl
      · rw [processRow_other hcall hreply]
        rfl
    · rw [Options.processRow, if_pos (Nat.lt_of_not_le hcols)]
      rfl

/-! ## What a sweep deletes -/

/-- The call is more than `callLifetime` older than the sweep. -/
def Call.Outlived (c : Call) (callLifetime : ℚ) (timestamp : Num) : Prop :=
  ∃ t now : ℤ, c.timestamp = some t ∧ timestamp = some now ∧ (t : ℚ) + callLifetime < now

/-- The sweep deletes the calls that have outlived their time, and no others. -/
structure Sweep.Exact (w : Sweep) (callLifetime : ℚ) : Prop where
  deleted : ∀ key c, w.before.calls key = some c → (w.after.calls key = none ↔ c.Outlived callLifetime w.timestamp)
  kept : ∀ key c, w.after.calls key = some c → w.before.calls key = some c

theorem expired_iff {c : Call} {timestamp : Num} :
    c.timestamp.expired o.callLifetime timestamp = true ↔ c.Outlived o.callLifetime timestamp := by
  unfold Call.Outlived
  cases hc : c.timestamp with
  | none => simp [Num.expired]
  | some t =>
    cases timestamp with
    | none => simp [Num.expired]
    | some now => simp [Num.expired, lt_sub_iff_add_lt]

theorem sweep_exact {w : Sweep} (h : o.sweep s row = some w) : w.Exact o.callLifetime := by
  unfold Options.sweep at h
  split at h
  · rename_i hsweeps
    obtain rfl := Option.some.inj h
    have hcalls : ∀ key, (o.cleanup s (timestampOf row)).calls key =
        (s.calls key).filter fun c => !c.timestamp.expired o.callLifetime (timestampOf row) := by
      intro key
      rw [Options.cleanup, hsweeps.2]
      rfl
    constructor
    · intro key c hc
      have hbefore : s.calls key = some c := hc
      show (o.cleanup s (timestampOf row)).calls key = none ↔ _
      rw [hcalls, hbefore, ← expired_iff]
      simp [Option.filter]
    · exact fun key c hc => cleanup_calls.1 hc
  · cases h

theorem sweeps_exact (rows : List Row) : ∀ s : Parser, ∀ w ∈ o.sweeps s rows, w.Exact o.callLifetime := by
  induction rows with
  | nil => exact fun s w hw => absurd hw List.not_mem_nil
  | cons row rows ih =>
    intro s w hw
    rcases List.mem_append.mp hw with hw | hw
    · exact sweep_exact (Option.mem_toList.mp hw)
    · exact ih _ w hw

/-! ## When there are sweeps -/

/-- `b` is `d` seconds behind `a`, or more. -/
def Num.apart (d : ℚ) (a b : Num) : Prop := ∃ t u : ℤ, a = some t ∧ b = some u ∧ (t : ℚ) + d ≤ u

/-- Each sweep is `d` seconds behind the one before it, or more. -/
def Options.Spaced (o : Options) (d : ℚ) (log : List Row) : Prop :=
  (o.sweeps Parser.init log).IsChain fun a b => a.timestamp.apart d b.timestamp

/-- The timestamps `cleanup` is called with. -/
def Options.callTimes (o : Options) (log : List Row) : List ℤ :=
  log.filterMap fun row => if o.Keeps row then timestampOf row else none

/-- The calls of the log have times, in decimals. -/
def Options.Timed (o : Options) (log : List Row) : Prop :=
  ∀ row ∈ log, o.Keeps row → ∃ t, Digits.Reads 6 t (cell row OFFSET.TIME)

/-- Sweeps come with the calls that are not earlier than one in front of them. -/
theorem sweeps_times {rows : List Row} (htimed : o.Timed rows) : ∀ {s : Parser} {m : ℤ}, s.nextCleanup = some m →
    (o.sweeps s rows).map Sweep.timestamp = (Records.above m (o.callTimes rows)).map some := by
  induction rows with
  | nil => exact fun _ => rfl
  | cons row rows ih =>
    intro s m hm
    have htail : o.Timed rows := fun r hr => htimed r (List.mem_cons_of_mem _ hr)
    have hnext : (o.processRow s row).1.nextCleanup = ((o.sweep s row).map Sweep.timestamp).getD s.nextCleanup :=
      processRow_nextCleanup
    rw [Options.sweeps, List.map_append]
    by_cases hkeep : o.Keeps row
    · obtain ⟨t, ht⟩ := htimed row List.mem_cons_self hkeep
      have htime : timestampOf row = some ((t / 10 ^ 6 : ℕ) : ℤ) := parseInt_reads ht
      have htimes : o.callTimes (row :: rows) = ((t / 10 ^ 6 : ℕ) : ℤ) :: o.callTimes rows := by
        rw [Options.callTimes, List.filterMap_cons, if_pos hkeep, htime]
        rfl
      generalize ((t / 10 ^ 6 : ℕ) : ℤ) = now at htime htimes
      rw [htimes, Records.above]
      by_cases hlt : now < m
      · have hno : o.sweep s row = none := by
          rw [Options.sweep, htime, hm, if_neg fun h => by simp [Num.lt, hlt] at h]
        rw [hno] at hnext ⊢
        rw [if_pos hlt, ih htail (hnext.trans hm)]
        rfl
      · have hsweep : o.sweep s row = some ⟨some now, s, o.cleanup s (some now)⟩ := by
          rw [Options.sweep, htime, hm, if_pos ⟨hkeep, by simpa [Num.lt] using hlt⟩]
        rw [hsweep] at hnext ⊢
        rw [if_neg hlt, ih htail hnext]
        rfl
    · have hno : o.sweep s row = none := if_neg fun h => hkeep h.1
      have htimes : o.callTimes (row :: rows) = o.callTimes rows := by
        rw [Options.callTimes, List.filterMap_cons, if_neg hkeep]
        rfl
      rw [hno] at hnext ⊢
      rw [htimes, ih htail (hnext.trans hm)]
      rfl

theorem callTimes_nonneg {log : List Row} (htimed : o.Timed log) : ∀ t ∈ o.callTimes log, 0 ≤ t := by
  intro t ht
  obtain ⟨row, hrow, hsome⟩ := List.mem_filterMap.mp ht
  split at hsome
  · rename_i hkeep
    obtain ⟨n, hn⟩ := htimed row hrow hkeep
    rw [timestampOf, parseInt_reads hn] at hsome
    obtain rfl := Option.some.inj hsome
    exact Int.natCast_nonneg _
  · cases hsome

theorem spaced_iff {log : List Row} (htimed : o.Timed log) (d : ℚ) :
    o.Spaced d log ↔ Records.Clear (fun a b : ℤ => (a : ℚ) + d ≤ b) [] (o.callTimes log) := by
  have htimes := sweeps_times htimed (s := Parser.init) rfl
  have hsmaller : ∀ a b c : ℤ, a ≤ b → (b : ℚ) + d ≤ c → (a : ℚ) + d ≤ c := by
    intro a b c hab hbc
    have hab' : (a : ℚ) ≤ b := Int.cast_le.mpr hab
    linarith
  rw [← Records.isChain_above_iff hsmaller (callTimes_nonneg htimed), Options.Spaced]
  calc (o.sweeps Parser.init log).IsChain (fun a b => a.timestamp.apart d b.timestamp)
      ↔ ((o.sweeps Parser.init log).map Sweep.timestamp).IsChain (Num.apart d) := (List.isChain_map _).symm
    _ ↔ ((Records.above 0 (o.callTimes log)).map some).IsChain (Num.apart d) := by rw [htimes]
    _ ↔ (Records.above 0 (o.callTimes log)).IsChain fun a b : ℤ => (a : ℚ) + d ≤ b := by
      rw [List.isChain_map]
      refine List.IsChain.iff fun a b => ⟨?_, fun h => ⟨a, b, rfl, rfl, h⟩⟩
      rintro ⟨t, u, ht, hu, h⟩
      obtain rfl := Option.some.inj ht
      obtain rfl := Option.some.inj hu
      exact h

/-- Sweeps are `cleanupInterval` apart, and delete what they should, iff each call is earlier
    than one in front of it or that far behind all of them. -/
theorem sweeps_spaced_iff (o : Options) (cleanupInterval : ℚ) (log : List Row) (htimed : o.Timed log) :
    (o.Spaced cleanupInterval log ∧ ∀ w ∈ o.sweeps Parser.init log, w.Exact o.callLifetime) ↔
      Records.Clear (fun a b : ℤ => (a : ℚ) + cleanupInterval ≤ b) [] (o.callTimes log) := by
  rw [spaced_iff htimed]
  exact ⟨fun h => h.1, fun h => ⟨h, sweeps_exact log Parser.init⟩⟩

/-- The second of two calls is a second behind the first, and sweeps. -/
theorem sweeps_spaced_sample :
    ¬ (Options.default.Spaced 60 sampleLog ∧
      ∀ w ∈ Options.default.sweeps Parser.init sampleLog, w.Exact Options.default.callLifetime) := by
  have htimed : Options.default.Timed sampleLog := fun row hrow _ => (sampleLog_lines row hrow).time
  intro h
  have hclear := (sweeps_spaced_iff Options.default 60 sampleLog htimed).mp h
  have htimes : Options.default.callTimes sampleLog = [1, 2] := by decide +kernel
  rw [htimes] at hclear
  rcases hclear [1] 2 [] rfl with ⟨a, ha, hlt⟩ | hall
  · obtain rfl := List.mem_singleton.mp ha
    exact absurd hlt (by decide)
  · exact absurd (hall 1 List.mem_cons_self) (by norm_num)

theorem sweeps_each_second : ¬ Options.default.Spaced 60 sampleLog := by
  have htimes : (Options.default.sweeps Parser.init sampleLog).map Sweep.timestamp = [some 1, some 2] := by decide +kernel
  intro h
  have hmap : ((Options.default.sweeps Parser.init sampleLog).map Sweep.timestamp).IsChain (Num.apart 60) :=
    (List.isChain_map _).mpr h
  rw [htimes] at hmap
  obtain ⟨t, u, ht, hu, hle⟩ := (List.isChain_pair).mp hmap
  obtain rfl := Option.some.inj ht
  obtain rfl := Option.some.inj hu
  exact absurd hle (by norm_num)

end Nfsdump.Pathtree
