/-
  Calendar — broken-down time: the Gregorian date and the time of day of a number of
  seconds since the start of 1970.

  A year begins after a whole number of days, counted as in the definition of the seconds
  since the epoch. A month is found by walking over the lengths of the months.

  Proved:
  - `yearOf_spec`: a day is in its year; `ofSeconds_ranges`: the fields are in their ranges;
  - `ofSeconds_minute`: times with the same date, hour and minute are in the same minute.
-/

import Mathlib.Tactic

namespace Calendar

structure Tm where
  year : Int
  mon : Nat
  mday : Int
  hour : Int
  min : Int
  sec : Int
  deriving DecidableEq, Repr

/-- The days from the start of 1970 to the start of the year. -/
def daysBefore (y : Int) : Int := 365 * (y - 1970) + (y - 1969) / 4 - (y - 1901) / 100 + (y - 1601) / 400

/-- 400 years have 146097 days. -/
def yearOf (d : Int) : Int :=
  let y := 1970 + 400 * d / 146097
  if d < daysBefore y then y - 1 else if daysBefore (y + 1) ≤ d then y + 1 else y

def leap (y : Int) : Bool := (y % 4 = 0 && y % 100 ≠ 0) || y % 400 = 0

def monthLengths (y : Int) : List Int := [31, if leap y then 29 else 28, 31, 30, 31, 30, 31, 31, 30, 31, 30, 31]

/-- The month, from 0, and the day of it, from 0. -/
def monthDay : List Int → Int → Nat × Int
  | [], d => (0, d)
  | l :: ls, d => if d < l then (0, d) else ((monthDay ls (d - l)).1 + 1, (monthDay ls (d - l)).2)

def ofSeconds (s : Int) : Tm :=
  let d := s / 86400
  let y := yearOf d
  let md := monthDay (monthLengths y) (d - daysBefore y)
  ⟨y, md.1, md.2 + 1, s % 86400 / 3600, s % 3600 / 60, s % 60⟩

/-! ## Years -/

theorem year_near (y d : Int) (h : 146097 * (y - 1970) ≤ 400 * d) (h' : 400 * d < 146097 * (y - 1970) + 146097) :
    daysBefore (y - 1) ≤ d ∧ d < daysBefore (y + 1 + 1) := by
  unfold daysBefore
  constructor <;> omega

theorem yearOf_spec (d : Int) : daysBefore (yearOf d) ≤ d ∧ d < daysBefore (yearOf d + 1) := by
  have h := year_near (1970 + 400 * d / 146097) d (by omega) (by omega)
  unfold yearOf
  dsimp only
  split
  · rw [sub_add_cancel]
    omega
  · split
    · omega
    · omega

theorem daysBefore_succ (y : Int) : daysBefore (y + 1) - daysBefore y = (monthLengths y).sum := by
  unfold daysBefore monthLengths leap
  split <;> simp_all <;> omega

/-! ## Months -/

theorem monthDay_sum (ls : List Int) : ∀ d, d = (ls.take (monthDay ls d).1).sum + (monthDay ls d).2 := by
  induction ls with
  | nil => intro d; simp [monthDay]
  | cons l ls ih =>
    intro d
    rw [monthDay]
    split
    · simp
    · have hrest := ih (d - l)
      rw [List.take_succ_cons, List.sum_cons]
      omega

theorem monthDay_ranges (ls : List Int) (b : Int) (hb : ∀ l ∈ ls, l ≤ b) : ∀ d, 0 ≤ d → d < ls.sum →
    (monthDay ls d).1 < ls.length ∧ 0 ≤ (monthDay ls d).2 ∧ (monthDay ls d).2 < b := by
  induction ls with
  | nil => intro d h0 h1; simp at h1; omega
  | cons l ls ih =>
    intro d h0 h1
    rw [List.forall_mem_cons] at hb
    rw [List.sum_cons] at h1
    rw [monthDay]
    split
    · exact ⟨Nat.succ_pos _, h0, by omega⟩
    · obtain ⟨hm, hd, hd'⟩ := ih hb.2 (d - l) (by omega) (by omega)
      exact ⟨Nat.succ_lt_succ hm, hd, hd'⟩

theorem monthLengths_le (y : Int) : ∀ l ∈ monthLengths y, l ≤ 31 := by
  unfold monthLengths
  split <;> decide

theorem ofSeconds_ranges (s : Int) : (ofSeconds s).mon < 12 ∧ 1 ≤ (ofSeconds s).mday ∧ (ofSeconds s).mday < 32 ∧
    0 ≤ (ofSeconds s).hour ∧ (ofSeconds s).hour < 24 ∧ 0 ≤ (ofSeconds s).min ∧ (ofSeconds s).min < 60 := by
  have hy := yearOf_spec (s / 86400)
  have hlen := daysBefore_succ (yearOf (s / 86400))
  obtain ⟨hm, hd, hd'⟩ := monthDay_ranges (monthLengths (yearOf (s / 86400))) 31 (monthLengths_le _)
    (s / 86400 - daysBefore (yearOf (s / 86400))) (by omega) (by omega)
  simp only [ofSeconds]
  refine ⟨hm, ?_, ?_, ?_, ?_, ?_, ?_⟩ <;> omega

/-! ## Minutes -/

/-- The date, hour and minute say which minute it is. -/
theorem ofSeconds_minute {s t : Int} (hy : (ofSeconds s).year = (ofSeconds t).year) (hm : (ofSeconds s).mon = (ofSeconds t).mon)
    (hd : (ofSeconds s).mday = (ofSeconds t).mday) (hh : (ofSeconds s).hour = (ofSeconds t).hour)
    (hn : (ofSeconds s).min = (ofSeconds t).min) : s / 60 = t / 60 := by
  simp only [ofSeconds] at hy hm hd hh hn
  have hs := monthDay_sum (monthLengths (yearOf (s / 86400))) (s / 86400 - daysBefore (yearOf (s / 86400)))
  have ht := monthDay_sum (monthLengths (yearOf (t / 86400))) (t / 86400 - daysBefore (yearOf (t / 86400)))
  rw [← hy] at hm hd ht
  rw [← hm] at ht
  have hday : s / 86400 = t / 86400 := by omega
  omega

/-- What of a time the minute determines. -/
theorem ofSeconds_of_minute {s t : Int} (h : s / 60 = t / 60) : (ofSeconds s).year = (ofSeconds t).year ∧
    (ofSeconds s).mon = (ofSeconds t).mon ∧ (ofSeconds s).mday = (ofSeconds t).mday ∧
    (ofSeconds s).hour = (ofSeconds t).hour ∧ (ofSeconds s).min = (ofSeconds t).min := by
  have hday : s / 86400 = t / 86400 := by omega
  simp only [ofSeconds, hday]
  refine ⟨trivial, trivial, trivial, ?_, ?_⟩ <;> omega

/-- The minutes of the calendar, in order, as if every month had 31 days. -/
def Tm.stamp (t : Tm) : Int := (((t.year * 12 + t.mon) * 31 + (t.mday - 1)) * 24 + t.hour) * 60 + t.min

/-- So many stamps are in a hundred years. -/
def century : Int := 100 * 12 * 31 * 24 * 60

/-- Less than a hundred years apart, the year modulo 100 will do. -/
theorem ofSeconds_minute_of_century {s t : Int} (hlt : |(ofSeconds s).stamp - (ofSeconds t).stamp| < century)
    (hy : (ofSeconds s).year % 100 = (ofSeconds t).year % 100) (hm : (ofSeconds s).mon = (ofSeconds t).mon)
    (hd : (ofSeconds s).mday = (ofSeconds t).mday) (hh : (ofSeconds s).hour = (ofSeconds t).hour)
    (hn : (ofSeconds s).min = (ofSeconds t).min) : s / 60 = t / 60 := by
  refine ofSeconds_minute ?_ hm hd hh hn
  rw [abs_lt, Tm.stamp, Tm.stamp, century, hm, hd, hh, hn] at hlt
  omega

end Calendar
