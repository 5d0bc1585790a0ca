/-
  Nfsdump.Decode.Percent — the percentages of the statistics (nfs_v3.c, `nfs_v3_stat_print`
  and `compute_pct`).

  A percentage is computed in `int`: the 32-bit counters are converted, and the procedure's
  is multiplied by 100 before the division. C leaves a product that does not fit undefined,
  so here any number may come of it (`overflow`).

  Proved:
  - `compute_pct_iff`: one percentage is right, whatever overflows give, iff the counters
    are `Printable`;
  - `run_calls`: after a run the counters of a block are the numbers of its calls;
  - `percentages_sane_iff`: over a run of fewer than 2^32 calls the percentages are right,
    between 0 and 100 and together at most 100 iff each procedure's count is `Printable`;
  - `pings_wrap`: 21474837 NULL calls, and no other, are not 100 percent.
-/

import Nfsdump.Decode.Tally

namespace Nfsdump.Decode

open Wire

/-! ## The printed statistics -/

/-- An `int` result. -/
def int (overflow : ℤ → Int32) (x : ℤ) : Int32 := if -2 ^ 31 ≤ x ∧ x < 2 ^ 31 then Int32.ofInt x else overflow x

def compute_pct (overflow : ℤ → Int32) (n d : Int32) : Int32 :=
  if n = 0 ∨ d = 0 then 0 else int overflow ((int overflow (n.toInt * 100)).toInt.tdiv d.toInt)

/-- A line of one procedure. The last column of the lines of READ and WRITE is made of
    megabytes and bytes. -/
structure StatLine where
  name : String
  calls : UInt32
  replies : UInt32
  pct : Int32
  volume : Option (UInt32 × UInt32)

def statLine (overflow : ℤ → Int32) (p : NfsV3Stat) (q : Proc3) : StatLine where
  name := q.name
  calls := p.calls (.proc q)
  replies := p.replies (.proc q)
  pct := compute_pct overflow (p.calls (.proc q)).toInt32 (p.calls .total).toInt32
  volume :=
    match q with
    | .read => some (p.read_m, p.read_b)
    | .write => some (p.write_m, p.write_b)
    | _ => none

/-- The procedures in the order of their lines. -/
def statProcs : List Proc3 :=
  [.read, .write, .getattr, .lookup, .readdir, .readdirp, .fsstat, .access, .setattr, .remove, .create, .readlink,
   .mkdir, .symlink, .rmdir, .rename, .link, .pathconf, .fsinfo, .mknod, .mnt, .null, .commit]

/-- The totals, and a line for each procedure. -/
def nfs_v3_stat_print (overflow : ℤ → Int32) (p : NfsV3Stat) : (UInt32 × UInt32) × List StatLine :=
  ((p.calls .total, p.replies .total), statProcs.map (statLine overflow p))

/-! ## One percentage -/

theorem toInt_int {overflow : ℤ → Int32} {x : ℤ} (hlo : -2 ^ 31 ≤ x) (hhi : x < 2 ^ 31) : (int overflow x).toInt = x := by
  rw [int, if_pos ⟨hlo, hhi⟩, Int32.toInt_ofInt_of_le hlo hhi]

theorem int_overflows {overflow : ℤ → Int32} {x : ℤ} (h : ¬ (-2 ^ 31 ≤ x ∧ x < 2 ^ 31)) : int overflow x = overflow x := if_neg h

/-- The conversion of a counter to `int`. -/
theorem toInt_counter (c : UInt32) : c.toInt32.toInt = if c.toNat < 2 ^ 31 then (c.toNat : ℤ) else c.toNat - 2 ^ 32 := by
  have h := BitVec.toInt_eq_toNat_cond c.toBitVec
  have hlt := c.toNat_lt
  rw [show c.toInt32.toInt = c.toBitVec.toInt from rfl, h, UInt32.toNat_toBitVec]
  split <;> split <;> omega

theorem toInt32_eq_zero {c : UInt32} : c.toInt32 = 0 ↔ c.toNat = 0 := by
  have hlt := c.toNat_lt
  rw [← Int32.toInt_inj, toInt_counter, show (0 : Int32).toInt = 0 from rfl]
  split <;> omega

/-- A count out of a total whose percentage stays within `int`: a hundred times the count is
    below 2^31, and below what the total is short of 2^32 (a total from 2^31 on is a negative
    `int`); or all messages are counted, and they are almost 2^32. -/
def Printable (total count : Nat) : Prop :=
  100 * count < 2 ^ 31 ∧ 100 * count < 2 ^ 32 - total ∨ count = total ∧ 100 * (2 ^ 32 - total) ≤ 2 ^ 31

instance (total count : Nat) : Decidable (Printable total count) := inferInstanceAs (Decidable (_ ∨ _))

/-- Where the product fits. -/
theorem compute_pct_fits (overflow : ℤ → Int32) {n d : Int32} (hn : n ≠ 0) (hd : d ≠ 0) (hlo : -2 ^ 31 < n.toInt * 100)
    (hhi : n.toInt * 100 < 2 ^ 31) : (compute_pct overflow n d).toInt = (n.toInt * 100).tdiv d.toInt := by
  have hle := Int.natAbs_tdiv_le_natAbs (n.toInt * 100) d.toInt
  rw [compute_pct, if_neg (not_or.mpr ⟨hn, hd⟩), toInt_int hlo.le hhi, toInt_int (by omega) (by omega)]

/-- Where it does not, the machine may give 0, and it may give 1. -/
theorem compute_pct_overflows {n d : Int32} (hn : n ≠ 0) (hd : d ≠ 0) (h : ¬ (-2 ^ 31 ≤ n.toInt * 100 ∧ n.toInt * 100 < 2 ^ 31))
    (v : ℤ) : ∃ overflow, (compute_pct overflow n d).toInt ≠ v := by
  have hd' : d.toInt ≠ 0 := fun h0 => hd (Int32.toInt_inj.mp h0)
  by_cases hv : v = 0
  · refine ⟨fun _ => d, ?_⟩
    rw [compute_pct, if_neg (not_or.mpr ⟨hn, hd⟩), int_overflows h, Int.tdiv_self hd', toInt_int (by decide) (by decide), hv]
    exact one_ne_zero
  · refine ⟨fun _ => 0, ?_⟩
    rw [compute_pct, if_neg (not_or.mpr ⟨hn, hd⟩), int_overflows h, show (0 : Int32).toInt = 0 from rfl, Int.zero_tdiv,
      toInt_int (by decide) (by decide)]
    exact Ne.symm hv

/-- The negative of a count over the negative of a larger one is at least 100 percent. -/
theorem quotients_eq_iff {c k t m : Nat} (hck : c + k = 2 ^ 32) (htm : t + m = 2 ^ 32) (hct : c ≤ t) (hm : 0 < m) (ht : 0 < t) :
    100 * k / m = 100 * c / t ↔ c = t := by
  have hover : 100 ≤ 100 * k / m := (Nat.le_div_iff_mul_le hm).mpr (by omega)
  constructor
  · intro h
    have hmul := (Nat.le_div_iff_mul_le ht).mp (h ▸ hover)
    omega
  · intro h
    have hkm : k = m := by omega
    rw [h, hkm, Nat.mul_div_cancel _ hm, Nat.mul_div_cancel _ ht]

theorem compute_pct_iff {c total : UInt32} (hle : c.toNat ≤ total.toNat) :
    (∀ overflow, (compute_pct overflow c.toInt32 total.toInt32).toInt = (100 * c.toNat / total.toNat : Nat)) ↔
      Printable total.toNat c.toNat := by
  have hlt := total.toNat_lt
  by_cases hc : c.toNat = 0
  · refine iff_of_true (fun overflow => ?_) (Or.inl (by omega))
    rw [compute_pct, if_pos (Or.inl (toInt32_eq_zero.mpr hc)), hc, Nat.mul_zero, Nat.zero_div]
    rfl
  have hn : c.toInt32 ≠ 0 := mt toInt32_eq_zero.mp hc
  have hd : total.toInt32 ≠ 0 := mt toInt32_eq_zero.mp (by omega)
  have hnval := toInt_counter c
  have hdval := toInt_counter total
  by_cases hfit : -2 ^ 31 ≤ c.toInt32.toInt * 100 ∧ c.toInt32.toInt * 100 < 2 ^ 31
  · have hlo : -2 ^ 31 < c.toInt32.toInt * 100 := by omega
    simp only [compute_pct_fits _ hn hd hlo hfit.2, forall_const]
    unfold Printable
    by_cases hc31 : c.toNat < 2 ^ 31
    · rw [if_pos hc31] at hnval
      rw [hnval] at hfit
      have hprod : (c.toNat : ℤ) * 100 = (100 * c.toNat : Nat) := by omega
      by_cases ht31 : total.toNat < 2 ^ 31
      · -- both as they are
        rw [if_pos ht31] at hdval
        refine iff_of_true ?_ (Or.inl (by omega))
        rw [hnval, hdval, hprod, Int.tdiv_eq_ediv_of_nonneg (Int.natCast_nonneg _), Int.natCast_div]
      · -- the total is negative: only 0 percent is right
        rw [if_neg ht31] at hdval
        have hneg : (total.toNat : ℤ) - 2 ^ 32 = -((2 ^ 32 - total.toNat : Nat) : ℤ) := by omega
        rw [hnval, hdval, hprod, hneg, Int.tdiv_neg, Int.tdiv_eq_ediv_of_nonneg (Int.natCast_nonneg _), ← Int.natCast_div,
          Nat.div_eq_of_lt (show 100 * c.toNat < total.toNat by omega)]
        have hzero := Nat.div_eq_zero_iff_lt (x := 100 * c.toNat) (show 0 < 2 ^ 32 - total.toNat by omega)
        omega
    · -- both are negative
      rw [if_neg hc31] at hnval
      rw [if_neg (by omega)] at hdval
      rw [hnval] at hfit
      have hprod : ((c.toNat : ℤ) - 2 ^ 32) * 100 = -((100 * (2 ^ 32 - c.toNat) : Nat) : ℤ) := by omega
      have hneg : (total.toNat : ℤ) - 2 ^ 32 = -((2 ^ 32 - total.toNat : Nat) : ℤ) := by omega
      rw [hnval, hdval, hprod, hneg, Int.neg_tdiv_neg, Int.tdiv_eq_ediv_of_nonneg (Int.natCast_nonneg _), ← Int.natCast_div,
        Int.natCast_inj, quotients_eq_iff (by omega) (by omega) hle (by omega) (by omega)]
      omega
  · refine iff_of_false (fun h => ?_) ?_
    · obtain ⟨overflow, hne⟩ := compute_pct_overflows hn hd hfit (100 * c.toNat / total.toNat : Nat)
      exact hne (h overflow)
    · unfold Printable
      rw [hnval] at hfit
      split at hfit <;> omega

/-! ## The counters after a run -/

/-- The procedure number of a v3 call. -/
def Invocation.call3 : Invocation → Option UInt32
  | .v3_call op _ _ _ => some op
  | _ => none

/-- The procedure numbers of the v3 calls of a run. -/
def calls3 (is : List Invocation) : List UInt32 := is.filterMap Invocation.call3

/-- What a call counter counts of the procedure numbers `ops`. -/
def countOf (ops : List UInt32) : Tally Proc3 → Nat
  | .total => ops.length
  | .proc q => ops.count q.number
  | .unknown => 0

theorem countOf_append (ops ops' : List UInt32) (t : Tally Proc3) : countOf (ops ++ ops') t = countOf ops t + countOf ops' t := by
  cases t with
  | total => exact List.length_append
  | proc q => exact List.count_append
  | unknown => rfl

theorem bumpAll_counted (f : Tally Proc3 → UInt32) (op : UInt32) (t : Tally Proc3) :
    bumpAll .call f (Counted .call (Proc3.ofNumber op) false) t = f t + UInt32.ofNat (countOf [op] t) := by
  cases hq : Proc3.ofNumber op with
  | none =>
    cases t with
    | total => rfl
    | unknown => exact (UInt32.add_zero _).symm
    | proc q =>
      have hne : op ≠ q.number := by
        rintro rfl
        rw [Proc3.ofNumber_number] at hq
        cases hq
      rw [countOf, List.count_singleton, if_neg (by simpa using hne)]
      exact (UInt32.add_zero _).symm
  | some q' =>
    obtain rfl := Proc3.number_of_ofNumber hq
    cases t with
    | total => rfl
    | unknown => exact (UInt32.add_zero _).symm
    | proc q =>
      rw [countOf, List.count_singleton]
      by_cases h : q = q'
      · subst h
        simp [bumpAll, Counted, bumped]
      · have hne : q'.number ≠ q.number := by
          intro hnum
          have hsame := Proc3.ofNumber_number q
          rw [← hnum, hq] at hsame
          exact h (Option.some_inj.mp hsame).symm
        simp [bumpAll, Counted, bumped, h, hne]

/-- A reply is counted among the replies. -/
theorem bumpAll_replied (f : Tally Proc3 → UInt32) (q : Option Proc3) : bumpAll .call f (Counted .reply q false) = f := by
  cases q <;> rfl

section Runs

variable (o : Opts) (b : Args) (lib : XdrLib)

theorem step_calls (s : Blocks) (i : Invocation) (t : Tally Proc3) :
    (step o b lib s i).v3.calls t = s.v3.calls t + UInt32.ofNat (countOf i.call3.toList t) := by
  have hidle : s.v3.calls t = s.v3.calls t + UInt32.ofNat (countOf [] t) := by cases t <;> exact (UInt32.add_zero _).symm
  refine (congrFun (of_tally3 s.v3 (i.run o b lib) .call) t).trans ?_
  cases i with
  | v2_call op xid p len count =>
    have hseen : Trace.seen Act.message3 (Invocation.run o b lib (.v2_call op xid p len count)) = [] :=
      Trace.seen_eq_nil v2_call_quiet3
    rw [hseen]
    exact hidle
  | v2_resp op xid p len status count =>
    have hseen : Trace.seen Act.message3 (Invocation.run o b lib (.v2_resp op xid p len status count)) = [] :=
      Trace.seen_eq_nil v2_resp_quiet3
    rw [hseen]
    exact hidle
  | v3_call op xid p len =>
    have hseen : Trace.seen Act.message3 (Invocation.run o b lib (.v3_call op xid p len)) = _ := counts_v3_call
    rw [hseen]
    exact bumpAll_counted s.v3.calls op t
  | v3_resp op xid p len status count =>
    have hseen : Trace.seen Act.message3 (Invocation.run o b lib (.v3_resp op xid p len status count)) = _ := counts_v3_resp
    rw [hseen, bumpAll_replied]
    exact hidle

theorem calls_run (is : List Invocation) (t : Tally Proc3) : ∀ s : Blocks,
    (run o b lib s is).v3.calls t = s.v3.calls t + UInt32.ofNat (countOf (calls3 is) t) := by
  induction is with
  | nil =>
    intro s
    cases t <;> exact (UInt32.add_zero _).symm
  | cons i is ih =>
    intro s
    have hcalls : calls3 (i :: is) = i.call3.toList ++ calls3 is := by
      rw [calls3, List.filterMap_cons]
      cases i.call3 <;> rfl
    rw [hcalls, countOf_append, UInt32.ofNat_add, ← UInt32.add_assoc, ← step_calls]
    exact ih (step o b lib s i)

/-- Counters that have not wrapped are the numbers of calls. -/
theorem run_calls {is : List Invocation} (hlen : (calls3 is).length < 2 ^ 32) (t : Tally Proc3) :
    ((run o b lib .init is).v3.calls t).toNat = countOf (calls3 is) t := by
  have hle : countOf (calls3 is) t ≤ (calls3 is).length := by
    cases t with
    | total => exact le_rfl
    | proc q => exact List.count_le_length
    | unknown => exact Nat.zero_le _
  rw [calls_run, show Blocks.init.v3.calls t = 0 from rfl, UInt32.zero_add, UInt32.toNat_ofNat_of_lt' (lt_of_le_of_lt hle hlen)]

end Runs

/-! ## The percentages of a run -/

/-- The printed percentages are those of the counters, rounded down; so each is one, and they
    are parts of a whole. -/
structure Sane (overflow : ℤ → Int32) (p : NfsV3Stat) : Prop where
  floor : ∀ l ∈ (nfs_v3_stat_print overflow p).2, l.pct.toInt = (100 * l.calls.toNat / (p.calls .total).toNat : Nat)
  bounds : ∀ l ∈ (nfs_v3_stat_print overflow p).2, 0 ≤ l.pct.toInt ∧ l.pct.toInt ≤ 100
  sum : (((nfs_v3_stat_print overflow p).2).map fun l => l.pct.toInt).sum ≤ 100

/-- Different keys are counted in different places. -/
theorem sum_count_le {α : Type} [DecidableEq α] {ks : List α} (hks : ks.Nodup) (xs : List α) :
    (ks.map fun k => xs.count k).sum ≤ xs.length := by
  have hall : ∑ k ∈ ks.toFinset ∪ xs.toFinset, xs.count k = xs.length := by
    rw [← List.sum_toFinset_count_eq_length xs]
    symm
    apply Finset.sum_subset Finset.subset_union_right
    intro k _ hk
    exact List.count_eq_zero.mpr (mt List.mem_toFinset.mpr hk)
  rw [← List.sum_toFinset _ hks, ← hall]
  exact Finset.sum_le_sum_of_subset Finset.subset_union_left

theorem sum_div_le {α : Type} (f : α → Nat) (d : Nat) (xs : List α) : (xs.map fun x => f x / d).sum ≤ (xs.map f).sum / d := by
  induction xs with
  | nil => exact Nat.zero_le _
  | cons x xs ih =>
    rw [List.map_cons, List.map_cons, List.sum_cons, List.sum_cons]
    exact (Nat.add_le_add_left ih _).trans Nat.div_add_div_le_add_div

theorem mem_statProcs (q : Proc3) : q ∈ statProcs := by cases q <;> decide

/-- Where the procedures' counters are parts of the total. -/
theorem sane_iff {p : NfsV3Stat} (hparts : (statProcs.map fun q => (p.calls (.proc q)).toNat).sum ≤ (p.calls .total).toNat) :
    (∀ overflow, Sane overflow p) ↔ ∀ q, Printable (p.calls .total).toNat (p.calls (.proc q)).toNat := by
  have hle : ∀ q, (p.calls (.proc q)).toNat ≤ (p.calls .total).toNat := fun q =>
    (List.single_le_sum (fun _ _ => Nat.zero_le _) _ (List.mem_map_of_mem (mem_statProcs q))).trans hparts
  constructor
  · intro h q
    apply (compute_pct_iff (hle q)).mp
    intro overflow
    exact (h overflow).floor _ (List.mem_map_of_mem (mem_statProcs q))
  · intro h overflow
    have hpct : ∀ q, (statLine overflow p q).pct.toInt = (100 * (p.calls (.proc q)).toNat / (p.calls .total).toNat : Nat) :=
      fun q => (compute_pct_iff (hle q)).mpr (h q) overflow
    refine ⟨fun l hl => ?_, fun l hl => ?_, ?_⟩
    · obtain ⟨q, -, rfl⟩ := List.mem_map.mp hl
      exact hpct q
    · obtain ⟨q, -, rfl⟩ := List.mem_map.mp hl
      have hdiv := Nat.div_le_of_le_mul (show 100 * (p.calls (.proc q)).toNat ≤ (p.calls .total).toNat * 100 by
        have := hle q
        omega)
      rw [hpct]
      exact ⟨Int.natCast_nonneg _, by exact_mod_cast hdiv⟩
    · have hsum : (((nfs_v3_stat_print overflow p).2).map fun l => l.pct.toInt).sum =
          ((statProcs.map fun q => 100 * (p.calls (.proc q)).toNat / (p.calls .total).toNat).sum : Nat) := by
        rw [nfs_v3_stat_print, List.map_map, Nat.cast_list_sum, List.map_map]
        congr 1
        apply List.map_congr_left
        intro q _
        exact hpct q
      have hdiv := sum_div_le (fun q => 100 * (p.calls (.proc q)).toNat) (p.calls .total).toNat statProcs
      rw [List.sum_map_mul_left] at hdiv
      have hwhole := Nat.div_le_of_le_mul ((Nat.mul_le_mul_left 100 hparts).trans_eq (Nat.mul_comm _ _))
      rw [hsum]
      exact_mod_cast hdiv.trans hwhole

/-- The percentages are right, whatever an overflow gives, iff the number of calls of each
    procedure is printable. -/
theorem percentages_sane_iff (o : Opts) (b : Args) (lib : XdrLib) (is : List Invocation) (hlen : (calls3 is).length < 2 ^ 32) :
    (∀ overflow, Sane overflow (run o b lib .init is).v3) ↔
      ∀ q : Proc3, Printable (calls3 is).length ((calls3 is).count q.number) := by
  have htotal : ((run o b lib .init is).v3.calls .total).toNat = (calls3 is).length := run_calls o b lib hlen .total
  have hproc : ∀ q, ((run o b lib .init is).v3.calls (.proc q)).toNat = (calls3 is).count q.number := fun q =>
    run_calls o b lib hlen (.proc q)
  have hdistinct : (statProcs.map Proc3.number).Nodup := by decide
  have hparts := sum_count_le hdistinct (calls3 is)
  rw [List.map_map] at hparts
  rw [sane_iff]
  · simp only [htotal, hproc]
  · simp only [htotal, hproc]
    exact hparts

/-- 21474837 NULL calls. -/
def pings : List Invocation := List.replicate 21474837 (.v3_call 0 0 ⟨0x8049000, fun _ => 0⟩ 0)

theorem calls3_pings : calls3 pings = List.replicate 21474837 0 := List.filterMap_replicate_of_some rfl

/-- A NULL call and one of an unknown procedure. -/
def twoCalls : List Invocation := [.v3_call 0 0 ⟨0x8049000, fun _ => 0⟩ 0, .v3_call 22 1 ⟨0x8049000, fun _ => 0⟩ 0]

theorem percentages_sane_sample : (calls3 twoCalls).length < 2 ^ 32 ∧
    ∀ overflow, Sane overflow (run ⟨true, false, false, fun _ => []⟩ ⟨0x8049000, by decide⟩ XdrLib.short .init twoCalls).v3 := by
  have hprintable : ∀ q : Proc3, Printable (calls3 twoCalls).length ((calls3 twoCalls).count q.number) := by
    intro q
    cases q <;> decide
  exact ⟨by decide, (percentages_sane_iff _ _ _ twoCalls (by decide)).mpr hprintable⟩

/-- Where overflows wrap around, all of 21474837 calls are -99 percent. -/
theorem pings_wrap : ¬ Sane Int32.ofInt (run ⟨true, false, false, fun _ => []⟩ ⟨0x8049000, by decide⟩ XdrLib.short .init pings).v3 := by
  intro h
  have hpct := h.floor _ (List.mem_map_of_mem (mem_statProcs .null))
  simp only [statLine, calls_run, calls3_pings, countOf, List.length_replicate, Proc3.number, List.count_replicate_self] at hpct
  exact absurd hpct (by decide)

end Nfsdump.Decode
