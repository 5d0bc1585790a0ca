/-
  Retention — how many nodes a `ChainTable` is left with.

  A cull may free the wrong node, but it frees as many as there are stale ones. So what stays
  behind a cull is counted by the values inserted that are not stale, whichever nodes these are.

  Proved, for any operations and any sense of age:
  - `sweep_length`: a cull leaves as many nodes as are not stale;
  - `run_retains`: once the turn has gone round, there are no more nodes than values that were
    inserted and are not old;
  - `run_window`: a table holds no more nodes than values were inserted since the oldest of the
    inserts of the last round, and the age before that.
-/

import Nfsdump.Lib.ChainTable
import Mathlib.Data.List.MinMax

namespace ChainTable

section Sweeps

variable {α κ : Type} [DecidableEq κ] (key : α → κ) (stale : α → Bool)

theorem sweep_length : ∀ suf pre : List (Node α),
    (sweep key stale pre suf).length = pre.length + suf.countP fun n => !stale n.val := by
  intro suf
  induction suf with
  | nil => exact fun pre => rfl
  | cons n suf ih =>
    intro pre
    rw [sweep, ih, List.countP_cons]
    by_cases hs : stale n.val = true
    · have herase : (eraseKey key n (pre ++ [n])).length = pre.length := by
        unfold eraseKey
        rw [List.length_eraseP_of_mem (a := n) (by simp) (by simp), List.length_append]
        rfl
      simp [hs, herase]
    · simp [hs]
      omega

variable (S : Scheme α κ)

/-- The bucket `b` of a list of nodes. -/
def bucket (b : Nat) (L : List (Node α)) : List (Node α) := L.filter fun n => S.hash (S.key n.val) = b

/-- Behind a cull its bucket has as many nodes as were not stale, the others have all of theirs. -/
theorem bucket_sweep (b c : Nat) (L : List (Node α)) : (bucket S b (sweep S.key (due S stale c) [] L)).length =
    if b = c then (bucket S b L).countP fun n => !stale n.val else (bucket S b L).length := by
  unfold bucket
  by_cases hb : b = c
  · subst hb
    rw [if_pos rfl, sweep_due_turn, sweep_length, List.length_nil, Nat.zero_add]
  · rw [if_neg hb, sweep_due_other (S := S) stale hb]

end Sweeps

section Retained

variable {α κ : Type} [DecidableEq κ] {S : Scheme α κ} {t t' : Table α} {L : List (Node α)} {vs : List α} {old : α → Bool} {c m : Nat}

/-- The values of `vs` that go to bucket `b` and are not old. -/
def young (S : Scheme α κ) (old : α → Bool) (vs : List α) (b : Nat) : Nat := vs.countP fun v => S.hash (S.key v) = b && !old v

omit [DecidableEq κ] in
theorem young_append (vs ws : List α) (b : Nat) : young S old (vs ++ ws) b = young S old vs b + young S old ws b :=
  List.countP_append

/-- `m` inserts after the turn was at `c`, the `m` buckets from `c` on have no more nodes than young
    values; and the table's values are among those inserted. -/
structure Retained (S : Scheme α κ) (old : α → Bool) (c m : Nat) (t : Table α) (L : List (Node α)) (vs : List α) : Prop where
  turn : t.cullIndex = (c + m) % S.size
  values : (L.map Node.val).Subperm vs
  counts : ∀ i < m, (bucket S ((c + i) % S.size) L).length ≤ young S old vs ((c + i) % S.size)

/-- An insert of what is not old, that takes for stale what is. -/
def Culls (old : α → Bool) : Op α κ → Prop
  | .insert stale v => old v = false ∧ ∀ x, old x = true → stale x = true
  | .lookup _ => True

omit [DecidableEq κ] in
theorem countP_bucket (hv : (L.map Node.val).Subperm vs) {stale : α → Bool} (hold : ∀ x, old x = true → stale x = true) (b : Nat) :
    ((bucket S b L).countP fun n => !stale n.val) ≤ young S old vs b := by
  have hmap : ((bucket S b L).countP fun n => !stale n.val) = (L.map Node.val).countP fun v => S.hash (S.key v) = b && !stale v := by
    rw [bucket, List.countP_filter, List.countP_map]
    refine List.countP_congr fun n _ => ?_
    simp [and_comm]
  rw [hmap]
  refine (hv.countP_le _).trans (List.countP_mono_left fun v _ hkeep => ?_)
  simp only [Bool.and_eq_true, Bool.not_eq_true'] at hkeep ⊢
  refine ⟨hkeep.1, Bool.eq_false_iff.mpr fun ho => ?_⟩
  rw [hold v ho] at hkeep
  exact absurd hkeep.2 (by simp)

theorem Retained.insert (h : Lists S t L) (hr : Retained S old c m t L vs) {stale : α → Bool} {v : α}
    (hc : Culls (κ := κ) old (.insert stale v)) :
    ∃ t' freed L', ChainTable.insert S stale v t = .ok (t', freed) ∧ Lists S t' L' ∧ Retained S old c (m + 1) t' L' (vs ++ [v]) := by
  obtain ⟨hyoung, hold⟩ := hc
  obtain ⟨t', freed, hok, hl, hturn, -, -⟩ := insert_lists stale h v
  have hvalues : ((⟨t.next, v⟩ :: L : List (Node α)).map Node.val).Subperm (vs ++ [v]) :=
    ((List.subperm_cons v).mpr hr.values).trans (List.perm_append_singleton v vs).symm.subperm
  refine ⟨t', freed, _, hok, hl, ⟨?_, ?_, fun i hi => ?_⟩⟩
  · rw [hturn, hr.turn, Nat.mod_add_mod]
    rfl
  · have hsub := (sweep_sublist S.key (due S stale t.cullIndex) (⟨t.next, v⟩ :: L) []).map Node.val
    exact hsub.subperm.trans hvalues
  · rw [bucket_sweep]
    split
    · exact countP_bucket hvalues hold _
    · next hne =>
      have him : i < m := by
        refine Nat.lt_of_le_of_ne (Nat.lt_succ_iff.mp hi) fun he => hne ?_
        rw [he, hr.turn]
      have hcount := hr.counts i him
      rw [young_append, bucket, List.filter_cons]
      by_cases hb : S.hash (S.key v) = (c + i) % S.size
      · rw [if_pos (by simpa using hb), List.length_cons]
        have hone : young S old [v] ((c + i) % S.size) = 1 := by simp [young, hb, hyoung]
        rw [hone]
        exact Nat.succ_le_succ hcount
      · rw [if_neg (by simpa using hb)]
        exact hcount.trans (Nat.le_add_right _ _)

theorem Retained.lookup (h : Lists S t L) (hr : Retained S old c m t L vs) (k : κ) :
    ∃ L', Lists S (ChainTable.lookup S t k).2 L' ∧ Retained S old c m (ChainTable.lookup S t k).2 L' vs := by
  obtain ⟨-, hl, hturn, -⟩ := lookup_lists h k
  refine ⟨_, hl, ⟨hturn.trans hr.turn, ?_, fun i hi => ?_⟩⟩
  · exact (List.eraseP_sublist.map Node.val).subperm.trans hr.values
  · exact (List.eraseP_sublist.filter _).length_le.trans (hr.counts i hi)

theorem Retained.run (ops : List (Op α κ)) (h : Lists S t L) (hr : Retained S old c m t L vs) (hc : ∀ op ∈ ops, Culls old op) :
    ∃ t' L', ChainTable.run S t ops = .ok t' ∧ Lists S t' L' ∧ Retained S old c (m + (inserted ops).length) t' L'
      (vs ++ inserted ops) := by
  induction ops generalizing t L vs m with
  | nil => exact ⟨t, L, rfl, h, by rwa [show inserted ([] : List (Op α κ)) = [] from rfl, List.append_nil]⟩
  | cons op ops ih =>
    rw [List.forall_mem_cons] at hc
    cases op with
    | insert stale v =>
      obtain ⟨t', freed, L', hok, hl, hr'⟩ := hr.insert h hc.1
      obtain ⟨t'', L'', hrun, hl', hr''⟩ := ih hl hr' hc.2
      refine ⟨t'', L'', ?_, hl', ?_⟩
      · simp only [ChainTable.run, Op.apply, hok]
        exact hrun
      · rw [inserted_cons]
        rwa [show inserted [Op.insert stale v] = ([v] : List α) from rfl, List.length_append, ← Nat.add_assoc, ← List.append_assoc]
    | lookup k =>
      obtain ⟨L', hl, hr'⟩ := hr.lookup h k
      obtain ⟨t'', L'', hrun, hl', hr''⟩ := ih hl hr' hc.2
      exact ⟨t'', L'', hrun, hl', hr''⟩

theorem length_buckets {β : Type} (f : β → Nat) (size : Nat) (l : List β) (hf : ∀ x ∈ l, f x < size) :
    l.length = ∑ b ∈ Finset.range size, l.countP fun x => f x = b := by
  induction l with
  | nil => simp
  | cons x l ih =>
    rw [List.forall_mem_cons] at hf
    simp only [List.countP_cons, Finset.sum_add_distrib, ← ih hf.2, List.length_cons]
    simp [hf.1]

omit [DecidableEq κ] in
/-- Once the turn has gone round there are no more nodes than young values. -/
theorem Retained.length (hr : Retained S old c m t L vs) (hm : S.size ≤ m) : L.length ≤ vs.countP fun v => !old v := by
  have hyoung : (vs.countP fun v => !old v) = ∑ b ∈ Finset.range S.size, young S old vs b := by
    rw [List.countP_eq_length_filter, length_buckets (fun v => S.hash (S.key v)) S.size _ fun v _ => S.hash_lt _]
    refine Finset.sum_congr rfl fun b _ => ?_
    rw [List.countP_filter]
    rfl
  rw [hyoung, length_buckets (fun n : Node α => S.hash (S.key n.val)) S.size L fun n _ => S.hash_lt _]
  refine Finset.sum_le_sum fun b hb => ?_
  have hb := Finset.mem_range.mp hb
  -- the insert whose turn was the bucket
  have hturn : (c + (b + S.size - c % S.size) % S.size) % S.size = b := by
    have hc := Nat.mod_lt c (Nat.zero_lt_of_lt hb)
    rw [Nat.add_mod_mod, ← Nat.mod_add_mod, show c % S.size + (b + S.size - c % S.size) = b + S.size by omega,
      Nat.add_mod_right, Nat.mod_eq_of_lt hb]
  have hcount := hr.counts ((b + S.size - c % S.size) % S.size) ((Nat.mod_lt _ (Nat.zero_lt_of_lt hb)).trans_le hm)
  rw [hturn, bucket, ← List.countP_eq_length_filter] at hcount
  exact hcount

/-- A round of inserts leaves no more nodes than values that are not old, in this round or before. -/
theorem run_retains (h : Lists S t L) (hv : (L.map Node.val).Subperm vs) {ops : List (Op α κ)} (hc : ∀ op ∈ ops, Culls old op)
    (hlen : S.size ≤ (inserted ops).length) (hrun : run S t ops = .ok t') :
    t'.elemCnt ≤ ((vs ++ inserted ops).countP fun v => !old v : ℕ) := by
  have hstart : Retained S old t.cullIndex 0 t L vs := ⟨(Nat.mod_eq_of_lt h.turn).symm, hv, fun i hi => absurd hi (Nat.not_lt_zero i)⟩
  obtain ⟨t'', L', hrun', hl, hr⟩ := hstart.run ops h hc
  rw [hrun] at hrun'
  cases hrun'
  rw [hl.count]
  exact_mod_cast hr.length (hlen.trans (Nat.le_add_left _ _))

end Retained

/-! ## The window -/

section Window

/-- When the last `size` of the times begin, or 0 if there are fewer. -/
def windowStart (size : Nat) (times : List Nat) : Nat :=
  if times.length < size then 0 else ((times.drop (times.length - size)).min?).getD 0

variable {α κ : Type} [DecidableEq κ] {S : Scheme α κ} {t : Table α} {size age : Nat} {times : List Nat}

theorem windowStart_le {x : Nat} (h : size ≤ times.length) (hx : x ∈ times.drop (times.length - size)) : windowStart size times ≤ x := by
  unfold windowStart
  rw [if_neg (Nat.not_lt.mpr h)]
  cases hmin : (times.drop (times.length - size)).min? with
  | none => exact Nat.zero_le _
  | some a => exact (List.min?_eq_some_iff.mp hmin).2 x hx

omit [DecidableEq κ] in
/-- The operations with the last `n` inserts. -/
theorem exists_round (n : Nat) (ops : List (Op α κ)) (h : n ≤ (inserted ops).length) :
    ∃ front round, ops = front ++ round ∧ inserted round = (inserted ops).drop ((inserted ops).length - n) := by
  induction ops with
  | nil => exact ⟨[], [], rfl, by simp [inserted]⟩
  | cons op ops ih =>
    by_cases hn : n ≤ (inserted ops).length
    · obtain ⟨front, round, rfl, hround⟩ := ih hn
      refine ⟨op :: front, round, rfl, ?_⟩
      rw [hround, inserted_cons op, List.length_append, Nat.add_sub_assoc hn, List.drop_length_add_append]
    · refine ⟨[], op :: ops, rfl, ?_⟩
      have hone : (inserted [op]).length ≤ 1 := List.length_filterMap_le _ _
      rw [inserted_cons, List.length_append] at h ⊢
      rw [show (inserted [op]).length + (inserted ops).length - n = 0 by omega, List.drop_zero]

/-- What an insert takes for stale includes what is over `age` older than it. -/
def Ages (time : α → Nat) (age : Nat) : Op α κ → Prop
  | .insert stale v => ∀ x, time x + age < time v → stale x = true
  | .lookup _ => True

omit [DecidableEq κ] in
theorem inserted_append (ops ops' : List (Op α κ)) : inserted (ops ++ ops') = inserted ops ++ inserted ops' := List.filterMap_append

omit [DecidableEq κ] in
theorem mem_inserted {stale : α → Bool} {v : α} {ops : List (Op α κ)} (h : Op.insert stale v ∈ ops) : v ∈ inserted ops :=
  List.mem_filterMap.mpr ⟨_, h, rfl⟩

theorem run_append (ops ops' : List (Op α κ)) (t : Table α) :
    run S t (ops ++ ops') = (run S t ops).bind fun t' => run S t' ops' := by
  induction ops generalizing t with
  | nil => rfl
  | cons op ops ih =>
    rw [List.cons_append, run, run]
    cases op.apply S t with
    | error e => rfl
    | ok r => exact ih r.1

/-- The values of a table are among those inserted. -/
theorem run_values (h0 : 0 < S.size) (ops : List (Op α κ)) :
    ∃ t L, run S Table.empty ops = .ok t ∧ Lists S t L ∧ (L.map Node.val).Subperm (inserted ops) := by
  have hstart : Retained S (fun _ => false) 0 0 (Table.empty : Table α) [] [] :=
    ⟨(Nat.zero_mod _).symm, List.Subperm.refl _, fun i hi => absurd hi (Nat.not_lt_zero i)⟩
  have hculls : ∀ op ∈ ops, Culls (fun _ => false) op := by
    intro op _
    cases op with
    | insert stale v => exact ⟨rfl, fun x hx => absurd hx Bool.false_ne_true⟩
    | lookup k => trivial
  obtain ⟨t, L, hok, hl, hr⟩ := hstart.run ops (empty_lists S h0) hculls
  exact ⟨t, L, hok, hl, hr.values⟩

/-- However long the run, the table holds no more than a window of its inserts. -/
theorem run_window (h0 : 0 < S.size) {time : α → Nat} {ops : List (Op α κ)} (hages : ∀ op ∈ ops, Ages time age op)
    (hrun : run S Table.empty ops = .ok t) :
    t.elemCnt ≤ (((inserted ops).countP fun v => windowStart S.size ((inserted ops).map time) ≤ time v + age : ℕ) : ℤ) := by
  by_cases hlen : S.size ≤ (inserted ops).length
  · obtain ⟨front, round, rfl, hround⟩ := exists_round S.size ops hlen
    obtain ⟨t₁, L, hfront, hl, hvalues⟩ := run_values h0 front
    rw [run_append, hfront] at hrun
    have hrun : run S t₁ round = .ok t := hrun
    set start := windowStart S.size ((inserted (front ++ round)).map time) with hstart
    have hlate : ∀ v ∈ inserted round, start ≤ time v := by
      intro v hv
      rw [hround] at hv
      refine windowStart_le (by rwa [List.length_map]) ?_
      rw [List.length_map, ← List.map_drop]
      exact List.mem_map_of_mem hv
    have hculls : ∀ op ∈ round, Culls (fun v => decide (time v + age < start)) op := by
      intro op hop
      cases op with
      | insert stale v =>
        have hv := hlate v (mem_inserted hop)
        refine ⟨decide_eq_false (by omega), fun x hx => ?_⟩
        exact hages _ (List.mem_append_right _ hop) x ((of_decide_eq_true hx).trans_le hv)
      | lookup k => trivial
    have hlast : S.size ≤ (inserted round).length := by
      rw [hround, List.length_drop]
      omega
    have hkept := run_retains hl hvalues hculls hlast hrun
    rw [← inserted_append] at hkept
    simpa [← decide_not] using hkept
  · obtain ⟨t', L, hok, hl, hvalues⟩ := run_values h0 ops
    rw [hrun] at hok
    cases hok
    have hstart : windowStart S.size ((inserted ops).map time) = 0 := if_pos (by rw [List.length_map]; exact Nat.not_le.mp hlen)
    have hle := hvalues.length_le
    rw [List.length_map] at hle
    rw [hstart, hl.count]
    simpa using hle

end Window

end ChainTable
