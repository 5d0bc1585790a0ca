/-
  Nfsdump.Decode.Account — the bytes read and written over any sequence of printed messages.

  READ replies and WRITE calls add a count to the byte counter of one of four pairs. Where
  the payload ends in front of the count word, the printers add what stands in its place:
  the word right behind the payload, or else what was in the local it is decoded to. A v3
  WRITE call whose handle is broken adds its fourth word.

  Proved, for the memory stream of `MemStream` and payloads the system can have mapped:
  - `step_own`, `step_other`: a message carries its count, or what is taken for it, into its
    own pair and leaves the others;
  - `step_exact_iff`: a message is accounted exactly iff its count fits the byte counter, or
    is missing and what is taken for it is 0;
  - `volumes_exact_iff`: over a run from initialized blocks every pair has less than a
    megabyte in its byte counter, and is the sum of the counts in every state reached iff
    every message is accounted so as long as the sum fits;
  - `word_behind_counted`: a READ reply cut in front of its count adds the word behind it.
-/

import Nfsdump.Decode.Tally
import Nfsdump.Decode.WriteCall

namespace Nfsdump.Decode

open Wire

/-! ## Pairs and counts -/

/-- The pairs of a byte counter and a megabyte counter. -/
inductive Pair where
  | r3_read
  | c3_write
  | r2_read
  | c2_write
  deriving DecidableEq

def Blocks.pair (s : Blocks) : Pair → UInt32 × UInt32
  | .r3_read => s.v3.pair .reply
  | .c3_write => s.v3.pair .call
  | .r2_read => s.v2.pair .reply
  | .c2_write => s.v2.pair .call

/-- The bytes a pair stands for. -/
def bytesOf (bm : UInt32 × UInt32) : Nat := bm.2.toNat * 2 ^ 20 + bm.1.toNat

/-- The pair a message may add to. -/
def Invocation.pair : Invocation → Pair
  | .v3_resp _ _ _ _ _ _ => .r3_read
  | .v3_call _ _ _ _ => .c3_write
  | .v2_resp _ _ _ _ _ _ => .r2_read
  | .v2_call _ _ _ _ _ => .c2_write

/-- Word `i` of a payload of `n` words, if it is there. -/
def wordIn (p : Ptr) (n i : Nat) : Option UInt32 := if i < n then some (wordAt p i) else none

/-- The count word of a WRITE call or a successful READ reply, where the payload has it. -/
def Invocation.countWord : Invocation → Option UInt32
  | .v3_resp op _ p actual_len status _ =>
    if Proc3.ofNumber op = some .read ∧ status = NFS3_OK then wordIn p (actual_len.toNat / 4) (attrSize (wordAt p) 0)
    else none
  | .v3_call op _ p actual_len =>
    if Proc3.ofNumber op = some .write ∧ (wordAt p 0).toNat ≤ 64
    then wordIn p (actual_len.toNat / 4) (handleSize (wordAt p) 0 + 2) else none
  | .v2_resp op _ p actual_len status _ =>
    if Proc2.ofNumber op = some .read ∧ status = NFS_OK then wordIn p (actual_len.toNat / 4) 17 else none
  | .v2_call op _ p actual_len _ =>
    if Proc2.ofNumber op = some .write then wordIn p (actual_len.toNat / 4) 10 else none

/-- What is taken for a count word that is not there. -/
def Invocation.stray : Invocation → UInt32
  | .v3_resp op _ p actual_len status count =>
    if Proc3.ofNumber op = some .read ∧ status = NFS3_OK
    then countLocal p (actual_len.toNat / 4) count (attrSize (wordAt p) 0) else 0
  | .v3_call op _ p actual_len =>
    if Proc3.ofNumber op = some .write ∧ ¬ HandleStands p actual_len ∧ 16 ≤ actual_len.toNat then wordAt p 3 else 0
  | .v2_resp op _ p actual_len status count =>
    if Proc2.ofNumber op = some .read ∧ status = NFS_OK then countLocal p (actual_len.toNat / 4) count 17 else 0
  | .v2_call op _ p actual_len count =>
    if Proc2.ofNumber op = some .write then countLocal p (actual_len.toNat / 4) count 10 else 0

/-- What a message adds to its pair. -/
def Invocation.amount (i : Invocation) : UInt32 := i.countWord.getD i.stray

/-- The payload lies where the system can have mapped it. -/
def Invocation.Placed : Invocation → Prop
  | .v3_resp _ _ p actual_len _ _ => Mapped p (actual_len.toNat / 4)
  | .v3_call _ _ p actual_len => Mapped p (actual_len.toNat / 4)
  | .v2_resp _ _ p actual_len _ _ => Mapped p (actual_len.toNat / 4)
  | .v2_call _ _ p actual_len _ => Mapped p (actual_len.toNat / 4)

/-! ## What a message adds -/

section Adds

variable {o : Opts} {b : Args} {lib : XdrLib}

/-- What a message's printer adds to a pair. -/
def Invocation.adds (o : Opts) (b : Args) (lib : XdrLib) (i : Invocation) : Pair → List UInt32
  | .r3_read => Trace.seen (Act.added3 .reply) (i.run o b lib)
  | .c3_write => Trace.seen (Act.added3 .call) (i.run o b lib)
  | .r2_read => Trace.seen (Act.added2 .reply) (i.run o b lib)
  | .c2_write => Trace.seen (Act.added2 .call) (i.run o b lib)

theorem pair_step (s : Blocks) (i : Invocation) (q : Pair) :
    (step o b lib s i).pair q = carryAll (s.pair q) (i.adds o b lib q) := by
  cases q with
  | r3_read => exact pair_tally3 s.v3 (i.run o b lib) .reply
  | c3_write => exact pair_tally3 s.v3 (i.run o b lib) .call
  | r2_read => exact pair_tally2 s.v2 (i.run o b lib) .reply
  | c2_write => exact pair_tally2 s.v2 (i.run o b lib) .call

theorem Spares2.added2 {α : Type} {x : Dec α} (h : Spares2 x) (dir : Direction) : Trace.seen (Act.added2 dir) x = [] :=
  Trace.seen_eq_nil fun a ha => congrArg (Option.bind · (Count.added dir)) (h a ha)

theorem Spares3.added3 {α : Type} {x : Dec α} (h : Spares3 x) (dir : Direction) : Trace.seen (Act.added3 dir) x = [] :=
  Trace.seen_eq_nil fun a ha => congrArg (Option.bind · (Count.added dir)) (h a ha)

theorem adds_other {i : Invocation} (hi : i.Placed) {q : Pair} (hq : q ≠ i.pair) : i.adds o b lib q = [] := by
  have hdir : ¬ (Direction.call = .reply) ∧ ¬ (Direction.reply = .call) := by decide
  cases i with
  | v3_resp op xid p len status count =>
    cases q with
    | r3_read => exact absurd rfl hq
    | c3_write => exact (added_v3_resp hi).trans (if_neg fun h => hdir.2 h.2.2)
    | r2_read => exact Spares2.added2 v3_resp_spares2 _
    | c2_write => exact Spares2.added2 v3_resp_spares2 _
  | v3_call op xid p len =>
    cases q with
    | r3_read => exact added_v3_call.trans (if_neg fun h => hdir.1 h.2)
    | c3_write => exact absurd rfl hq
    | r2_read => exact Spares2.added2 v3_call_spares2 _
    | c2_write => exact Spares2.added2 v3_call_spares2 _
  | v2_resp op xid p len status count =>
    cases q with
    | r3_read => exact Spares3.added3 v2_resp_spares3 _
    | c3_write => exact Spares3.added3 v2_resp_spares3 _
    | r2_read => exact absurd rfl hq
    | c2_write => exact (added_v2_resp hi).trans (if_neg fun h => hdir.2 h.2.2)
  | v2_call op xid p len count =>
    cases q with
    | r3_read => exact Spares3.added3 v2_call_spares3 _
    | c3_write => exact Spares3.added3 v2_call_spares3 _
    | r2_read => exact (added_v2_call hi).trans (if_neg fun h => hdir.1 h.2)
    | c2_write => exact absurd rfl hq

/-- The count of a WRITE call is its word in the payload, or the fourth behind a broken handle. -/
theorem write_count (hlib : MemStream lib) (p : Ptr) (len : UInt32) :
    (lib.writeResults ⟨p, len⟩).count.getD 0 =
      ((if (wordAt p 0).toNat ≤ 64 then wordIn p (len.toNat / 4) (handleSize (wordAt p) 0 + 2) else none).getD
        (if ¬ HandleStands p len ∧ 16 ≤ len.toNat then wordAt p 3 else 0)) := by
  have hword : wordAt p 0 = p.word 0 := rfl
  have hmissing : ((wordAt p 0).toNat ≤ 64 → len.toNat / 4 ≤ handleSize (wordAt p) 0 + 2) →
      (if (wordAt p 0).toNat ≤ 64 then wordIn p (len.toNat / 4) (handleSize (wordAt p) 0 + 2) else none) = none := by
    intro h
    by_cases h64 : (wordAt p 0).toNat ≤ 64
    · rw [if_pos h64, wordIn, if_neg (Nat.not_lt.mpr (h h64))]
    · exact if_neg h64
  by_cases hstands : HandleStands p len
  · have hstray : (if ¬ HandleStands p len ∧ 16 ≤ len.toNat then wordAt p 3 else 0) = 0 := if_neg fun h => h.1 hstands
    rw [hstray]
    rcases fh3_of_stands hstands with ⟨h64, hfit, f, hf⟩ | ⟨hshort, q, r, hf, hr⟩
    · obtain ⟨-, -, hcount, -⟩ := results_tail hlib hf
      have hbytes : (4 * UInt32.ofNat (handleSize (wordAt p) 0)).toNat = 4 * handleSize (wordAt p) 0 := by
        have hlt := len.toNat_lt
        rw [UInt32.toNat_mul, toNat_ofNat_lt (by omega), show (4 : UInt32).toNat = 4 from rfl]
        omega
      have hleft := left_toNat (hbytes.le.trans hfit)
      have hcountWord : (cur p (handleSize (wordAt p) 0)).word 8 = wordAt p (handleSize (wordAt p) 0 + 2) := cur_word p _ 2
      rw [hcount, if_pos h64, wordIn, hcountWord]
      by_cases hthere : handleSize (wordAt p) 0 + 2 < len.toNat / 4
      · rw [if_pos hthere, if_pos (by omega)]
      · rw [if_neg hthere, if_neg (by omega)]
    · obtain ⟨-, -, hcount, -⟩ := results_tail hlib hf
      rw [hmissing fun h64 => by have := hshort h64; omega, hcount, if_neg (show ¬ 12 ≤ r.toNat by omega)]
  · obtain ⟨-, -, hcount⟩ := results_broken hlib hstands
    rw [hcount, hmissing fun h64 => ?_, Option.getD_none]
    · by_cases h16 : 16 ≤ len.toNat
      · rw [if_pos h16, if_pos ⟨hstands, h16⟩]
        rfl
      · rw [if_neg h16, if_neg fun h => h16 h.2]
        rfl
    · unfold HandleStands at hstands
      rw [hword] at h64
      rw [handleSize, hword]
      unfold opaqueWords
      omega

theorem wordIn_getD (p : Ptr) (n i : Nat) (count : UInt32) :
    (wordIn p n i).getD (countLocal p n count i) = countLocal p n count i := by
  rw [wordIn, countLocal]
  by_cases hi : i < n
  · rw [if_pos hi, if_pos hi.le]
    rfl
  · rw [if_neg hi]
    rfl

/-- A message adds its amount to its pair. -/
theorem carry_own (hlib : MemStream lib) {i : Invocation} (hi : i.Placed) {bm : UInt32 × UInt32} (hb : bm.1.toNat < 2 ^ 20) :
    carryAll bm (i.adds o b lib i.pair) = carry bm.1 bm.2 i.amount := by
  have hnothing : carryAll bm [] = carry bm.1 bm.2 0 := (carry_zero hb).symm
  cases i with
  | v3_resp op xid p len status count =>
    show carryAll bm (Trace.seen (Act.added3 .reply) (nfs_v3_print_resp o b lib op xid p len status count)) = _
    rw [added_v3_resp hi, Invocation.amount, Invocation.countWord, Invocation.stray]
    by_cases hread : Proc3.ofNumber op = some .read ∧ status = NFS3_OK
    · rw [if_pos ⟨hread.1, hread.2, rfl⟩, if_pos hread, if_pos hread, wordIn_getD]
      rfl
    · rw [if_neg fun h => hread ⟨h.1, h.2.1⟩, if_neg hread, if_neg hread]
      exact hnothing
  | v3_call op xid p len =>
    show carryAll bm (Trace.seen (Act.added3 .call) (nfs_v3_print_call o b lib op xid p len)) = _
    rw [added_v3_call, Invocation.amount, Invocation.countWord, Invocation.stray]
    by_cases hwrite : Proc3.ofNumber op = some .write
    · have hcount := write_count hlib p len
      rw [if_pos ⟨hwrite, rfl⟩]
      simp only [hwrite, true_and, ← hcount]
      cases (lib.writeResults ⟨p, len⟩).count with
      | none => exact hnothing
      | some n => rfl
    · rw [if_neg fun h => hwrite h.1, if_neg fun h => hwrite h.1, if_neg fun h => hwrite h.1]
      exact hnothing
  | v2_resp op xid p len status count =>
    show carryAll bm (Trace.seen (Act.added2 .reply) (nfs_v2_print_resp o op xid p len status count)) = _
    rw [added_v2_resp hi, Invocation.amount, Invocation.countWord, Invocation.stray]
    by_cases hread : Proc2.ofNumber op = some .read ∧ status = NFS_OK
    · rw [if_pos ⟨hread.1, hread.2, rfl⟩, if_pos hread, if_pos hread, wordIn_getD]
      rfl
    · rw [if_neg fun h => hread ⟨h.1, h.2.1⟩, if_neg hread, if_neg hread]
      exact hnothing
  | v2_call op xid p len count =>
    show carryAll bm (Trace.seen (Act.added2 .call) (nfs_v2_print_call o op xid p len count)) = _
    rw [added_v2_call hi, Invocation.amount, Invocation.countWord, Invocation.stray]
    by_cases hwrite : Proc2.ofNumber op = some .write
    · rw [if_pos ⟨hwrite, rfl⟩, if_pos hwrite, if_pos hwrite, wordIn_getD]
      rfl
    · rw [if_neg fun h => hwrite h.1, if_neg hwrite, if_neg hwrite]
      exact hnothing

/-- A message's own pair is carried into. -/
theorem step_own (hlib : MemStream lib) {s : Blocks} {i : Invocation} (hi : i.Placed) (hb : (s.pair i.pair).1.toNat < 2 ^ 20) :
    (step o b lib s i).pair i.pair = carry (s.pair i.pair).1 (s.pair i.pair).2 i.amount := by
  rw [pair_step, carry_own hlib hi hb]

theorem step_other {s : Blocks} {i : Invocation} (hi : i.Placed) {q : Pair} (hq : q ≠ i.pair) :
    (step o b lib s i).pair q = s.pair q := by
  rw [pair_step, adds_other hi hq]
  rfl

theorem step_small (hlib : MemStream lib) {s : Blocks} {i : Invocation} (hi : i.Placed) (hs : ∀ q, (s.pair q).1.toNat < 2 ^ 20)
    (q : Pair) : ((step o b lib s i).pair q).1.toNat < 2 ^ 20 := by
  by_cases hq : q = i.pair
  · rw [hq, step_own hlib hi (hs _)]
    exact carry_small
  · rw [step_other hi hq]
    exact hs q

/-- The count word is there and its byte counter takes it, or what is taken for it is 0. -/
def Invocation.Accounts (s : Blocks) (i : Invocation) : Prop :=
  match i.countWord with
  | some c => (s.pair i.pair).1.toNat + c.toNat < 2 ^ 32
  | none => i.stray = 0

/-- The bytes a message's count word stands for, none if it is missing. -/
def Invocation.count (i : Invocation) : Nat := (i.countWord.getD 0).toNat

theorem step_exact_iff (hlib : MemStream lib) {s : Blocks} {i : Invocation} (hi : i.Placed)
    (hb : (s.pair i.pair).1.toNat < 2 ^ 20) (hfit : bytesOf (s.pair i.pair) + i.count < 2 ^ 52) :
    bytesOf ((step o b lib s i).pair i.pair) = bytesOf (s.pair i.pair) + i.count ↔ i.Accounts s := by
  rw [step_own hlib hi hb, bytesOf, carry_total]
  unfold bytesOf Invocation.count at *
  unfold Invocation.Accounts Invocation.amount
  cases hc : i.countWord with
  | some c =>
    have hlt := c.toNat_lt
    rw [hc] at hfit
    simp only [Option.getD_some] at hfit ⊢
    omega
  | none =>
    have hlt := i.stray.toNat_lt
    have hzero : i.stray = 0 ↔ i.stray.toNat = 0 := by rw [← UInt32.toNat_inj]; rfl
    rw [hc] at hfit
    simp only [Option.getD_none, UInt32.toNat_zero] at hfit ⊢
    rw [hzero]
    omega

end Adds

/-! ## Runs -/

section Runs

variable {o : Opts} {b : Args} {lib : XdrLib}

/-- The sum of the count words there are for a pair. -/
def total (q : Pair) (is : List Invocation) : Nat := ((is.filter fun i => i.pair = q).map Invocation.count).sum

/-- Each pair has less than a megabyte in its byte counter and is the sum of the counts, as
    long as that fits. -/
structure Accounted (s : Blocks) (is : List Invocation) : Prop where
  small : ∀ q, (s.pair q).1.toNat < 2 ^ 20
  sum : ∀ q, total q is / 2 ^ 20 < 2 ^ 32 → bytesOf (s.pair q) = total q is

theorem total_concat (q : Pair) (is : List Invocation) (i : Invocation) :
    total q (is ++ [i]) = total q is + if i.pair = q then i.count else 0 := by
  unfold total
  rw [List.filter_append, List.map_append, List.sum_append]
  by_cases hq : i.pair = q <;> simp [hq]

theorem init_accounted : Accounted .init [] := by
  constructor
  · intro q
    cases q <;> decide
  · intro q _
    cases q <;> rfl

/-- The next message keeps the account iff its own is exact. -/
theorem accounted_concat_iff (hlib : MemStream lib) {s : Blocks} {is : List Invocation} {i : Invocation} (hi : i.Placed)
    (h : Accounted s is) : Accounted (step o b lib s i) (is ++ [i]) ↔ (total i.pair (is ++ [i]) < 2 ^ 52 → i.Accounts s) := by
  have hown : total i.pair (is ++ [i]) = total i.pair is + i.count := by rw [total_concat, if_pos rfl]
  constructor
  · intro h' hfit
    have hsum := h.sum i.pair (by omega)
    have hsum' := h'.sum i.pair (by omega)
    have hstep : bytesOf ((step o b lib s i).pair i.pair) = bytesOf (s.pair i.pair) + i.count := by omega
    exact (step_exact_iff hlib hi (h.small _) (by omega)).mp hstep
  · intro hacc
    refine ⟨step_small hlib hi h.small, fun q hfit => ?_⟩
    by_cases hq : q = i.pair
    · subst hq
      have hsum := h.sum i.pair (by omega)
      have hexact : bytesOf ((step o b lib s i).pair i.pair) = _ :=
        (step_exact_iff hlib hi (h.small _) (by omega)).mpr (hacc (by omega))
      omega
    · rw [total_concat, if_neg (Ne.symm hq), Nat.add_zero] at hfit ⊢
      rw [step_other hi hq]
      exact h.sum q hfit

variable {is : List Invocation} {k : Nat} {i : Invocation}

theorem take_of_some (h : is[k]? = some i) : is.take (k + 1) = is.take k ++ [i] := by rw [List.take_add_one, h]; rfl

theorem take_of_none (h : is[k]? = none) : is.take (k + 1) = is.take k := by
  rw [List.take_add_one, h]
  exact List.append_nil _

theorem run_of_some (h : is[k]? = some i) :
    run o b lib .init (is.take (k + 1)) = step o b lib (run o b lib .init (is.take k)) i := by
  rw [take_of_some h, run, List.foldl_append]
  rfl

theorem run_small (hlib : MemStream lib) (hplaced : ∀ i ∈ is, i.Placed) (k : Nat) (q : Pair) :
    ((run o b lib .init (is.take k)).pair q).1.toNat < 2 ^ 20 := by
  induction k generalizing q with
  | zero => exact init_accounted.small q
  | succ k ih =>
    cases hk : is[k]? with
    | none =>
      rw [take_of_none hk]
      exact ih q
    | some i =>
      rw [run_of_some hk]
      exact step_small hlib (hplaced i (List.mem_of_getElem? hk)) ih q

/-- A run whose messages are accounted as long as they fit is. -/
theorem run_accounted (hlib : MemStream lib) (hplaced : ∀ i ∈ is, i.Placed)
    (h : ∀ k i, is[k]? = some i → total i.pair (is.take (k + 1)) < 2 ^ 52 → i.Accounts (run o b lib .init (is.take k))) (k : Nat) :
    Accounted (run o b lib .init (is.take k)) (is.take k) := by
  induction k with
  | zero => exact init_accounted
  | succ k ih =>
    cases hk : is[k]? with
    | none =>
      rw [take_of_none hk]
      exact ih
    | some i =>
      have hi := h k i hk
      rw [take_of_some hk] at hi
      rw [run_of_some hk, take_of_some hk]
      exact (accounted_concat_iff hlib (hplaced i (List.mem_of_getElem? hk)) ih).mpr hi

/-- Read and write volumes are exact in every state of a run iff every message of it is
    accounted as long as the sums fit. The byte counters are below a megabyte in any case. -/
theorem volumes_exact_iff (o : Opts) (b : Args) (lib : XdrLib) (hlib : MemStream lib) (is : List Invocation)
    (hplaced : ∀ i ∈ is, i.Placed) :
    (∀ k q, ((run o b lib .init (is.take k)).pair q).1.toNat < 2 ^ 20) ∧
    ((∀ k, Accounted (run o b lib .init (is.take k)) (is.take k)) ↔
      ∀ k i, is[k]? = some i → total i.pair (is.take (k + 1)) < 2 ^ 52 → i.Accounts (run o b lib .init (is.take k))) := by
  refine ⟨run_small hlib hplaced, ?_, run_accounted hlib hplaced⟩
  intro h k i hk
  have hnext := h (k + 1)
  rw [run_of_some hk, take_of_some hk] at hnext
  rw [take_of_some hk]
  exact (accounted_concat_iff hlib (hplaced i (List.mem_of_getElem? hk)) (h k)).mp hnext

/-- A READ reply without attributes whose count is 256. -/
def wholeRead : Invocation := .v3_resp 6 0 (.placed 4096 [0, 0, 0, 0, 0, 0, 1, 0]) 8 0 0

theorem wholeRead_exact :
    Accounted (run ⟨true, false, false, fun _ => []⟩ ⟨0x8049000, by decide⟩ XdrLib.memStream .init ([wholeRead].take 1)) [wholeRead] := by
  have hplaced : ∀ i ∈ [wholeRead], i.Placed := fun i hi => by
    rw [List.mem_singleton.mp hi]
    exact ⟨by decide, by decide⟩
  refine ((volumes_exact_iff _ _ _ memStream [wholeRead] hplaced).2.mpr ?_) 1
  intro k i hk _
  cases k with
  | zero =>
    obtain rfl : wholeRead = i := Option.some.inj hk
    show (0 : UInt32).toNat + (256 : UInt32).toNat < 2 ^ 32
    decide
  | succ k => cases hk

/-- The same reply cut in front of its count word, which still lies behind the payload. -/
def cutRead : Invocation := .v3_resp 6 0 (.placed 4096 [0, 0, 0, 0, 0, 0, 1, 0]) 4 0 0

theorem cutRead_placed : cutRead.Placed := ⟨by decide, by decide⟩

/-- The word behind the payload is added: 256 bytes of which none is in it. -/
theorem word_behind_counted :
    ¬ Accounted (run ⟨true, false, false, fun _ => []⟩ ⟨0x8049000, by decide⟩ XdrLib.memStream .init [cutRead]) [cutRead] := by
  intro h
  have hacc := (accounted_concat_iff memStream cutRead_placed init_accounted).mp h (by decide)
  exact absurd hacc (show ¬ cutRead.stray = 0 by decide)

end Runs

end Nfsdump.Decode
