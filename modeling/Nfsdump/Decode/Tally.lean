/-
  Nfsdump.Decode.Tally — the message counters over any sequence of printed messages.

  A statistics block balances when its totals are the sums of its other message counters.
  `nfs_v2_print_*` count every message twice, in the total and under its procedure or as
  unknown. `nfs_v3_print_*` count a message of an unknown procedure in the total only.

  Proved:
  - `counts_v3_call` .. `counts_v2_resp`: what a printer counts;
  - `step_balanced`: a message keeps the balance iff v3 does not find it unknown;
  - `tally_balanced_iff`: over a run, every state reached balances iff no v3 message has a
    procedure number outside 0..21 and 101.
-/

import Mathlib.Data.UInt
import Nfsdump.Decode.Text

namespace Nfsdump.Decode

open Wire

variable {o : Opts} {b : Args} {lib : XdrLib} {p e : Ptr} {print : Bool}

/-! ## Decoders count nothing -/

def Act.message3 (a : Act) : Option (Direction × Tally Proc3) := a.counts3.bind Count.message
def Act.message2 (a : Act) : Option (Direction × Tally Proc2) := a.counts2.bind Count.message

@[simp] theorem message3_word (a : UInt32) : (Act.word a).message3 = none := rfl
@[simp] theorem message3_byte (a : UInt32) : (Act.byte a).message3 = none := rfl
@[simp] theorem message3_put (c : Piece) : (Act.put c).message3 = none := rfl
@[simp] theorem message2_word (a : UInt32) : (Act.word a).message2 = none := rfl
@[simp] theorem message2_byte (a : UInt32) : (Act.byte a).message2 = none := rfl
@[simp] theorem message2_put (c : Piece) : (Act.put c).message2 = none := rfl

/-- No message counter is touched. -/
abbrev Quiet {α : Type} (x : Dec α) : Prop := Trace.Only (fun a => a.message3 = none ∧ a.message2 = none) x

theorem Plain.quiet {α : Type} {x : Dec α} (h : Plain x) : Quiet x := h.mono fun a ha => by
  cases a <;> first | exact ⟨rfl, rfl⟩ | exact ha.elim

theorem Textual.quiet {α : Type} {x : Dec α} (h : Textual x) : Quiet x := h.plain.quiet

@[simp] theorem quiet_fprintf (ps : List Piece) : Quiet (fprintf ps) := by simp

@[simp] theorem quiet_printStatus (status : UInt32) : Quiet (printStatus status) := (textual_printStatus status).quiet

@[simp] theorem quiet_volume3 (dir : Direction) (n : UInt32) : Quiet (volume3 dir n) :=
  Trace.only_emit.mpr fun _ ha => List.mem_singleton.mp ha ▸ ⟨rfl, rfl⟩

@[simp] theorem quiet_volume2 (dir : Direction) (n : UInt32) : Quiet (volume2 dir n) :=
  Trace.only_emit.mpr fun _ ha => List.mem_singleton.mp ha ▸ ⟨rfl, rfl⟩

@[simp] theorem quiet_ifGot {α : Type} (r : Option α) {k : α → Dec Unit} (hk : ∀ a, Quiet (k a)) : Quiet (ifGot r k) := by
  cases r <;> simp [ifGot, hk]

@[simp] theorem quiet_callArgs (xdr : XDR) (q : Proc3) : Quiet (printCallArgs o b lib xdr q) := by
  by_cases hq : q = .write
  · subst hq
    simp [printCallArgs, printWriteArgs, Textual.quiet]
  · exact (plain_callArgs xdr hq).quiet

@[simp] theorem quiet_printResult (len status count : UInt32) (q : Proc3) :
    Quiet (printResult o b lib p e len status count q) := by
  by_cases hq : q = .read
  · subst hq
    simp [printResult, printReadOk, Plain.quiet]
  · exact (plain_printResult len count (.inl hq)).quiet

@[simp] theorem quiet_printArgs2 (count : UInt32) (q : Proc2) : Quiet (printArgs2 o p e count q) := by
  by_cases hq : q = .write
  · subst hq
    simp [printArgs2, printWriteArgs2, Plain.quiet]
  · exact (plain_printArgs2 count hq).quiet

@[simp] theorem quiet_printBody2 (status count : UInt32) (q : Proc2) : Quiet (printBody2 o p e status count q) := by
  by_cases hq : q = .read
  · subst hq
    simp [printBody2, printResult2, printReadOk2, Plain.quiet]
  · exact (plain_printBody2 count (.inl hq)).quiet

/-! ## What a printer counts -/

/-- A message is counted in the total and under its procedure or, where the printer knows
    such a counter, as unknown. -/
def Counted {π : Type} (dir : Direction) (q : Option π) (unknown : Bool) : List (Direction × Tally π) :=
  (dir, .total) :: match q with
    | some q => [(dir, .proc q)]
    | none => if unknown then [(dir, .unknown)] else []

theorem seen_quiet3 {α : Type} {x : Dec α} (h : Quiet x) : Trace.seen Act.message3 x = [] :=
  Trace.seen_eq_nil fun a ha => (h a ha).1

theorem seen_quiet2 {α : Type} {x : Dec α} (h : Quiet x) : Trace.seen Act.message2 x = [] :=
  Trace.seen_eq_nil fun a ha => (h a ha).2

@[simp] theorem seen_bump3 {α : Type} (dir : Direction) (t : Tally Proc3) (f : Unit → Dec α) :
    Trace.seen Act.message3 (bump3 dir t >>= f) = (dir, t) :: Trace.seen Act.message3 (f ()) :=
  Trace.seen_emit_bind _ _ _

@[simp] theorem seen_bump2 {α : Type} (dir : Direction) (t : Tally Proc2) (f : Unit → Dec α) :
    Trace.seen Act.message2 (bump2 dir t >>= f) = (dir, t) :: Trace.seen Act.message2 (f ()) :=
  Trace.seen_emit_bind _ _ _

@[simp] theorem seen_fprintf3 {α : Type} (ps : List Piece) (f : Unit → Dec α) :
    Trace.seen Act.message3 (fprintf ps >>= f) = Trace.seen Act.message3 (f ()) := by
  rw [Trace.seen_bind_some _ f (fprintf_val ps), seen_quiet3 (quiet_fprintf ps), List.nil_append]

@[simp] theorem seen_fprintf2 {α : Type} (ps : List Piece) (f : Unit → Dec α) :
    Trace.seen Act.message2 (fprintf ps >>= f) = Trace.seen Act.message2 (f ()) := by
  rw [Trace.seen_bind_some _ f (fprintf_val ps), seen_quiet2 (quiet_fprintf ps), List.nil_append]

section Printers

variable {op xid len status count : UInt32}

/-- v3 has no case for an unknown procedure's counter. -/
theorem counts_v3_call : Trace.seen Act.message3 (nfs_v3_print_call o b lib op xid p len) =
    Counted .call (Proc3.ofNumber op) false := by
  rw [nfs_v3_print_call, seen_bump3, seen_fprintf3]
  refine congrArg _ ?_
  cases Proc3.ofNumber op with
  | none => exact seen_quiet3 (by simp)
  | some q =>
    simp only [seen_bump3, seen_fprintf3]
    exact congrArg _ (seen_quiet3 (by simp))

theorem counts_v3_resp : Trace.seen Act.message3 (nfs_v3_print_resp o b lib op xid p len status count) =
    Counted .reply (Proc3.ofNumber op) false := by
  rw [nfs_v3_print_resp, seen_fprintf3, seen_bump3]
  refine congrArg _ ?_
  cases Proc3.ofNumber op with
  | none => exact seen_quiet3 (by simp [printReply])
  | some q =>
    simp only [printReply, Trace.bind_assoc, seen_bump3, seen_fprintf3]
    exact congrArg _ (seen_quiet3 (by simp))

theorem counts_v2_call : Trace.seen Act.message2 (nfs_v2_print_call o op xid p len count) =
    Counted .call (Proc2.ofNumber op) true := by
  rw [nfs_v2_print_call, seen_bump2, seen_fprintf2]
  refine congrArg _ ?_
  cases Proc2.ofNumber op with
  | none =>
    simp only [seen_bump2]
    exact congrArg _ (seen_quiet2 (by simp))
  | some q =>
    simp only [seen_bump2, seen_fprintf2]
    exact congrArg _ (seen_quiet2 (by simp))

theorem counts_v2_resp : Trace.seen Act.message2 (nfs_v2_print_resp o op xid p len status count) =
    Counted .reply (Proc2.ofNumber op) true := by
  rw [nfs_v2_print_resp, seen_fprintf2, seen_bump2]
  refine congrArg _ ?_
  cases Proc2.ofNumber op with
  | none =>
    simp only [seen_bump2]
    exact congrArg _ (seen_quiet2 (by simp))
  | some q =>
    simp only [seen_bump2, seen_fprintf2]
    exact congrArg _ (seen_quiet2 (by simp [printStatus2]))

/-! ### A printer leaves the other version's block alone -/

/-- No message counter of the v2 block is touched. -/
def Quiet2 {α : Type} (x : Dec α) : Prop := Trace.Only (fun a => a.message2 = none) x

def Quiet3 {α : Type} (x : Dec α) : Prop := Trace.Only (fun a => a.message3 = none) x

theorem Spares2.quiet2 {α : Type} {x : Dec α} (h : Spares2 x) : Quiet2 x := fun a ha =>
  congrArg (Option.bind · Count.message) (h a ha)

theorem Spares3.quiet3 {α : Type} {x : Dec α} (h : Spares3 x) : Quiet3 x := fun a ha =>
  congrArg (Option.bind · Count.message) (h a ha)

theorem v3_call_quiet2 : Quiet2 (nfs_v3_print_call o b lib op xid p len) := Spares2.quiet2 v3_call_spares2
theorem v3_resp_quiet2 : Quiet2 (nfs_v3_print_resp o b lib op xid p len status count) := Spares2.quiet2 v3_resp_spares2
theorem v2_call_quiet3 : Quiet3 (nfs_v2_print_call o op xid p len count) := Spares3.quiet3 v2_call_spares3
theorem v2_resp_quiet3 : Quiet3 (nfs_v2_print_resp o op xid p len status count) := Spares3.quiet3 v2_resp_spares3

end Printers

/-! ## Balance -/

section Balance

variable {π : Type} [DecidableEq π]

def NfsStat.of (s : NfsStat π) : Direction → Tally π → UInt32
  | .call => s.calls
  | .reply => s.replies

/-- The sum of the message counters but the total. -/
def perProc (all : List π) (f : Tally π → UInt32) : UInt32 := (all.map fun q => f (.proc q)).sum + f .unknown

def Balanced (all : List π) (s : NfsStat π) : Prop := ∀ dir, perProc all (s.of dir) = s.of dir .total

theorem sum_bumped (f : Tally π → UInt32) (q : π) : ∀ {all : List π}, all.Nodup →
    (all.map fun q' => bumped f (.proc q) (.proc q')).sum = (all.map fun q' => f (.proc q')).sum + if q ∈ all then 1 else 0 := by
  intro all
  induction all with
  | nil => intro _; simp
  | cons q' all ih =>
    intro hnd
    obtain ⟨hq', hnd⟩ := List.nodup_cons.mp hnd
    simp only [List.map_cons, List.sum_cons, ih hnd, List.mem_cons]
    by_cases h : q' = q
    · subst h
      simp only [bumped, hq', if_true, if_false, or_false]
      grind
    · have hne : ¬ q = q' := fun h' => h h'.symm
      simp only [bumped, Tally.proc.injEq, h, hne, if_false, false_or]
      grind

theorem perProc_proc (f : Tally π → UInt32) {q : π} {all : List π} (hnd : all.Nodup) (hq : q ∈ all) :
    perProc all (bumped f (.proc q)) = perProc all f + 1 := by
  rw [perProc, sum_bumped f q hnd, if_pos hq, perProc]
  simp only [bumped, reduceCtorEq, if_false]
  grind

theorem perProc_unknown (f : Tally π → UInt32) (all : List π) : perProc all (bumped f .unknown) = perProc all f + 1 := by
  simp only [perProc, bumped, reduceCtorEq, if_false, if_true]
  grind

theorem perProc_total (f : Tally π → UInt32) (all : List π) : perProc all (bumped f .total) = perProc all f := by
  simp only [perProc, bumped, reduceCtorEq, if_false]

/-- What a list of messages makes of one direction's counters. -/
def bumpAll (dir : Direction) (f : Tally π → UInt32) (ms : List (Direction × Tally π)) : Tally π → UInt32 :=
  ms.foldl (fun f m => if m.1 = dir then bumped f m.2 else f) f

theorem of_apply (s : NfsStat π) (c : Count π) (dir : Direction) :
    (c.apply s).of dir = bumpAll dir (s.of dir) c.message.toList := by
  cases c with
  | bump dir' t => cases dir <;> cases dir' <;> rfl
  | volume dir' n => cases dir <;> cases dir' <;> rfl

theorem of_foldl (cs : List (Count π)) (dir : Direction) : ∀ s : NfsStat π,
    (cs.foldl Count.apply s).of dir = bumpAll dir (s.of dir) (cs.filterMap Count.message) := by
  induction cs with
  | nil => intro s; rfl
  | cons c cs ih =>
    intro s
    rw [List.foldl_cons, ih, of_apply, List.filterMap_cons]
    cases c.message <;> rfl

/-- Counting a message keeps the balance iff it has a counter of its own. -/
theorem balanced_count {all : List π} (hnd : all.Nodup) (hall : ∀ q, q ∈ all) {s s' : NfsStat π} {dir : Direction}
    {q : Option π} {unknown : Bool} (hs : Balanced all s)
    (h : ∀ dir', s'.of dir' = bumpAll dir' (s.of dir') (Counted dir q unknown)) :
    Balanced all s' ↔ (q.isSome ∨ unknown = true) := by
  -- the other direction's counters are as before
  have other : ∀ dir', dir ≠ dir' → perProc all (s'.of dir') = s'.of dir' .total := by
    intro dir' hne
    have hsame : s'.of dir' = s.of dir' := by
      rw [h]
      cases q <;> cases unknown <;> simp [bumpAll, Counted, hne]
    rw [hsame, hs]
  have own : perProc all (s'.of dir) = s'.of dir .total ↔ (q.isSome ∨ unknown = true) := by
    have hbal := hs dir
    rw [h]
    cases q with
    | some q =>
      simp only [bumpAll, Counted, List.foldl_cons, List.foldl_nil, if_true, perProc_proc _ hnd (hall q), perProc_total, hbal]
      simp [bumped]
    | none =>
      cases unknown with
      | true =>
        simp only [bumpAll, Counted, List.foldl_cons, List.foldl_nil, if_true, perProc_unknown, perProc_total, hbal]
        simp [bumped]
      | false =>
        simp only [bumpAll, Counted, Bool.false_eq_true, if_false, List.foldl_cons, List.foldl_nil, if_true,
          perProc_total, hbal, Option.isSome_none, or_self, iff_false]
        intro hc
        have hsucc : s.of dir .total = s.of dir .total + 1 := hc.trans (if_pos rfl)
        exact absurd (show (1 : UInt32) = 0 by grind) (by decide)
  constructor
  · intro hb
    exact own.mp (hb dir)
  · intro hq dir'
    by_cases hd : dir = dir'
    · subst hd
      exact own.mpr hq
    · exact other dir' hd

end Balance

/-! ## Runs -/

/-- A printer's invocation; `count` is what its local of that name starts with. -/
inductive Invocation where
  | v2_call (op xid : UInt32) (p : Ptr) (actual_len count : UInt32)
  | v2_resp (op xid : UInt32) (p : Ptr) (actual_len status count : UInt32)
  | v3_call (op xid : UInt32) (p : Ptr) (actual_len : UInt32)
  | v3_resp (op xid : UInt32) (p : Ptr) (actual_len status count : UInt32)

/-- `v2statsBlock` and `v3statsBlock`. -/
structure Blocks where
  v2 : NfsV2Stat
  v3 : NfsV3Stat

def Blocks.init : Blocks := ⟨.init, .init⟩

def Blocks.Balanced (s : Blocks) : Prop := Decode.Balanced Proc2.all s.v2 ∧ Decode.Balanced Proc3.all s.v3

section Runs

variable (o : Opts) (b : Args) (lib : XdrLib)

def Invocation.run : Invocation → Dec Int32
  | .v2_call op xid p len count => nfs_v2_print_call o op xid p len count
  | .v2_resp op xid p len status count => nfs_v2_print_resp o op xid p len status count
  | .v3_call op xid p len => nfs_v3_print_call o b lib op xid p len
  | .v3_resp op xid p len status count => nfs_v3_print_resp o b lib op xid p len status count

def step (s : Blocks) (i : Invocation) : Blocks := ⟨tally2 s.v2 (i.run o b lib), tally3 s.v3 (i.run o b lib)⟩

def run (s : Blocks) (is : List Invocation) : Blocks := is.foldl (step o b lib) s

end Runs

/-- The procedure numbers nfs_v3.c has a case for: NFSv3's, and MOUNT's MNT. -/
def KnownProc3 (op : UInt32) : Prop := op ≤ 21 ∨ op = 101

instance (op : UInt32) : Decidable (KnownProc3 op) := inferInstanceAs (Decidable (op ≤ 21 ∨ op = 101))

theorem knownProc3_iff {op : UInt32} : KnownProc3 op ↔ (Proc3.ofNumber op).isSome := by
  constructor
  · rintro (hle | rfl)
    · have hlt : op.toNat < 22 := by
        have := UInt32.le_iff_toNat_le.mp hle
        have h21 : (21 : UInt32).toNat = 21 := rfl
        omega
      have key : ∀ n < 22, (Proc3.ofNumber (UInt32.ofNat n)).isSome := by decide
      simpa using key op.toNat hlt
    · decide
  · intro h
    obtain ⟨q, hq⟩ := Option.isSome_iff_exists.mp h
    rw [← Proc3.number_of_ofNumber hq]
    cases q <;> decide

/-- A message v3 finds a case for. -/
def Invocation.Known : Invocation → Prop
  | .v3_call op _ _ _ => KnownProc3 op
  | .v3_resp op _ _ _ _ _ => KnownProc3 op
  | _ => True

theorem of_tally3 {α : Type} (s : NfsV3Stat) (x : Dec α) (dir : Direction) :
    (tally3 s x).of dir = bumpAll dir (s.of dir) (Trace.seen Act.message3 x) := by
  rw [tally3, of_foldl, Trace.seen, Trace.seen, List.filterMap_filterMap]
  rfl

theorem of_tally2 {α : Type} (s : NfsV2Stat) (x : Dec α) (dir : Direction) :
    (tally2 s x).of dir = bumpAll dir (s.of dir) (Trace.seen Act.message2 x) := by
  rw [tally2, of_foldl, Trace.seen, Trace.seen, List.filterMap_filterMap]
  rfl

theorem tally3_quiet {α : Type} {s : NfsV3Stat} {x : Dec α} (h : Quiet3 x) :
    Balanced Proc3.all (tally3 s x) ↔ Balanced Proc3.all s := by
  have hsame : ∀ dir, (tally3 s x).of dir = s.of dir := fun dir => by rw [of_tally3, Trace.seen_eq_nil h]; rfl
  simp only [Balanced, hsame]

theorem tally2_quiet {α : Type} {s : NfsV2Stat} {x : Dec α} (h : Quiet2 x) :
    Balanced Proc2.all (tally2 s x) ↔ Balanced Proc2.all s := by
  have hsame : ∀ dir, (tally2 s x).of dir = s.of dir := fun dir => by rw [of_tally2, Trace.seen_eq_nil h]; rfl
  simp only [Balanced, hsame]

theorem tally3_counted {s : NfsV3Stat} {x : Dec Int32} {dir : Direction} {op : UInt32} (hs : Balanced Proc3.all s)
    (h : Trace.seen Act.message3 x = Counted dir (Proc3.ofNumber op) false) :
    Balanced Proc3.all (tally3 s x) ↔ KnownProc3 op := by
  rw [balanced_count (by decide) Proc3.mem_all hs fun dir' => by rw [of_tally3, h], knownProc3_iff]
  simp

theorem tally2_counted {s : NfsV2Stat} {x : Dec Int32} {dir : Direction} {q : Option Proc2} (hs : Balanced Proc2.all s)
    (h : Trace.seen Act.message2 x = Counted dir q true) : Balanced Proc2.all (tally2 s x) :=
  (balanced_count (by decide) Proc2.mem_all hs fun dir' => by rw [of_tally2, h]).mpr (Or.inr rfl)

theorem step_balanced {s : Blocks} (hs : s.Balanced) (i : Invocation) :
    (step o b lib s i).Balanced ↔ i.Known := by
  obtain ⟨h2, h3⟩ := hs
  cases i with
  | v2_call op xid p len count =>
    exact iff_of_true ⟨tally2_counted h2 counts_v2_call, (tally3_quiet v2_call_quiet3).mpr h3⟩ trivial
  | v2_resp op xid p len status count =>
    exact iff_of_true ⟨tally2_counted h2 counts_v2_resp, (tally3_quiet v2_resp_quiet3).mpr h3⟩ trivial
  | v3_call op xid p len =>
    exact (and_iff_right ((tally2_quiet v3_call_quiet2).mpr h2)).trans (tally3_counted h3 counts_v3_call)
  | v3_resp op xid p len status count =>
    exact (and_iff_right ((tally2_quiet v3_resp_quiet2).mpr h2)).trans (tally3_counted h3 counts_v3_resp)

theorem init_balanced : Blocks.init.Balanced := by
  have zero : ∀ {π : Type} (all : List π), Balanced all (NfsStat.init : NfsStat π) := by
    intro π all dir
    have hsum : (all.map fun _ => (0 : UInt32)).sum = 0 := by
      induction all with
      | nil => rfl
      | cons q all ih => rw [List.map_cons, List.sum_cons, ih]; rfl
    cases dir <;> exact (congrArg (· + (0 : UInt32)) hsum).trans rfl
  exact ⟨zero _, zero _⟩

theorem run_balanced {s : Blocks} (hs : s.Balanced) (is : List Invocation) :
    (∀ k, (run o b lib s (is.take k)).Balanced) ↔ ∀ i ∈ is, i.Known := by
  induction is generalizing s with
  | nil => simpa [run] using hs
  | cons i is ih =>
    constructor
    · intro h
      have hi : (step o b lib s i).Balanced := h 1
      refine List.forall_mem_cons.mpr ⟨(step_balanced hs i).mp hi, (ih hi).mp fun k => ?_⟩
      exact h (k + 1)
    · intro h k
      obtain ⟨hi, his⟩ := List.forall_mem_cons.mp h
      cases k with
      | zero => exact hs
      | succ k => exact (ih ((step_balanced hs i).mpr hi)).mpr his k

/-- From initialized blocks the counters balance throughout a run iff v3 is asked about
    no procedure it does not know. -/
theorem tally_balanced_iff (o : Opts) (b : Args) (lib : XdrLib) (is : List Invocation) :
    (∀ k, (run o b lib .init (is.take k)).Balanced) ↔ ∀ i ∈ is, i.Known := run_balanced init_balanced is

/-- A call of procedure 22 is in `c3_total` alone. -/
theorem unknown_call_unbalanced :
    ¬ (run ⟨true, false, false, fun _ => []⟩ ⟨0x8049000, by decide⟩ XdrLib.short .init [.v3_call 22 0 .null 0]).Balanced :=
  fun h => absurd ((step_balanced init_balanced _).mp h) (show ¬ KnownProc3 22 by decide)

end Nfsdump.Decode
