/-
  Nfsdump.Driver.LogPairs — the pairs that pathtree makes of a log.

  `Held` is what `Parser` is for: it holds the last call of each client and XID, drops those
  that have waited too long when a later one comes, and pairs a reply with the call that is
  held. It knows records, not their text.

  Proved:
  - `run_pairs`: a call and a reply of a pair are of one client and XID, the call with a name;
  - `log_pairs`: the pairs that `Parser` makes of a log's rows are those that `Held` makes of
    the version 3 records printed in it, whatever else is in the log.
-/

import Nfsdump.Driver.LogRows

namespace Nfsdump.Driver

open Record Decode Wire Pathtree

/-! ## Calls that are held -/

/-- A client, with as much of its port as is printed, and an XID. -/
structure ClientXid where
  host : UInt32
  port : UInt32
  xid : UInt32
  deriving DecidableEq

def callOf (r : NfsPkt) : ClientXid := ⟨r.srcHost, 0xffff &&& r.srcPort, r.rpcXID⟩
def answerOf (r : NfsPkt) : ClientXid := ⟨r.dstHost, 0xffff &&& r.dstPort, r.rpcXID⟩

structure Held where
  calls : ClientXid → Option NfsPkt
  /-- The second of the last call that was held. -/
  nextCleanup : Nat

namespace Held

def init : Held := ⟨fun _ => none, 0⟩

/-- A call in second `now` drops those that have waited for more than 15 seconds, unless it is late. -/
def sweep (s : Held) (now : Nat) : Held :=
  if now < s.nextCleanup then s else ⟨fun k => (s.calls k).filter fun c => now ≤ c.secs.toNat + 15, now⟩

def take (s : Held) (r : NfsPkt) : Held × Option (NfsPkt × NfsPkt) :=
  if r.rpcCall = CALL then
    if Proc3.ofNumber r.nfsProc = none then (s, none)
    else
      let s := s.sweep r.secs.toNat
      ({ s with calls := Function.update s.calls (callOf r) (some r) }, none)
  else ({ s with calls := Function.update s.calls (answerOf r) none }, (s.calls (answerOf r)).map fun c => (c, r))

def run (s : Held) : List NfsPkt → List (NfsPkt × NfsPkt)
  | [] => []
  | r :: rs => (s.take r).2.toList ++ (s.take r).1.run rs

end Held

variable {s : Held} {r c : NfsPkt}

/-- What is held is a call with a name, under its own client and XID. -/
def Held.Sound (s : Held) : Prop := ∀ k c, s.calls k = some c → callOf c = k ∧ c.rpcCall = CALL ∧ Proc3.ofNumber c.nfsProc ≠ none

theorem Held.Sound.sweep (h : s.Sound) (now : Nat) : (s.sweep now).Sound := by
  intro k c hc
  unfold Held.sweep at hc
  split at hc
  · exact h k c hc
  · exact h k c (Option.filter_eq_some_iff.mp hc).1

theorem Held.Sound.take (h : s.Sound) (r : NfsPkt) : (s.take r).1.Sound := by
  unfold Held.take
  split
  · next hcall =>
    split
    · exact h
    · next hname =>
      intro k c hc
      simp only at hc
      by_cases hk : k = callOf r
      · subst hk
        rw [Function.update_self] at hc
        obtain rfl := Option.some_inj.mp hc
        exact ⟨rfl, hcall, hname⟩
      · rw [Function.update_of_ne hk] at hc
        exact h.sweep _ k c hc
  · intro k c hc
    simp only at hc
    by_cases hk : k = answerOf r
    · subst hk
      rw [Function.update_self] at hc
      cases hc
    · rw [Function.update_of_ne hk] at hc
      exact h k c hc

/-- A pair: a call with a name, and a reply to its client with its XID. -/
structure Answered (p : NfsPkt × NfsPkt) : Prop where
  key : callOf p.1 = answerOf p.2
  call : p.1.rpcCall = CALL
  reply : p.2.rpcCall ≠ CALL
  named : Proc3.ofNumber p.1.nfsProc ≠ none

theorem Held.Sound.pair (h : s.Sound) {p : NfsPkt × NfsPkt} (hp : (s.take r).2 = some p) : Answered p := by
  unfold Held.take at hp
  split at hp
  · split at hp
    · cases hp
    · cases hp
  · next hreply =>
    obtain ⟨c, hc, rfl⟩ := Option.map_eq_some_iff.mp hp
    obtain ⟨hkey, hcall, hname⟩ := h _ c hc
    exact ⟨hkey, hcall, hreply, hname⟩

theorem run_pairs (rs : List NfsPkt) (h : s.Sound) : ∀ p ∈ s.run rs, Answered p := by
  induction rs generalizing s with
  | nil => exact fun p hp => absurd hp List.not_mem_nil
  | cons r rs ih =>
    intro p hp
    rcases List.mem_append.mp hp with hp | hp
    · exact h.pair (Option.mem_toList.mp hp)
    · exact ih (h.take r) p hp

theorem init_sound : Held.init.Sound := fun _ _ hc => by cases hc

/-! ## Keys -/

variable {o : Opts}

/-- What `Parser.calls` has a client and XID under. -/
def keyText (o : Opts) (k : ClientXid) : Cell :=
  callKey (hostText o k.host ++ '.' :: padLeft 4 '0' (hex k.port.toNat)) (Piece.text (.x0 8 k.xid))

theorem keyText_injective {k k' : ClientXid} (h : keyText o k = keyText o k') : k = k' := by
  obtain ⟨host, port, xid⟩ := k
  obtain ⟨host', port', xid'⟩ := k'
  obtain ⟨hclient, hxid⟩ := callKey_injective (point_notMem_padded _ _) (point_notMem_padded _ _) h
  obtain ⟨hhost, hport⟩ := callKey_injective (point_notMem_padded _ _) (point_notMem_padded _ _) hclient
  obtain rfl : host = host' := hostText_injective hhost
  obtain rfl : port = port' := UInt32.toNat.inj (hexPadded_injective (by decide) hport)
  obtain rfl : xid = xid' := UInt32.toNat.inj (hexPadded_injective (by decide) hxid)
  rfl

/-- A number is read up to the point, however many digits there are behind it. -/
theorem parseInt_point (n : ℕ) (parts : Cell) : parseInt (dec n ++ '.' :: parts) = some (n : ℤ) := by
  have hne : dec n ≠ [] := Nat.toDigits_ne_nil
  have hdig : ∀ c ∈ dec n, c.isDigit := fun c hc => Digits.isDigit_toDigits hc
  have hread := parseDigits_units parts hne hdig
  rw [show Nat.ofDigitChars 10 (dec n) 0 = n from Nat.ofDigitChars_toDigits (by decide) (by decide)] at hread
  obtain ⟨c, units, hc⟩ := List.exists_cons_of_ne_nil hne
  rw [hc] at hread hdig ⊢
  rw [List.forall_mem_cons] at hdig
  have hspace : (c :: units ++ '.' :: parts).dropWhile Char.isWhitespace = c :: (units ++ '.' :: parts) :=
    List.dropWhile_cons_of_neg (not_whitespace_of_isDigit hdig.1)
  have hsecond : ∀ d ∈ units ++ '.' :: parts |>.head?, d ≠ 'x' ∧ d ≠ 'X' := by
    intro d hd
    cases units with
    | nil =>
      obtain rfl := Option.some_inj.mp hd
      decide
    | cons d' units =>
      obtain rfl := Option.some_inj.mp hd
      have hdigit := hdig.2 d' List.mem_cons_self
      constructor
      · rintro rfl
        exact absurd hdigit (by decide)
      · rintro rfl
        exact absurd hdigit (by decide)
  unfold parseInt
  rw [hspace]
  split
  · next heq =>
    rw [List.head_eq_of_cons_eq heq] at hdig
    exact absurd hdig.1 (by decide)
  · next heq =>
    rw [List.head_eq_of_cons_eq heq] at hdig
    exact absurd hdig.1 (by decide)
  · dsimp only
    split
    · next heq =>
      rw [List.tail_eq_of_cons_eq heq] at hsecond
      exact absurd rfl (hsecond 'x' rfl).1
    · next heq =>
      rw [List.tail_eq_of_cons_eq heq] at hsecond
      exact absurd rfl (hsecond 'X' rfl).2
    · exact hread

/-! ## Rows and records -/

/-- The pair of rows is that of the records. -/
structure PairRows (o : Opts) (m : Matched) (p : NfsPkt × NfsPkt) : Prop where
  op : m.op = opName p.2.nfsProc
  call : RecordRow o p.1 m.call
  reply : RecordRow o p.2 m.reply

structure CallRow (o : Opts) (c : Call) (r : NfsPkt) : Prop where
  row : RecordRow o r c.row
  timestamp : c.timestamp = some (r.secs.toNat : ℤ)

/-- `Parser` has the rows of the calls that are held. -/
structure Sees (o : Opts) (p : Parser) (s : Held) : Prop where
  nextCleanup : p.nextCleanup = some (s.nextCleanup : ℤ)
  calls : ∀ k, Option.Rel (CallRow o) (p.calls (keyText o k)) (s.calls k)

variable {p : Parser} {row : Row}

theorem RecordRow.callKey (h : RecordRow o r row) : callKeyOf row = keyText o (callOf r) := by
  rw [callKeyOf, h.src, h.xid]
  rfl

theorem RecordRow.replyKey (h : RecordRow o r row) : replyKeyOf row = keyText o (answerOf r) := by
  rw [replyKeyOf, h.dst, h.xid]
  rfl

theorem RecordRow.timestamp (h : RecordRow o r row) : timestampOf row = some (r.secs.toNat : ℤ) := by
  rw [timestampOf, h.time]
  exact parseInt_point _ _

theorem sees_init (o : Opts) : Sees o Parser.init Held.init := ⟨rfl, fun _ => .none⟩

theorem Sees.sweep (h : Sees o p s) (now : ℕ) : Sees o (p.cleanup (some (now : ℤ))) (s.sweep now) := by
  unfold Parser.cleanup Held.sweep
  rw [h.nextCleanup]
  have hlate : Num.lt (some (now : ℤ)) (some (s.nextCleanup : ℤ)) = decide (now < s.nextCleanup) := by
    simp [Num.lt]
  rw [hlate]
  by_cases hn : now < s.nextCleanup
  · rw [if_pos (by simpa using hn), if_pos hn]
    exact h
  · rw [if_neg (by simpa using hn), if_neg hn]
    refine ⟨rfl, fun k => ?_⟩
    have hk := h.calls k
    dsimp only
    rcases hp : p.calls (keyText o k) with _ | c
    · rw [hp] at hk
      cases hs : s.calls k with
      | none => exact .none
      | some r =>
        rw [hs] at hk
        cases hk
    · rw [hp] at hk
      cases hs : s.calls k with
      | none =>
        rw [hs] at hk
        cases hk
      | some r =>
        rw [hs] at hk
        have hc := Option.rel_some_some.mp hk
        have hage : (!c.timestamp.lt (Pathtree.Num.sub (some (now : ℤ)) callLifetime)) = decide (now ≤ r.secs.toNat + 15) := by
          rw [hc.timestamp]
          show (!decide ((r.secs.toNat : ℤ) < now - 15)) = _
          rw [← decide_not, decide_eq_decide]
          omega
        rw [Option.filter_some, Option.filter_some, hage]
        split
        · exact .some hc
        · exact .none

theorem Sees.call (h : Sees o p s) (hr : RecordRow o r row) (hcall : r.rpcCall = CALL) :
    Sees o (p.processCall row) (s.take r).1 := by
  unfold Held.take
  rw [if_pos hcall]
  by_cases hname : Proc3.ofNumber r.nfsProc = none
  · rw [if_pos hname, Parser.processCall, if_pos (hr.op.trans (opName_eq_unknown.mpr hname))]
    exact h
  · rw [if_neg hname]
    have hclean := h.sweep r.secs.toNat
    rw [← hr.timestamp, timestampOf] at hclean
    rw [Parser.processCall, if_neg fun hop => hname (opName_eq_unknown.mp (hr.op.symm.trans hop))]
    refine ⟨hclean.nextCleanup, fun k => ?_⟩
    have hkey : callKey (cell row OFFSET.SRC) (cell row OFFSET.XID) = keyText o (callOf r) := hr.callKey
    dsimp only
    rw [hkey]
    by_cases hk : k = callOf r
    · subst hk
      rw [if_pos rfl, Function.update_self]
      exact .some ⟨hr, hr.timestamp⟩
    · rw [if_neg fun he => hk (keyText_injective he), Function.update_of_ne hk]
      exact hclean.calls k

theorem Sees.reply (h : Sees o p s) (hr : RecordRow o r row) (hcall : r.rpcCall ≠ CALL) :
    Sees o (p.processReply row).1 (s.take r).1 ∧ Option.Rel (PairRows o) (p.processReply row).2 (s.take r).2 := by
  have hkey : callKey (cell row OFFSET.DST) (cell row OFFSET.XID) = keyText o (answerOf r) := hr.replyKey
  have hheld := h.calls (answerOf r)
  unfold Held.take Parser.processReply
  rw [if_neg hcall]
  dsimp only
  rw [hkey]
  rcases hp : p.calls (keyText o (answerOf r)) with _ | c
  · rw [hp] at hheld
    cases hs : s.calls (answerOf r) with
    | none =>
      rw [Function.update_eq_self_iff.mpr hs.symm]
      exact ⟨h, .none⟩
    | some r' =>
      rw [hs] at hheld
      cases hheld
  · rw [hp] at hheld
    cases hs : s.calls (answerOf r) with
    | none =>
      rw [hs] at hheld
      cases hheld
    | some r' =>
      rw [hs] at hheld
      refine ⟨⟨h.nextCleanup, fun k => ?_⟩, .some ⟨hr.op, (Option.rel_some_some.mp hheld).row, hr⟩⟩
      dsimp only
      by_cases hk : k = answerOf r
      · subst hk
        rw [if_pos rfl, Function.update_self]
        exact .none
      · rw [if_neg fun he => hk (keyText_injective he), Function.update_of_ne hk]
        exact h.calls k

theorem Sees.step (h : Sees o p s) (hr : RecordRow o r row) :
    Sees o (p.processRow row).1 (s.take r).1 ∧ Option.Rel (PairRows o) (p.processRow row).2 (s.take r).2 := by
  unfold Parser.processRow
  rw [if_neg (Nat.not_lt.mpr hr.length), hr.dir]
  by_cases hcall : r.rpcCall = CALL
  · have hquiet : (s.take r).2 = none := by
      unfold Held.take
      rw [if_pos hcall]
      split
      · rfl
      · rfl
    rw [if_pos hcall, if_pos rfl, hquiet]
    exact ⟨h.call hr hcall, .none⟩
  · rw [if_neg hcall, if_neg (by decide), if_pos rfl]
    exact h.reply hr hcall

theorem Sees.run {rs : List NfsPkt} {rows : List Row} (hrows : List.Forall₂ (RecordRow o) rs rows) (h : Sees o p s) :
    List.Forall₂ (PairRows o) (p.run rows) (s.run rs) := by
  induction hrows generalizing p s with
  | nil => exact .nil
  | cons hr _ ih =>
    obtain ⟨hnext, hpair⟩ := h.step hr
    rw [Parser.run, Held.run]
    exact List.rel_append (rel_toList hpair) (ih hnext)

/-- The pairs of a log are those of its records. -/
theorem log_pairs {csv : List Char → List Row} (hcsv : ReadsCsv csv) (o : Opts) (b : Args) (lib : XdrLib) (count : UInt32) (w : World)
    (ks : List Capture) (hrun : (writeEvents o b lib count (eventsOf w ks)).val ≠ none) :
    let pairs := Held.init.run ((recordsOf (eventsOf w ks)).filter fun r => r.nfsVersion = 3)
    List.Forall₂ (PairRows o) (Parser.init.run (csv (logOf o b lib count w ks))) pairs ∧ ∀ p ∈ pairs, Answered p := by
  refine ⟨?_, run_pairs _ init_sound⟩
  rw [← run_filter]
  exact (sees_init o).run (readAs_log hcsv hrun).rows

theorem log_pairs_one_exchange :
    let pairs := Held.init.run ((recordsOf (eventsOf World.init oneExchange)).filter fun r => r.nfsVersion = 3)
    (List.Forall₂ (PairRows ⟨true, false, false, fun _ => []⟩)
      (Parser.init.run (readCsv [] (logOf ⟨true, false, false, fun _ => []⟩ args handleLib 0 World.init oneExchange))) pairs ∧
        ∀ p ∈ pairs, Answered p) ∧ pairs.length = 1 :=
  ⟨log_pairs readCsv_reads _ args handleLib 0 World.init oneExchange (by decide +kernel), by decide +kernel⟩

end Nfsdump.Driver
