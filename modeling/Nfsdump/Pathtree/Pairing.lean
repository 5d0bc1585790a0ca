/-
  Nfsdump.Pathtree.Pairing — which replies `Parser` pairs with which calls, for any
  `filterCall` and any `callLifetime`.

  A call takes the place of an earlier one of its client and XID; a reply takes the call away;
  each call first drops the ones that have grown too old, by timestamps cut to whole seconds.

  Proved, over any log:
  - `calls_after`: what `calls` holds after each prefix;
  - `pairing`: a reply is handed over with the latest accepted call of its client and XID, no
    row twice, and every such call is there that is unanswered and young enough.
-/

import Nfsdump.Lib.Digits
import Nfsdump.Pathtree.Parser

namespace Nfsdump.Pathtree

/-! ## The parser with its options -/

/-- What a user of `Parser` chooses. Lifetimes are seconds, and need not be whole. -/
structure Options where
  filterCall : Row → Bool
  callLifetime : ℚ

/-- `that.calls[key].timestamp < expiry` -/
def Num.expired (callLifetime : ℚ) : Num → Num → Bool
  | some t, some timestamp => (t : ℚ) < timestamp - callLifetime
  | _, _ => false

def Options.cleanup (o : Options) (s : Parser) (timestamp : Num) : Parser :=
  if timestamp.lt s.nextCleanup then s
  else { calls := fun key => (s.calls key).filter fun c => !c.timestamp.expired o.callLifetime timestamp, nextCleanup := timestamp }

def Options.processCall (o : Options) (s : Parser) (row : Row) : Parser :=
  let client := cell row OFFSET.SRC
  let xid := cell row OFFSET.XID
  let op := cell row OFFSET.OP
  if op = "unknown".toList then s
  else
    let timestamp := parseInt (cell row OFFSET.TIME)
    let s := o.cleanup s timestamp
    { s with calls := fun key => if key = callKey client xid then some ⟨row, timestamp⟩ else s.calls key }

def Options.processRow (o : Options) (s : Parser) (row : Row) : Parser × Option Matched :=
  if row.length < OFFSET.PARAM_START then (s, none)
  else if cell row OFFSET.DIRECTION = "C3".toList then (if o.filterCall row then o.processCall s row else s, none)
  else if cell row OFFSET.DIRECTION = "R3".toList then s.processReply row
  else (s, none)

def Options.run (o : Options) (s : Parser) : List Row → List Matched
  | [] => []
  | row :: rows => (o.processRow s row).2.toList ++ o.run (o.processRow s row).1 rows

def Options.default : Options := ⟨fun _ => true, 15⟩

theorem default_cleanup (s : Parser) (timestamp : Num) : Options.default.cleanup s timestamp = s.cleanup timestamp := by
  have hexpired : ∀ t : Num, t.expired 15 timestamp = t.lt (timestamp.sub callLifetime) := by
    intro t
    cases t with
    | none => cases timestamp <;> rfl
    | some t =>
      cases timestamp with
      | none => rfl
      | some timestamp =>
        show decide _ = decide _
        apply decide_eq_decide.mpr
        rw [show ((timestamp : ℚ) - 15) = ((timestamp - 15 : ℤ) : ℚ) by push_cast; rfl, Int.cast_lt]
        rfl
  rw [Options.cleanup, Parser.cleanup]
  congr 2
  funext key
  congr 1
  funext c
  rw [show Options.default.callLifetime = 15 from rfl, hexpired]

theorem default_processRow (s : Parser) (row : Row) : Options.default.processRow s row = s.processRow row := by
  have hcall : Options.default.processCall s row = s.processCall row := by
    unfold Options.processCall Parser.processCall
    simp only [default_cleanup]
  rw [Options.processRow, Parser.processRow, hcall]
  rfl

/-- With the defaults this is the parser. -/
theorem default_run (s : Parser) (rows : List Row) : Options.default.run s rows = s.run rows := by
  induction rows generalizing s with
  | nil => rfl
  | cons row rows ih => rw [Options.run, Parser.run, default_processRow, ih]

/-! ## Rows -/

variable {o : Options} {s : Parser} {log : List Row} {row call reply : Row}

/-- A row `processCall` keeps. -/
def Options.Accepts (o : Options) (row : Row) : Prop :=
  cell row OFFSET.DIRECTION = "C3".toList ∧ o.filterCall row = true ∧ cell row OFFSET.OP ≠ "unknown".toList

def IsReply (row : Row) : Prop := cell row OFFSET.DIRECTION = "R3".toList

/-- A C3 or R3 line of a dump: an XID is in hex, a time in decimals. -/
structure IsLine (row : Row) : Prop where
  columns : OFFSET.PARAM_START ≤ row.length
  dir : cell row OFFSET.DIRECTION = "C3".toList ∨ cell row OFFSET.DIRECTION = "R3".toList
  xid : '.' ∉ cell row OFFSET.XID
  time : ∃ t, Digits.Reads 6 t (cell row OFFSET.TIME)

def callKeyOf (row : Row) : Cell := callKey (cell row OFFSET.SRC) (cell row OFFSET.XID)
def replyKeyOf (row : Row) : Cell := callKey (cell row OFFSET.DST) (cell row OFFSET.XID)

/-- `row.timestamp` -/
def timestampOf (row : Row) : Num := parseInt (cell row OFFSET.TIME)

theorem not_reply_of_accepts (h : o.Accepts row) : ¬ IsReply row := by
  intro hr
  have heq := h.1.symm.trans hr
  exact absurd heq (by decide)

/-- The XID starts behind the last point of a key. -/
theorem callKey_injective {client client' xid xid' : Cell} (hx : '.' ∉ xid) (hx' : '.' ∉ xid')
    (h : callKey client xid = callKey client' xid') : client = client' ∧ xid = xid' := by
  have hrev : xid.reverse ++ '.' :: client.reverse = xid'.reverse ++ '.' :: client'.reverse := by
    have := congrArg List.reverse h
    simpa [callKey] using this
  have hpoint : ∀ {y : Cell}, '.' ∉ y → ∀ c ∈ y.reverse, c ≠ '.' := by
    rintro y hy c hc rfl
    exact hy (List.mem_reverse.mp hc)
  obtain ⟨h1, h2⟩ := Digits.point_unique (hpoint hx) (hpoint hx') hrev
  exact ⟨List.reverse_injective h2, List.reverse_injective h1⟩

/-! ## Timestamps -/

theorem parseDigits_units {units : Cell} (parts : Cell) (hne : units ≠ []) (hdig : ∀ c ∈ units, c.isDigit) :
    parseDigits 10 (units ++ '.' :: parts) = some (Nat.ofDigitChars 10 units 0 : ℕ) := by
  have htake : (units ++ '.' :: parts).takeWhile (fun c => if (10 : ℕ) = 16 then isHexDigit c else c.isDigit) = units := by
    rw [List.takeWhile_append_of_pos (by simpa using hdig), List.takeWhile_cons_of_neg (by decide), List.append_nil]
  have hfold : ∀ (cs : Cell) (n : ℕ), (∀ c ∈ cs, c.isDigit) →
      cs.foldl (fun n c => 10 * n + digitValue c) n = Nat.ofDigitChars 10 cs n := by
    intro cs
    induction cs with
    | nil => exact fun n _ => rfl
    | cons c cs ih =>
      intro n h
      rw [List.forall_mem_cons] at h
      rw [List.foldl_cons, Nat.ofDigitChars_cons, digitValue, if_pos h.1]
      exact ih _ h.2
  unfold parseDigits
  simp only [htake]
  rw [if_neg hne, hfold units 0 hdig]
  rfl

theorem not_whitespace_of_isDigit {c : Char} (h : c.isDigit) : ¬ c.isWhitespace = true := by
  intro hw
  simp only [Char.isWhitespace, Bool.or_eq_true, decide_eq_true_eq] at hw
  rcases hw with ((hw | hw) | hw) | hw
  · subst hw
    exact absurd h (by decide)
  · subst hw
    exact absurd h (by decide)
  · subst hw
    exact absurd h (by decide)
  · subst hw
    exact absurd h (by decide)

/-- A time is cut to whole seconds. -/
theorem parseInt_reads {n : ℕ} {cs : Cell} (h : Digits.Reads 6 n cs) : parseInt cs = some ((n / 10 ^ 6 : ℕ) : ℤ) := by
  obtain ⟨units, parts, rfl, hne, hdig, hval⟩ := Digits.Reads.units h
  have hread := parseDigits_units parts hne hdig
  rw [hval] at hread
  obtain ⟨c, units, rfl⟩ := List.exists_cons_of_ne_nil hne
  rw [List.forall_mem_cons] at hdig
  rw [List.cons_append] at hread ⊢
  have hspace : (c :: (units ++ '.' :: parts)).dropWhile Char.isWhitespace = c :: (units ++ '.' :: parts) :=
    List.dropWhile_cons_of_neg (not_whitespace_of_isDigit hdig.1)
  have hsecond : ∀ d cs, units ++ '.' :: parts = d :: cs → d ≠ 'x' ∧ d ≠ 'X' := by
    intro d cs h
    cases units with
    | nil =>
      obtain rfl := List.head_eq_of_cons_eq h
      decide
    | cons d' units =>
      obtain rfl := List.head_eq_of_cons_eq h
      have hd := hdig.2 d' List.mem_cons_self
      constructor
      · rintro rfl
        exact absurd hd (by decide)
      · rintro rfl
        exact absurd hd (by decide)
  unfold parseInt
  rw [hspace]
  split
  · rename_i heq
    rw [List.head_eq_of_cons_eq heq] at hdig
    exact absurd hdig.1 (by decide)
  · rename_i heq
    rw [List.head_eq_of_cons_eq heq] at hdig
    exact absurd hdig.1 (by decide)
  · dsimp only
    split
    · rename_i heq
      exact absurd rfl (hsecond _ _ (List.tail_eq_of_cons_eq heq)).1
    · rename_i heq
      exact absurd rfl (hsecond _ _ (List.tail_eq_of_cons_eq heq)).2
    · exact hread

/-! ## One row -/

/-- What a sweep leaves was there; what has not expired is left. -/
theorem cleanup_calls {timestamp : Num} {key : Cell} {c : Call} :
    ((o.cleanup s timestamp).calls key = some c → s.calls key = some c) ∧
      (s.calls key = some c → c.timestamp.expired o.callLifetime timestamp = false → (o.cleanup s timestamp).calls key = some c) := by
  unfold Options.cleanup
  split
  · exact ⟨id, fun h _ => h⟩
  · constructor
    · intro h
      exact (Option.filter_eq_some_iff.mp h).1
    · intro h hnew
      exact Option.filter_eq_some_iff.mpr ⟨h, by rw [hnew]; rfl⟩

theorem processRow_call (hline : OFFSET.PARAM_START ≤ row.length) (h : o.Accepts row) :
    o.processRow s row =
      ({ o.cleanup s (timestampOf row) with
          calls := fun key => if key = callKeyOf row then some ⟨row, timestampOf row⟩ else (o.cleanup s (timestampOf row)).calls key },
        none) := by
  rw [Options.processRow, if_neg (Nat.not_lt.mpr hline), if_pos h.1, if_pos h.2.1, Options.processCall, if_neg h.2.2]
  rfl

theorem processRow_reply (hline : OFFSET.PARAM_START ≤ row.length) (h : IsReply row) :
    o.processRow s row = match s.calls (replyKeyOf row) with
      | none => (s, none)
      | some call =>
        ({ s with calls := fun key => if key = replyKeyOf row then none else s.calls key },
          some ⟨cell row OFFSET.OP, call.row, row⟩) := by
  have hnot : ¬ cell row OFFSET.DIRECTION = "C3".toList := fun hc => absurd (hc.symm.trans h) (by decide)
  rw [Options.processRow, if_neg (Nat.not_lt.mpr hline), if_neg hnot,
    if_pos (show cell row OFFSET.DIRECTION = "R3".toList from h), Parser.processReply]
  rfl

theorem processRow_other (hcall : ¬ o.Accepts row) (hreply : ¬ IsReply row) : o.processRow s row = (s, none) := by
  unfold Options.processRow
  split
  · rfl
  split
  · rename_i hdir
    split
    · rename_i hfilter
      unfold Options.processCall
      rw [if_pos (not_not.mp fun hop => hcall ⟨hdir, hfilter, hop⟩)]
    · rfl
  · exact if_neg hreply

/-! ## Runs -/

/-- The parser behind the first `k` rows. -/
def Options.after (o : Options) (log : List Row) (k : ℕ) : Parser :=
  (log.take k).foldl (fun s row => (o.processRow s row).1) Parser.init

/-- What the row at `j` hands over. -/
def Options.fired (o : Options) (log : List Row) (j : ℕ) : Option Matched :=
  log[j]?.bind fun row => (o.processRow (o.after log j) row).2

theorem after_succ {k : ℕ} (h : log[k]? = some row) : o.after log (k + 1) = (o.processRow (o.after log k) row).1 := by
  rw [Options.after, List.take_add_one, h, List.foldl_append]
  rfl

theorem run_rows_append (s : Parser) (rows rows' : List Row) :
    o.run s (rows ++ rows') = o.run s rows ++ o.run (rows.foldl (fun s row => (o.processRow s row).1) s) rows' := by
  induction rows generalizing s with
  | nil => rfl
  | cons row rows ih => rw [List.cons_append, Options.run, Options.run, ih, List.foldl_cons, List.append_assoc]

/-- What a run hands over, row by row. -/
theorem run_fired (o : Options) (log : List Row) : o.run Parser.init log = (List.range log.length).filterMap (o.fired log) := by
  have hprefix : ∀ k ≤ log.length, o.run Parser.init (log.take k) = (List.range k).filterMap (o.fired log) := by
    intro k
    induction k with
    | zero => exact fun _ => rfl
    | succ k ih =>
      intro hk
      have hrow : log[k]? = some log[k] := List.getElem?_eq_getElem hk
      rw [List.take_add_one, hrow, run_rows_append, ih (by omega), List.range_succ, List.filterMap_append]
      congr 1
      show (o.processRow (o.after log k) log[k]).2.toList ++ [] = [k].filterMap (o.fired log)
      have hfired : o.fired log k = (o.processRow (o.after log k) log[k]).2 := by
        rw [Options.fired, hrow]
        rfl
      rw [List.append_nil, List.filterMap_cons, List.filterMap_nil, ← hfired]
      cases o.fired log k with
      | none => rfl
      | some m => rfl
  have hall := hprefix log.length (Nat.le_refl _)
  rwa [List.take_length] at hall

/-! ## The pending calls -/

/-- The row at `i` is a call, and up to `k` no other one and no reply has its key. -/
structure Waiting (o : Options) (log : List Row) (i k : ℕ) (call : Row) : Prop where
  lt : i < k
  row : log[i]? = some call
  accepts : o.Accepts call
  alone : ∀ j r, i < j → j < k → log[j]? = some r →
    (o.Accepts r → callKeyOf r ≠ callKeyOf call) ∧ (IsReply r → replyKeyOf r ≠ callKeyOf call)

/-- No sweep up to `k` finds the row at `i` too old. -/
def Fresh (o : Options) (log : List Row) (i k : ℕ) (call : Row) : Prop :=
  ∀ j r, i < j → j < k → log[j]? = some r → o.Accepts r → (timestampOf call).expired o.callLifetime (timestampOf r) = false

/-- `calls` behind the first `k` rows: nothing but calls that wait, and all of them that are young. -/
structure Pending (o : Options) (log : List Row) (k : ℕ) (s : Parser) : Prop where
  waits : ∀ key c, s.calls key = some c → c.timestamp = timestampOf c.row ∧ callKeyOf c.row = key ∧ ∃ i, Waiting o log i k c.row
  kept : ∀ i call, Waiting o log i k call → Fresh o log i k call → s.calls (callKeyOf call) = some ⟨call, timestampOf call⟩

variable {i j k : ℕ}

/-- A row of another key leaves a call waiting. -/
theorem Waiting.succ (h : Waiting o log i k call) (hrow : log[k]? = some row)
    (hother : (o.Accepts row → callKeyOf row ≠ callKeyOf call) ∧ (IsReply row → replyKeyOf row ≠ callKeyOf call)) :
    Waiting o log i (k + 1) call := by
  refine ⟨Nat.lt_succ_of_lt h.lt, h.row, h.accepts, ?_⟩
  intro j r hij hjk hr
  rcases Nat.lt_succ_iff_lt_or_eq.mp hjk with hj | rfl
  · exact h.alone j r hij hj hr
  · obtain rfl := Option.some.inj (hrow.symm.trans hr)
    exact hother

theorem Waiting.pred (h : Waiting o log i (k + 1) call) (hi : i < k) : Waiting o log i k call :=
  ⟨hi, h.row, h.accepts, fun j r hij hjk hr => h.alone j r hij (Nat.lt_succ_of_lt hjk) hr⟩

theorem Fresh.pred (h : Fresh o log i (k + 1) call) : Fresh o log i k call :=
  fun j r hij hjk hr => h j r hij (Nat.lt_succ_of_lt hjk) hr

/-- A call takes its key. -/
theorem pending_call (hline : IsLine row) (hrow : log[k]? = some row) (h : Pending o log k s) (hcall : o.Accepts row) :
    Pending o log (k + 1) (o.processRow s row).1 := by
  have hnew : Waiting o log k (k + 1) row :=
    ⟨Nat.lt_succ_self k, hrow, hcall, fun j r hij hjk _ => absurd hij (by omega)⟩
  have hreply := not_reply_of_accepts hcall
  rw [processRow_call hline.columns hcall]
  constructor
  · intro key c hc
    by_cases hkey : key = callKeyOf row
    · obtain rfl : (⟨row, timestampOf row⟩ : Call) = c := by simpa [hkey] using hc
      exact ⟨rfl, hkey.symm, k, hnew⟩
    · have hold : (o.cleanup s (timestampOf row)).calls key = some c := by simpa [hkey] using hc
      obtain ⟨htime, hkeyOf, i, hi⟩ := h.waits key c (cleanup_calls.1 hold)
      refine ⟨htime, hkeyOf, i, hi.succ hrow ⟨fun _ heq => hkey ?_, fun hr => absurd hr hreply⟩⟩
      rw [heq, hkeyOf]
  · intro i call hw hfresh
    by_cases hi : i = k
    · subst hi
      obtain rfl : row = call := Option.some.inj (hrow.symm.trans hw.row)
      simp
    · have hlt : i < k := by
        have := hw.lt
        omega
      have hkept := h.kept i call (hw.pred hlt) hfresh.pred
      have hkey : callKeyOf call ≠ callKeyOf row := ((hw.alone k row hlt (Nat.lt_succ_self k) hrow).1 hcall).symm
      have hleft := cleanup_calls.2 hkept (hfresh k row hlt (Nat.lt_succ_self k) hrow hcall)
      simpa [hkey] using hleft

/-- A reply takes the call of its key away. -/
theorem pending_reply (hline : IsLine row) (hrow : log[k]? = some row) (h : Pending o log k s) (hreply : IsReply row) :
    Pending o log (k + 1) (o.processRow s row).1 := by
  have hcall : ¬ o.Accepts row := fun hc => not_reply_of_accepts hc hreply
  have hstep : ∀ key, (o.processRow s row).1.calls key = if key = replyKeyOf row then none else s.calls key := by
    intro key
    rw [processRow_reply hline.columns hreply]
    cases hs : s.calls (replyKeyOf row) with
    | none =>
      by_cases hkey : key = replyKeyOf row
      · rw [if_pos hkey, hkey]
        exact hs
      · rw [if_neg hkey]
    | some c => rfl
  constructor
  · intro key c hc
    rw [hstep] at hc
    by_cases hkey : key = replyKeyOf row
    · rw [if_pos hkey] at hc
      cases hc
    · rw [if_neg hkey] at hc
      obtain ⟨htime, hkeyOf, i, hi⟩ := h.waits key c hc
      refine ⟨htime, hkeyOf, i, hi.succ hrow ⟨fun hx => absurd hx hcall, fun _ heq => hkey ?_⟩⟩
      rw [heq, hkeyOf]
  · intro i call hw hfresh
    have hlt : i < k := by
      have hle := hw.lt
      have hne : i ≠ k := by
        rintro rfl
        obtain rfl : row = call := Option.some.inj (hrow.symm.trans hw.row)
        exact hcall hw.accepts
      omega
    have hkey : callKeyOf call ≠ replyKeyOf row := ((hw.alone k row hlt (Nat.lt_succ_self k) hrow).2 hreply).symm
    rw [hstep, if_neg hkey]
    exact h.kept i call (hw.pred hlt) hfresh.pred

/-- Any other row changes nothing. -/
theorem pending_other (hrow : log[k]? = some row) (h : Pending o log k s) (hcall : ¬ o.Accepts row) (hreply : ¬ IsReply row) :
    Pending o log (k + 1) (o.processRow s row).1 := by
  rw [processRow_other hcall hreply]
  constructor
  · intro key c hc
    obtain ⟨htime, hkeyOf, i, hi⟩ := h.waits key c hc
    exact ⟨htime, hkeyOf, i, hi.succ hrow ⟨fun hx => absurd hx hcall, fun hx => absurd hx hreply⟩⟩
  · intro i call hw hfresh
    have hlt : i < k := by
      have hle := hw.lt
      have hne : i ≠ k := by
        rintro rfl
        obtain rfl : row = call := Option.some.inj (hrow.symm.trans hw.row)
        exact hcall hw.accepts
      omega
    exact h.kept i call (hw.pred hlt) hfresh.pred

theorem calls_after (hlog : ∀ row ∈ log, IsLine row) (hk : k ≤ log.length) : Pending o log k (o.after log k) := by
  induction k with
  | zero =>
    refine ⟨fun key c hc => ?_, fun i call hw => absurd hw.lt (Nat.not_lt_zero i)⟩
    cases hc
  | succ k ih =>
    have hrow : log[k]? = some log[k] := List.getElem?_eq_getElem hk
    have hline := hlog _ (List.getElem_mem hk)
    have hbefore := ih (by omega)
    rw [after_succ hrow]
    by_cases hcall : o.Accepts log[k]
    · exact pending_call hline hrow hbefore hcall
    by_cases hreply : IsReply log[k]
    · exact pending_reply hline hrow hbefore hreply
    exact pending_other hrow hbefore hcall hreply

/-! ## Pairs -/

/-- The call at `i` is the last one kept of its client and XID in front of the reply at `j`. -/
structure Latest (o : Options) (log : List Row) (i j : ℕ) (call reply : Row) : Prop where
  lt : i < j
  callRow : log[i]? = some call
  replyRow : log[j]? = some reply
  accepts : o.Accepts call
  isReply : IsReply reply
  client : cell call OFFSET.SRC = cell reply OFFSET.DST
  xid : cell call OFFSET.XID = cell reply OFFSET.XID
  last : ∀ k row, i < k → k < j → log[k]? = some row → o.Accepts row →
    ¬ (cell row OFFSET.SRC = cell reply OFFSET.DST ∧ cell row OFFSET.XID = cell reply OFFSET.XID)

/-- The reply at `j` is handed to `process` with the call at `i`. -/
def Paired (o : Options) (log : List Row) (i j : ℕ) : Prop :=
  ∃ call reply, Latest o log i j call reply ∧ o.fired log j = some ⟨cell reply OFFSET.OP, call, reply⟩

/-- No call kept between `i` and `j` is more than `callLifetime` younger, in whole seconds. -/
def Young (o : Options) (log : List Row) (i j : ℕ) (call : Row) : Prop :=
  ∀ k row t t', i < k → k < j → log[k]? = some row → o.Accepts row →
    Digits.Reads 6 t (cell call OFFSET.TIME) → Digits.Reads 6 t' (cell row OFFSET.TIME) →
      ((t' / 10 ^ 6 : ℕ) : ℚ) ≤ (t / 10 ^ 6 : ℕ) + o.callLifetime

/-- The same of the times as they are, in microseconds. -/
def YoungExact (o : Options) (log : List Row) (i j : ℕ) (call : Row) : Prop :=
  ∀ k row t t', i < k → k < j → log[k]? = some row → o.Accepts row →
    Digits.Reads 6 t (cell call OFFSET.TIME) → Digits.Reads 6 t' (cell row OFFSET.TIME) →
      (t' : ℚ) ≤ t + 10 ^ 6 * o.callLifetime

theorem Latest.key (h : Latest o log i j call reply) : callKeyOf call = replyKeyOf reply := by
  rw [callKeyOf, replyKeyOf, h.client, h.xid]

theorem mem_of_row (hlog : ∀ row ∈ log, IsLine row) (h : log[k]? = some row) : IsLine row :=
  hlog row (List.mem_of_getElem? h)

theorem length_of_row (h : log[k]? = some row) : k < log.length := (List.getElem?_eq_some_iff.mp h).1

/-- A call that waits is the last one in front of a reply that asks for it. -/
theorem Waiting.latest (hlog : ∀ row ∈ log, IsLine row) (h : Waiting o log i j call) (hrow : log[j]? = some reply)
    (hreply : IsReply reply) (hkey : callKeyOf call = replyKeyOf reply) : Latest o log i j call reply := by
  obtain ⟨hclient, hxid⟩ := callKey_injective (mem_of_row hlog h.row).xid (mem_of_row hlog hrow).xid hkey
  refine ⟨h.lt, h.row, hrow, h.accepts, hreply, hclient, hxid, ?_⟩
  intro k row hik hkj hk haccepts hsame
  refine (h.alone k row hik hkj hk).1 haccepts ?_
  rw [hkey, callKeyOf, replyKeyOf, hsame.1, hsame.2]

/-- What is handed over was waiting. -/
theorem fired_some (hlog : ∀ row ∈ log, IsLine row) {m : Matched} (h : o.fired log j = some m) :
    ∃ i reply, log[j]? = some reply ∧ IsReply reply ∧ m = ⟨cell reply OFFSET.OP, m.call, reply⟩ ∧
      callKeyOf m.call = replyKeyOf reply ∧ Waiting o log i j m.call := by
  obtain ⟨row, hrow, hm⟩ := Option.bind_eq_some_iff.mp h
  have hline := mem_of_row hlog hrow
  have hpending := calls_after (o := o) hlog (Nat.le_of_lt (length_of_row hrow))
  by_cases hcall : o.Accepts row
  · rw [processRow_call hline.columns hcall] at hm
    cases hm
  by_cases hreply : IsReply row
  · rw [processRow_reply hline.columns hreply] at hm
    cases hcalls : (o.after log j).calls (replyKeyOf row) with
    | none =>
      rw [hcalls] at hm
      cases hm
    | some c =>
      rw [hcalls] at hm
      obtain rfl := Option.some.inj hm
      obtain ⟨-, hkey, i, hi⟩ := hpending.waits _ c hcalls
      exact ⟨i, row, hrow, hreply, rfl, hkey, hi⟩
  · rw [processRow_other hcall hreply] at hm
    cases hm

/-- A reply takes a call that waits and is fresh. -/
theorem fired_of_waiting (hlog : ∀ row ∈ log, IsLine row) (h : Waiting o log i j call) (hfresh : Fresh o log i j call)
    (hrow : log[j]? = some reply) (hreply : IsReply reply) (hkey : callKeyOf call = replyKeyOf reply) : Paired o log i j := by
  have hcalls := (calls_after hlog (Nat.le_of_lt (length_of_row hrow))).kept i call h hfresh
  refine ⟨call, reply, h.latest hlog hrow hreply hkey, ?_⟩
  rw [Options.fired, hrow, Option.bind_some, processRow_reply (mem_of_row hlog hrow).columns hreply, ← hkey, hcalls]

/-- There is one last call. -/
theorem Latest.unique {i' : ℕ} {call' reply' : Row} (h : Latest o log i j call reply) (h' : Latest o log i' j call' reply') : i = i' := by
  obtain rfl : reply = reply' := Option.some.inj (h.replyRow.symm.trans h'.replyRow)
  by_contra hne
  rcases Nat.lt_or_gt_of_ne hne with hlt | hlt
  · exact h.last i' call' hlt h'.lt h'.callRow h'.accepts ⟨h'.client, h'.xid⟩
  · exact h'.last i call hlt h.lt h.callRow h.accepts ⟨h.client, h.xid⟩

theorem Paired.waiting (hlog : ∀ row ∈ log, IsLine row) (h : Paired o log i j) :
    ∃ call reply, Latest o log i j call reply ∧ Waiting o log i j call := by
  obtain ⟨call, reply, hlatest, hfired⟩ := h
  obtain ⟨i', reply', hrow, hreply, -, hkey, hwaiting⟩ := fired_some hlog hfired
  obtain rfl := hlatest.unique (hwaiting.latest hlog hrow hreply hkey)
  exact ⟨call, reply, hlatest, hwaiting⟩

/-- A call is answered once. -/
theorem paired_call (hlog : ∀ row ∈ log, IsLine row) {j' : ℕ} (h : Paired o log i j) (h' : Paired o log i j') : ¬ j < j' := by
  intro hlt
  obtain ⟨call, reply, hlatest, -⟩ := h
  obtain ⟨call', reply', hlatest', hwaiting⟩ := h'.waiting hlog
  obtain rfl : call = call' := Option.some.inj (hlatest.callRow.symm.trans hlatest'.callRow)
  exact (hwaiting.alone j reply hlatest.lt hlt hlatest.replyRow).2 hlatest.isReply hlatest.key.symm

/-- A call is not a reply. -/
theorem paired_apart {i' j' : ℕ} (h : Paired o log i j) (h' : Paired o log i' j') : i ≠ j' := by
  rintro rfl
  obtain ⟨call, _, hlatest, _⟩ := h
  obtain ⟨_, reply', hlatest', _⟩ := h'
  obtain rfl : call = reply' := Option.some.inj (hlatest.callRow.symm.trans hlatest'.replyRow)
  exact not_reply_of_accepts hlatest.accepts hlatest'.isReply

theorem paired_once (hlog : ∀ row ∈ log, IsLine row) {i' j' : ℕ} (h : Paired o log i j) (h' : Paired o log i' j')
    (hshare : i = i' ∨ i = j' ∨ j = i' ∨ j = j') : i = i' ∧ j = j' := by
  rcases hshare with rfl | hij | hji | rfl
  · refine ⟨rfl, ?_⟩
    have h1 := paired_call hlog h h'
    have h2 := paired_call hlog h' h
    omega
  · exact absurd hij (paired_apart h h')
  · exact absurd hji.symm (paired_apart h' h)
  · obtain ⟨_, _, hlatest, -⟩ := h
    obtain ⟨_, _, hlatest', -⟩ := h'
    exact ⟨hlatest.unique hlatest', rfl⟩

/-- Ages in whole seconds are what a sweep looks at. -/
theorem fresh_of_young (hlog : ∀ row ∈ log, IsLine row) (hrow : log[i]? = some call) (h : Young o log i j call) :
    Fresh o log i j call := by
  intro k row hik hkj hk haccepts
  obtain ⟨t, ht⟩ := (mem_of_row hlog hrow).time
  obtain ⟨t', ht'⟩ := (mem_of_row hlog hk).time
  have hage := h k row t t' hik hkj hk haccepts ht ht'
  rw [timestampOf, timestampOf, parseInt_reads ht, parseInt_reads ht']
  apply decide_eq_false
  rw [Int.cast_natCast, Int.cast_natCast]
  linarith

theorem young_of_exact {n : ℕ} (hwhole : o.callLifetime = n) (h : YoungExact o log i j call) : Young o log i j call := by
  intro k row t t' hik hkj hk haccepts ht ht'
  have hage := h k row t t' hik hkj hk haccepts ht ht'
  rw [hwhole] at hage ⊢
  have hnat : t' ≤ t + 10 ^ 6 * n := by exact_mod_cast hage
  have hseconds : t' / 10 ^ 6 ≤ t / 10 ^ 6 + n := by omega
  exact_mod_cast hseconds

/-- A call that is not answered stays, while it is young. -/
theorem waiting_of_unanswered (hlog : ∀ row ∈ log, IsLine row) (h : Latest o log i j call reply)
    (hfresh : Fresh o log i j call) (hfree : ∀ j' < j, ¬ Paired o log i j') : Waiting o log i j call := by
  have hall : ∀ k, i < k → k ≤ j → Waiting o log i k call := by
    intro k hik
    induction k, hik using Nat.le_induction with
    | base => exact fun _ => ⟨Nat.lt_succ_self i, h.callRow, h.accepts, fun j r hij hjk _ => absurd hij (by omega)⟩
    | succ k hik ih =>
      intro hkj
      have hbefore := ih (by omega)
      have hend := length_of_row h.replyRow
      have hk : k < log.length := by omega
      have hrow : log[k]? = some log[k] := List.getElem?_eq_getElem hk
      refine hbefore.succ hrow ⟨fun haccepts hkey => ?_, fun hreply hkey => ?_⟩
      · obtain ⟨hclient, hxid⟩ := callKey_injective (mem_of_row hlog hrow).xid (mem_of_row hlog h.replyRow).xid (hkey.trans h.key)
        exact h.last k _ hik hkj hrow haccepts ⟨hclient, hxid⟩
      · exact hfree k hkj (fired_of_waiting hlog hbefore
          (fun j' r hij hjk hr => hfresh j' r hij (Nat.lt_trans hjk hkj) hr) hrow hreply hkey.symm)
  exact hall j h.lt (Nat.le_refl j)

theorem paired_of_latest (hlog : ∀ row ∈ log, IsLine row) (h : Latest o log i j call reply) (hyoung : Young o log i j call)
    (hfree : ∀ j' < j, ¬ Paired o log i j') : Paired o log i j := by
  have hfresh := fresh_of_young hlog h.callRow hyoung
  exact fired_of_waiting hlog (waiting_of_unanswered hlog h hfresh hfree) hfresh h.replyRow h.isReply h.key

/-- Calls and replies are paired up: the last call with its reply, no row twice, and none left out that
    is young enough, by whole seconds or with a lifetime of whole seconds. -/
theorem pairing (o : Options) (log : List Row) (hlog : ∀ row ∈ log, IsLine row) :
    o.run Parser.init log = (List.range log.length).filterMap (o.fired log) ∧
    (∀ j m, o.fired log j = some m →
      ∃ i call reply, Latest o log i j call reply ∧ m = ⟨cell reply OFFSET.OP, call, reply⟩) ∧
    (∀ i j i' j', Paired o log i j → Paired o log i' j' → (i = i' ∨ i = j' ∨ j = i' ∨ j = j') → i = i' ∧ j = j') ∧
    (∀ i j call reply, Latest o log i j call reply → (∀ j' < j, ¬ Paired o log i j') →
      Young o log i j call ∨ (YoungExact o log i j call ∧ ∃ n : ℕ, o.callLifetime = n) → Paired o log i j) := by
  refine ⟨run_fired o log, ?_, fun i j i' j' h h' => paired_once hlog h h', ?_⟩
  · intro j m h
    obtain ⟨i, reply, hrow, hreply, hm, hkey, hwaiting⟩ := fired_some hlog h
    exact ⟨i, m.call, reply, hwaiting.latest hlog hrow hreply hkey, hm⟩
  · intro i j call reply hlatest hfree hage
    refine paired_of_latest hlog hlatest ?_ hfree
    rcases hage with hyoung | ⟨hexact, n, hwhole⟩
    · exact hyoung
    · exact young_of_exact hwhole hexact

def sampleLine (t src dst dir xid : String) : Row := [t, src, dst, "U", dir, xid, "1", "getattr"].map String.toList

/-- Two calls a tenth of a second apart, in different seconds, and the reply to the first. -/
def sampleLog : List Row :=
  [sampleLine "1.900000" "a" "b" "C3" "7", sampleLine "2.000000" "a" "b" "C3" "8", sampleLine "2.100000" "b" "a" "R3" "7"]

theorem sampleLog_times :
    Digits.Reads 6 1900000 "1.900000".toList ∧ Digits.Reads 6 2000000 "2.000000".toList ∧
      Digits.Reads 6 2100000 "2.100000".toList := by
  refine ⟨⟨['1'], "900000".toList, ?_⟩, ⟨['2'], "000000".toList, ?_⟩, ⟨['2'], "100000".toList, ?_⟩⟩
  · exact ⟨by decide, by decide, by decide, by decide, by decide⟩
  · exact ⟨by decide, by decide, by decide, by decide, by decide⟩
  · exact ⟨by decide, by decide, by decide, by decide, by decide⟩

theorem sampleLog_lines : ∀ row ∈ sampleLog, IsLine row := by
  intro row hrow
  obtain ⟨h1, h2, h3⟩ := sampleLog_times
  rw [sampleLog, List.mem_cons, List.mem_cons, List.mem_singleton] at hrow
  rcases hrow with rfl | rfl | rfl
  · exact ⟨by decide, by decide, by decide, _, h1⟩
  · exact ⟨by decide, by decide, by decide, _, h2⟩
  · exact ⟨by decide, by decide, by decide, _, h3⟩

theorem pairing_sample :
    Options.default.run Parser.init sampleLog = (List.range sampleLog.length).filterMap (Options.default.fired sampleLog) ∧
    (∀ j m, Options.default.fired sampleLog j = some m →
      ∃ i call reply, Latest Options.default sampleLog i j call reply ∧ m = ⟨cell reply OFFSET.OP, call, reply⟩) ∧
    (∀ i j i' j', Paired Options.default sampleLog i j → Paired Options.default sampleLog i' j' →
      (i = i' ∨ i = j' ∨ j = i' ∨ j = j') → i = i' ∧ j = j') ∧
    (∀ i j call reply, Latest Options.default sampleLog i j call reply → (∀ j' < j, ¬ Paired Options.default sampleLog i j') →
      Young Options.default sampleLog i j call ∨
        (YoungExact Options.default sampleLog i j call ∧ ∃ n : ℕ, Options.default.callLifetime = n) →
      Paired Options.default sampleLog i j) :=
  pairing Options.default sampleLog sampleLog_lines

/-- With a lifetime of half a second the first call is dropped when it is a tenth of a second old. -/
theorem half_second_lifetime :
    Latest ⟨fun _ => true, 1 / 2⟩ sampleLog 0 2 (sampleLine "1.900000" "a" "b" "C3" "7")
        (sampleLine "2.100000" "b" "a" "R3" "7") ∧
      YoungExact ⟨fun _ => true, 1 / 2⟩ sampleLog 0 2 (sampleLine "1.900000" "a" "b" "C3" "7") ∧
      ¬ (∃ j' < 2, Paired ⟨fun _ => true, 1 / 2⟩ sampleLog 0 j') ∧ ¬ Paired ⟨fun _ => true, 1 / 2⟩ sampleLog 0 2 := by
  have hbetween : ∀ k row, 0 < k → k < 2 → sampleLog[k]? = some row → row = sampleLine "2.000000" "a" "b" "C3" "8" := by
    intro k row h0 h2 hrow
    obtain rfl : k = 1 := by omega
    exact (Option.some.inj hrow).symm
  refine ⟨⟨by decide, rfl, rfl, ⟨by decide, rfl, by decide⟩, by unfold IsReply; decide, by decide, by decide, ?_⟩, ?_, ?_, ?_⟩
  · intro k row h0 h2 hrow _
    rw [hbetween k row h0 h2 hrow]
    decide
  · intro k row t t' h0 h2 hrow _ ht ht'
    rw [hbetween k row h0 h2 hrow] at ht'
    obtain rfl := ht.unique sampleLog_times.1
    obtain rfl := ht'.unique sampleLog_times.2.1
    norm_num
  · rintro ⟨j', hj', _, reply, hlatest, -⟩
    obtain rfl : j' = 1 := by
      have := hlatest.lt
      omega
    obtain rfl := Option.some.inj (hlatest.replyRow.symm.trans (rfl : sampleLog[1]? = some (sampleLine "2.000000" "a" "b" "C3" "8")))
    exact absurd hlatest.isReply (by unfold IsReply; decide)
  · rintro ⟨_, _, -, hfired⟩
    have hnone : (Options.fired ⟨fun _ => true, 1 / 2⟩ sampleLog 2).isNone = true := by decide +kernel
    rw [hfired] at hnone
    cases hnone

end Nfsdump.Pathtree
