/-
  Nfsdump.Pathtree.Matchers — the call that nfsdump's XID table finds for a reply, and the one
  that `Parser.calls` holds for it.

  nfsdump names a reply by the newest call in its table, `Parser` pairs it with the last call it
  was shown. `Follows` relates the two: of a call that `Parser` holds the newest call with a
  name in the table has the procedure, if there is one. A cull that takes what it should keeps
  the relation, for what it leaves of a client and XID is newer than what it takes.

  Proved (`matchers_agree_iff`), for any trace of datagrams that are all printed, with safe
  culls: each pair has one procedure iff no reply is labelled unknown while `Parser` holds a
  call. `processReply` does not test for unknown as `processCall` does. An unsafe cull takes a
  reused XID's new call for its old one (`matchers_disagree`).
-/

import Nfsdump.Decode.WriteCall
import Nfsdump.Pathtree.Pairing
import Nfsdump.Pathtree.Rows
import Nfsdump.Record.Transcript

namespace Nfsdump.Pathtree

open ChainTable Wire Decode Record

variable {o : Opts} {b : Args} {lib : XdrLib} {count : UInt32} {csv : List Char → List Row}

/-! ## Keys -/

/-- What `Parser.calls` has a client and XID under. -/
def clientKey (o : Opts) (k : XidKey) : Cell := callKey (address o k.host k.port) (Piece.text (.x0 8 k.xid))

theorem hexPadded_injective {n : Nat} (hn : 0 < n) {a c : Nat} (h : padLeft n '0' (hex a) = padLeft n '0' (hex c)) : a = c :=
  Digits.padded_injective (by decide) (by decide) hn h

theorem octet_toNat (a n : UInt32) : (octet a n).toNat = a.toNat / 2 ^ (n.toNat % 32) % 256 := by
  rw [octet, UInt32.toNat_and, UInt32.toNat_shiftRight, Nat.and_comm, Nat.shiftRight_eq_div_pow]
  exact Nat.and_two_pow_sub_one_eq_mod _ 8

theorem octets_injective {a c : UInt32} (h3 : octet a 24 = octet c 24) (h2 : octet a 16 = octet c 16) (h1 : octet a 8 = octet c 8)
    (h0 : octet a 0 = octet c 0) : a = c := by
  have bits : ∀ n : UInt32, octet a n = octet c n → a.toNat / 2 ^ (n.toNat % 32) % 256 = c.toNat / 2 ^ (n.toNat % 32) % 256 := by
    intro n h
    rw [← octet_toNat, ← octet_toNat, h]
  have b3 : a.toNat / 2 ^ 24 % 256 = c.toNat / 2 ^ 24 % 256 := bits 24 h3
  have b2 : a.toNat / 2 ^ 16 % 256 = c.toNat / 2 ^ 16 % 256 := bits 16 h2
  have b1 : a.toNat / 2 ^ 8 % 256 = c.toNat / 2 ^ 8 % 256 := bits 8 h1
  have b0 : a.toNat / 2 ^ 0 % 256 = c.toNat / 2 ^ 0 % 256 := bits 0 h0
  have ha := a.toNat_lt
  have hc := c.toNat_lt
  apply UInt32.toNat.inj
  omega

theorem dec_injective {a c : UInt32} (h : dec a.toNat = dec c.toNat) : a = c :=
  UInt32.toNat.inj (Digits.toDigits_injective (by decide) (by decide) h)

theorem dec_digits (n : Nat) : ∀ c ∈ dec n, c ≠ '.' := fun _ hc => Digits.ne_point_of_isDigit (Digits.isDigit_toDigits hc)

/-- Four numbers with points between them. -/
theorem hostText_injective {a c : UInt32} (h : hostText o a = hostText o c) : a = c := by
  unfold hostText printHostIp at h
  split at h
  · simp only [out_fprintf, text_cons, text_nil, Piece.text, List.append_nil] at h
    obtain ⟨h3, h⟩ := Digits.point_unique (dec_digits _) (dec_digits _) h
    obtain ⟨h2, h⟩ := Digits.point_unique (dec_digits _) (dec_digits _) h
    obtain ⟨h1, h0⟩ := Digits.point_unique (dec_digits _) (dec_digits _) h
    exact octets_injective (dec_injective h3) (dec_injective h2) (dec_injective h1) (dec_injective h0)
  · simp only [out_fprintf, text_cons, text_nil, Piece.text, List.append_nil] at h
    exact UInt32.toNat.inj (hexPadded_injective (by decide) h)

theorem point_notMem_padded (k n : Nat) : '.' ∉ padLeft k '0' (hex n) := by
  have digits : ∀ d < 16, '.' ≠ d.digitChar := by decide
  intro hn
  rcases List.mem_append.mp hn with hn | hn
  · exact absurd (List.eq_of_mem_replicate hn) (by decide)
  · obtain ⟨d, hd, hx⟩ := Digits.mem_toDigits (by decide) hn
    exact digits d hd hx

/-- The port starts behind the last point of an address. -/
theorem address_injective {host host' port port' : UInt32} (hp : port.toNat < 2 ^ 16) (hp' : port'.toNat < 2 ^ 16)
    (h : address o host port = address o host' port') : host = host' ∧ port = port' := by
  obtain ⟨hhost, hport⟩ := callKey_injective (point_notMem_padded _ _) (point_notMem_padded _ _) h
  refine ⟨hostText_injective hhost, UInt32.toNat.inj ?_⟩
  have mask : ∀ p : UInt32, p.toNat < 2 ^ 16 → (0xffff &&& p).toNat = p.toNat := by
    intro p hp
    rw [UInt32.toNat_and, Nat.and_comm]
    exact (Nat.and_two_pow_sub_one_eq_mod _ 16).trans (Nat.mod_eq_of_lt hp)
  rw [← mask port hp, ← mask port' hp']
  exact hexPadded_injective (by decide) hport

theorem clientKey_injective {k k' : XidKey} (hp : k.port.toNat < 2 ^ 16) (hp' : k'.port.toNat < 2 ^ 16)
    (h : clientKey o k = clientKey o k') : k = k' := by
  obtain ⟨xid, host, port⟩ := k
  obtain ⟨xid', host', port'⟩ := k'
  obtain ⟨hclient, hxid⟩ := callKey_injective (point_notMem_padded _ _) (point_notMem_padded _ _) h
  obtain ⟨rfl, rfl⟩ : host = host' ∧ port = port' := address_injective hp hp' hclient
  obtain rfl : xid = xid' := UInt32.toNat.inj (hexPadded_injective (by decide) hxid)
  rfl

/-! ## The relation -/

/-- A call that a line has a name for and `Parser` takes. -/
def Tracked (e : HashT) : Prop := e.nfsVersion = 3 ∧ Proc3.ofNumber e.nfsProc ≠ none

instance decidableTracked (e : HashT) : Decidable (Tracked e) := inferInstanceAs (Decidable (_ ∧ _))

/-- The table's calls of a client and XID that have a name. -/
def tracks (k : XidKey) (n : Node HashT) : Bool := XidTable.scheme.key n.val = k ∧ Tracked n.val

theorem tracks_iff {k : XidKey} {n : Node HashT} : tracks k n = true ↔ XidTable.scheme.key n.val = k ∧ Tracked n.val :=
  decide_eq_true_iff

/-- What `Parser` holds, and the newest call in the table, in second `now`. -/
structure Follows (o : Opts) (t : XidTable) (p : Parser) (now : UInt32) (L : List (Node HashT)) : Prop where
  lists : Lists XidTable.scheme t L
  order : L.Pairwise fun m n => n.val.call_time ≤ m.val.call_time
  past : ∀ n ∈ L, n.val.call_time ≤ now
  named : ∀ key c, p.calls key = some c → cell c.row OFFSET.OP ≠ "unknown".toList
  op : ∀ k : XidKey, k.port.toNat < 2 ^ 16 → ∀ c, p.calls (clientKey o k) = some c → ∀ n, L.find? (tracks k) = some n →
    opName n.val.nfsProc = cell c.row OFFSET.OP

variable {t t' : XidTable} {p p' : Parser} {now now' : UInt32} {L : List (Node HashT)}

theorem follows_init (o : Opts) (now : UInt32) : Follows o Table.empty Parser.init now [] :=
  ⟨empty_lists _ (by decide), .nil, by simp, fun _ c h => absurd h.symm (Option.some_ne_none c),
    fun _ _ c h => absurd h.symm (Option.some_ne_none c)⟩

/-- Behind a call that is taken for being outdated all with its key are. -/
theorem older_due {now : UInt32} {i : Nat} {k : XidKey} (h : L.Pairwise fun m n => n.val.call_time ≤ m.val.call_time) :
    L.Pairwise fun m n => tracks k m = true → (!due XidTable.scheme (outdated now) i m.val) = false → tracks k n = true →
      (!due XidTable.scheme (outdated now) i n.val) = false := by
  refine h.imp fun {m n} hle hm hdue hn => ?_
  have hkey : XidTable.scheme.key n.val = XidTable.scheme.key m.val := (tracks_iff.mp hn).1.trans (tracks_iff.mp hm).1.symm
  have hle := UInt32.le_iff_toNat_le.mp hle
  rw [Bool.not_eq_false', due, Bool.and_eq_true, decide_eq_true_eq, outdated, decide_eq_true_eq] at hdue ⊢
  rw [hkey]
  exact ⟨hdue.1, by omega⟩

/-- A call that is put into the table, with a safe cull. -/
theorem Follows.inserted (h : Follows o t p now L) (hle : now ≤ now') {xid host port version proc : UInt32}
    (hsafe : SafeCull t now' xid host port version proc) (hrun : runXid t [.insert now' xid host port version proc] = .ok t')
    (hnamed : ∀ key c, p'.calls key = some c → cell c.row OFFSET.OP ≠ "unknown".toList)
    (hop : ∀ k : XidKey, k.port.toNat < 2 ^ 16 → ∀ c, p'.calls (clientKey o k) = some c →
      if k = ⟨xid, host, port⟩ ∧ Tracked ⟨xid, host, port, version, proc, now'⟩ then cell c.row OFFSET.OP = opName proc
      else p.calls (clientKey o k) = some c) : ∃ L', Follows o t' p' now' L' := by
  obtain ⟨t₁, freed, hok, hL', _⟩ := insert_lists (staleCall now') h.lists ⟨xid, host, port, version, proc, now'⟩
  have happly : (XidOp.insert now' xid host port version proc).apply t = .ok (t₁, freed) := hok
  obtain rfl : t₁ = t' := Except.ok.inj ((runXid_one happly).symm.trans hrun)
  have hculls := (cullsOutdated_iff h.lists now' xid host port version proc).mpr hsafe
  have hkept := (cullsOutdated_sweep h.lists now' xid host port version proc).mp hculls
  change Lists XidTable.scheme t₁ (sweep _ _ [] (newEntry t now' xid host port version proc :: L)) at hL'
  rw [hkept] at hL'
  have horder : (newEntry t now' xid host port version proc :: L).Pairwise fun m n => n.val.call_time ≤ m.val.call_time :=
    List.pairwise_cons.mpr ⟨fun n hn => UInt32.le_trans (h.past n hn) hle, h.order⟩
  refine ⟨_, hL', horder.filter _, fun n hn => ?_, hnamed, fun k hk c hc n hn => ?_⟩
  · rcases List.mem_cons.mp (List.mem_of_mem_filter hn) with rfl | hn
    · exact UInt32.le_refl _
    · exact UInt32.le_trans (h.past n hn) hle
  · have hfind := find?_of_filter (older_due horder) hn
    have hcase := hop k hk c hc
    by_cases hnew : tracks k (newEntry t now' xid host port version proc) = true
    · rw [List.find?_cons_of_pos hnew] at hfind
      obtain rfl := Option.some_inj.mp hfind
      obtain ⟨hkey, htracked⟩ := tracks_iff.mp hnew
      rw [if_pos ⟨hkey.symm, htracked⟩] at hcase
      exact hcase.symm
    · rw [List.find?_cons_of_neg hnew] at hfind
      rw [if_neg fun hx => hnew (tracks_iff.mpr ⟨hx.1.symm, hx.2⟩)] at hcase
      exact h.op k hk c hcase n hfind

/-- A call that is taken out of the table, when `Parser` is left with none for it. -/
theorem Follows.removed (h : Follows o t p now L) (hle : now ≤ now') {xid host port : UInt32}
    (hrun : runXid t [.lookup now' xid host port] = .ok t')
    (hsub : ∀ key c, p'.calls key = some c → p.calls key = some c)
    (hgone : ∀ k : XidKey, k.port.toNat < 2 ^ 16 → p'.calls (clientKey o k) ≠ none → k = ⟨xid, host, port⟩ →
      ∀ n, L.find? (fun n => XidTable.scheme.key n.val = k) = some n → ¬ Tracked n.val) : ∃ L', Follows o t' p' now' L' := by
  obtain ⟨_, hL', _⟩ := lookup_lists h.lists ⟨xid, host, port⟩
  obtain rfl : (hashLookupXid t now' xid host port).2 = t' := Except.ok.inj ((runXid_one rfl).symm.trans hrun)
  refine ⟨_, hL', h.order.sublist List.eraseP_sublist, fun n hn => UInt32.le_trans (h.past n (List.mem_of_mem_eraseP hn)) hle,
    fun key c hc => h.named key c (hsub key c hc), fun k hk c hc n hn => ?_⟩
  have hsame : (L.eraseP fun n => XidTable.scheme.key n.val = ⟨xid, host, port⟩).find? (tracks k) = L.find? (tracks k) := by
    refine find?_eraseP_first fun m hm => Bool.eq_false_iff.mpr fun hx => ?_
    have hkey : XidTable.scheme.key m.val = ⟨xid, host, port⟩ := by simpa using List.find?_some hm
    have hk' : k = ⟨xid, host, port⟩ := (tracks_iff.mp hx).1.symm.trans hkey
    exact hgone k hk (by rw [hc]; exact Option.some_ne_none c) hk' m (by rw [hk']; exact hm) (tracks_iff.mp hx).2
  rw [hsame] at hn
  exact h.op k hk c (hsub _ c hc) n hn

/-! ## Rows -/

theorem opName_eq_unknown {op : UInt32} : opName op = "unknown".toList ↔ Proc3.ofNumber op = none := by
  unfold opName
  cases Proc3.ofNumber op with
  | none => exact iff_of_true rfl rfl
  | some q =>
    refine iff_of_false ?_ (Option.some_ne_none q)
    cases q <;> decide

theorem processRow_passedOver {row : Row} (h : PassedOver row) : p.processRow row = (p, none) := by
  rw [Parser.processRow]
  rcases h with h | ⟨hc, hr⟩
  · rw [if_pos h]
  · rw [if_neg hc, if_neg hr, ite_self]

def Parser.after (p : Parser) (rows : List Row) : Parser := rows.foldl (fun p row => (p.processRow row).1) p

theorem parser_run_append (p : Parser) (rows rows' : List Row) : p.run (rows ++ rows') = p.run rows ++ (p.after rows).run rows' := by
  have hafter : rows.foldl (fun s row => (Options.default.processRow s row).1) p = p.after rows := by
    simp only [default_processRow]
    rfl
  rw [← default_run, ← default_run, ← default_run, run_rows_append, hafter]

theorem run_passedOver {rows : List Row} (h : ∀ row ∈ rows, PassedOver row) : p.run rows = [] ∧ p.after rows = p := by
  induction rows with
  | nil => exact ⟨rfl, rfl⟩
  | cons row rows ih =>
    rw [List.forall_mem_cons] at h
    have hrow := processRow_passedOver (p := p) h.1
    have hafter : p.after (row :: rows) = p.after rows := by
      rw [Parser.after, List.foldl_cons, hrow]
      rfl
    rw [Parser.run, hrow, hafter]
    exact ih h.2

/-- A procedure on both sides of every pair. -/
def OpsAgree (ms : List Matched) : Prop := ∀ m ∈ ms, m.op = cell m.call OFFSET.OP

variable {s : Sent} {w : World} {l : DumpLine} {row : Row}

theorem key_port (s : Sent) : s.key.port.toNat < 2 ^ 16 := by
  unfold Sent.key
  split
  · exact UInt16.toNat_lt _
  · exact UInt16.toNat_lt _

theorem call_key (hline : s.Line w l) (hrow : Columns o l row) (hcall : s.word 4 = CALL) : callKeyOf row = clientKey o s.key := by
  rw [callKeyOf, hrow.src, hrow.xid, hline.srcHost, hline.srcPort, hline.rpcXID, clientKey, Sent.key, if_pos hcall]

theorem reply_key (hline : s.Line w l) (hrow : Columns o l row) (hcall : s.word 4 ≠ CALL) : replyKeyOf row = clientKey o s.key := by
  rw [replyKeyOf, hrow.dst, hrow.xid, hline.dstHost, hline.dstPort, hline.rpcXID, clientKey, Sent.key, if_neg hcall]

/-- What `Parser` makes of a call's row. -/
theorem processRow_callLine (hline : s.Line w l) (hrow : Columns o l row) (hcall : s.word 4 = CALL) (k : XidKey)
    (hk : k.port.toNat < 2 ^ 16) {c : Call} (hc : (p.processRow row).1.calls (clientKey o k) = some c) :
    if k = s.key ∧ Proc3.ofNumber l.record.nfsProc ≠ none then cell c.row OFFSET.OP = opName l.record.nfsProc
    else p.calls (clientKey o k) = some c := by
  have hdir : cell row OFFSET.DIRECTION = "C3".toList := by rw [hrow.dir, if_pos (hline.rpcCall.mpr hcall)]
  rw [← default_processRow] at hc
  by_cases hnamed : Proc3.ofNumber l.record.nfsProc = none
  · rw [if_neg fun hx => hx.2 hnamed]
    have hskip : ¬ Options.default.Accepts row := fun hx => hx.2.2 (hrow.op.trans (opName_eq_unknown.mpr hnamed))
    have hreply : ¬ IsReply row := fun hx => absurd (hdir.symm.trans hx) (by decide)
    rwa [processRow_other hskip hreply] at hc
  · have haccept : Options.default.Accepts row := ⟨hdir, rfl, by rw [hrow.op]; exact fun hx => hnamed (opName_eq_unknown.mp hx)⟩
    rw [processRow_call hrow.length haccept, call_key hline hrow hcall] at hc
    simp only at hc
    by_cases hkey : k = s.key
    · rw [if_pos ⟨hkey, hnamed⟩]
      rw [if_pos (by rw [hkey])] at hc
      obtain rfl := Option.some_inj.mp hc
      exact hrow.op
    · rw [if_neg fun hx => hkey hx.1]
      rw [if_neg fun hx => hkey (clientKey_injective hk (key_port s) hx)] at hc
      exact cleanup_calls.1 hc

/-- `processCall` keeps no call that is unknown. -/
theorem processRow_named (h : ∀ key c, p.calls key = some c → cell c.row OFFSET.OP ≠ "unknown".toList) (row : Row) :
    ∀ key c, (p.processRow row).1.calls key = some c → cell c.row OFFSET.OP ≠ "unknown".toList := by
  intro key c hc
  rw [← default_processRow] at hc
  by_cases hlength : row.length < OFFSET.PARAM_START
  · rw [Options.processRow, if_pos hlength] at hc
    exact h key c hc
  by_cases haccept : Options.default.Accepts row
  · rw [processRow_call (Nat.not_lt.mp hlength) haccept] at hc
    simp only at hc
    split at hc
    · obtain rfl := Option.some_inj.mp hc
      exact haccept.2.2
    · exact h key c (cleanup_calls.1 hc)
  by_cases hreply : IsReply row
  · rw [processRow_reply (Nat.not_lt.mp hlength) hreply] at hc
    cases hcalls : p.calls (replyKeyOf row) with
    | none =>
      rw [hcalls] at hc
      exact h key c hc
    | some call =>
      rw [hcalls] at hc
      simp only at hc
      split at hc
      · cases hc
      · exact h key c hc
  · rw [processRow_other haccept hreply] at hc
    exact h key c hc

/-! ## A call -/

theorem label_call (hline : s.Line w l) (hcall : s.word 4 = CALL) : l.record.nfsVersion = s.word 16 ∧ l.record.nfsProc = s.proc := by
  have hlabel := hline.label
  rw [Sent.label, if_pos hcall] at hlabel
  exact Prod.mk.inj hlabel

theorem op_call (hcall : s.word 4 = CALL) : s.op = .insert s.now s.key.xid s.key.host s.key.port (s.word 16) s.proc := if_pos hcall

theorem op_reply (hcall : s.word 4 ≠ CALL) : s.op = .lookup s.now s.key.xid s.key.host s.key.port := if_neg hcall

/-- The rows of a line: one, or none that is read. -/
def RowsOf (o : Opts) (l : DumpLine) (rows : List Row) : Prop :=
  if l.record.nfsVersion = 3 then ∃ row, Columns o l row ∧ rows = [row] else ∀ row ∈ rows, PassedOver row

/-- A call's line, with a safe cull. -/
theorem Follows.call (h : Follows o w.xid p now L) (hle : now ≤ s.now) (hline : s.Line w l) {rows : List Row} (hrows : RowsOf o l rows)
    (hcall : s.word 4 = CALL) (hrun : runXid w.xid [s.op] = .ok t')
    (hsafe : SafeCull w.xid s.now s.key.xid s.key.host s.key.port (s.word 16) s.proc) :
    p.run rows = [] ∧ ∃ L', Follows o t' (p.after rows) s.now L' := by
  obtain ⟨hversion, hproc⟩ := label_call hline hcall
  rw [op_call hcall] at hrun
  unfold RowsOf at hrows
  by_cases h3 : l.record.nfsVersion = 3
  · rw [if_pos h3] at hrows
    obtain ⟨row, hrow, rfl⟩ := hrows
    have hdir : cell row OFFSET.DIRECTION = "C3".toList := by rw [hrow.dir, if_pos (hline.rpcCall.mpr hcall)]
    have hquiet : (p.processRow row).2 = none := by
      rw [Parser.processRow, if_neg (Nat.not_lt.mpr hrow.length), if_pos hdir]
    refine ⟨by rw [Parser.run, hquiet]; rfl, h.inserted hle hsafe hrun (processRow_named h.named row) fun k hk c hc => ?_⟩
    have hcase := processRow_callLine hline hrow hcall k hk hc
    have htracked : Tracked ⟨s.key.xid, s.key.host, s.key.port, s.word 16, s.proc, s.now⟩ ↔ Proc3.ofNumber s.proc ≠ none := by
      rw [Tracked, ← hversion]
      exact and_iff_right h3
    simp only [htracked]
    rwa [hproc] at hcase
  · rw [if_neg h3] at hrows
    obtain ⟨hquiet, hsame⟩ := run_passedOver (p := p) hrows
    rw [hsame]
    refine ⟨hquiet, h.inserted hle hsafe hrun h.named fun k hk c hc => ?_⟩
    rw [if_neg fun hx => h3 (hversion.trans hx.2.1)]
    exact hc

/-! ## A reply -/

/-- nfsdump has no call of the client and XID, or has no name for the one it finds. -/
def Unnamed (t : XidTable) (k : XidKey) : Prop :=
  ∀ n ∈ (lookup XidTable.scheme t k).1, n.val.nfsVersion = 3 ∧ Proc3.ofNumber n.val.nfsProc = none

instance decidableUnnamed (t : XidTable) (k : XidKey) : Decidable (Unnamed t k) :=
  inferInstanceAs (Decidable (∀ n ∈ (lookup XidTable.scheme t k).1, _))

/-- The label of a reply that finds a call. -/
theorem label_reply (hline : s.Line w l) (hcall : s.word 4 ≠ CALL) {n : Node HashT}
    (hn : (lookup XidTable.scheme w.xid s.key).1 = some n) :
    l.record.nfsVersion = n.val.nfsVersion ∧ l.record.nfsProc = n.val.nfsProc := by
  have hlabel := hline.label
  rw [Sent.label, if_neg hcall, hn] at hlabel
  exact Prod.mk.inj hlabel

/-- The label of one that finds none. -/
theorem label_unknown (hline : s.Line w l) (hcall : s.word 4 ≠ CALL) (hn : (lookup XidTable.scheme w.xid s.key).1 = none) :
    l.record.nfsVersion = 3 ∧ l.record.nfsProc = 0xffffffff := by
  have hlabel := hline.label
  rw [Sent.label, if_neg hcall, hn] at hlabel
  exact Prod.mk.inj hlabel

/-- The reply is labelled with the procedure of the call that `Parser` holds iff it is known. -/
theorem Follows.label_iff (h : Follows o w.xid p now L) (hline : s.Line w l) (hcall : s.word 4 ≠ CALL) (h3 : l.record.nfsVersion = 3)
    {c : Call} (hc : p.calls (clientKey o s.key) = some c) :
    opName l.record.nfsProc = cell c.row OFFSET.OP ↔ ¬ Unnamed w.xid s.key := by
  have unknown : Proc3.ofNumber l.record.nfsProc = none → opName l.record.nfsProc ≠ cell c.row OFFSET.OP := by
    intro hnone heq
    rw [opName_eq_unknown.mpr hnone] at heq
    exact h.named _ c hc heq.symm
  cases hn : (lookup XidTable.scheme w.xid s.key).1 with
  | none =>
    obtain ⟨-, hproc⟩ := label_unknown hline hcall hn
    refine iff_of_false (unknown (by rw [hproc]; decide)) fun hx => hx fun n h => ?_
    rw [hn] at h
    cases h
  | some n =>
    obtain ⟨hversion, hproc⟩ := label_reply hline hcall hn
    by_cases hnone : Proc3.ofNumber l.record.nfsProc = none
    · refine iff_of_false (unknown hnone) fun hx => hx fun m hm => ?_
      obtain rfl := Option.some_inj.mp (hn.symm.trans hm)
      exact ⟨hversion.symm.trans h3, by rw [← hproc]; exact hnone⟩
    · refine iff_of_true ?_ fun hx => hnone (by rw [hproc]; exact (hx n hn).2)
      rw [(lookup_lists h.lists s.key).1] at hn
      have hkey : XidTable.scheme.key n.val = s.key := by simpa using List.find?_some hn
      have htracks : tracks s.key n = true := tracks_iff.mpr ⟨hkey, hversion.symm.trans h3, by rw [← hproc]; exact hnone⟩
      rw [hproc]
      exact h.op s.key (key_port s) c hc n (find?_of_imp (fun m hm => decide_eq_true (tracks_iff.mp hm).1) hn htracks)

/-- A reply's line: the pair it makes has one procedure iff the reply's is known. -/
theorem Follows.reply (h : Follows o w.xid p now L) (hle : now ≤ s.now) (hline : s.Line w l) {rows : List Row} (hrows : RowsOf o l rows)
    (hcall : s.word 4 ≠ CALL) (hrun : runXid w.xid [s.op] = .ok t') :
    (OpsAgree (p.run rows) ↔ (Unnamed w.xid s.key → p.calls (clientKey o s.key) = none)) ∧
      ∃ L', Follows o t' (p.after rows) s.now L' := by
  rw [op_reply hcall] at hrun
  unfold RowsOf at hrows
  by_cases h3 : l.record.nfsVersion = 3
  · rw [if_pos h3] at hrows
    obtain ⟨row, hrow, rfl⟩ := hrows
    have hdir : IsReply row := by rw [IsReply, hrow.dir, if_neg fun hx => hcall (hline.rpcCall.mp hx)]
    have hprocess := processRow_reply (o := Options.default) (s := p) hrow.length hdir
    rw [default_processRow, reply_key hline hrow hcall] at hprocess
    cases hc : p.calls (clientKey o s.key) with
    | none =>
      rw [hc] at hprocess
      have hafter : p.after [row] = p := congrArg Prod.fst hprocess
      rw [hafter, Parser.run, hprocess]
      refine ⟨iff_of_true (fun m hm => absurd hm List.not_mem_nil) fun _ => rfl,
        h.removed hle hrun (fun _ _ hc => hc) fun k _ hsome hk => ?_⟩
      rw [show k = s.key from hk, hc] at hsome
      exact absurd rfl hsome
    | some c =>
      rw [hc] at hprocess
      have hafter : (p.after [row]).calls = fun key => if key = clientKey o s.key then none else p.calls key :=
        congrArg (fun x => x.1.calls) hprocess
      have hpair : p.run [row] = [⟨cell row OFFSET.OP, c.row, row⟩] := by
        rw [Parser.run, hprocess]
        rfl
      refine ⟨?_, h.removed hle hrun (fun key c hc => ?_) fun k _ hsome hk => ?_⟩
      · rw [hpair, OpsAgree, List.forall_mem_singleton, hrow.op, h.label_iff hline hcall h3 hc]
        exact ⟨fun hn hx => absurd hx hn, fun hn hx => Option.some_ne_none c (hn hx)⟩
      · rw [hafter] at hc
        simp only at hc
        split at hc
        · cases hc
        · exact hc
      · rw [hafter, show k = s.key from hk] at hsome
        exact absurd (if_pos rfl) hsome
  · rw [if_neg h3] at hrows
    obtain ⟨hquiet, hsame⟩ := run_passedOver (p := p) hrows
    rw [hquiet, hsame]
    have hfound : ∀ n, (lookup XidTable.scheme w.xid s.key).1 = some n → n.val.nfsVersion ≠ 3 := fun n hn =>
      (label_reply hline hcall hn).1 ▸ h3
    have hnamed : ¬ Unnamed w.xid s.key := by
      intro hx
      cases hn : (lookup XidTable.scheme w.xid s.key).1 with
      | none => exact h3 (label_unknown hline hcall hn).1
      | some n => exact hfound n hn (hx n hn).1
    refine ⟨iff_of_true (fun m hm => absurd hm List.not_mem_nil) fun hx => absurd hx hnamed,
      h.removed hle hrun (fun _ _ hc => hc) fun k _ _ hk n hn htracked => ?_⟩
    rw [show k = s.key from hk, ← (lookup_lists h.lists s.key).1] at hn
    exact hfound n hn htracked.1

/-! ## Runs -/

/-- What the events are written as. -/
def written (o : Opts) (b : Args) (lib : XdrLib) (count : UInt32) (es : List Event) : List Char :=
  text (out (writeEvents o b lib count es))

/-- The rows of a datagram's line are the first of what it and those behind it write. -/
theorem rows_of_datagram (hcsv : ReadsCsv csv) (hline : s.Line w l) (hval : (writeEvents o b lib count (s.result w).events).val ≠ none) :
    ∃ rows, RowsOf o l rows ∧
      ∀ es, csv (written o b lib count ((s.result w).events ++ es)) = rows ++ csv (written o b lib count es) := by
  rw [hline.writes] at hval
  obtain ⟨v, hv⟩ := Option.ne_none_iff_exists'.mp hval
  obtain ⟨u, hprint, -⟩ := Trace.of_val_bind hv
  have hwritten : ∀ es, written o b lib count ((s.result w).events ++ es) =
      text (out (l.print o b lib count)) ++ '\n' :: written o b lib count es := by
    intro es
    rw [written, writeEvents_append, hline.writes, out_bind _ hv, out_bind _ hprint, out_fprintf, text_append, text_append,
      List.append_assoc]
    rfl
  have hval : (l.print o b lib count).val ≠ none := by
    rw [hprint]
    exact Option.some_ne_none u
  unfold RowsOf
  by_cases h3 : l.record.nfsVersion = 3
  · obtain ⟨row, hrow, hrows⟩ := row_of_line hcsv h3 hval
    refine ⟨[row], by rw [if_pos h3]; exact ⟨row, hrow, rfl⟩, fun es => ?_⟩
    rw [hwritten, hrows]
    rfl
  · obtain ⟨rows, hpassed, hrows⟩ := rows_of_other hcsv h3 hval
    refine ⟨rows, by rw [if_neg h3]; exact hpassed, fun es => ?_⟩
    rw [hwritten, hrows]

/-- Every datagram's record is printed, and its line is written to the end. -/
def AllPrinted (o : Opts) (b : Args) (lib : XdrLib) (count : UInt32) : World → List Sent → Prop
  | _, [] => True
  | w, s :: ss =>
    (s.Printed w ∧ (writeEvents o b lib count (s.result w).events).val ≠ none) ∧ AllPrinted o b lib count (s.result w).world ss

instance decidableAllPrinted (o : Opts) (b : Args) (lib : XdrLib) (count : UInt32) :
    ∀ (w : World) (ss : List Sent), Decidable (AllPrinted o b lib count w ss)
  | _, [] => isTrue trivial
  | w, s :: ss =>
    have := decidableAllPrinted o b lib count (s.result w).world ss
    inferInstanceAs (Decidable (((∃ e ∈ (s.result w).events, e.IsRecord = true) ∧ _) ∧ _))

/-- No call that is put into the table is taken out for an outdated one, and no other is. -/
def SafeCulls : World → List Sent → Prop
  | _, [] => True
  | w, s :: ss =>
    (s.word 4 = CALL → SafeCull w.xid s.now s.key.xid s.key.host s.key.port (s.word 16) s.proc) ∧ SafeCulls (s.result w).world ss

instance decidableSafeCull (t : XidTable) (now xid host port version proc : UInt32) :
    Decidable (SafeCull t now xid host port version proc) :=
  inferInstanceAs (Decidable ((MAX_AGE ≤ now → List.Pairwise
    (fun m n : Node HashT => XidTable.scheme.key m.val = XidTable.scheme.key n.val → outdated now n.val = true →
      outdated now m.val = true) _) ∧ _))

instance decidableSafeCulls : ∀ (w : World) (ss : List Sent), Decidable (SafeCulls w ss)
  | _, [] => isTrue trivial
  | w, s :: ss =>
    have := decidableSafeCulls (s.result w).world ss
    inferInstanceAs (Decidable (_ ∧ _))

/-- No reply that nfsdump has no name for comes while `Parser` holds a call for it. -/
def Named (csv : List Char → List Row) (o : Opts) (b : Args) (lib : XdrLib) (count : UInt32) : World → Parser → List Sent → Prop
  | _, _, [] => True
  | w, p, s :: ss =>
    (s.word 4 ≠ CALL → Unnamed w.xid s.key → p.calls (clientKey o s.key) = none) ∧
      Named csv o b lib count (s.result w).world (p.after (csv (written o b lib count (s.result w).events))) ss

instance decidableNamed (csv : List Char → List Row) (o : Opts) (b : Args) (lib : XdrLib) (count : UInt32) :
    ∀ (w : World) (p : Parser) (ss : List Sent), Decidable (Named csv o b lib count w p ss)
  | _, _, [] => isTrue trivial
  | w, p, s :: ss =>
    have := decidableNamed csv o b lib count (s.result w).world (p.after (csv (written o b lib count (s.result w).events))) ss
    inferInstanceAs (Decidable (_ ∧ _))

theorem opsAgree_append {ms ms' : List Matched} : OpsAgree (ms ++ ms') ↔ OpsAgree ms ∧ OpsAgree ms' := List.forall_mem_append

/-- What one datagram adds to the pairs, and the relation behind it. -/
theorem Follows.datagram (h : Follows o w.xid p now L) (hle : now ≤ s.now) (hcsv : ReadsCsv csv) (hs : s.Datagram) (hw : AtRest w)
    (hprinted : s.Printed w ∧ (writeEvents o b lib count (s.result w).events).val ≠ none)
    (hsafe : s.word 4 = CALL → SafeCull w.xid s.now s.key.xid s.key.host s.key.port (s.word 16) s.proc) :
    ∃ rows, (∀ es, csv (written o b lib count ((s.result w).events ++ es)) = rows ++ csv (written o b lib count es)) ∧
      (OpsAgree (p.run rows) ↔ (s.word 4 ≠ CALL → Unnamed w.xid s.key → p.calls (clientKey o s.key) = none)) ∧
      ∃ L', Follows o (s.result w).world.xid (p.after rows) s.now L' := by
  obtain ⟨hrun, l, hline⟩ := hs.line hw hprinted.1
  obtain ⟨rows, hrows, hcsv⟩ := rows_of_datagram hcsv hline hprinted.2
  refine ⟨rows, hcsv, ?_⟩
  by_cases hcall : s.word 4 = CALL
  · obtain ⟨hquiet, hfollows⟩ := h.call hle hline hrows hcall hrun (hsafe hcall)
    rw [hquiet]
    exact ⟨iff_of_true (fun m hm => absurd hm List.not_mem_nil) fun hx => absurd hcall hx, hfollows⟩
  · obtain ⟨hagree, hfollows⟩ := h.reply hle hline hrows hcall hrun
    exact ⟨hagree.trans ⟨fun hx _ => hx, fun hx => hx hcall⟩, hfollows⟩

/-- The pairs of the lines that datagrams are written as, from any state that is related. -/
theorem Follows.run (hcsv : ReadsCsv csv) (ss : List Sent) (hs : ∀ s ∈ ss, s.Datagram) (horder : ss.Pairwise fun s s' => s.now ≤ s'.now) :
    ∀ {w : World} {p : Parser} {now : UInt32} {L : List (Node HashT)}, Follows o w.xid p now L → AtRest w → (∀ s ∈ ss, now ≤ s.now) →
      AllPrinted o b lib count w ss → SafeCulls w ss →
      (OpsAgree (p.run (csv (written o b lib count ((processAll w (ss.map Sent.packet)).flatMap Result.events)))) ↔
        Named csv o b lib count w p ss) := by
  induction ss with
  | nil =>
    intro w p now L _ _ _ _ _
    have hdone : csv (written o b lib count ((processAll w ([].map Sent.packet)).flatMap Result.events)) = [] := hcsv.done
    rw [hdone]
    exact iff_of_true (fun m hm => absurd hm List.not_mem_nil) trivial
  | cons s ss ih =>
    intro w p now L h hw hle hprinted hsafe
    rw [List.forall_mem_cons] at hs hle
    obtain ⟨hfirst, horder⟩ := List.pairwise_cons.mp horder
    obtain ⟨rows, hrows, hagree, L', hfollows⟩ := h.datagram hle.1 hcsv hs.1 hw hprinted.1 hsafe.1
    have hown : csv (written o b lib count (s.result w).events) = rows := by
      have hown := hrows []
      rw [List.append_nil, show written o b lib count [] = [] from rfl, hcsv.done, List.append_nil] at hown
      exact hown
    rw [List.map_cons, processAll_cons hs.1.whole hw, List.flatMap_cons, hrows, parser_run_append, opsAgree_append, hagree, Named, hown,
      ih hs.2 horder hfollows (hs.1.whole.atRest hw).1 hfirst hprinted.2 hsafe.2]

/-- The procedure of every pair is on both sides iff no reply that nfsdump has no name for comes
    while `Parser` holds a call for it, when the culls take what they should. -/
theorem matchers_agree_iff (hcsv : ReadsCsv csv) {ss : List Sent} (hs : ∀ s ∈ ss, s.Datagram)
    (horder : ss.Pairwise fun s s' => s.now ≤ s'.now) (hprinted : AllPrinted o b lib count World.init ss)
    (hsafe : SafeCulls World.init ss) :
    OpsAgree (Parser.init.run (csv (text (out (nfsdump o b lib count (ss.map Sent.packet)))))) ↔
      Named csv o b lib count World.init Parser.init ss :=
  Follows.run hcsv ss hs horder (follows_init o 0) atRest_init (fun _ _ => UInt32.le_iff_toNat_le.mpr (Nat.zero_le _)) hprinted hsafe

/-! ### Runs there are -/

/-- XDR's routines for a file handle alone. -/
def handleLib : XdrLib := { XdrLib.memStream with GETATTR3args := xdr_nfs_fh3, READLINK3args := xdr_nfs_fh3 }

/-- A message in a datagram, with a memory in which `print_it` is not 0. -/
def sentAt (tv_sec : UInt32) (c : Conn) (m : List UInt8) : Sent :=
  ⟨c, m, ⟨⟨fun _ => Ptr.ofBytes [], fun _ => 1⟩, udpPacket tv_sec c m, NfsPkt.zero⟩⟩

theorem sentAt_datagram (tv_sec : UInt32) (c : Conn) {m : List UInt8} (hlen : m.length < 65508)
    (hm : ((Ptr.ofBytes m).word 4 = CALL ∧ headerLength m ≤ m.length) ∨ ((Ptr.ofBytes m).word 4 = REPLY ∧ 20 ≤ m.length)) :
    (sentAt tv_sec c m).Datagram :=
  ⟨⟨Or.inl ⟨14, 20, udpPacket_frame tv_sec c hlen⟩, packetOf_fits .., hm⟩, 14, 20, udpPacket_frame tv_sec c hlen⟩

/-- GETATTR (1) or READLINK (5) of a handle of four bytes. -/
def handleCall (tv_sec : UInt32) (proc : Nat) : Sent := sentAt tv_sec ⟨1, 2, 3, 4⟩ (callBytes 3299 proc [0, 0, 0, 4, 1, 2, 3, 4])

/-- NFS3ERR_STALE, without attributes. -/
def staleReply (tv_sec : UInt32) : Sent :=
  sentAt tv_sec ⟨3, 4, 1, 2⟩ (be32 3299 ++ be32 1 ++ List.replicate 16 0 ++ be32 70 ++ be32 0)

theorem handleCall_datagram (tv_sec : UInt32) {proc : Nat} (h : proc = 1 ∨ proc = 5) : (handleCall tv_sec proc).Datagram := by
  rcases h with rfl | rfl
  · exact sentAt_datagram _ _ (by decide) (by decide)
  · exact sentAt_datagram _ _ (by decide) (by decide)

theorem staleReply_datagram (tv_sec : UInt32) : (staleReply tv_sec).Datagram := sentAt_datagram _ _ (by decide) (by decide)

theorem args_ne : (0x8049000 : UInt32) ≠ 0 := by decide

/-- The address of `args` in memory. -/
def args : Args := ⟨0x8049000, args_ne⟩

/-- The pairs that are made of what nfsdump writes. -/
def matched (ss : List Sent) : List Matched :=
  Parser.init.run (readCsv [] (text (out (nfsdump ⟨true, false, false, fun _ => []⟩ args handleLib 0 (ss.map Sent.packet)))))

/-- A call and its reply a second later. -/
theorem matchers_agree_pair : OpsAgree (matched [handleCall 100 1, staleReply 101]) := by
  refine (matchers_agree_iff readCsv_reads ?_ (by decide +kernel) (by decide +kernel) (by decide +kernel)).mpr (by decide +kernel)
  rw [List.forall_mem_cons, List.forall_mem_singleton]
  exact ⟨handleCall_datagram 100 (.inl rfl), staleReply_datagram 101⟩

/-- The XID of a call that got no reply is used again a hundred seconds later, for another
    procedure: the cull takes the new call, and its reply is labelled with the old one's procedure. -/
theorem matchers_disagree : ∃ ss : List Sent, (∀ s ∈ ss, s.Datagram) ∧ (ss.Pairwise fun s s' => s.now ≤ s'.now) ∧
    (∀ s ∈ ss, 30 ≤ s.now.toNat) ∧
    AllPrinted ⟨true, false, false, fun _ => []⟩ args handleLib 0 World.init ss ∧ ¬ OpsAgree (matched ss) := by
  refine ⟨[handleCall 100 1, handleCall 200 5, staleReply 201], ?_, by decide +kernel, by decide +kernel, by decide +kernel, ?_⟩
  · rw [List.forall_mem_cons, List.forall_mem_cons, List.forall_mem_singleton]
    exact ⟨handleCall_datagram 100 (.inl rfl), handleCall_datagram 200 (.inr rfl), staleReply_datagram 201⟩
  · unfold OpsAgree
    decide +kernel

end Nfsdump.Pathtree
