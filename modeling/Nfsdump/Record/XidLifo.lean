/-
  Nfsdump.Record.XidLifo — whole runs of `hashInsertXid` and `hashLookupXid`.

  Proved, from the empty table on and for any calls at any times:
  - `xidTable_lifo`: no cull fails its assertion or follows a dangling pointer, every entry
    is in its bucket and counted, and a lookup takes out the newest entry with the key.
  - `hashInsertXid_culls`: when an insert removes exactly the calls older than MAX_AGE. The
    victim is chosen by key, so where a call was sent again the cull frees the new entry in
    place of the stale one; and before second 30 the age threshold wraps round.
-/

import Nfsdump.Record.XidTable

namespace Nfsdump.Record

open ChainTable

inductive XidOp where
  | insert (now xid host port version proc : UInt32)
  | lookup (now xid host port : UInt32)

/-- Beside the table: the entries the call takes out of it. -/
def XidOp.apply (t : XidTable) : XidOp → Except Fault (XidTable × List (Node HashT))
  | .insert now xid host port version proc => hashInsertXid t now xid host port version proc
  | .lookup now xid host port =>
    .ok ((hashLookupXid t now xid host port).2, (hashLookupXid t now xid host port).1.toList)

def runXid : XidTable → List XidOp → Except Fault XidTable
  | t, [] => .ok t
  | t, op :: ops =>
    match op.apply t with
    | .error e => .error e
    | .ok (t', _) => runXid t' ops

/-- The entries made, in order. -/
def calls (ops : List XidOp) : List HashT :=
  ops.filterMap fun op => match op with
    | .insert now xid host port version proc => some ⟨xid, host, port, version, proc, now⟩
    | .lookup .. => none

def XidOp.op : XidOp → Op HashT XidKey
  | .insert now xid host port version proc => .insert (staleCall now) ⟨xid, host, port, version, proc, now⟩
  | .lookup _ xid host port => .lookup ⟨xid, host, port⟩

theorem XidOp.apply_eq (t : XidTable) (op : XidOp) : op.apply t = op.op.apply XidTable.scheme t := by
  cases op <;> rfl

theorem runXid_eq (ops : List XidOp) : ∀ t, runXid t ops = run XidTable.scheme t (ops.map XidOp.op) := by
  induction ops with
  | nil => intro t; rfl
  | cons op ops ih =>
    intro t
    simp only [runXid, run, List.map_cons, XidOp.apply_eq]
    cases op.op.apply XidTable.scheme t with
    | error e => rfl
    | ok r => exact ih r.1

theorem calls_eq (ops : List XidOp) : calls ops = inserted (ops.map XidOp.op) := by
  unfold calls inserted
  rw [List.filterMap_map]
  congr 1; funext op
  cases op <;> rfl

/-- From the empty table on, the table is a list of entries made by the run. -/
theorem runXid_lists (ops : List XidOp) :
    ∃ t L, runXid Table.empty ops = .ok t ∧ Lists XidTable.scheme t L ∧ From t L (calls ops) := by
  obtain ⟨t, L, hr, hl, hf⟩ := run_lists (empty_lists XidTable.scheme (by decide))
    (⟨rfl, nofun⟩ : From (Table.empty : XidTable) [] []) (ops.map XidOp.op)
  exact ⟨t, L, by rw [runXid_eq]; exact hr, hl, by rw [calls_eq]; exact hf⟩

/-! ## Last in, first out -/

/-- A lookup's result is the newest entry with the key, and that entry alone is gone; or
    there is none and nothing has changed. -/
def Lifo (t : XidTable) (k : XidKey) : Option (Node HashT) × XidTable → Prop
  | (none, t') => t' = t ∧ ∀ b, ∀ m ∈ t.chain b, XidTable.scheme.key m.val ≠ k
  | (some n, t') =>
    (∃ b, n ∈ t.chain b) ∧ XidTable.scheme.key n.val = k ∧
      (∀ b, ∀ m ∈ t.chain b, XidTable.scheme.key m.val = k → m.addr ≤ n.addr) ∧
      (∀ b, t'.chain b = (t.chain b).filter fun m => m.addr ≠ n.addr) ∧ t'.elemCnt = t.elemCnt - 1

theorem hashLookupXid_lifo {t : XidTable} {L : List (Node HashT)} (h : Lists XidTable.scheme t L)
    (now xid host port : UInt32) : Lifo t ⟨xid, host, port⟩ (hashLookupXid t now xid host port) := by
  obtain ⟨hfind, hl, _, _⟩ := lookup_lists h ⟨xid, host, port⟩
  unfold hashLookupXid
  cases hf : L.find? (fun n => XidTable.scheme.key n.val = ⟨xid, host, port⟩) with
  | none =>
    rw [hf] at hfind
    rw [show lookup XidTable.scheme t ⟨xid, host, port⟩ = (none, t) from
      Prod.ext hfind (lookup_of_none hfind)]
    refine ⟨rfl, fun b m hm => ?_⟩
    simpa using List.find?_eq_none.mp hf m (h.mem_chain.mp hm).1
  | some n =>
    rw [hf] at hfind
    have hn := List.mem_of_find?_eq_some hf
    rw [show lookup XidTable.scheme t ⟨xid, host, port⟩ = (some n, (lookup XidTable.scheme t ⟨xid, host, port⟩).2) from
      Prod.ext hfind rfl]
    refine ⟨⟨_, h.mem_chain.mpr ⟨hn, rfl⟩⟩, by simpa using List.find?_some hf, fun b m hm hk => ?_, fun b => ?_, ?_⟩
    · exact find?_newest h.newest hf m (h.mem_chain.mp hm).1 (by simpa using hk)
    · rw [hl.chain, h.chain, eraseP_eq_filter_addr h.newest hf, List.filter_filter, List.filter_filter]
      congr 1; funext m; exact Bool.and_comm _ _
    · have := List.length_eraseP_of_mem hn (p := fun n => decide (XidTable.scheme.key n.val = ⟨xid, host, port⟩))
        (by simpa using List.find?_some hf)
      have hpos := List.length_pos_of_mem hn
      rw [hl.count, h.count, this]
      omega

theorem xidTable_lifo (ops : List XidOp) :
    ∃ t, runXid Table.empty ops = .ok t ∧
      (∀ b, ∀ n ∈ t.chain b, b = (XidTable.HASH n.val.rpcXID n.val.srcHost n.val.srcPort).toNat) ∧
      t.elemCnt = ∑ b ∈ Finset.range 3301, ((t.chain b).length : Int) ∧
      (∀ b, ∀ n ∈ t.chain b, (calls ops)[n.addr]? = some n.val) ∧
      ∀ now xid host port, Lifo t ⟨xid, host, port⟩ (hashLookupXid t now xid host port) := by
  obtain ⟨t, L, hr, hl, hf⟩ := runXid_lists ops
  refine ⟨t, hr, fun b n hn => ?_, hl.elemCnt_eq, fun b n hn => ?_, fun now xid host port => ?_⟩
  · exact (hl.mem_chain.mp hn).2.symm
  · exact hf.origin n (hl.mem_chain.mp hn).1
  · exact hashLookupXid_lifo hl now xid host port

/-! ## Culling -/

/-- More than MAX_AGE seconds before `now`, as integers. -/
def outdated (now : UInt32) (e : HashT) : Bool := decide (e.call_time.toNat + 30 < now.toNat)

/-- The entry an insert makes. -/
def newEntry (t : XidTable) (now xid host port version proc : UInt32) : Node HashT :=
  ⟨t.next, ⟨xid, host, port, version, proc, now⟩⟩

/-- The insert takes out exactly the outdated calls of bucket `CullIndex`. -/
def CullsOutdated (t : XidTable) (now xid host port version proc : UInt32) : Prop :=
  ∃ t' freed, hashInsertXid t now xid host port version proc = .ok (t', freed) ∧
    ∀ n, (n = newEntry t now xid host port version proc ∨ ∃ b, n ∈ t.chain b) ∧ (∀ b, n ∉ t'.chain b) ↔
      n ∈ t.chain t.cullIndex ∧ outdated now n.val = true

/-- Bucket `CullIndex` with the new entry, if it belongs there. -/
def dueBucket (t : XidTable) (now xid host port version proc : UInt32) : List (Node HashT) :=
  if (XidTable.HASH xid host port).toNat = t.cullIndex then
    newEntry t now xid host port version proc :: t.chain t.cullIndex
  else t.chain t.cullIndex

/-- In the bucket to be culled no call that is not outdated stands in front of an outdated
    one with its key; and before second 30 the bucket is empty but for calls from the last
    30 seconds of the clock's range, which the wrapped threshold spares. -/
def SafeCull (t : XidTable) (now xid host port version proc : UInt32) : Prop :=
  (MAX_AGE ≤ now → StaleFirst XidTable.scheme.key (outdated now) (dueBucket t now xid host port version proc)) ∧
    (now < MAX_AGE → ∀ n ∈ dueBucket t now xid host port version proc, now - MAX_AGE ≤ n.val.call_time)

theorem staleCall_eq {now : UInt32} (h : MAX_AGE ≤ now) : staleCall now = outdated now := by
  funext e
  have h30 : MAX_AGE.toNat = 30 := rfl
  have hle : 30 ≤ now.toNat := UInt32.le_iff_toNat_le.mp h
  unfold staleCall outdated
  rw [decide_eq_decide, UInt32.lt_iff_toNat_lt, UInt32.toNat_sub_of_le _ _ h]
  omega

theorem not_outdated {now : UInt32} (h : now < MAX_AGE) (e : HashT) : outdated now e = false := by
  have h30 : now.toNat < 30 := UInt32.lt_iff_toNat_lt.mp h
  unfold outdated
  rw [decide_eq_false_iff_not]
  omega

variable {t : XidTable} {L : List (Node HashT)}

theorem dueBucket_eq (h : Lists XidTable.scheme t L) (now xid host port version proc : UInt32) :
    dueBucket t now xid host port version proc =
      (newEntry t now xid host port version proc :: L).filter fun n =>
        XidTable.scheme.hash (XidTable.scheme.key n.val) = t.cullIndex := by
  have hash : XidTable.scheme.hash (XidTable.scheme.key (newEntry t now xid host port version proc).val) =
      (XidTable.HASH xid host port).toNat := rfl
  unfold dueBucket
  rw [h.chain, List.filter_cons, hash]
  by_cases hb : (XidTable.HASH xid host port).toNat = t.cullIndex <;> simp [hb]

/-- The insert takes out the outdated calls iff its sweep leaves what is not outdated. -/
theorem cullsOutdated_sweep (h : Lists XidTable.scheme t L) (now xid host port version proc : UInt32) :
    CullsOutdated t now xid host port version proc ↔
      sweep XidTable.scheme.key (due XidTable.scheme (staleCall now) t.cullIndex) []
          (newEntry t now xid host port version proc :: L) =
        (newEntry t now xid host port version proc :: L).filter fun n => !due XidTable.scheme (outdated now) t.cullIndex n.val := by
  obtain ⟨t', freed, hok, hl, _⟩ := insert_lists (staleCall now) h ⟨xid, host, port, version, proc, now⟩
  change Lists XidTable.scheme t' (sweep _ _ [] (newEntry t now xid host port version proc :: L)) at hl
  generalize hgen : newEntry t now xid host port version proc = new at hl ⊢
  have hsub := sweep_sublist XidTable.scheme.key (due XidTable.scheme (staleCall now) t.cullIndex) (new :: L) []
  have hnew : (new :: L).Pairwise fun m n => n.addr < m.addr :=
    List.pairwise_cons.mpr ⟨fun n hn => by subst hgen; exact h.fresh n hn, h.newest⟩
  -- the new call is not outdated
  have hyoung : outdated now new.val = false := by
    unfold outdated
    rw [decide_eq_false_iff_not]
    rw [show new.val.call_time = now by subst hgen; rfl]
    omega
  have before : ∀ n, (n = new ∨ ∃ b, n ∈ t.chain b) ↔ n ∈ new :: L := fun n => by
    simp only [h.mem_chain, List.mem_cons, exists_and_left, exists_eq', and_true]
  have after : ∀ n, (∀ b, n ∉ t'.chain b) ↔
      n ∉ sweep XidTable.scheme.key (due XidTable.scheme (staleCall now) t.cullIndex) [] (new :: L) := fun n => by
    simp only [hl.mem_chain, not_and]
    exact ⟨fun hb hm => hb _ hm rfl, fun hn b hm => absurd hm hn⟩
  have target : ∀ n, (n ∈ t.chain t.cullIndex ∧ outdated now n.val = true) ↔
      n ∈ new :: L ∧ due XidTable.scheme (outdated now) t.cullIndex n.val = true := fun n => by
    simp only [h.mem_chain, due, Bool.and_eq_true, decide_eq_true_eq, List.mem_cons]
    constructor
    · rintro ⟨⟨hm, hb⟩, ho⟩; exact ⟨Or.inr hm, hb, ho⟩
    · rintro ⟨rfl | hm, hb, ho⟩
      · rw [hyoung] at ho; cases ho
      · exact ⟨⟨hm, hb⟩, ho⟩
  unfold CullsOutdated
  rw [hgen]
  constructor
  · rintro ⟨t₁, freed₁, hok₁, hiff⟩
    obtain ⟨rfl, rfl⟩ : t' = t₁ ∧ freed = freed₁ := by
      have := hok.symm.trans hok₁
      simpa using this
    refine sublist_ext hnew (by simpa using hsub) List.filter_sublist fun n => ?_
    have hn := hiff n
    rw [before, after, target] at hn
    simp only [List.mem_filter, Bool.not_eq_true']
    constructor
    · intro hm
      refine ⟨by simpa using hsub.subset hm, ?_⟩
      by_contra hd
      exact (hn.mpr ⟨by simpa using hsub.subset hm, by simpa using hd⟩).2 hm
    · rintro ⟨hm, hd⟩
      by_contra hs
      have := (hn.mp ⟨hm, hs⟩).2
      rw [hd] at this; cases this
  · intro he
    refine ⟨t', freed, hok, fun n => ?_⟩
    rw [before, after, target, he]
    simp only [List.mem_filter, not_and, Bool.not_eq_true', Bool.not_eq_false]
    exact ⟨fun hn => ⟨hn.1, hn.2 hn.1⟩, fun hn => ⟨hn.1, fun _ => hn.2⟩⟩

theorem cullsOutdated_iff (h : Lists XidTable.scheme t L) (now xid host port version proc : UInt32) :
    CullsOutdated t now xid host port version proc ↔ SafeCull t now xid host port version proc := by
  rw [cullsOutdated_sweep h]
  unfold SafeCull
  rw [dueBucket_eq h]
  by_cases hage : MAX_AGE ≤ now
  · rw [staleCall_eq hage, sweep_eq_filter_iff, staleFirst_due]
    have hlt : ¬ now < MAX_AGE := UInt32.not_lt.mpr hage
    simp only [hage, hlt, forall_const, false_implies, and_true]
  · have hlt : now < MAX_AGE := UInt32.not_le.mp hage
    have hall : ∀ l : List (Node HashT),
        (l.filter fun n => !due XidTable.scheme (outdated now) t.cullIndex n.val) = l := fun l => by
      rw [List.filter_eq_self]
      intro n _
      simp [due, not_outdated hlt]
    rw [hall, sweep_eq_self_iff]
    simp only [hage, hlt, forall_const, false_implies, true_and, due, staleCall, List.mem_filter, Bool.and_eq_false_iff,
      decide_eq_false_iff_not, decide_eq_true_eq, UInt32.not_lt]
    exact ⟨fun hs n hn => (hs n hn.1).resolve_left fun hne => hne hn.2,
      fun hs n hm => by
        by_cases hb : XidTable.scheme.hash (XidTable.scheme.key n.val) = t.cullIndex
        · exact Or.inr (hs n ⟨hm, hb⟩)
        · exact Or.inl hb⟩

/-! ## Culling over a run -/

/-- Every insert of the run culls what it should. -/
def SafeRun : XidTable → List XidOp → Prop
  | _, [] => True
  | t, .lookup now xid host port :: ops => SafeRun (hashLookupXid t now xid host port).2 ops
  | t, .insert now xid host port version proc :: ops =>
    SafeCull t now xid host port version proc ∧
      ∀ t' freed, hashInsertXid t now xid host port version proc = .ok (t', freed) → SafeRun t' ops

/-- An insert that culls as it should, not before `first`, leaves nothing in its bucket that
    was outdated at `first`. -/
theorem CullsOutdated.clears {now xid host port version proc first : UInt32}
    (hc : CullsOutdated t now xid host port version proc) (hfirst : first ≤ now) {t' : XidTable}
    {freed : List (Node HashT)} (hok : hashInsertXid t now xid host port version proc = .ok (t', freed))
    (h : Lists XidTable.scheme t L) : ∀ n ∈ t'.chain t.cullIndex, outdated first n.val = false := by
  obtain ⟨t₁, freed₁, hok₁, hiff⟩ := hc
  obtain ⟨rfl, rfl⟩ : t' = t₁ ∧ freed = freed₁ := by simpa using hok.symm.trans hok₁
  obtain ⟨t₂, freed₂, hok₂, hl, _⟩ := insert_lists (staleCall now) h ⟨xid, host, port, version, proc, now⟩
  obtain ⟨rfl, rfl⟩ : t' = t₂ ∧ freed = freed₂ := by simpa using hok.symm.trans hok₂
  have hle := UInt32.le_iff_toNat_le.mp hfirst
  intro n hn
  obtain ⟨hm, hb⟩ := hl.mem_chain.mp hn
  have hsub := (sweep_sublist XidTable.scheme.key (due XidTable.scheme (staleCall now) t.cullIndex) _ []).subset hm
  by_contra hold
  have hold : n.val.call_time.toNat + 30 < first.toNat := by
    unfold outdated at hold
    simpa using hold
  rcases List.mem_cons.mp hsub with rfl | hL
  · have : now.toNat + 30 < first.toNat := hold
    omega
  · have ho : outdated now n.val = true := by
      unfold outdated
      rw [decide_eq_true_eq]; omega
    exact ((hiff n).mpr ⟨h.mem_chain.mpr ⟨hL, hb⟩, ho⟩).2 _ hn

theorem safeRun_clears {first : UInt32} (ops : List XidOp) : ∀ {t : XidTable} {L : List (Node HashT)},
    Lists XidTable.scheme t L → SafeRun t ops → (∀ e ∈ calls ops, first ≤ e.call_time) →
    Clears XidTable.scheme (outdated first) t (ops.map XidOp.op) := by
  induction ops with
  | nil => intro t L _ _ _; trivial
  | cons op ops ih =>
    intro t L h hs hfirst t' removed hok
    cases op with
    | lookup now xid host port =>
      obtain ⟨_, hl, _⟩ := lookup_lists h ⟨xid, host, port⟩
      cases hok
      exact ⟨fun hne => absurd rfl hne, ih hl hs hfirst⟩
    | insert now xid host port version proc =>
      obtain ⟨hsafe, hrest⟩ := hs
      obtain ⟨t₁, freed, hok₁, hl, _⟩ := insert_lists (staleCall now) h ⟨xid, host, port, version, proc, now⟩
      obtain ⟨rfl, rfl⟩ : t' = t₁ ∧ removed = freed := by simpa using hok.symm.trans hok₁
      have hc := (cullsOutdated_iff h now xid host port version proc).mpr hsafe
      refine ⟨fun _ => hc.clears (hfirst ⟨xid, host, port, version, proc, now⟩ (by simp [calls])) hok h, ih hl ?_ ?_⟩
      · exact hrest t' removed hok
      · exact fun e he => hfirst e (List.mem_cons_of_mem _ he)

/-- An insert removes exactly the outdated calls of its bucket iff the bucket is safe; and a
    round of safe inserts, none before `first`, leaves nothing that was outdated at `first`. -/
theorem hashInsertXid_culls (ops : List XidOp) :
    ∃ t, runXid Table.empty ops = .ok t ∧
      (∀ now xid host port version proc, CullsOutdated t now xid host port version proc ↔
        SafeCull t now xid host port version proc) ∧
      ∀ first ops', SafeRun t ops' → (∀ e ∈ calls ops', first ≤ e.call_time) → HASHSIZE.toNat ≤ (calls ops').length →
        ∃ t', runXid t ops' = .ok t' ∧ ∀ b, ∀ n ∈ t'.chain b, outdated first n.val = false := by
  obtain ⟨t, L, hr, hl, hf⟩ := runXid_lists ops
  refine ⟨t, hr, cullsOutdated_iff hl, fun first ops' hs hfirst hlen => ?_⟩
  obtain ⟨t', _, hr', _⟩ := run_lists hl hf (ops'.map XidOp.op)
  refine ⟨t', by rw [runXid_eq]; exact hr', run_clears hl (fun e he => ?_) (safeRun_clears ops' hl hs hfirst) ?_ hr'⟩
  · rw [← calls_eq] at he
    have := UInt32.le_iff_toNat_le.mp (hfirst e he)
    unfold outdated
    rw [decide_eq_false_iff_not]; omega
  · rw [← calls_eq]; exact hlen

/-- A call is sent at second 100 and again at second 200: the second insert frees the new
    entry and keeps the old one. -/
theorem hashInsertXid_frees_retransmission :
    ∃ t, runXid Table.empty [.insert 100 1 0 0 3 1] = .ok t ∧ ¬ CullsOutdated t 200 1 0 0 3 1 := by
  obtain ⟨t, L, hr, hl, hf⟩ := runXid_lists [.insert 100 1 0 0 3 1]
  refine ⟨t, hr, fun hc => ?_⟩
  have hs := ((cullsOutdated_iff hl 200 1 0 0 3 1).mp hc).1 (by decide)
  have hb : (runXid Table.empty [.insert 100 1 0 0 3 1]).toOption.map (fun t => dueBucket t 200 1 0 0 3 1) =
      some [⟨1, ⟨1, 0, 0, 3, 1, 200⟩⟩, ⟨0, ⟨1, 0, 0, 3, 1, 100⟩⟩] := by decide
  rw [hr] at hb
  have hbucket : dueBucket t 200 1 0 0 3 1 = _ := Option.some.inj hb
  rw [hbucket] at hs
  revert hs
  unfold StaleFirst
  decide

end Nfsdump.Record
