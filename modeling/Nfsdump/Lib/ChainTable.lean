/-
  ChainTable — a chained hash table whose inserts also cull one bucket.

  A bucket is a chain of nodes, newest first: `insert` links a node at the head of its
  chain, `lookup` unlinks and returns the first node with a key. So that nodes nobody
  asks for do not pile up, every insert then walks one bucket, another one each time,
  and for each stale node it meets looks that node's *key* up and frees what comes back.

  A node's address is the number of its allocation: addresses are never reused, so a
  later node has the larger address and a dangling pointer is told from a live one.

  Proved, for any entries, keys, hash and notion of staleness:
  - `Lists`: the table is one list of nodes, newest first, cut into buckets by the hash.
    `lookup_lists` and `insert_lists` keep it; in particular the walk's lookup never
    misses and its saved next pointer is never dangling (`cull_lists`).
  - `sweep_filter_key`: of the nodes with one key a cull frees the newest ones, as many
    as there are stale ones.
  - `sweep_eq_filter_iff`: a cull frees exactly the stale nodes iff no node that is not
    stale stands in front of a stale one with the same key.
-/

import Mathlib.Data.List.Basic
import Mathlib.Data.List.Perm.Basic
import Mathlib.Tactic

namespace ChainTable

def upd {β : Type} (f : Nat → β) (i : Nat) (v : β) : Nat → β := fun j => if j = i then v else f j

@[simp] theorem upd_same {β : Type} (f : Nat → β) (i : Nat) (v : β) : upd f i v i = v := by simp [upd]
theorem upd_ne {β : Type} (f : Nat → β) {i j : Nat} (v : β) (h : j ≠ i) : upd f i v j = f j := by simp [upd, h]

/-- How entries are keyed and keys are hashed into the `size` buckets. -/
structure Scheme (α κ : Type) where
  key : α → κ
  hash : κ → Nat
  size : Nat
  hash_lt : ∀ k, hash k < size

structure Node (α : Type) where
  addr : Nat
  val : α
  deriving DecidableEq, Repr

structure Table (α : Type) where
  chain : Nat → List (Node α)
  elemCnt : Int
  cullIndex : Nat
  /-- The address of the next node to be allocated. -/
  next : Nat

def Table.empty {α : Type} : Table α := ⟨fun _ => [], 0, 0, 0⟩

/-- What a cull can run into: its lookup misses, it follows a pointer to a freed node,
    or it does not end. -/
inductive Fault where
  | assertion
  | dangling
  | diverged
  deriving DecidableEq, Repr

section Operations

variable {α κ : Type} [DecidableEq κ] (S : Scheme α κ) (stale : α → Bool)

/-- Walk the chain to the first node satisfying `p` and link its predecessor to its
    successor. -/
def unlink (p : α → Bool) : List (Node α) → Option (Node α × List (Node α))
  | [] => none
  | n :: rest => if p n.val then some (n, rest) else (unlink p rest).map fun r => (r.1, n :: r.2)

def lookup (t : Table α) (k : κ) : Option (Node α) × Table α :=
  match unlink (fun v => S.key v = k) (t.chain (S.hash k)) with
  | some (n, rest) => (some n, { t with chain := upd t.chain (S.hash k) rest, elemCnt := t.elemCnt - 1 })
  | none => (none, t)

/-- The node at address `a` and its next pointer. -/
def deref : List (Node α) → Nat → Option (Node α × Option Nat)
  | [], _ => none
  | n :: rest, a => if n.addr = a then some (n, rest.head?.map (·.addr)) else deref rest a

/-- The walk over bucket `cullIndex` from pointer `curr` on; `next` is read before the
    lookup and followed after it. -/
def cull : Nat → Option Nat → Table α → List (Node α) → Except Fault (Table α × List (Node α))
  | _, none, t, freed => .ok (t, freed)
  | 0, some _, _, _ => .error .diverged
  | fuel + 1, some curr, t, freed =>
    match deref (t.chain t.cullIndex) curr with
    | none => .error .dangling
    | some (n, next) =>
      if stale n.val then
        match lookup S t (S.key n.val) with
        | (none, _) => .error .assertion
        | (some old, t') => cull fuel next t' (freed ++ [old])
      else cull fuel next t freed

/-- The node is linked at the head of its chain. -/
def link (v : α) (t : Table α) : Table α :=
  let h := S.hash (S.key v)
  { t with chain := upd t.chain h (⟨t.next, v⟩ :: t.chain h), elemCnt := t.elemCnt + 1, next := t.next + 1 }

/-- Link `v`, cull the bucket whose turn it is, move on to the next bucket. Returns the
    nodes the cull freed. -/
def insert (v : α) (t : Table α) : Except Fault (Table α × List (Node α)) :=
  let t := link S v t
  let bucket := t.chain t.cullIndex
  (cull S stale bucket.length (bucket.head?.map (·.addr)) t []).map fun r =>
    ({ r.1 with cullIndex := (r.1.cullIndex + 1) % S.size }, r.2)

end Operations

/-! ## The cull on a list of nodes -/

section Sweep

variable {α κ : Type} [DecidableEq κ] (key : α → κ) (stale : α → Bool)

/-- The first node with `n`'s key is erased. -/
def eraseKey (n : Node α) (l : List (Node α)) : List (Node α) := l.eraseP fun m => key m.val = key n.val

/-- What the cull leaves of `pre ++ suf`, the nodes `pre` being walked already. -/
def sweep : List (Node α) → List (Node α) → List (Node α)
  | pre, [] => pre
  | pre, n :: suf => sweep (if stale n.val then eraseKey key n (pre ++ [n]) else pre ++ [n]) suf

/-- What the cull frees of it. -/
def swept : List (Node α) → List (Node α) → List (Node α)
  | _, [] => []
  | pre, n :: suf =>
    if stale n.val then
      ((pre ++ [n]).find? fun m => key m.val = key n.val).toList ++ swept (eraseKey key n (pre ++ [n])) suf
    else swept (pre ++ [n]) suf

theorem eraseKey_sublist (n : Node α) (l : List (Node α)) : (eraseKey key n l).Sublist l :=
  List.eraseP_sublist

theorem sweep_sublist : ∀ (suf pre : List (Node α)), (sweep key stale pre suf).Sublist (pre ++ suf) := by
  intro suf
  induction suf with
  | nil => intro pre; simp [sweep]
  | cons n suf ih =>
    intro pre
    have h : (if stale n.val then eraseKey key n (pre ++ [n]) else pre ++ [n]).Sublist (pre ++ [n]) := by
      split
      · exact eraseKey_sublist key n _
      · exact List.Sublist.refl _
    have := (ih _).trans (h.append (List.Sublist.refl suf))
    simpa [sweep] using this

theorem sweep_congr {stale stale' : α → Bool} : ∀ (suf pre : List (Node α)),
    (∀ n ∈ suf, stale n.val = stale' n.val) → sweep key stale pre suf = sweep key stale' pre suf := by
  intro suf
  induction suf with
  | nil => intro pre _; rfl
  | cons n suf ih =>
    intro pre h
    simp only [sweep, h n (by simp)]
    exact ih _ fun m hm => h m (by simp [hm])

/-- A bucket with nothing stale in it is left as it is. -/
theorem sweep_none : ∀ (suf pre : List (Node α)), (∀ n ∈ suf, stale n.val = false) →
    sweep key stale pre suf = pre ++ suf := by
  intro suf
  induction suf with
  | nil => intro pre _; simp [sweep]
  | cons n suf ih =>
    intro pre h
    simp only [sweep, h n (by simp), Bool.false_eq_true, if_false]
    rw [ih _ fun m hm => h m (by simp [hm])]; simp

theorem eraseKey_filter_same {n : Node α} {q : Node α → Bool} (hq : ∀ m, key m.val = key n.val → q m = true)
    (l : List (Node α)) : (eraseKey key n l).filter q = eraseKey key n (l.filter q) := by
  induction l with
  | nil => rfl
  | cons m l ih =>
    unfold eraseKey at ih ⊢
    by_cases hk : key m.val = key n.val
    · simp [hk, hq m hk]
    · by_cases hm : q m = true
      · simp [hk, hm, ih]
      · simp [hk, hm, ih]

theorem eraseKey_filter_other {n : Node α} {q : Node α → Bool} (hq : ∀ m, key m.val = key n.val → q m = false)
    (l : List (Node α)) : (eraseKey key n l).filter q = l.filter q := by
  induction l with
  | nil => rfl
  | cons m l ih =>
    unfold eraseKey at ih ⊢
    by_cases hk : key m.val = key n.val
    · simp [hk, hq m hk]
    · by_cases hm : q m = true
      · simp [hk, hm, ih]
      · simp [hk, hm, ih]

/-- Culling a list and looking at one class of keys is culling that class. -/
theorem sweep_filter {q : κ → Bool} : ∀ (suf pre : List (Node α)),
    (sweep key stale pre suf).filter (fun m => q (key m.val)) =
      sweep key stale (pre.filter fun m => q (key m.val)) (suf.filter fun m => q (key m.val)) := by
  intro suf
  induction suf with
  | nil => intro pre; rfl
  | cons n suf ih =>
    intro pre
    simp only [sweep]
    rw [ih]
    by_cases hn : q (key n.val) = true
    · simp only [List.filter_cons, hn, if_true, sweep]
      split
      · rw [eraseKey_filter_same key (fun m hm => by simpa [hm] using hn)]; simp [hn]
      · simp [hn]
    · simp only [List.filter_cons, hn, Bool.false_eq_true, if_false]
      split
      · rw [eraseKey_filter_other key (fun m hm => by simpa [hm] using hn)]; simp [hn]
      · simp [hn]

theorem eraseKey_same {n : Node α} {l : List (Node α)} (h : ∀ m ∈ l, key m.val = key n.val) :
    eraseKey key n l = l.drop 1 := by
  cases l with
  | nil => rfl
  | cons m l => simp [eraseKey, h m (by simp)]

/-- Among nodes of one key the cull drops from the front, one for each stale node. -/
theorem sweep_same_key {k : κ} : ∀ (suf pre : List (Node α)), (∀ m ∈ pre ++ suf, key m.val = k) →
    sweep key stale pre suf = (pre ++ suf).drop (suf.countP fun m => stale m.val) := by
  intro suf
  induction suf with
  | nil => intro pre _; simp [sweep]
  | cons n suf ih =>
    intro pre h
    have hn : key n.val = k := h n (by simp)
    have hpre : ∀ m ∈ pre ++ [n], key m.val = key n.val := fun m hm => by
      rw [hn]; exact h m (by simp only [List.mem_append, List.mem_cons] at hm ⊢; tauto)
    by_cases hs : stale n.val = true
    · have hlen : 1 ≤ (pre ++ [n]).length := by simp
      simp only [sweep, hs, if_true, eraseKey_same key hpre, List.countP_cons_of_pos]
      rw [ih]
      · have e : pre ++ n :: suf = (pre ++ [n]) ++ suf := by simp
        rw [e, ← List.drop_append_of_le_length hlen, List.drop_drop, Nat.add_comm]
      · intro m hm
        apply h m
        rcases List.mem_append.mp hm with hm | hm
        · have := List.mem_of_mem_drop hm
          simp only [List.mem_append, List.mem_cons] at this ⊢; tauto
        · simp [hm]
    · simp only [sweep, hs, Bool.false_eq_true, if_false]
      rw [ih _ (fun m hm => h m (by simpa using hm)), List.countP_cons_of_neg (by simpa using hs)]
      simp

/-- Of the nodes with key `k`, the newest are freed, as many as there are stale ones. -/
theorem sweep_filter_key (k : κ) (l : List (Node α)) :
    (sweep key stale [] l).filter (fun m => key m.val = k) =
      (l.filter fun m => key m.val = k).drop ((l.filter fun m => key m.val = k).countP fun m => stale m.val) := by
  have h := sweep_filter key stale (q := fun k' => decide (k' = k)) l []
  rw [h, sweep_same_key key stale (k := k)]
  · simp
  · intro m hm
    have := (List.mem_filter.mp (show m ∈ l.filter fun m => key m.val = k by simpa using hm)).2
    simpa using this

/-- A key with no stale node keeps its newest one. -/
theorem sweep_find {k : κ} {l : List (Node α)} (h : ∀ n ∈ l, key n.val = k → stale n.val = false) :
    (sweep key stale [] l).find? (fun m => key m.val = k) = l.find? fun m => key m.val = k := by
  have hcount : ((l.filter fun m => key m.val = k).countP fun m => stale m.val) = 0 := by
    refine List.countP_eq_zero.mpr fun n hn => ?_
    obtain ⟨hl, hk⟩ := List.mem_filter.mp hn
    rw [h n hl (by simpa using hk)]
    exact Bool.false_ne_true
  have hkeep := sweep_filter_key key stale k l
  rw [hcount, List.drop_zero] at hkeep
  rw [← List.head?_filter, hkeep, List.head?_filter]

/-- No node that is not stale stands in front of a stale one with its key. -/
def StaleFirst (l : List (Node α)) : Prop :=
  l.Pairwise fun x y => key x.val = key y.val → stale y.val = true → stale x.val = true

theorem sweep_of_staleFirst : ∀ (suf pre : List (Node α)),
    (∀ m ∈ pre, ∀ n ∈ suf, key m.val = key n.val → stale n.val = false) → StaleFirst key stale suf →
    sweep key stale pre suf = pre ++ suf.filter fun m => !stale m.val := by
  intro suf
  induction suf with
  | nil => intro pre _ _; simp [sweep]
  | cons n suf ih =>
    intro pre hpre hsuf
    obtain ⟨hn, hsuf⟩ := List.pairwise_cons.mp hsuf
    by_cases hs : stale n.val = true
    · -- no node kept so far has the key of `n`, so its lookup returns `n` itself
      have hsep : ∀ m ∈ pre, ¬ key m.val = key n.val := fun m hm e => by
        have := hpre m hm n (by simp) e
        rw [this] at hs; cases hs
      have he : eraseKey key n (pre ++ [n]) = pre := by
        unfold eraseKey
        rw [List.eraseP_append_right _ (fun m hm => by simpa using hsep m hm)]
        simp
      simp only [sweep, hs, if_true, he]
      rw [ih pre (fun m hm m' hm' => hpre m hm m' (by simp [hm'])) hsuf]
      simp [hs]
    · have hs' : stale n.val = false := by simpa using hs
      simp only [sweep, hs', Bool.false_eq_true, if_false]
      rw [ih _ _ hsuf]
      · simp [hs']
      · intro m hm m' hm' e
        rcases List.mem_append.mp hm with hm | hm
        · exact hpre m hm m' (by simp [hm']) e
        · simp only [List.mem_singleton] at hm; subst hm
          by_contra hc
          have := hn m' hm' e (by simpa using hc)
          rw [hs'] at this; cases this

theorem pairwise_of_drop_eq_filter {β : Type} (s : β → Bool) (f : List β)
    (h : f.drop (f.countP s) = f.filter fun x => !s x) : f.Pairwise fun x y => s y = true → s x = true := by
  have hcount : (f.take (f.countP s)).countP s = (f.take (f.countP s)).length := by
    have h1 : (f.take (f.countP s)).countP s + (f.drop (f.countP s)).countP s = f.countP s := by
      rw [← List.countP_append, List.take_append_drop]
    have h2 : (f.drop (f.countP s)).countP s = 0 := by
      rw [h, List.countP_eq_zero]
      intro x hx; simpa using (List.mem_filter.mp hx).2
    have h3 : f.countP s ≤ f.length := List.countP_le_length
    rw [List.length_take]; omega
  have hall : ∀ x ∈ f.take (f.countP s), s x = true := List.countP_eq_length.mp hcount
  rw [← List.take_append_drop (f.countP s) f, List.pairwise_append]
  refine ⟨?_, ?_, fun x hx _ _ _ => hall x hx⟩
  · exact List.pairwise_of_forall_mem_list fun x hx _ _ _ => hall x hx
  · refine List.pairwise_of_forall_mem_list fun _ _ y hy hs => ?_
    rw [h] at hy
    have := (List.mem_filter.mp hy).2
    rw [hs] at this; cases this

/-- A cull frees nothing iff nothing is stale. -/
theorem sweep_eq_self_iff (l : List (Node α)) : sweep key stale [] l = l ↔ ∀ n ∈ l, stale n.val = false := by
  constructor
  · intro h n hn
    have hf := sweep_filter_key key stale (key n.val) l
    rw [h] at hf
    have hlen := congrArg List.length hf
    rw [List.length_drop] at hlen
    have hmem : n ∈ l.filter fun m => key m.val = key n.val := List.mem_filter.mpr ⟨hn, by simp⟩
    have hpos := List.length_pos_of_mem hmem
    have h0 := List.countP_eq_zero.mp (show ((l.filter fun m => key m.val = key n.val).countP
      fun m => stale m.val) = 0 by omega)
    simpa using h0 n hmem
  · intro h
    simpa using sweep_none key stale l [] h

/-- A cull frees exactly the stale nodes iff the stale ones of each key stand in front. -/
theorem sweep_eq_filter_iff (l : List (Node α)) :
    sweep key stale [] l = (l.filter fun m => !stale m.val) ↔ StaleFirst key stale l := by
  constructor
  · intro h
    refine List.pairwise_iff_forall_sublist.mpr fun {x y} hxy hk hy => ?_
    have hf := sweep_filter_key key stale (key y.val) l
    rw [h, List.filter_filter] at hf
    have hp := pairwise_of_drop_eq_filter (fun m : Node α => stale m.val) (l.filter fun m => key m.val = key y.val)
      (by rw [← hf, List.filter_filter]; congr 1; funext m; exact Bool.and_comm _ _)
    have hsub : [x, y].Sublist (l.filter fun m => key m.val = key y.val) := by
      have := hxy.filter fun m => decide (key m.val = key y.val)
      simpa [hk] using this
    exact List.pairwise_iff_forall_sublist.mp hp hsub hy
  · intro h
    simpa using sweep_of_staleFirst key stale l [] (by simp) h

/-- The bucket of hash `b`, as a predicate on entries. -/
def due (S : Scheme α κ) (stale : α → Bool) (b : Nat) (v : α) : Bool := decide (S.hash (S.key v) = b) && stale v

omit [DecidableEq κ] in
theorem staleFirst_due (S : Scheme α κ) (b : Nat) (l : List (Node α)) :
    StaleFirst S.key (due S stale b) l ↔ StaleFirst S.key stale (l.filter fun n => S.hash (S.key n.val) = b) := by
  unfold StaleFirst
  rw [List.pairwise_filter]
  refine List.Pairwise.iff fun {x y} => ?_
  simp only [due, Bool.and_eq_true, decide_eq_true_eq]
  constructor
  · intro h hx hy hk hs; exact (h hk ⟨hy, hs⟩).2
  · intro h hk hs
    have hx : S.hash (S.key x.val) = b := by rw [hk]; exact hs.1
    exact ⟨hx, h hx hs.1 hk hs.2⟩

end Sweep

/-! ## The table as one list of nodes -/

section Refinement

variable {α κ : Type} [DecidableEq κ] (S : Scheme α κ) (stale : α → Bool)

theorem unlink_eq (p : α → Bool) (l : List (Node α)) :
    unlink p l = (l.find? fun n => p n.val).map fun n => (n, l.eraseP fun n => p n.val) := by
  induction l with
  | nil => rfl
  | cons n l ih =>
    by_cases h : p n.val = true
    · simp [unlink, h]
    · have h' : p n.val = false := by simpa using h
      simp only [unlink, h', Bool.false_eq_true, if_false, ih, List.find?_cons_of_neg, not_false_eq_true,
        List.eraseP_cons_of_neg, Option.map_map]
      rfl

/-- `L` is the table's nodes, newest first: each bucket is `L`'s part of that hash. -/
structure Lists (t : Table α) (L : List (Node α)) : Prop where
  chain : ∀ b, t.chain b = L.filter fun n => S.hash (S.key n.val) = b
  count : t.elemCnt = L.length
  newest : L.Pairwise fun m n => n.addr < m.addr
  fresh : ∀ n ∈ L, n.addr < t.next
  turn : t.cullIndex < S.size

omit [DecidableEq κ] in
theorem empty_lists (h : 0 < S.size) : Lists S (Table.empty : Table α) [] :=
  ⟨fun _ => rfl, rfl, List.Pairwise.nil, fun _ hn => (List.not_mem_nil hn).elim, h⟩

variable {S} {t : Table α} {L : List (Node α)}

theorem find?_filter_hash (L : List (Node α)) (k : κ) :
    (L.filter fun n => S.hash (S.key n.val) = S.hash k).find? (fun n => S.key n.val = k) =
      L.find? fun n => S.key n.val = k := by
  rw [List.find?_filter]
  congr 1; funext n
  by_cases h : S.key n.val = k <;> simp [h]

theorem eraseP_filter_hash (L : List (Node α)) (k : κ) (b : Nat) :
    (L.eraseP fun n => S.key n.val = k).filter (fun n => S.hash (S.key n.val) = b) =
      if b = S.hash k then (L.filter fun n => S.hash (S.key n.val) = b).eraseP fun n => S.key n.val = k
      else L.filter fun n => S.hash (S.key n.val) = b := by
  induction L with
  | nil => simp
  | cons m L ih =>
    by_cases hk : S.key m.val = k
    · by_cases hb : b = S.hash k
      · subst hb; simp [hk]
      · have : ¬ S.hash k = b := fun e => hb e.symm
        simp [hk, hb, this]
    · simp only [hk, List.eraseP_cons_of_neg, decide_false, Bool.false_eq_true, not_false_eq_true, List.filter_cons, ih]
      by_cases hb : b = S.hash k
      · subst hb
        by_cases hm : S.hash (S.key m.val) = S.hash k <;> simp [hm, hk]
      · simp [hb]

/-- What is erased is not what is looked for. -/
theorem find?_eraseP_first {β : Type} {p q : β → Bool} : ∀ {l : List β}, (∀ x, l.find? p = some x → q x = false) →
    (l.eraseP p).find? q = l.find? q := by
  intro l
  induction l with
  | nil => exact fun _ => rfl
  | cons x l ih =>
    intro h
    by_cases hp : p x = true
    · have hq : ¬ q x = true := fun hq => by rw [h x (List.find?_cons_of_pos hp)] at hq; cases hq
      rw [List.eraseP_cons_of_pos hp, List.find?_cons_of_neg hq]
    · rw [List.find?_cons_of_neg hp] at h
      rw [List.eraseP_cons_of_neg hp]
      by_cases hq : q x = true
      · rw [List.find?_cons_of_pos hq, List.find?_cons_of_pos hq]
      · rw [List.find?_cons_of_neg hq, List.find?_cons_of_neg hq, ih h]

theorem find?_eraseP_other {β : Type} {p q : β → Bool} (h : ∀ x, q x = true → p x = false) (l : List β) :
    (l.eraseP p).find? q = l.find? q := by
  apply find?_eraseP_first
  intro x hx
  rw [Bool.eq_false_iff]
  intro hq
  have hp := List.find?_some hx
  rw [h x hq] at hp
  cases hp

theorem find?_of_imp {β : Type} {p q : β → Bool} (h : ∀ x, q x = true → p x = true) {y : β} : ∀ {l : List β},
    l.find? p = some y → q y = true → l.find? q = some y := by
  intro l
  induction l with
  | nil => exact fun hp _ => hp
  | cons x l ih =>
    intro hp hy
    by_cases hx : p x = true
    · rw [List.find?_cons_of_pos hx] at hp
      obtain rfl := Option.some_inj.mp hp
      exact List.find?_cons_of_pos hy
    · rw [List.find?_cons_of_neg hx] at hp
      rw [List.find?_cons_of_neg fun hq => hx (h x hq)]
      exact ih hp hy

/-- When all that is behind a dropped element is dropped, what is found was found before. -/
theorem find?_of_filter {β : Type} {keep q : β → Bool} {y : β} : ∀ {l : List β},
    l.Pairwise (fun x z => q x = true → keep x = false → q z = true → keep z = false) → (l.filter keep).find? q = some y →
      l.find? q = some y := by
  intro l
  induction l with
  | nil => exact fun _ h => h
  | cons x l ih =>
    intro hl h
    obtain ⟨hx, hl⟩ := List.pairwise_cons.mp hl
    by_cases hq : q x = true
    · rw [List.find?_cons_of_pos hq]
      by_cases hk : keep x = true
      · rwa [List.filter_cons_of_pos hk, List.find?_cons_of_pos hq] at h
      · rw [List.filter_cons_of_neg hk] at h
        obtain ⟨hy, hkeep⟩ := List.mem_filter.mp (List.mem_of_find?_eq_some h)
        rw [hx y hy hq (Bool.eq_false_iff.mpr hk) (List.find?_some h)] at hkeep
        cases hkeep
    · rw [List.find?_cons_of_neg hq]
      apply ih hl
      by_cases hk : keep x = true
      · rwa [List.filter_cons_of_pos hk, List.find?_cons_of_neg hq] at h
      · rwa [List.filter_cons_of_neg hk] at h

/-- A lookup returns the newest node with the key and removes it, and it alone. -/
theorem lookup_lists (h : Lists S t L) (k : κ) :
    (lookup S t k).1 = L.find? (fun n => S.key n.val = k) ∧
      Lists S (lookup S t k).2 (L.eraseP fun n => S.key n.val = k) ∧
      (lookup S t k).2.cullIndex = t.cullIndex ∧ (lookup S t k).2.next = t.next := by
  unfold lookup
  rw [unlink_eq, h.chain, find?_filter_hash]
  cases hf : L.find? (fun n => S.key n.val = k) with
  | none =>
    have he : (L.eraseP fun n => S.key n.val = k) = L := List.eraseP_of_forall_not fun n hn => by
      simpa using List.find?_eq_none.mp hf n hn
    exact ⟨rfl, by simpa [he] using h, rfl, rfl⟩
  | some m =>
    have hm : m ∈ L := List.mem_of_find?_eq_some hf
    have hpm : S.key m.val = k := by simpa using List.find?_some hf
    refine ⟨rfl, ⟨fun b => ?_, ?_, ?_, fun n hn => ?_, h.turn⟩, rfl, rfl⟩
    · simp only [Option.map_some]
      rw [eraseP_filter_hash]
      by_cases hb : b = S.hash k
      · subst hb; simp
      · rw [upd_ne _ _ hb, if_neg hb, h.chain]
    · have hl := List.length_eraseP_of_mem hm (p := fun n => decide (S.key n.val = k)) (by simpa using hpm)
      have : 0 < L.length := List.length_pos_of_mem hm
      simp only [Option.map_some, hl, h.count]
      omega
    · exact h.newest.sublist List.eraseP_sublist
    · exact h.fresh n (List.mem_of_mem_eraseP hn)

theorem lookup_of_none {t : Table α} {k : κ} (h : (lookup S t k).1 = none) : (lookup S t k).2 = t := by
  unfold lookup at h ⊢
  split
  · rename_i hu; rw [hu] at h; cases h
  · rfl

theorem deref_mid {pre suf : List (Node α)} {n : Node α}
    (h : (pre ++ n :: suf).Pairwise fun m n => n.addr < m.addr) :
    deref (pre ++ n :: suf) n.addr = some (n, suf.head?.map (·.addr)) := by
  induction pre with
  | nil => simp [deref]
  | cons m pre ih =>
    obtain ⟨hm, hp⟩ := List.pairwise_cons.mp h
    have : n.addr < m.addr := hm n (by simp)
    have hne : ¬ m.addr = n.addr := by omega
    simp only [List.cons_append, deref, hne, if_false]
    exact ih hp

theorem upd_self {β : Type} (f : Nat → β) (i : Nat) : upd f i (f i) = f := by
  funext j; by_cases h : j = i
  · subst h; simp
  · rw [upd_ne _ _ h]

theorem upd_upd {β : Type} (f : Nat → β) (i : Nat) (v w : β) : upd (upd f i v) i w = upd f i w := by
  funext j; by_cases h : j = i
  · subst h; simp
  · simp [upd_ne _ _ h]

/-- The lookup the walk makes at a stale node finds a node at or before it. -/
theorem lookup_mid {pre suf : List (Node α)} {n : Node α} (hh : S.hash (S.key n.val) = t.cullIndex)
    (hc : t.chain t.cullIndex = pre ++ n :: suf) :
    ∃ old, ((pre ++ [n]).find? fun m => S.key m.val = S.key n.val) = some old ∧
      lookup S t (S.key n.val) = (some old,
        { t with chain := upd t.chain t.cullIndex (eraseKey S.key n (pre ++ [n]) ++ suf), elemCnt := t.elemCnt - 1 }) := by
  have hsome : ((pre ++ [n]).find? fun m => S.key m.val = S.key n.val).isSome = true := by
    rw [List.find?_isSome]; exact ⟨n, by simp, by simp⟩
  obtain ⟨old, hold⟩ := Option.isSome_iff_exists.mp hsome
  have e : pre ++ n :: suf = (pre ++ [n]) ++ suf := by simp
  have hmem : old ∈ pre ++ [n] := List.mem_of_find?_eq_some hold
  have hk : S.key old.val = S.key n.val := by simpa using List.find?_some hold
  refine ⟨old, hold, ?_⟩
  unfold lookup
  rw [unlink_eq, hh, hc, e, List.find?_append, hold, List.eraseP_append_left (a := old) (by simpa using hk) _ hmem]
  rfl

/-- The walk from the head of `suf` on, `pre` being behind it, ends, with its assertion
    kept and its pointers good, in what `sweep` describes. -/
theorem cull_walk : ∀ (suf pre : List (Node α)) (t : Table α) (freed : List (Node α)) (fuel : Nat),
    t.chain t.cullIndex = pre ++ suf → (pre ++ suf).Pairwise (fun m n => n.addr < m.addr) →
    (∀ n ∈ suf, S.hash (S.key n.val) = t.cullIndex) → suf.length ≤ fuel →
    cull S stale fuel (suf.head?.map (·.addr)) t freed =
      .ok ({ t with chain := upd t.chain t.cullIndex (sweep S.key stale pre suf),
                    elemCnt := t.elemCnt - (swept S.key stale pre suf).length },
        freed ++ swept S.key stale pre suf) := by
  intro suf
  induction suf with
  | nil =>
    intro pre t freed fuel hc _ _ _
    rw [List.append_nil] at hc
    have hu : upd t.chain t.cullIndex pre = t.chain := by rw [← hc]; exact upd_self _ _
    cases fuel <;> simp [cull, sweep, swept, hu]
  | cons n suf ih =>
    intro pre t freed fuel hc hp hh hf
    obtain ⟨fuel, rfl⟩ : ∃ f, fuel = f + 1 := ⟨fuel - 1, by simp only [List.length_cons] at hf; omega⟩
    have hf' : suf.length ≤ fuel := by simp only [List.length_cons] at hf; omega
    have e : pre ++ n :: suf = (pre ++ [n]) ++ suf := by simp
    simp only [List.head?_cons, Option.map_some, cull, hc, deref_mid hp]
    by_cases hs : stale n.val = true
    · obtain ⟨old, hold, hl⟩ := lookup_mid (hh n (by simp)) hc
      have hp' : (eraseKey S.key n (pre ++ [n]) ++ suf).Pairwise fun m n => n.addr < m.addr := by
        refine hp.sublist ?_
        rw [e]; exact (eraseKey_sublist S.key n _).append (List.Sublist.refl _)
      simp only [hs, if_true, hl]
      have hw := ih (eraseKey S.key n (pre ++ [n]))
        { t with chain := upd t.chain t.cullIndex (eraseKey S.key n (pre ++ [n]) ++ suf), elemCnt := t.elemCnt - 1 }
        (freed ++ [old]) fuel (upd_same _ _ _) hp' (fun m hm => hh m (by simp [hm])) hf'
      rw [hw]
      simp only [sweep, swept, hs, if_true, hold, upd_upd, Option.toList_some, List.append_assoc,
        List.singleton_append, List.length_cons]
      congr 3
      omega
    · have hs' : stale n.val = false := by simpa using hs
      simp only [hs', Bool.false_eq_true, if_false]
      rw [ih (pre ++ [n]) t freed fuel (by rw [hc, e]) (by rwa [← e]) (fun m hm => hh m (by simp [hm])) hf']
      simp only [sweep, swept, hs', Bool.false_eq_true, if_false]

omit [DecidableEq κ] in
theorem link_lists (h : Lists S t L) (v : α) : Lists S (link S v t) (⟨t.next, v⟩ :: L) := by
  refine ⟨fun b => ?_, ?_, ?_, fun n hn => ?_, h.turn⟩
  · by_cases hb : b = S.hash (S.key v)
    · subst hb; simp [link, h.chain]
    · have : ¬ S.hash (S.key v) = b := fun e => hb e.symm
      simp [link, upd_ne _ _ hb, h.chain, this]
  · simp only [link, h.count, List.length_cons]; push_cast; rfl
  · exact List.pairwise_cons.mpr ⟨fun n hn => h.fresh n hn, h.newest⟩
  · show n.addr < t.next + 1
    rcases List.mem_cons.mp hn with rfl | hn
    · exact Nat.lt_succ_self _
    · exact Nat.lt_succ_of_lt (h.fresh n hn)

theorem find?_perm {β : Type} {p : β → Bool} {l : List β} {a : β} (h : l.find? p = some a) :
    l.Perm (a :: l.eraseP p) := by
  induction l with
  | nil => cases h
  | cons x l ih =>
    by_cases hx : p x = true
    · simp only [List.find?_cons_of_pos hx, Option.some.injEq] at h
      subst h; simp [hx]
    · rw [List.find?_cons_of_neg hx] at h
      rw [List.eraseP_cons_of_neg hx]
      exact ((ih h).cons x).trans (List.Perm.swap a x _)

/-- What is freed and what is left make up what was there. -/
theorem swept_perm : ∀ (suf pre : List (Node α)),
    (pre ++ suf).Perm (swept S.key stale pre suf ++ sweep S.key stale pre suf) := by
  intro suf
  induction suf with
  | nil => intro pre; simp [swept, sweep]
  | cons n suf ih =>
    intro pre
    have e : pre ++ n :: suf = (pre ++ [n]) ++ suf := by simp
    rw [e]
    by_cases hs : stale n.val = true
    · have hsome : ((pre ++ [n]).find? fun m => S.key m.val = S.key n.val).isSome = true := by
        rw [List.find?_isSome]; exact ⟨n, by simp, by simp⟩
      obtain ⟨old, hold⟩ := Option.isSome_iff_exists.mp hsome
      simp only [swept, sweep, hs, if_true, hold, Option.toList_some, List.cons_append]
      exact ((find?_perm hold).append_right suf).trans ((ih _).cons old)
    · have hs' : stale n.val = false := by simpa using hs
      simp only [swept, sweep, hs', Bool.false_eq_true, if_false]
      exact ih _

theorem sweep_due_turn (b : Nat) (L : List (Node α)) :
    (sweep S.key (due S stale b) [] L).filter (fun n => S.hash (S.key n.val) = b) =
      sweep S.key stale [] (L.filter fun n => S.hash (S.key n.val) = b) := by
  rw [sweep_filter S.key (due S stale b) (q := fun k => decide (S.hash k = b)) L []]
  refine sweep_congr S.key _ _ fun n hn => ?_
  have := (List.mem_filter.mp hn).2
  simp only [due, this, Bool.true_and]

theorem sweep_due_other {b c : Nat} (hc : c ≠ b) (L : List (Node α)) :
    (sweep S.key (due S stale b) [] L).filter (fun n => S.hash (S.key n.val) = c) =
      L.filter fun n => S.hash (S.key n.val) = c := by
  rw [sweep_filter S.key (due S stale b) (q := fun k => decide (S.hash k = c)) L []]
  refine sweep_none S.key _ _ _ fun n hn => ?_
  have := (List.mem_filter.mp hn).2
  simp only [decide_eq_true_eq] at this
  simp [due, this, hc]

theorem filter_other_perm {β : Type} (q : β → Bool) (l : List β) :
    l.Perm (l.filter q ++ l.filter fun x => !q x) := (List.filter_append_perm q l).symm

/-- An insert links the new node in front and culls; it always succeeds. -/
theorem insert_lists (h : Lists S t L) (v : α) :
    ∃ t' freed, insert S stale v t = .ok (t', freed) ∧
      Lists S t' (sweep S.key (due S stale t.cullIndex) [] (⟨t.next, v⟩ :: L)) ∧
      t'.cullIndex = (t.cullIndex + 1) % S.size ∧ t'.next = t.next + 1 ∧
      (⟨t.next, v⟩ :: L).Perm (freed ++ sweep S.key (due S stale t.cullIndex) [] (⟨t.next, v⟩ :: L)) := by
  have hl := link_lists h v
  have hb : (link S v t).chain t.cullIndex =
      (⟨t.next, v⟩ :: L).filter fun n => S.hash (S.key n.val) = t.cullIndex := hl.chain _
  have hidx : (link S v t).cullIndex = t.cullIndex := rfl
  have hw := cull_walk (S := S) stale ((link S v t).chain t.cullIndex) [] (link S v t) []
    ((link S v t).chain t.cullIndex).length (by rw [hidx]; rfl)
    (by rw [List.nil_append, hb]; exact hl.newest.sublist List.filter_sublist)
    (fun n hn => by rw [hb] at hn; rw [hidx]; simpa using (List.mem_filter.mp hn).2) (Nat.le_refl _)
  have hpair := swept_perm (S := S) stale ((link S v t).chain t.cullIndex) []
  -- the bucket's part of the culled list, and the rest of it
  have hturn := sweep_due_turn (S := S) stale t.cullIndex (⟨t.next, v⟩ :: L)
  have hperm : (⟨t.next, v⟩ :: L).Perm (swept S.key stale [] ((link S v t).chain t.cullIndex) ++
      sweep S.key (due S stale t.cullIndex) [] (⟨t.next, v⟩ :: L)) := by
    have hother : (sweep S.key (due S stale t.cullIndex) [] (⟨t.next, v⟩ :: L)).filter
          (fun n => !decide (S.hash (S.key n.val) = t.cullIndex)) =
        (⟨t.next, v⟩ :: L).filter fun n => !decide (S.hash (S.key n.val) = t.cullIndex) := by
      rw [sweep_filter S.key (due S stale t.cullIndex) (q := fun k => !decide (S.hash k = t.cullIndex)) _ []]
      refine sweep_none S.key _ _ _ fun n hn => ?_
      have := (List.mem_filter.mp hn).2
      simp only [Bool.not_eq_true', decide_eq_false_iff_not] at this
      simp [due, this]
    refine (filter_other_perm (fun n => decide (S.hash (S.key n.val) = t.cullIndex)) _).trans ?_
    rw [← hb, ← hother]
    refine (hpair.append_right _).trans ?_
    rw [hb, ← hturn, List.append_assoc]
    exact List.Perm.append_left _ (List.filter_append_perm _ _)
  have hi : insert S stale v t = .ok
      ({ (link S v t) with
          chain := upd (link S v t).chain t.cullIndex (sweep S.key stale [] ((link S v t).chain t.cullIndex))
          elemCnt := (link S v t).elemCnt - (swept S.key stale [] ((link S v t).chain t.cullIndex)).length
          cullIndex := (t.cullIndex + 1) % S.size },
        swept S.key stale [] ((link S v t).chain t.cullIndex)) := by
    unfold insert
    simp only [hidx]
    rw [hw]
    rfl
  refine ⟨_, _, hi, ⟨fun b => ?_, ?_, ?_, fun n hn => ?_, ?_⟩, rfl, rfl, hperm⟩
  · show upd (link S v t).chain t.cullIndex _ b = _
    by_cases hbe : b = t.cullIndex
    · subst hbe; rw [upd_same, hturn, hb]
    · rw [upd_ne _ _ hbe, hl.chain]
      exact (sweep_due_other (S := S) stale (b := t.cullIndex) (c := b) hbe _).symm
  · show (link S v t).elemCnt - _ = _
    have := hperm.length_eq
    rw [hl.count]
    simp only [List.length_append] at this
    omega
  · exact hl.newest.sublist (by simpa using sweep_sublist S.key (due S stale t.cullIndex) (⟨t.next, v⟩ :: L) [])
  · exact hl.fresh n ((sweep_sublist S.key (due S stale t.cullIndex) (⟨t.next, v⟩ :: L) []).subset hn)
  · exact Nat.mod_lt _ (Nat.lt_of_le_of_lt (Nat.zero_le _) h.turn)

end Refinement

/-! ## What is in which bucket -/

section Buckets

variable {α κ : Type} [DecidableEq κ] {S : Scheme α κ} {t : Table α} {L : List (Node α)}

omit [DecidableEq κ]

theorem Lists.mem_chain (h : Lists S t L) {b : Nat} {n : Node α} :
    n ∈ t.chain b ↔ n ∈ L ∧ S.hash (S.key n.val) = b := by
  rw [h.chain, List.mem_filter, decide_eq_true_eq]

theorem sum_filter_length (f : Node α → Nat) (size : Nat) (L : List (Node α)) (hf : ∀ n ∈ L, f n < size) :
    ∑ b ∈ Finset.range size, (L.filter fun n => f n = b).length = L.length := by
  induction L with
  | nil => simp
  | cons n L ih =>
    have hcons : ∀ b, ((n :: L).filter fun n => f n = b).length =
        (if f n = b then 1 else 0) + (L.filter fun n => f n = b).length := fun b => by
      by_cases hb : f n = b
      · simp [hb, Nat.add_comm]
      · simp [hb]
    simp only [hcons, Finset.sum_add_distrib, ih fun m hm => hf m (List.mem_cons_of_mem _ hm)]
    rw [Finset.sum_ite_eq, if_pos (Finset.mem_range.mpr (hf n (List.mem_cons_self ..))), List.length_cons, Nat.add_comm]

/-- The counter counts the nodes of all buckets. -/
theorem Lists.elemCnt_eq (h : Lists S t L) : t.elemCnt = ∑ b ∈ Finset.range S.size, ((t.chain b).length : Int) := by
  have hs := sum_filter_length (fun n : Node α => S.hash (S.key n.val)) S.size L fun n _ => S.hash_lt _
  rw [h.count, ← hs]
  push_cast
  exact Finset.sum_congr rfl fun b _ => by rw [h.chain]

/-- Of the nodes with a key the first one in the list has the largest address. -/
theorem find?_newest {L : List (Node α)} (h : L.Pairwise fun m n => n.addr < m.addr) {p : Node α → Bool} {n : Node α}
    (hf : L.find? p = some n) : ∀ m ∈ L, p m = true → m.addr ≤ n.addr := by
  induction L with
  | nil => cases hf
  | cons x L ih =>
    obtain ⟨hx, hL⟩ := List.pairwise_cons.mp h
    intro m hm hp
    by_cases hpx : p x = true
    · rw [List.find?_cons_of_pos hpx, Option.some.injEq] at hf
      subst hf
      rcases List.mem_cons.mp hm with rfl | hm
      · exact Nat.le_refl _
      · exact Nat.le_of_lt (hx m hm)
    · rw [List.find?_cons_of_neg hpx] at hf
      rcases List.mem_cons.mp hm with rfl | hm
      · exact absurd hp hpx
      · exact ih hL hf m hm hp

/-- Erasing the first node that satisfies `p` is taking out the node of its address. -/
theorem eraseP_eq_filter_addr {L : List (Node α)} (h : L.Pairwise fun m n => n.addr < m.addr) {p : Node α → Bool}
    {n : Node α} (hf : L.find? p = some n) : L.eraseP p = L.filter fun m => m.addr ≠ n.addr := by
  induction L with
  | nil => cases hf
  | cons x L ih =>
    obtain ⟨hx, hL⟩ := List.pairwise_cons.mp h
    by_cases hpx : p x = true
    · rw [List.find?_cons_of_pos hpx, Option.some.injEq] at hf
      subst hf
      have hall : ∀ m ∈ L, m.addr ≠ x.addr := fun m hm => Nat.ne_of_lt (hx m hm)
      rw [List.eraseP_cons_of_pos hpx, List.filter_cons_of_neg (by simp),
        List.filter_eq_self.mpr fun m hm => by simpa using hall m hm]
    · rw [List.find?_cons_of_neg hpx] at hf
      have hn := hx n (List.mem_of_find?_eq_some hf)
      have hne : x.addr ≠ n.addr := by omega
      rw [List.eraseP_cons_of_neg hpx, List.filter_cons_of_pos (by simpa using hne), ih hL hf]

theorem addr_inj {L : List (Node α)} (h : L.Pairwise fun m n => n.addr < m.addr) {m n : Node α} (hm : m ∈ L) (hn : n ∈ L)
    (he : m.addr = n.addr) : m = n := by
  induction L with
  | nil => cases hm
  | cons x L ih =>
    obtain ⟨hx, hL⟩ := List.pairwise_cons.mp h
    rcases List.mem_cons.mp hm with rfl | hmL
    · rcases List.mem_cons.mp hn with rfl | hnL
      · rfl
      · exact absurd he (Nat.ne_of_gt (hx n hnL))
    · rcases List.mem_cons.mp hn with rfl | hnL
      · exact absurd he (Nat.ne_of_lt (hx m hmL))
      · exact ih hL hmL hnL

/-- What is left when the first node that satisfies `p` is erased. -/
theorem mem_eraseP_newest {L : List (Node α)} (h : L.Pairwise fun m n => n.addr < m.addr) {p : Node α → Bool} {n : Node α}
    (hf : L.find? p = some n) {m : Node α} : m ∈ L.eraseP p ↔ m ∈ L ∧ m ≠ n := by
  rw [eraseP_eq_filter_addr h hf, List.mem_filter, decide_eq_true_eq]
  constructor
  · rintro ⟨hm, hne⟩
    exact ⟨hm, fun he => hne (congrArg Node.addr he)⟩
  · rintro ⟨hm, hne⟩
    exact ⟨hm, fun he => hne (addr_inj h hm (List.mem_of_find?_eq_some hf) he)⟩

/-- Two parts of the list with the same nodes in them are the same part. -/
theorem sublist_ext {L xs ys : List (Node α)} (h : L.Pairwise fun m n => n.addr < m.addr) (hx : xs.Sublist L)
    (hy : ys.Sublist L) (he : ∀ n, n ∈ xs ↔ n ∈ ys) : xs = ys := by
  have nodup : ∀ {zs : List (Node α)}, zs.Sublist L → zs.Nodup := fun hz =>
    (h.sublist hz).imp fun {m n} hlt e => by subst e; exact Nat.lt_irrefl _ hlt
  refine List.Perm.eq_of_pairwise (fun m n _ _ h1 h2 => ?_) (h.sublist hx) (h.sublist hy)
    ((List.perm_ext_iff_of_nodup (nodup hx) (nodup hy)).mpr he)
  exact absurd h1 (Nat.lt_asymm h2)

end Buckets

/-! ## Runs -/

section Runs

/-- The table's operations; an insert comes with what is stale at the time. -/
inductive Op (α κ : Type) where
  | insert (stale : α → Bool) (v : α)
  | lookup (k : κ)

variable {α κ : Type} [DecidableEq κ] (S : Scheme α κ)

/-- Beside the table: the nodes the operation takes out of it. -/
def Op.apply (t : Table α) : Op α κ → Except Fault (Table α × List (Node α))
  | .insert stale v => ChainTable.insert S stale v t
  | .lookup k => .ok ((ChainTable.lookup S t k).2, (ChainTable.lookup S t k).1.toList)

def run : Table α → List (Op α κ) → Except Fault (Table α)
  | t, [] => .ok t
  | t, op :: ops =>
    match op.apply S t with
    | .error e => .error e
    | .ok (t', _) => run t' ops

/-- The values inserted, in order. -/
def inserted (ops : List (Op α κ)) : List α :=
  ops.filterMap fun op => match op with
    | .insert _ v => some v
    | .lookup _ => none

/-- The nodes come from the inserts `vs`: a node's address is the number of its insert. -/
structure From (t : Table α) (L : List (Node α)) (vs : List α) : Prop where
  next : t.next = vs.length
  origin : ∀ n ∈ L, vs[n.addr]? = some n.val

variable {S} {t : Table α} {L : List (Node α)} {vs : List α}

theorem Op.apply_lists (h : Lists S t L) (hf : From t L vs) (op : Op α κ) :
    ∃ t' removed L', op.apply S t = .ok (t', removed) ∧ Lists S t' L' ∧ From t' L' (vs ++ inserted [op]) := by
  cases op with
  | insert stale v =>
    obtain ⟨t', freed, hok, hl, _, hn, _⟩ := insert_lists stale h v
    refine ⟨t', freed, _, hok, hl, ⟨by rw [hn, hf.next]; simp [inserted], fun n hmem => ?_⟩⟩
    have hmem := (sweep_sublist S.key (due S stale t.cullIndex) (⟨t.next, v⟩ :: L) []).subset hmem
    rcases List.mem_cons.mp hmem with rfl | hmem
    · simp [inserted, hf.next]
    · have ho := hf.origin n hmem
      rw [List.getElem?_append_left (List.getElem?_eq_some_iff.mp ho).1, ho]
  | lookup k =>
    obtain ⟨_, hl, _, hn⟩ := lookup_lists h k
    refine ⟨_, _, _, rfl, hl, ⟨by rw [hn, hf.next]; simp [inserted], fun n hmem => ?_⟩⟩
    simpa [inserted] using hf.origin n (List.mem_of_mem_eraseP hmem)

omit [DecidableEq κ] in
theorem inserted_cons (op : Op α κ) (ops : List (Op α κ)) : inserted (op :: ops) = inserted [op] ++ inserted ops := by
  rw [← List.singleton_append]; exact List.filterMap_append

/-- No run meets a fault, and what is in the table comes from its inserts. -/
theorem run_lists (h : Lists S t L) (hf : From t L vs) (ops : List (Op α κ)) :
    ∃ t' L', run S t ops = .ok t' ∧ Lists S t' L' ∧ From t' L' (vs ++ inserted ops) := by
  induction ops generalizing t L vs with
  | nil => exact ⟨t, L, rfl, h, by simpa [inserted] using hf⟩
  | cons op ops ih =>
    obtain ⟨t', removed, L', hok, hl, hf'⟩ := Op.apply_lists h hf op
    obtain ⟨t'', L'', hr, hl', hf''⟩ := ih hl hf'
    refine ⟨t'', L'', ?_, hl', ?_⟩
    · simp only [run, hok]; exact hr
    · rw [inserted_cons, ← List.append_assoc]; exact hf''

/-- In every insert of the run no `old` node stays in the bucket whose turn it is. -/
def Clears (S : Scheme α κ) (old : α → Bool) : Table α → List (Op α κ) → Prop
  | _, [] => True
  | t, op :: ops => ∀ t' removed, op.apply S t = .ok (t', removed) →
      (inserted [op] ≠ [] → ∀ n ∈ t'.chain t.cullIndex, old n.val = false) ∧ Clears S old t' ops

/-- `m` inserts after the turn was at `c`, the `m` buckets from `c` on hold nothing `old`. -/
structure Swept (S : Scheme α κ) (old : α → Bool) (c m : Nat) (t : Table α) (L : List (Node α)) : Prop where
  turn : t.cullIndex = (c + m) % S.size
  clear : ∀ n ∈ L, old n.val = true → ∀ i < m, S.hash (S.key n.val) ≠ (c + i) % S.size

theorem Op.apply_swept {old : α → Bool} {c m : Nat} (h : Lists S t L) (hs : Swept S old c m t L) (op : Op α κ)
    (hin : ∀ v ∈ inserted [op], old v = false)
    (hc : ∀ t' removed, op.apply S t = .ok (t', removed) →
      inserted [op] ≠ [] → ∀ n ∈ t'.chain t.cullIndex, old n.val = false) :
    ∃ t' removed L', op.apply S t = .ok (t', removed) ∧ Lists S t' L' ∧
      Swept S old c (m + (inserted [op]).length) t' L' := by
  cases op with
  | insert stale v =>
    obtain ⟨t', freed, hok, hl, hturn, _, _⟩ := insert_lists stale h v
    refine ⟨t', freed, _, hok, hl, ⟨?_, fun n hmem hold i hi => ?_⟩⟩
    · rw [hturn, hs.turn, Nat.mod_add_mod]; rfl
    · have hsub := (sweep_sublist S.key (due S stale t.cullIndex) (⟨t.next, v⟩ :: L) []).subset hmem
      rcases List.mem_cons.mp hsub with rfl | hL
      · rw [hin v (by simp [inserted])] at hold; cases hold
      · simp only [inserted, List.filterMap_cons, List.filterMap_nil, List.length_singleton] at hi
        by_cases him : i < m
        · exact hs.clear n hL hold i him
        · -- the bucket of this insert's turn
          obtain rfl : i = m := by omega
          intro hb
          rw [← hs.turn] at hb
          have := hc t' freed hok (by simp [inserted]) n (hl.mem_chain.mpr ⟨hmem, hb⟩)
          rw [this] at hold; cases hold
  | lookup k =>
    obtain ⟨_, hl, hturn, _⟩ := lookup_lists h k
    refine ⟨_, _, _, rfl, hl, ⟨by rw [hturn, hs.turn]; rfl, fun n hmem => ?_⟩⟩
    exact hs.clear n (List.mem_of_mem_eraseP hmem)

theorem run_swept {old : α → Bool} {c : Nat} (ops : List (Op α κ)) : ∀ {m : Nat} {t : Table α} {L : List (Node α)},
    Lists S t L → Swept S old c m t L → (∀ v ∈ inserted ops, old v = false) → Clears S old t ops →
    ∃ t' L', run S t ops = .ok t' ∧ Lists S t' L' ∧ Swept S old c (m + (inserted ops).length) t' L' := by
  induction ops with
  | nil => intro m t L h hs _ _; exact ⟨t, L, rfl, h, hs⟩
  | cons op ops ih =>
    intro m t L h hs hin hc
    rw [inserted_cons] at hin ⊢
    obtain ⟨t', removed, L', hok, hl, hs'⟩ := Op.apply_swept h hs op
      (fun v hv => hin v (List.mem_append_left _ hv)) (fun t' removed hok => (hc t' removed hok).1)
    obtain ⟨t'', L'', hr, hl', hs''⟩ := ih hl hs' (fun v hv => hin v (List.mem_append_right _ hv)) (hc t' removed hok).2
    refine ⟨t'', L'', by simp only [run, hok]; exact hr, hl', ?_⟩
    rw [List.length_append, ← Nat.add_assoc]; exact hs''

/-- Once the turn has gone round, nothing `old` is left. -/
theorem run_clears {old : α → Bool} (h : Lists S t L) {ops : List (Op α κ)} (hin : ∀ v ∈ inserted ops, old v = false)
    (hc : Clears S old t ops) (hlen : S.size ≤ (inserted ops).length) {t' : Table α} (hr : run S t ops = .ok t') :
    ∀ b, ∀ n ∈ t'.chain b, old n.val = false := by
  intro b n hn
  have h0 : Swept S old t.cullIndex 0 t L := ⟨by rw [Nat.add_zero, Nat.mod_eq_of_lt h.turn], nofun⟩
  obtain ⟨t'', L'', hr', hl, hs⟩ := run_swept ops h h0 hin hc
  rw [hr] at hr'
  cases hr'
  obtain ⟨hmem, rfl⟩ := hl.mem_chain.mp hn
  by_contra hold
  -- the insert whose turn was the node's bucket
  have hb := S.hash_lt (S.key n.val)
  have hc := h.turn
  refine hs.clear n hmem (by simpa using hold) ((S.hash (S.key n.val) + S.size - t.cullIndex) % S.size)
    (by have := Nat.mod_lt (S.hash (S.key n.val) + S.size - t.cullIndex) (Nat.lt_of_le_of_lt (Nat.zero_le _) hb); omega) ?_
  rw [Nat.add_mod_mod, show t.cullIndex + (S.hash (S.key n.val) + S.size - t.cullIndex) =
    S.hash (S.key n.val) + S.size by omega, Nat.add_mod_right, Nat.mod_eq_of_lt hb]

end Runs

end ChainTable
