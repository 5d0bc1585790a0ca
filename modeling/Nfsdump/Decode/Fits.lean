/-
  Nfsdump.Decode.Fits — when `print_fn3` takes a name for one that fits, and what the
  printers then do with its length.

  The padded length is computed in 32 bits and added to a pointer before it is compared with
  the end. Either can wrap: then a name that does not fit is taken. An empty name is looked
  at, though it has no first byte.

  Proved, for every length word and every cursor up to the end:
  - `erase_string`: `probedString` is `print_string` with a probe at each length that is
    hashed or decremented;
  - `lengths_string`: no length above the name's is hashed, no zero is decremented, unless the
    name is empty and hashed;
  - `print_fn3_takes_iff`: names are taken exactly when they fit, and nothing else is read,
    iff `Fair`.
-/

import Nfsdump.Decode.Names
import Nfsdump.Decode.Words

namespace Nfsdump.Decode

open Wire

variable {o : Opts} {str : Ptr}

/-! ## Probes -/

inductive Probe where
  | act (a : Act)
  /-- The length handed to `gcry_md_write`. -/
  | hash (len : UInt32)
  /-- `len` in front of `--len`. -/
  | dec (len : UInt32)

def Probe.shown : Probe → Option Act
  | .act a => some a
  | _ => none

def probedDigest (o : Opts) (str : Ptr) (len : UInt32) : Trace Probe Unit := do
  Trace.emit [.hash len]
  (printDigest o str len).embed .act

def probedComponent (o : Opts) (str : Ptr) (len : UInt32) : Trace Probe Unit :=
  if len = 0 then return ()
  else if len = 1 then do
    let c0 ← (derefByte str 0).embed .act
    if c0 = DOT then (fprintf [.lit "."]).embed .act else probedDigest o str len
  else if len = 2 then do
    let c0 ← (derefByte str 0).embed .act
    if c0 = DOT then
      let c1 ← (derefByte str 1).embed .act
      if c1 = DOT then (fprintf [.lit ".."]).embed .act else probedDigest o str len
    else probedDigest o str len
  else probedDigest o str len

def probedSegment (o : Opts) (str : Ptr) (len : UInt32) : Trace Probe Unit := do
  let c0 ← (derefByte str 0).embed .act
  if c0 = SLASH then
    (fprintf [.lit "/"]).embed .act
    Trace.emit [.dec len]
    probedComponent o (str.add 1) (len - 1)
  else probedComponent o str len

def probedSegments (o : Opts) (str : Ptr) : Nat → UInt32 → UInt32 → Trace Probe UInt32
  | 0, _, seg => pure seg
  | k + 1, i, seg => do
    let c ← (derefByte str i).embed .act
    if c = SLASH then
      Trace.when (i > 0) (probedSegment o (str.add seg) (i - seg))
      probedSegments o str k (i + 1) i
    else probedSegments o str k (i + 1) seg

def probedQuoted (o : Opts) (str : Ptr) (len : UInt32) : Trace Probe Unit :=
  if o.RAWNAMES then (printRaw str len.toNat 0).embed .act
  else do
    let seg ← probedSegments o str len.toNat 0 0
    probedSegment o (str.add seg) (len - seg)

/-- `print_string`, the lengths on the way noted. -/
def probedString (o : Opts) (str : Ptr) (len : UInt32) : Trace Probe Unit := do
  (fprintf [.lit "\""]).embed .act
  probedQuoted o str len
  (fprintf [.lit "\" "]).embed .act

theorem erase_act {α : Type} (x : Dec α) : (x.embed Probe.act).erase Probe.shown = x :=
  Trace.erase_embed (fun _ => rfl : ∀ a, Probe.shown (Probe.act a) = some a) x

theorem erase_digest (len : UInt32) : (probedDigest o str len).erase Probe.shown = printDigest o str len := by
  rw [probedDigest, Trace.erase_emit_bind (by simp [Probe.shown]), erase_act]

theorem erase_component (len : UInt32) : (probedComponent o str len).erase Probe.shown = printComponent o str len := by
  unfold probedComponent printComponent
  split
  · rfl
  split
  · rw [Trace.erase_bind, erase_act]
    congr 1
    funext c0
    split
    · exact erase_act _
    · exact erase_digest len
  split
  · rw [Trace.erase_bind, erase_act]
    congr 1
    funext c0
    split
    · rw [Trace.erase_bind, erase_act]
      congr 1
      funext c1
      split
      · exact erase_act _
      · exact erase_digest len
    · exact erase_digest len
  · exact erase_digest len

theorem erase_segment (len : UInt32) : (probedSegment o str len).erase Probe.shown = print_path_segment o str len := by
  rw [probedSegment, print_path_segment, Trace.erase_bind, erase_act]
  congr 1
  funext c0
  split
  · rw [Trace.erase_bind, erase_act]
    congr 1
    funext _
    rw [Trace.erase_emit_bind (by simp [Probe.shown]), erase_component]
  · exact erase_component len

theorem erase_segments (k : Nat) : ∀ i seg, (probedSegments o str k i seg).erase Probe.shown = printSegments o str k i seg := by
  induction k with
  | zero =>
    intro i seg
    rfl
  | succ k ih =>
    intro i seg
    rw [probedSegments, printSegments, Trace.erase_bind, erase_act]
    congr 1
    funext c
    split
    · rw [Trace.erase_bind, ih]
      congr 1
      cases decide (i > 0) with
      | true => exact erase_segment _
      | false => rfl
    · exact ih _ _

theorem erase_quoted (len : UInt32) : (probedQuoted o str len).erase Probe.shown = printQuoted o str len := by
  unfold probedQuoted printQuoted
  split
  · exact erase_act _
  · rw [Trace.erase_bind, erase_segments]
    congr 1
    funext seg
    exact erase_segment _

theorem erase_string (len : UInt32) : (probedString o str len).erase Probe.shown = print_string o str len := by
  rw [probedString, print_string, Trace.erase_bind, erase_act]
  congr 1
  funext _
  rw [Trace.erase_bind, erase_quoted]
  congr 1

/-! ## Lengths -/

/-- Hashed lengths are at most `k`, decremented ones are not zero. -/
def LengthsIn (k : UInt32) : Probe → Prop
  | .act _ => True
  | .hash len => len ≤ k
  | .dec len => len ≠ 0

theorem lengths_act {α : Type} (k : UInt32) (x : Dec α) : Trace.Only (LengthsIn k) (x.embed Probe.act) := by
  intro e he
  obtain ⟨a, -, rfl⟩ := List.mem_map.mp he
  trivial

theorem lengths_component (k len : UInt32) (h : len ≤ k) : Trace.Only (LengthsIn k) (probedComponent o str len) := by
  have hdigest : Trace.Only (LengthsIn k) (probedDigest o str len) := by
    refine Trace.only_bind.mpr ⟨Trace.only_emit.mpr ?_, fun _ _ => lengths_act k _⟩
    intro e he
    obtain rfl := List.mem_singleton.mp he
    exact h
  unfold probedComponent
  refine Trace.only_ite.mpr ⟨fun _ => Trace.only_pure _ _, fun _ => Trace.only_ite.mpr ⟨fun _ => ?_, fun _ =>
    Trace.only_ite.mpr ⟨fun _ => ?_, fun _ => hdigest⟩⟩⟩
  · exact Trace.only_bind.mpr ⟨lengths_act k _, fun _ _ => Trace.only_ite.mpr ⟨fun _ => lengths_act k _, fun _ => hdigest⟩⟩
  · refine Trace.only_bind.mpr ⟨lengths_act k _, fun _ _ => Trace.only_ite.mpr ⟨fun _ => ?_, fun _ => hdigest⟩⟩
    exact Trace.only_bind.mpr ⟨lengths_act k _, fun _ _ => Trace.only_ite.mpr ⟨fun _ => lengths_act k _, fun _ => hdigest⟩⟩

theorem lengths_segment (k len : UInt32) (hpos : 0 < len.toNat) (h : len.toNat ≤ k.toNat) :
    Trace.Only (LengthsIn k) (probedSegment o str len) := by
  have hne : len ≠ 0 := by
    rintro rfl
    exact absurd hpos (Nat.lt_irrefl 0)
  have hpred : len - 1 ≤ k := by
    rw [UInt32.le_iff_toNat_le, UInt32.toNat_sub, show (1 : UInt32).toNat = 1 from rfl]
    omega
  refine Trace.only_bind.mpr ⟨lengths_act k _, fun _ _ => Trace.only_ite.mpr ⟨fun _ => ?_, fun _ => lengths_component k len h⟩⟩
  refine Trace.only_bind.mpr ⟨lengths_act k _, fun _ _ => Trace.only_bind.mpr ⟨Trace.only_emit.mpr ?_, fun _ _ =>
    lengths_component k _ hpred⟩⟩
  intro e he
  obtain rfl := List.mem_singleton.mp he
  exact hne

/-- `k` more bytes from `i` on, the segment begun at `seg`: the segments cut on the way are not empty,
    nor is the one left. -/
theorem lengths_segments (o : Opts) (str : Ptr) (len : UInt32) (k : Nat) : ∀ (i seg : Nat), (i = 0 ∨ seg < i) → seg ≤ i →
    i + k = len.toNat → Trace.Only (LengthsIn len) (probedSegments o str k (UInt32.ofNat i) (UInt32.ofNat seg)) ∧
      ∀ v, (probedSegments o str k (UInt32.ofNat i) (UInt32.ofNat seg)).val = some v →
        ∃ s, v = UInt32.ofNat s ∧ (s = seg ∨ s < len.toNat) := by
  have hlt := len.toNat_lt
  induction k with
  | zero =>
    intro i seg _ _ _
    exact ⟨Trace.only_pure _ _, fun v hv => ⟨seg, (Option.some.inj hv).symm, Or.inl rfl⟩⟩
  | succ k ih =>
    intro i seg hseg hle hsum
    have hnext : UInt32.ofNat i + 1 = UInt32.ofNat (i + 1) := by
      rw [UInt32.ofNat_add]
      rfl
    obtain ⟨hslash, vslash⟩ := ih (i + 1) i (by omega) (by omega) (by omega)
    obtain ⟨hother, vother⟩ := ih (i + 1) seg (by omega) (by omega) (by omega)
    have hwhen : Trace.Only (LengthsIn len)
        (Trace.when (UInt32.ofNat i > 0) (probedSegment o (str.add (UInt32.ofNat seg)) (UInt32.ofNat i - UInt32.ofNat seg))) := by
      refine Trace.only_when.mpr fun hpos => ?_
      have hi := UInt32.lt_iff_toNat_lt.mp (of_decide_eq_true hpos)
      rw [toNat_ofNat_lt (by omega), show (0 : UInt32).toNat = 0 from rfl] at hi
      have hlen : (UInt32.ofNat i - UInt32.ofNat seg).toNat = i - seg := by
        rw [ofNat_sub_ofNat hle (by omega), toNat_ofNat_lt (by omega)]
      exact lengths_segment len _ (by omega) (by omega)
    rw [probedSegments, hnext]
    constructor
    · refine Trace.only_bind.mpr ⟨lengths_act len _, fun _ _ => Trace.only_ite.mpr ⟨fun _ => ?_, fun _ => hother⟩⟩
      exact Trace.only_bind.mpr ⟨hwhen, fun _ _ => hslash⟩
    · intro v hv
      obtain ⟨c, -, hv⟩ := Trace.of_val_bind hv
      by_cases hc : c = SLASH
      · rw [if_pos hc] at hv
        obtain ⟨_, -, hv⟩ := Trace.of_val_bind hv
        obtain ⟨s, hs, hs'⟩ := vslash v hv
        exact ⟨s, hs, by omega⟩
      · rw [if_neg hc] at hv
        exact vother v hv

theorem lengths_string (str : Ptr) (len : UInt32) (h : o.RAWNAMES = true ∨ len ≠ 0) :
    Trace.Only (LengthsIn len) (probedString o str len) := by
  refine Trace.only_bind.mpr ⟨lengths_act len _, fun _ _ => Trace.only_bind.mpr ⟨?_, fun _ _ => lengths_act len _⟩⟩
  refine Trace.only_ite.mpr ⟨fun _ => lengths_act len _, fun hraw => ?_⟩
  have hne : len.toNat ≠ 0 := fun h0 => h.resolve_left hraw (UInt32.toNat.inj h0)
  obtain ⟨hsegments, hval⟩ := lengths_segments o str len len.toNat 0 0 (Or.inl rfl) (Nat.le_refl 0) (Nat.zero_add _)
  refine Trace.only_bind.mpr ⟨hsegments, fun v hv => ?_⟩
  obtain ⟨s, rfl, hs⟩ := hval v hv
  have hlt := len.toNat_lt
  have hlen : (len - UInt32.ofNat s).toNat = len.toNat - s := by
    rw [UInt32.toNat_sub, toNat_ofNat_lt (by omega)]
    omega
  exact lengths_segment len _ (by omega) (by omega)

/-- The first byte is looked at, also of an empty name that is to be hashed. -/
theorem print_string_looks {P : Act → Prop} {len : UInt32} (hne : ¬ (o.RAWNAMES = true ∧ len = 0))
    (h : Trace.Only P (print_string o str len)) : P (.byte str.addr) := by
  have hquoted : Trace.Only P (printQuoted o str len) := (Trace.only_bind.mp ((Trace.only_bind_some rfl).mp h).2).1
  have hfirst : ∀ {s : Ptr}, s.addr = str.addr → Trace.Only P (derefByte s 0) → P (.byte str.addr) := by
    intro s hs hread
    rw [only_derefByte, UInt32.add_zero, hs] at hread
    exact hread
  rw [printQuoted] at hquoted
  cases hlen : len.toNat with
  | zero =>
    have h0 : len = 0 := UInt32.toNat.inj hlen
    have hraw : ¬ o.RAWNAMES = true := fun hraw => hne ⟨hraw, h0⟩
    rw [if_neg hraw, hlen, printSegments, pure_bind] at hquoted
    exact hfirst (UInt32.add_zero _) (Trace.only_bind.mp hquoted).1
  | succ k =>
    by_cases hraw : o.RAWNAMES = true
    · rw [if_pos hraw, hlen, printRaw] at hquoted
      exact hfirst rfl (Trace.only_bind.mp hquoted).1
    · rw [if_neg hraw, hlen, printSegments] at hquoted
      exact hfirst rfl (Trace.only_bind.mp (Trace.only_bind.mp hquoted).1).1

/-- What lies at `str`, taken for a name. -/
theorem nameAt_bytes (hne : str.addr ≠ 0) {len : UInt32} (hfits : str.Fits len.toNat) : NameAt str (str.bytes len) := by
  have hlen : (str.bytes len).length = len.toNat := by simp [Ptr.bytes]
  refine ⟨hne, by rwa [hlen], ?_⟩
  intro i hi
  simp [Ptr.bytes]

theorem print_string_ends (hne : str.addr ≠ 0) {len : UInt32} (hfits : str.Fits len.toNat) (h : o.RAWNAMES = true ∨ len ≠ 0) :
    (print_string o str len).val = some () := by
  have hlen : (str.bytes len).length = len.toNat := by simp [Ptr.bytes]
  have hsays := says_print_string (o := o) (nameAt_bytes hne hfits) ?_
  · rw [hlen, UInt32.ofNat_toNat] at hsays
    exact hsays.1
  · intro hnil hraw
    rw [hnil] at hlen
    rcases h with h | h
    · exact absurd (hraw.symm.trans h) Bool.false_ne_true
    · exact absurd (UInt32.toNat.inj hlen.symm) h

/-! ## Names that fit -/

/-- One past the padding of the name at `p`, without wraparound. -/
def nameEnd (p : Ptr) : Nat := p.addr.toNat + 4 + 4 * opaqueWords (p.word 0)

/-- The name at `p` fits in front of `e`. -/
def Room (p e : Ptr) : Prop := p.addr ≠ 0 ∧ nameEnd p ≤ e.addr.toNat

/-- `print_fn3` leaves `q`, and takes the name exactly when it fits: then its bytes alone are read, and
    no other length is made of its length. -/
structure Takes (o : Opts) (p e : Ptr) (print : Bool) (q : Ptr) : Prop where
  val : (print_fn3 o p e print).val = some q
  taken : q.addr ≠ 0 ↔ Room p e
  behind : Room p e → q.addr.toNat = nameEnd p
  reads : Room p e → print = true → Trace.Only (BytesIn (p.skip 1) (p.word 0).toNat) (print_string o (p.skip 1) (p.word 0))
  lengths : Room p e → print = true → Trace.Only (LengthsIn (p.word 0)) (probedString o (p.skip 1) (p.word 0))
  refused : ¬ Room p e → ∀ a, .byte a ∉ (print_fn3 o p e print).events

/-- The length word is behind the end; or neither the padded length nor its sum with the pointer wraps,
    and no empty name is hashed; or the sum wraps to NULL itself and nothing is printed. -/
def Fair (o : Opts) (p e : Ptr) (print : Bool) : Prop :=
  p.addr = 0 ∨ (p.addr.toNat + 4 < 2 ^ 32 ∧ e.addr.toNat < p.addr.toNat + 4) ∨
    (nameEnd p < 2 ^ 32 ∧ (e.addr.toNat < nameEnd p ∨ print = false ∨ o.RAWNAMES = true ∨ p.word 0 ≠ 0)) ∨
      (nameEnd p % 2 ^ 32 = 0 ∧ (print = false ∨ (o.RAWNAMES = true ∧ p.word 0 = 0)))

variable {p e q : Ptr} {print : Bool}

/-- The cursor behind the padding, as the code computes it. -/
def padEnd (p : Ptr) : Ptr := (p.skip 1).skip (UInt32.ofNat (opaqueWords (p.word 0)))

theorem padEnd_addr (p : Ptr) : (padEnd p).addr.toNat = nameEnd p % 2 ^ 32 := by
  have hwords := opaqueWords_lt (p.word 0)
  rw [padEnd, Ptr.skip_addr, Ptr.skip_addr, UInt32.toNat_add, UInt32.toNat_add, UInt32.toNat_mul, UInt32.toNat_mul,
    toNat_ofNat_lt (lt_of_le_of_lt hwords (by decide)), show (4 : UInt32).toNat = 4 from rfl,
    show (1 : UInt32).toNat = 1 from rfl, nameEnd]
  omega

theorem fn3_refuses (h : p.addr = 0 ∨ e < p.skip 1) : print_fn3 o p e print = pure .null := if_pos h

/-- The length word is there. -/
theorem fn3_reads (h0 : p.addr ≠ 0) (h1 : ¬ e < p.skip 1) :
    print_fn3 o p e print = ((⟨[.word p.addr], some (p.word 0)⟩ : Dec UInt32) >>= fun _ =>
      if e < padEnd p then do
        fprintf [.lit " ... "]
        return .null
      else do
        Trace.when print (print_string o (p.skip 1) (p.word 0))
        return padEnd p) := by
  have hread : deref p 0 = ⟨[.word p.addr], some (p.word 0)⟩ := by
    rw [deref, if_neg h0, UInt32.mul_zero, UInt32.add_zero]
  rw [print_fn3, if_neg (by rintro (h | h); exacts [h0 h, h1 h]), hread, Trace.bind_some _ rfl, Trace.bind_some _ rfl]
  simp only [tot_len_eq]
  rfl

theorem fn3_takes (h0 : p.addr ≠ 0) (h1 : ¬ e < p.skip 1) (h2 : ¬ e < padEnd p) :
    print_fn3 o p e print = ((⟨[.word p.addr], some (p.word 0)⟩ : Dec UInt32) >>= fun _ =>
      Trace.when print (print_string o (p.skip 1) (p.word 0)) >>= fun _ => pure (padEnd p)) := by
  rw [fn3_reads h0 h1, if_neg h2]

/-- There is room, and the name is taken: all that can go wrong is an empty name. -/
theorem takes_room (hend : nameEnd p ≤ e.addr.toNat) (h0 : p.addr ≠ 0) (h1 : ¬ e < p.skip 1) (h2 : ¬ e < padEnd p) :
    (∃ q, Takes o p e print q) ↔ (print = false ∨ o.RAWNAMES = true ∨ p.word 0 ≠ 0) := by
  have hE := e.addr.toNat_lt
  have hroom : Room p e := ⟨h0, hend⟩
  have hpad : (padEnd p).addr.toNat = nameEnd p := by
    rw [padEnd_addr, Nat.mod_eq_of_lt (by omega)]
  have hname : p.addr.toNat + 4 + (p.word 0).toNat ≤ nameEnd p := by
    unfold nameEnd opaqueWords
    omega
  have hstr : (p.skip 1).addr.toNat = p.addr.toNat + 4 := by
    rw [Ptr.skip_addr, UInt32.toNat_add, show ((4 : UInt32) * 1).toNat = 4 from rfl]
    omega
  constructor
  · rintro ⟨q, hq⟩
    by_contra hnot
    push Not at hnot
    obtain ⟨hprint, hraw, hempty⟩ := hnot
    have hread := print_string_looks (by simp [hraw]) (hq.reads hroom (by simpa using hprint))
    obtain ⟨j, hj, -⟩ := hread
    rw [hempty] at hj
    exact absurd hj (Nat.not_lt_zero j)
  · intro h
    have hval : (Trace.when print (print_string o (p.skip 1) (p.word 0))).val = some () := by
      cases print with
      | false => rfl
      | true =>
        refine print_string_ends ?_ ?_ (h.resolve_left (by simp))
        · intro hz
          rw [hz] at hstr
          exact absurd hstr (by rw [show (0 : UInt32).toNat = 0 from rfl]; omega)
        · unfold Ptr.Fits
          omega
    refine ⟨padEnd p, ?_, iff_of_true ?_ hroom, fun _ => hpad, fun _ hprint => ?_, fun _ hprint => ?_, fun hx => absurd hroom hx⟩
    · rw [fn3_takes h0 h1 h2, Trace.val_bind _ rfl, Trace.val_bind _ hval]
      rfl
    · intro hz
      rw [hz, show (0 : UInt32).toNat = 0 from rfl, nameEnd] at hpad
      omega
    · have hor := h.resolve_left (by simp [hprint])
      refine bytes_print_string _ _ (hor.symm.imp_left fun hne => Nat.pos_of_ne_zero fun hz => hne (UInt32.toNat.inj hz))
    · exact lengths_string _ _ (h.resolve_left (by simp [hprint]))

/-- The sum wraps, and the name is taken although there is no room. -/
theorem takes_wrapped (hend : 2 ^ 32 ≤ nameEnd p) (h0 : p.addr ≠ 0) (h1 : ¬ e < p.skip 1) (h2 : ¬ e < padEnd p) :
    (∃ q, Takes o p e print q) ↔
      nameEnd p % 2 ^ 32 = 0 ∧ (print = false ∨ (o.RAWNAMES = true ∧ p.word 0 = 0)) := by
  have hE := e.addr.toNat_lt
  have hroom : ¬ Room p e := fun hx => by
    have := hx.2
    omega
  have hpad := padEnd_addr p
  have hnull : (padEnd p).addr = 0 ↔ nameEnd p % 2 ^ 32 = 0 := by
    rw [← hpad, ← UInt32.toNat_inj]
    rfl
  constructor
  · rintro ⟨q, hq⟩
    have hval := hq.val
    have hbytes := hq.refused hroom
    rw [fn3_takes h0 h1 h2] at hval hbytes
    obtain ⟨_, -, hval⟩ := Trace.of_val_bind hval
    obtain ⟨_, -, hval⟩ := Trace.of_val_bind hval
    obtain rfl : padEnd p = q := Option.some.inj hval
    refine ⟨hnull.mp (not_not.mp fun hx => hroom (hq.taken.mp hx)), ?_⟩
    by_contra hnot
    push Not at hnot
    have hprint : print = true := by simpa using hnot.1
    have honly : Trace.Only (· ≠ Act.byte (p.skip 1).addr) (print_string o (p.skip 1) (p.word 0)) := by
      intro a ha heq
      subst heq
      refine hbytes (p.skip 1).addr ?_
      rw [hprint, Trace.bind_some _ rfl, Trace.when_true]
      refine List.mem_append_right _ ?_
      cases hs : (print_string o (p.skip 1) (p.word 0)).val with
      | none => rwa [Trace.bind_none _ hs]
      | some u =>
        rw [Trace.bind_some _ hs]
        exact List.mem_append_left _ ha
    exact print_string_looks (fun hx => hnot.2 hx.1 hx.2) honly rfl
  · rintro ⟨hz, hsilent⟩
    have hrun : (Trace.when print (print_string o (p.skip 1) (p.word 0))).val = some () ∧
        ∀ a, .byte a ∉ (Trace.when print (print_string o (p.skip 1) (p.word 0))).events := by
      cases print with
      | false => exact ⟨rfl, by simp⟩
      | true =>
        obtain ⟨hraw, hempty⟩ := hsilent.resolve_left (by simp)
        rw [Trace.when_true, print_string, printQuoted, if_pos hraw, hempty]
        exact ⟨rfl, fun a => by rw [show (0 : UInt32).toNat = 0 from rfl, printRaw]; simp [fprintf, Trace.emit_bind]⟩
    refine ⟨padEnd p, ?_, iff_of_false (not_not.mpr (hnull.mpr hz)) hroom, fun hx => absurd hx hroom, fun hx => absurd hx hroom,
      fun hx => absurd hx hroom, fun _ a => ?_⟩
    · rw [fn3_takes h0 h1 h2, Trace.val_bind _ rfl, Trace.val_bind _ hrun.1]
      rfl
    · rw [fn3_takes h0 h1 h2, Trace.bind_some _ rfl, Trace.bind_some _ hrun.1]
      simpa using hrun.2 a

/-- NULL is left without a look at the name. -/
theorem takes_null (hroom : ¬ Room p e) (hval : (print_fn3 o p e print).val = some .null)
    (hbytes : ∀ a, .byte a ∉ (print_fn3 o p e print).events) : ∃ q, Takes o p e print q :=
  ⟨.null, hval, iff_of_false (not_not.mpr rfl) hroom, fun hx => absurd hx hroom, fun hx => absurd hx hroom,
    fun hx => absurd hx hroom, fun _ => hbytes⟩

/-- Names are taken exactly when they fit, in the fair cases and in no others. -/
theorem print_fn3_takes_iff (o : Opts) (p e : Ptr) (print : Bool) (hle : p.addr ≤ e.addr) :
    (∃ q, Takes o p e print q) ↔ Fair o p e print := by
  have hwords := opaqueWords_lt (p.word 0)
  have hA := p.addr.toNat_lt
  have hE := e.addr.toNat_lt
  have hAE := UInt32.le_iff_toNat_le.mp hle
  have hnext : (p.skip 1).addr.toNat = (p.addr.toNat + 4) % 2 ^ 32 := by
    rw [Ptr.skip_addr, UInt32.toNat_add]
    rfl
  have hlt : ∀ r : Ptr, e < r ↔ e.addr.toNat < r.addr.toNat := fun r => UInt32.lt_iff_toNat_lt
  have hzero : p.addr = 0 ↔ p.addr.toNat = 0 := UInt32.toNat_inj.symm
  by_cases h1 : p.addr = 0 ∨ e < p.skip 1
  · have hstop : print_fn3 o p e print = pure .null := fn3_refuses h1
    have hroom : ¬ Room p e := by
      rintro ⟨h0, hend⟩
      have := (hlt _).mp (h1.resolve_left h0)
      unfold nameEnd at hend
      omega
    refine iff_of_true (takes_null hroom (by rw [hstop]; rfl) (by rw [hstop]; simp)) ?_
    rcases h1 with h1 | h1
    · exact Or.inl h1
    · have := (hlt _).mp h1
      exact Or.inr (Or.inl (by omega))
  · rw [not_or] at h1
    obtain ⟨h0, h1⟩ := h1
    have hA0 : p.addr.toNat ≠ 0 := fun hx => h0 (hzero.mpr hx)
    have hstart : ¬ e.addr.toNat < (p.addr.toNat + 4) % 2 ^ 32 := by
      rw [← hnext, ← hlt]
      exact h1
    by_cases h2 : e < padEnd p
    · have hend := (hlt _).mp h2
      rw [padEnd_addr, nameEnd] at hend
      have hroom : ¬ Room p e := by
        rintro ⟨-, hx⟩
        unfold nameEnd at hx
        omega
      refine iff_of_true (takes_null hroom ?_ ?_) ?_
      · rw [fn3_reads h0 h1, if_pos h2]
        rfl
      · rw [fn3_reads h0 h1, if_pos h2, Trace.bind_some _ rfl]
        intro a
        show Act.byte a ∉ [.word p.addr, .put (.lit " ... ")]
        simp
      · refine Or.inr (Or.inr (Or.inl ⟨?_, Or.inl ?_⟩))
        · unfold nameEnd
          omega
        · unfold nameEnd
          omega
    · have hend : ¬ e.addr.toNat < nameEnd p % 2 ^ 32 := by
        rw [← padEnd_addr, ← hlt]
        exact h2
      by_cases hwrap : nameEnd p < 2 ^ 32
      · have hle' : nameEnd p ≤ e.addr.toNat := by omega
        have hpos : 0 < nameEnd p := by
          unfold nameEnd
          omega
        have hbehind : ¬ (p.addr.toNat + 4 < 2 ^ 32 ∧ e.addr.toNat < p.addr.toNat + 4) := by omega
        rw [takes_room hle' h0 h1 h2, Fair]
        constructor
        · intro h
          exact Or.inr (Or.inr (Or.inl ⟨hwrap, Or.inr h⟩))
        · rintro (h | h | ⟨-, h | h⟩ | ⟨h, -⟩)
          · exact absurd h h0
          · exact absurd h hbehind
          · omega
          · exact h
          · omega
      · have hbehind : ¬ (p.addr.toNat + 4 < 2 ^ 32 ∧ e.addr.toNat < p.addr.toNat + 4) := by omega
        rw [takes_wrapped (by omega) h0 h1 h2, Fair]
        constructor
        · intro h
          exact Or.inr (Or.inr (Or.inr h))
        · rintro (h | h | h | h)
          · exact absurd h h0
          · exact absurd h hbehind
          · exact absurd h.1 hwrap
          · exact h

theorem print_fn3_takes_sample :
    (∃ q, Takes ⟨false, false, false, fun _ => []⟩ (Ptr.placed 0x8050000 [0, 0, 0, 1, 97, 0, 0, 0]) (Ptr.placed 0x8050008 []) true q) ↔
      Fair ⟨false, false, false, fun _ => []⟩ (Ptr.placed 0x8050000 [0, 0, 0, 1, 97, 0, 0, 0]) (Ptr.placed 0x8050008 []) true :=
  print_fn3_takes_iff _ _ _ _ (by decide)

/-- An empty name that is to be hashed is looked at behind the end; a name of 2³² − 1 bytes fits in none. -/
theorem name_overread :
    (¬ ∃ q, Takes ⟨false, false, false, fun _ => []⟩ (Ptr.placed 0x8050000 [0, 0, 0, 0]) (Ptr.placed 0x8050004 []) true q) ∧
      ¬ ∃ q, Takes ⟨false, false, false, fun _ => []⟩ (Ptr.placed 0x8050000 [255, 255, 255, 255]) (Ptr.placed 0x8050004 [])
        true q := by
  constructor
  · rw [takes_room (by decide) (by decide) (by decide) (by decide)]
    decide
  · rw [takes_wrapped (by decide) (by decide) (by decide) (by decide)]
    decide

end Nfsdump.Decode
