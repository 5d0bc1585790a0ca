/-
  Nfsdump.Pathtree.Quoting — what the printers write is in the format pathtree reads.

  `Keeps P x Q` is about the text of a printer that ends: it takes a reader in a mode of `P`
  to one of `Q`. Only names are printed in quotes, each behind a label and its blank, and
  nothing in them ends the quotes; a printer that prints no name is `Bare`.

  Proved, for any payload:
  - `keeps_print_string`: a name is one cell, read to its end;
  - `keeps_v3_call` .. `keeps_v2_resp`: the four printers leave the reader between or in
    cells without quotes.
-/

import Nfsdump.Decode.Text
import Nfsdump.Decode.V2
import Nfsdump.Pathtree.Csv

namespace Nfsdump.Pathtree

open Wire Decode

/-! ## Modes a printer keeps -/

def Mode.Fresh (m : Mode) : Prop := m = .start

/-- Between cells, or in one without quotes. -/
def Mode.Open (m : Mode) : Prop := m = .start ∨ ∃ w, m = .plain w

def Mode.Quoted (m : Mode) : Prop := ∃ w, m = .quoted w

theorem Mode.Fresh.toOpen {m : Mode} (h : m.Fresh) : m.Open := Or.inl h

theorem open_start : Mode.start.Open := Or.inl rfl
theorem open_plain (w : Cell) : (Mode.plain w).Open := Or.inr ⟨w, rfl⟩

def Keeps (P : Mode → Prop) {α : Type} (x : Dec α) (Q : Mode → Prop) : Prop :=
  x.val ≠ none → ∀ m, P m → ∃ m' done, run m (text (out x)) = some (m', done) ∧ Q m'

variable {P Q R : Mode → Prop} {α β : Type} {x : Dec α}

theorem Keeps.bind {f : α → Dec β} (hx : Keeps P x Q) (hf : ∀ a, Keeps Q (f a) R) : Keeps P (x >>= f) R := by
  intro hval m hm
  obtain ⟨b, hb⟩ := Option.ne_none_iff_exists'.mp hval
  obtain ⟨a, ha, hfa⟩ := Trace.of_val_bind hb
  obtain ⟨m₁, done₁, h₁, hq⟩ := hx (by rw [ha]; nofun) m hm
  obtain ⟨m₂, done₂, h₂, hr⟩ := hf a (by rw [hfa]; nofun) m₁ hq
  refine ⟨m₂, done₁ ++ done₂, ?_, hr⟩
  rw [out_bind f ha, text_append, run_append_some h₁, h₂]
  rfl

theorem keeps_pure (a : α) (h : ∀ m, P m → Q m) : Keeps P (pure a : Dec α) Q := fun _ m hm => ⟨m, [], rfl, h m hm⟩

theorem Keeps.mono {P' Q' : Mode → Prop} (hx : Keeps P x Q) (hp : ∀ m, P' m → P m) (hq : ∀ m, Q m → Q' m) : Keeps P' x Q' :=
  fun hval m hm => by
    obtain ⟨m', done, hrun, hm'⟩ := hx hval m (hp m hm)
    exact ⟨m', done, hrun, hq m' hm'⟩

/-- A printer that may be used in any open mode may be used in a fresh one. -/
theorem Keeps.fresh (hx : Keeps Mode.Open x Q) : Keeps Mode.Fresh x Q := hx.mono (fun _ h => h.toOpen) fun _ h => h

theorem Keeps.opens (hx : Keeps P x Mode.Fresh) : Keeps P x Mode.Open := hx.mono (fun _ h => h) fun _ h => h.toOpen

theorem keeps_when {x : Dec Unit} (b : Bool) (hx : Keeps P x P) : Keeps P (Trace.when b x) P := by
  cases b with
  | true => exact hx
  | false => exact keeps_pure () fun _ h => h

theorem keeps_ite {y : Dec α} {c : Prop} [Decidable c] (hx : Keeps P x Q) (hy : Keeps P y Q) : Keeps P (if c then x else y) Q := by
  split
  · exact hx
  · exact hy

/-! ## Text without quotes -/

def bareChar (c : Char) : Bool := c = ' ' || ordinary c

def bareText (cs : List Char) : Bool := cs.all bareChar

/-- The conversions print numerals. -/
def bare : Piece → Bool
  | .lit s => bareText s.toList
  | .sLeft _ s => bareText s.toList
  | .c b => bareChar (Char.ofNat b.toNat)
  | _ => true

@[simp] theorem bare_x (w : UInt32) : bare (.x w) = true := rfl
@[simp] theorem bare_x0 (n : Nat) (w : UInt32) : bare (.x0 n w) = true := rfl
@[simp] theorem bare_X02 (b : UInt8) : bare (.X02 b) = true := rfl
@[simp] theorem bare_xLeft (n : Nat) (w : UInt32) : bare (.xLeft n w) = true := rfl
@[simp] theorem bare_xRight (n : Nat) (w : UInt32) : bare (.xRight n w) = true := rfl
@[simp] theorem bare_u (w : UInt32) : bare (.u w) = true := rfl
@[simp] theorem bare_u0 (n : Nat) (w : UInt32) : bare (.u0 n w) = true := rfl
@[simp] theorem bare_d (i : Int32) : bare (.d i) = true := rfl
@[simp] theorem bare_dLeft (n : Nat) (i : Int32) : bare (.dLeft n i) = true := rfl

def IsBare : Act → Prop
  | .put c => bare c = true
  | _ => True

@[simp] theorem isBare_word (a : UInt32) : IsBare (.word a) := trivial
@[simp] theorem isBare_byte (a : UInt32) : IsBare (.byte a) := trivial
@[simp] theorem isBare_count3 (c : Count Proc3) : IsBare (.count3 c) := trivial
@[simp] theorem isBare_count2 (c : Count Proc2) : IsBare (.count2 c) := trivial
@[simp] theorem isBare_put (c : Piece) : IsBare (.put c) ↔ bare c = true := Iff.rfl

abbrev Bare (x : Dec α) : Prop := Trace.Only IsBare x

theorem bareChar_digit {d : Nat} (h : d < 16) : bareChar d.digitChar = true := by
  interval_cases d <;> decide

theorem bareText_append (cs ds : List Char) : bareText (cs ++ ds) = (bareText cs && bareText ds) := List.all_append

theorem bareText_replicate {c : Char} (h : bareChar c = true) (n : Nat) : bareText (List.replicate n c) = true :=
  List.all_eq_true.mpr fun _ hd => by rw [List.eq_of_mem_replicate hd, h]

theorem bareText_toDigits {b n : Nat} (hb : 1 < b) (hb' : b ≤ 16) : bareText (Nat.toDigits b n) = true :=
  List.all_eq_true.mpr fun c hc => by
    obtain ⟨d, hd, rfl⟩ := Digits.mem_toDigits hb hc
    exact bareChar_digit (by omega)

theorem bareText_hex (n : Nat) : bareText (hex n) = true := bareText_toDigits (by decide) (by decide)

theorem bareText_dec (n : Nat) : bareText (dec n) = true := bareText_toDigits (by decide) (by decide)

theorem bareText_decInt (i : Int32) : bareText (decInt i) = true := by
  unfold decInt
  split
  · show (bareChar '-' && bareText (dec _)) = true
    rw [bareText_dec]
    decide
  · exact bareText_dec _

theorem bareText_padLeft {c : Char} (hc : bareChar c = true) {cs : List Char} (h : bareText cs = true) (n : Nat) :
    bareText (padLeft n c cs) = true := by
  rw [padLeft, bareText_append, bareText_replicate hc, h]
  rfl

theorem bareText_padRight {cs : List Char} (h : bareText cs = true) (n : Nat) : bareText (padRight n cs) = true := by
  rw [padRight, bareText_append, bareText_replicate (by decide), h]
  rfl

/-- Upper case is for digits only. -/
theorem bareText_X02 (b : UInt8) : bareText (Piece.text (.X02 b)) = true := by
  have upper : ∀ d < 16, bareChar (Nat.digitChar d).toUpper = true := by decide
  refine List.all_eq_true.mpr fun c hc => ?_
  obtain ⟨c', hc', rfl⟩ := List.mem_map.mp hc
  rcases List.mem_append.mp hc' with h | h
  · rw [List.eq_of_mem_replicate h]
    decide
  · obtain ⟨d, hd, rfl⟩ := Digits.mem_toDigits (by decide) h
    exact upper d hd

theorem bareText_piece {p : Piece} (h : bare p = true) : bareText p.text = true := by
  cases p with
  | lit s => exact h
  | x w => exact bareText_hex _
  | x0 n w => exact bareText_padLeft (by decide) (bareText_hex _) n
  | X02 b => exact bareText_X02 b
  | xLeft n w => exact bareText_padRight (bareText_hex _) n
  | xRight n w => exact bareText_padLeft (by decide) (bareText_hex _) n
  | u w => exact bareText_dec _
  | u0 n w => exact bareText_padLeft (by decide) (bareText_dec _) n
  | d i => exact bareText_decInt i
  | dLeft n i => exact bareText_padRight (bareText_decInt i) n
  | sLeft n s => exact bareText_padRight h n
  | c b =>
    show (bareChar _ && true) = true
    rw [Bool.and_true]
    exact h

theorem bareText_text {ps : List Piece} (h : ∀ p ∈ ps, bare p = true) : bareText (text ps) = true := by
  induction ps with
  | nil => rfl
  | cons p ps ih =>
    rw [List.forall_mem_cons] at h
    rw [text_cons, bareText_append, bareText_piece h.1, ih h.2]
    rfl

theorem Bare.text (h : Bare x) : bareText (Decode.text (out x)) = true := by
  refine bareText_text fun p hp => ?_
  obtain ⟨e, he, hpe⟩ := List.mem_filterMap.mp hp
  cases e with
  | put c =>
    cases hpe
    exact h _ he
  | _ => cases hpe

theorem next_bare {m : Mode} (hm : m.Open) {c : Char} (hc : bareChar c = true) :
    ∃ m' done, m.next c = some (m', done) ∧ m'.Open := by
  by_cases hb : c = ' '
  · subst hb
    rcases hm with rfl | ⟨w, rfl⟩
    · exact ⟨_, _, rfl, open_start⟩
    · exact ⟨_, _, rfl, open_start⟩
  · have ho : ordinary c = true := by
      rw [bareChar, Bool.or_eq_true, decide_eq_true_eq] at hc
      exact hc.resolve_left hb
    rcases hm with rfl | ⟨w, rfl⟩
    · exact ⟨_, _, next_ordinary ho, open_plain _⟩
    · refine ⟨.plain (w ++ [c]), [], ?_, open_plain _⟩
      rw [Mode.next, if_neg hb, if_pos ho]

theorem run_bare {cs : List Char} (h : bareText cs = true) : ∀ m : Mode, m.Open →
    ∃ m' done, run m cs = some (m', done) ∧ m'.Open := by
  induction cs with
  | nil => exact fun m hm => ⟨m, [], rfl, hm⟩
  | cons c cs ih =>
    intro m hm
    rw [bareText, List.all_cons, Bool.and_eq_true] at h
    obtain ⟨m₁, done₁, h₁, ho⟩ := next_bare hm h.1
    obtain ⟨m₂, done₂, h₂, ho₂⟩ := ih h.2 m₁ ho
    refine ⟨m₂, done₁ ++ done₂, ?_, ho₂⟩
    rw [run, h₁]
    simp only [h₂, Option.map_some]

/-- A printer without names. -/
theorem Bare.keeps (h : Bare x) : Keeps Mode.Open x Mode.Open := fun _ m hm => run_bare h.text m hm

/-- Behind a blank the reader is between cells. -/
theorem keeps_label {ps : List Piece} (cs : List Char) (h : bareText cs = true) (hps : text ps = cs ++ [' ']) :
    Keeps Mode.Open (fprintf ps) Mode.Fresh := by
  intro _ m hm
  obtain ⟨m', done, hrun, ho⟩ := run_bare h m hm
  rw [out_fprintf, hps, run_append_some hrun]
  rcases ho with rfl | ⟨w, rfl⟩
  · exact ⟨_, _, rfl, rfl⟩
  · exact ⟨_, _, rfl, rfl⟩

theorem keeps_lit {s : String} (h : bareText s.toList = true) : Keeps Mode.Open (fprintf [.lit s, .lit " "]) Mode.Fresh :=
  keeps_label _ h (by simp [Piece.text])

/-! ## Names -/

/-- A character that stands for itself in quotes. -/
def inQuotes (c : Char) : Bool := c ≠ '"' && c ≠ '\\' && !isBreak c

theorem next_inQuotes {c : Char} (h : inQuotes c = true) (w : Cell) : (Mode.quoted w).next c = some (.quoted (w ++ [c]), []) := by
  simp only [inQuotes, Bool.and_eq_true, decide_eq_true_eq, Bool.not_eq_true'] at h
  rw [Mode.next, if_neg h.1.1, if_neg h.1.2, h.2, if_neg Bool.false_ne_true]

theorem run_inQuotes {cs : List Char} (h : ∀ c ∈ cs, inQuotes c = true) (w : Cell) :
    run (.quoted w) cs = some (.quoted (w ++ cs), []) := by
  induction cs generalizing w with
  | nil => rw [List.append_nil]; rfl
  | cons c cs ih =>
    rw [List.forall_mem_cons] at h
    rw [run, next_inQuotes h.1]
    simp only [ih h.2, Option.map_some, List.append_assoc]
    rfl

theorem inQuotes_of_bare {c : Char} (h : bareChar c = true) : inQuotes c = true := by
  rw [bareChar, Bool.or_eq_true, decide_eq_true_eq] at h
  rcases h with rfl | h
  · decide
  · simp only [ordinary, Bool.and_eq_true, decide_eq_true_eq, Bool.not_eq_true'] at h
    have hbreak : isBreak c = false := by
      rw [isBreak, Bool.or_eq_false_iff, decide_eq_false_iff_not, decide_eq_false_iff_not]
      constructor
      · rintro rfl
        exact absurd h.1.1 (by decide)
      · rintro rfl
        exact absurd h.1.1 (by decide)
    rw [inQuotes, hbreak]
    simp [h.1.2, h.2]

/-- Segments are digits, dots and slashes. -/
theorem Bare.quoted (h : Bare x) : Keeps Mode.Quoted x Mode.Quoted := by
  rintro - m ⟨w, rfl⟩
  exact ⟨_, _, run_inQuotes (fun c hc => inQuotes_of_bare (List.all_eq_true.mp h.text c hc)) w, _, rfl⟩

theorem inQuotes_raw (b : UInt8) (h : ¬ (b = 34 ∨ b = 92 ∨ isspace b = true)) : inQuotes (Char.ofNat b.toNat) = true := by
  have small : ∀ n < 256, ¬ (UInt8.ofNat n = 34 ∨ UInt8.ofNat n = 92 ∨ isspace (UInt8.ofNat n) = true) →
      inQuotes (Char.ofNat (UInt8.ofNat n).toNat) = true := by decide +kernel
  exact byte_forall (P := fun b => ¬ (b = 34 ∨ b = 92 ∨ isspace b = true) → inQuotes (Char.ofNat b.toNat) = true) small b h

/-- An escaped byte: its digits end no escape the reader knows. -/
theorem run_escaped (b : UInt8) (w : Cell) : run (.quoted w) (text [.lit "\\", .x0 2 b.toUInt32]) =
    some (.quoted (w ++ text [.lit "\\", .x0 2 b.toUInt32]), []) := by
  have small : ∀ n < 256, ∃ c d, text [.lit "\\", .x0 2 (UInt8.ofNat n).toUInt32] = ['\\', c, d] ∧
      ¬ (c = '"' ∨ c = '\\') ∧ isBreak c = false ∧ inQuotes d = true := by
    intro n hn
    have two : text [.lit "\\", .x0 2 (UInt8.ofNat n).toUInt32] = '\\' :: Digits.fixed 16 2 n := by
      have hw : (UInt8.ofNat n).toUInt32.toNat = n := by
        rw [UInt8.toNat_toUInt32, UInt8.toNat_ofNat']
        exact Nat.mod_eq_of_lt hn
      rw [text_cons, text_cons, text_nil, List.append_nil, text_x0 (by decide) (by rw [hw]; exact hn), hw]
      rfl
    refine ⟨(n / 16 % 16).digitChar, (n % 16).digitChar, two, ?_⟩
    have digit : ∀ d < 16, ¬ (Nat.digitChar d = '"' ∨ Nat.digitChar d = '\\') ∧ isBreak (Nat.digitChar d) = false ∧
        inQuotes (Nat.digitChar d) = true := by decide
    exact ⟨(digit _ (Nat.mod_lt _ (by decide))).1, (digit _ (Nat.mod_lt _ (by decide))).2.1, (digit _ (Nat.mod_lt _ (by decide))).2.2⟩
  obtain ⟨c, d, htext, hc, hbreak, hd⟩ := byte_forall (P := fun b => ∃ c d, text [.lit "\\", .x0 2 b.toUInt32] = ['\\', c, d] ∧
    ¬ (c = '"' ∨ c = '\\') ∧ isBreak c = false ∧ inQuotes d = true) small b
  rw [htext, run]
  have hslash : (Mode.quoted w).next '\\' = some (.escape w, []) := rfl
  rw [hslash]
  have hnext : (Mode.escape w).next c = some (.quoted (w ++ ['\\', c]), []) := by
    rw [Mode.next, if_neg hc, hbreak, if_neg Bool.false_ne_true]
  simp only [run, hnext, next_inQuotes hd, Option.map_some, List.append_assoc]
  rfl

theorem keeps_rawPieces (b : UInt8) :
    Keeps Mode.Quoted (fprintf (if b = 34 ∨ b = 92 ∨ isspace b then [.lit "\\", .x0 2 b.toUInt32] else [.c b])) Mode.Quoted := by
  rintro - m ⟨w, rfl⟩
  rw [out_fprintf]
  split
  · exact ⟨_, _, run_escaped b w, _, rfl⟩
  · next h =>
    refine ⟨_, _, run_inQuotes (fun c hc => ?_) w, _, rfl⟩
    rw [text_cons, text_nil, List.append_nil] at hc
    rw [List.mem_singleton.mp hc]
    exact inQuotes_raw b h

theorem keeps_silent (hx : out x = []) : Keeps P x P := fun _ m hm => ⟨m, [], by rw [hx]; rfl, hm⟩

variable {o : Opts} {b : Args} {lib : XdrLib}

theorem keeps_printRaw (str : Ptr) (k : Nat) : ∀ i, Keeps Mode.Quoted (printRaw str k i) Mode.Quoted := by
  induction k with
  | zero => exact fun i => keeps_pure _ fun _ h => h
  | succ k ih => exact fun i => (keeps_silent rfl).bind fun c => (keeps_rawPieces c).bind fun _ => ih (i + 1)

@[simp] theorem bare_printDigest (str : Ptr) (len : UInt32) : Bare (printDigest o str len) := by simp [printDigest, bare]

@[simp] theorem bare_printComponent (str : Ptr) (len : UInt32) : Bare (printComponent o str len) := by
  have dots : bare (.lit ".") = true ∧ bare (.lit "..") = true := by decide
  simp [printComponent, dots]

@[simp] theorem bare_path_segment (str : Ptr) (len : UInt32) : Bare (print_path_segment o str len) := by
  have slash : bare (.lit "/") = true := by decide
  simp [print_path_segment, slash]

theorem bare_printSegments (str : Ptr) (k : Nat) : ∀ i seg, Bare (printSegments o str k i seg) := by
  induction k with
  | zero => intro i seg; simp [printSegments]
  | succ k ih => intro i seg; simp [printSegments, ih]

theorem keeps_printQuoted (str : Ptr) (len : UInt32) : Keeps Mode.Quoted (printQuoted o str len) Mode.Quoted := by
  unfold printQuoted
  split
  · exact keeps_printRaw str _ 0
  · exact (bare_printSegments str _ 0 0).quoted.bind fun seg => (bare_path_segment _ _).quoted

/-- A name is one cell. -/
theorem keeps_print_string (str : Ptr) (len : UInt32) : Keeps Mode.Fresh (print_string o str len) Mode.Fresh := by
  have opening : Keeps Mode.Fresh (fprintf [.lit "\""]) Mode.Quoted := by
    rintro - m rfl
    exact ⟨_, _, rfl, _, rfl⟩
  have closing : Keeps Mode.Quoted (fprintf [.lit "\" "]) Mode.Fresh := by
    rintro - m ⟨w, rfl⟩
    exact ⟨_, _, rfl, rfl⟩
  exact opening.bind fun _ => (keeps_printQuoted str len).bind fun _ => closing

/-! ## Scalars, handles and attributes -/

theorem bare_uint64Pieces (hi lo : UInt32) : ∀ c ∈ uint64Pieces hi lo, bare c = true := by
  unfold uint64Pieces
  split <;> simp +decide

@[simp] theorem bare_fprintfUint64 (hi lo : UInt32) : Bare (fprintfUint64 hi lo) := only_fprintf.mpr (bare_uint64Pieces hi lo)

@[simp] theorem bare_fprintfTime3 (s n : UInt32) : Bare (fprintfTime3 s n) := by
  simp +decide [fprintfTime3, time3Pieces]

@[simp] theorem bare_print_uint32_val (p e : Ptr) (print : Bool) (val : Option UInt32) : Bare (print_uint32_val p e print val) := by
  cases val <;> simp +decide [print_uint32_val]

@[simp] theorem bare_print_uint32 (p e : Ptr) (print : Bool) : Bare (print_uint32 p e print) := by
  simp [print_uint32]

@[simp] theorem bare_print_uint64 (p e : Ptr) (print : Bool) : Bare (print_uint64 p e print) := by
  simp [print_uint64]

@[simp] theorem bare_print_nfstime3 (p e : Ptr) (print : Bool) : Bare (print_nfstime3 p e print) := by
  simp [print_nfstime3]

theorem bare_stable (how : UInt32) : bare (.c (stableLetter how)) = true := by
  unfold stableLetter
  split
  · decide
  split
  · decide
  split
  · decide
  · decide

@[simp] theorem bare_print_stable3 (p e : Ptr) (print : Bool) : Bare (print_stable3 p e print) := by
  simp +decide [print_stable3, bare_stable]

@[simp] theorem bare_printWords (p : Ptr) (k : Nat) : ∀ i, Bare (printWords p k i) := by
  induction k with
  | zero => intro i; simp [printWords]
  | succ k ih => intro i; simp [printWords, ih, bare]

@[simp] theorem bare_print_fh3 (p e : Ptr) (print : Bool) : Bare (print_fh3 p e print) := by
  simp +decide [print_fh3]

@[simp] theorem bare_printFields (fs : List (String × Scalar)) (h : ∀ f ∈ fs, bareText f.1.toList = true) (e : Ptr) (print : Bool) :
    ∀ p, Bare (printFields fs p e print) := by
  have scalar : ∀ (s : Scalar) p, Bare (s.print p e print) := fun s p => by cases s <;> simp [Scalar.print]
  induction fs with
  | nil => intro p; simp [printFields]
  | cons f fs ih =>
    rw [List.forall_mem_cons] at h
    intro p
    simp [printFields, bare, h.1, scalar, ih h.2]

@[simp] theorem bare_print_fattr3 (p e : Ptr) (print : Bool) : Bare (print_fattr3 p e print) := by
  have fields := bare_printFields fattr3Fields (by decide) e print
  simp [print_fattr3, fields]

@[simp] theorem bare_print_post_op_attr3 (p e : Ptr) (print : Bool) : Bare (print_post_op_attr3 p e print) := by
  simp [print_post_op_attr3]

@[simp] theorem bare_print_post_op_fh3 (p e : Ptr) (print : Bool) : Bare (print_post_op_fh3 p e print) := by
  simp [print_post_op_fh3]

@[simp] theorem bare_print_wcc_data3 (p e : Ptr) (print : Bool) : Bare (print_wcc_data3 p e print) := by
  have fields := bare_printFields preOpAttr3Fields (by decide) e print
  have before : ∀ b q, Bare (printBefore b q e print) := fun b q => by simp [printBefore, print_pre_op_attr3, fields]
  simp [print_wcc_data3, before]

/-! ## NFSv3 -/

@[simp] theorem bare_fh3_x (f : NfsFh3) {s : String} (h : bareText s.toList = true) : Bare (print_fh3_x f s) := by
  simp +decide [print_fh3_x, bare, h]

theorem keeps_diropargs3_x (d : Diropargs3) {s t : String} (hs : bareText s.toList = true) (ht : bareText t.toList = true) :
    Keeps Mode.Open (print_diropargs3_x o b d s t) Mode.Open :=
  (bare_fh3_x d.dir hs).keeps.bind fun _ => (keeps_lit ht).bind fun _ => (keeps_print_string _ _).opens

@[simp] theorem bare_uint64_x (v : UInt64) (label : Option String) (h : ∀ s ∈ label, bareText s.toList = true) :
    Bare (print_uint64_x v label) := by
  cases label with
  | none => simp [print_uint64_x, printLabel]
  | some s => simp +decide [print_uint64_x, printLabel, bare, h s rfl]

@[simp] theorem bare_printSet {label : String} (h : bareText label.toList = true) (w : Option UInt32) : Bare (printSet label w) := by
  cases w <;> simp +decide [printSet, bare, h]

@[simp] theorem bare_printSetTime {label : String} (h : bareText label.toList = true) (t : SetTime3) : Bare (printSetTime label t) := by
  cases t <;> simp +decide [printSetTime, print_nfstime3_x, bare, h]

@[simp] theorem bare_sattr3_x (s : Sattr3) : Bare (print_sattr3_x s) := by
  have mode : Bare (printSet "mode " s.mode) := bare_printSet (by decide) s.mode
  have uid : Bare (printSet "uid " s.uid) := bare_printSet (by decide) s.uid
  have gid : Bare (printSet "gid " s.gid) := bare_printSet (by decide) s.gid
  have size : Bare (printSetSize s.size) := by cases s.size <;> simp +decide [printSetSize]
  have atime : Bare (printSetTime "atime " s.atime) := bare_printSetTime (by decide) s.atime
  have mtime : Bare (printSetTime "mtime " s.mtime) := bare_printSetTime (by decide) s.mtime
  simp only [print_sattr3_x, Trace.only_bind, mode, uid, gid, size, atime, mtime, implies_true, and_self]

@[simp] theorem bare_sattrguard3_x (g : Option Nfstime3) : Bare (print_sattrguard3_x g) := by
  cases g <;> simp +decide [print_sattrguard3_x, print_nfstime3_x]

@[simp] theorem bare_access3_x (a : UInt32) : Bare (print_access3_x a) := by simp +decide [print_access3_x]

@[simp] theorem bare_stable_how_x (how : UInt32) : Bare (print_stable_how_x how) := by
  simp +decide [print_stable_how_x, bare_stable]

@[simp] theorem bare_createhow3_x (how : Createhow3) : Bare (print_createhow3_x how) := by
  cases how <;> simp +decide [print_createhow3_x]

theorem keeps_ifGot (r : Option α) {k : α → Dec Unit} (h : ∀ a, Keeps P (k a) Mode.Open) (hP : ∀ m, P m → m.Open) :
    Keeps P (ifGot r k) Mode.Open := by
  cases r with
  | none => exact keeps_pure _ hP
  | some a => exact (h a).bind fun _ => keeps_pure _ fun _ h => h

@[simp] theorem bare_ifGot (r : Option α) {k : α → Dec Unit} (h : ∀ a, Bare (k a)) : Bare (ifGot r k) := by
  cases r <;> simp [ifGot, h]

@[simp] theorem bare_writeArgs (xdr : XDR) : Bare (printWriteArgs lib xdr) := by
  simp +decide [printWriteArgs, volume3]

theorem keeps_callArgs (xdr : XDR) (q : Proc3) : Keeps Mode.Fresh (printCallArgs o b lib xdr q) Mode.Open := by
  have got : ∀ {α : Type} (r : Option α) {k : α → Dec Unit}, (∀ a, Keeps Mode.Open (k a) Mode.Open) →
      Keeps Mode.Fresh (ifGot r k) Mode.Open := fun r k h => (keeps_ifGot r h fun _ h => h).fresh
  have dir : ∀ d : Diropargs3, Keeps Mode.Open (print_diropargs3_x o b d "fh" "name") Mode.Open := fun d =>
    keeps_diropargs3_x d (by decide) (by decide)
  cases q with
  | lookup => exact got _ fun d => dir d
  | create => exact got _ fun d => (dir d.1).bind fun _ => (bare_createhow3_x d.2).keeps
  | mkdir => exact got _ fun d => (dir d.1).bind fun _ => (bare_sattr3_x d.2).keeps
  | symlink =>
    exact got _ fun d => (dir d.1).bind fun _ => (bare_sattr3_x d.2.1).keeps.bind fun _ =>
      (keeps_lit (s := "sdata") (by decide)).bind fun _ => (keeps_print_string _ _).opens
  | mknod => exact got _ fun d => dir d
  | remove => exact got _ fun d => dir d
  | rmdir => exact got _ fun d => dir d
  | rename => exact got _ fun d => (dir d.1).bind fun _ => keeps_diropargs3_x d.2 (by decide) (by decide)
  | link => exact got _ fun d => (bare_fh3_x d.1 (by decide)).keeps.bind fun _ => keeps_diropargs3_x d.2 (by decide) (by decide)
  | mnt => exact keeps_ifGot _ (fun path => (keeps_print_string _ _).opens) fun _ h => h.toOpen
  | write => exact (bare_writeArgs xdr).keeps.fresh
  | _ => exact Keeps.fresh (Bare.keeps (by simp +decide [printCallArgs]))

theorem bare_name (q : Proc3) : bareText q.name.toList = true := by cases q <;> decide

theorem keeps_v3_call (op xid : UInt32) (p : Ptr) (actual_len : UInt32) :
    Keeps Mode.Open (nfs_v3_print_call o b lib op xid p actual_len) Mode.Open := by
  have header : Bare (fprintf [.lit "C3 ", .x0 8 xid, .lit " ", .x0 2 op, .lit " "]) := by simp +decide
  have short : ∀ got_all : Bool, Bare (Trace.when (!got_all) (fprintf [.lit "SHORT PACKET"])) := fun got_all => by
    simp +decide
  refine (keeps_silent rfl).bind fun _ => header.keeps.bind fun _ => ?_
  split
  · next q _ =>
    exact (keeps_silent rfl).bind fun _ => (keeps_lit (bare_name q)).bind fun _ => (keeps_callArgs _ q).bind fun got_all =>
      (short got_all).keeps.bind fun _ => keeps_pure _ fun _ h => h
  · exact Bare.keeps (by simp +decide)

@[simp] theorem bare_printStatus (status : UInt32) : Bare (printStatus status) := by
  unfold printStatus
  split <;> simp +decide

theorem bare_numbered (label : String) (h : bareText label.toList = true) (num : Nat) : Bare (printNumbered label num) := by
  simp +decide [printNumbered, bare, h]

theorem keeps_entryName (label : String) (h : bareText label.toList = true) (num : Nat) (name : List UInt8) {f : Dec Unit}
    (hf : Keeps Mode.Open f Mode.Open) : Keeps Mode.Open (do printNumbered label num; printCstr o b name; f) Mode.Open := by
  have blank : Keeps Mode.Open (printNumbered label num) Mode.Fresh :=
    keeps_label (label.toList ++ dec (UInt32.ofNat num).toNat) (by rw [bareText_append, h, bareText_dec]; rfl)
      (by simp [Piece.text])
  exact blank.bind fun _ => (keeps_print_string _ _).bind fun _ => hf.fresh

theorem keeps_entries (es : List Entry3) : ∀ k, Keeps Mode.Open (printEntries o b es k) Mode.Open := by
  induction es with
  | nil => exact fun k => keeps_pure _ fun _ h => h
  | cons entry es ih =>
    intro k
    exact (bare_numbered _ (by decide) k).keeps.bind fun _ => (bare_uint64_x _ none nofun).keeps.bind fun _ =>
      keeps_entryName _ (by decide) k _ <| (bare_numbered _ (by decide) k).keeps.bind fun _ =>
        (bare_uint64_x _ none nofun).keeps.bind fun _ => ih (k + 1)

theorem bare_nameHandle (k : Nat) (f : Option NfsFh3) : Bare (printNameHandle k f) := by
  cases f with
  | none => simp [printNameHandle]
  | some f =>
    refine bare_fh3_x f ?_
    rw [String.toList_ofList]
    exact bareText_text (by simp +decide)

theorem keeps_entriesplus (es : List Entryplus3) : ∀ k, Keeps Mode.Open (printEntriesplus o b es k) Mode.Open := by
  induction es with
  | nil => exact fun k => keeps_pure _ fun _ h => h
  | cons entry es ih =>
    intro k
    exact (bare_numbered _ (by decide) k).keeps.bind fun _ => (bare_uint64_x _ none nofun).keeps.bind fun _ =>
      keeps_entryName _ (by decide) k _ <| (bare_numbered _ (by decide) k).keeps.bind fun _ =>
        (bare_uint64_x _ none nofun).keeps.bind fun _ => (bare_nameHandle k _).keeps.bind fun _ => ih (k + 1)

theorem keeps_listing {ε : Type} {entries : List ε → Nat → Dec Unit} (res : Option (Dirlist3 ε))
    (h : ∀ es k, Keeps Mode.Open (entries es k) Mode.Open) : Keeps Mode.Open (printListing entries res) Mode.Open := by
  cases res with
  | none => exact keeps_pure _ fun _ h => h
  | some res =>
    have eof : Bare (fprintf [.lit "eof ", .d res.eof, .lit " "]) := by simp +decide
    exact eof.keeps.bind fun _ => h _ _

/-- A name from the payload; one that is cut off leaves a mark. -/
theorem keeps_fn3 (p e : Ptr) (print : Bool) : Keeps Mode.Fresh (print_fn3 o p e print) Mode.Open := by
  have cut : Bare (do fprintf [.lit " ... "]; return Ptr.null : Dec Ptr) := by simp +decide
  exact keeps_ite (keeps_pure _ fun _ h => h.toOpen) <| (keeps_silent rfl).bind fun s_len =>
    keeps_ite cut.keeps.fresh <| (keeps_when _ (keeps_print_string _ _)).bind fun _ => keeps_pure _ fun _ h => h.toOpen

theorem keeps_result (p e : Ptr) (actual_len status count : UInt32) (q : Proc3) :
    Keeps Mode.Open (printResult o b lib p e actual_len status count q) Mode.Open := by
  have attrs := bare_print_post_op_attr3 p e true
  cases q with
  | readlink =>
    have label : Keeps Mode.Open (fprintf [.lit "name "]) Mode.Fresh := keeps_label "name".toList (by decide) rfl
    exact (bare_print_post_op_attr3 p e false).keeps.bind fun new_p =>
      keeps_ite (label.bind fun _ => keeps_fn3 _ _ _) (keeps_pure _ fun _ h => h)
  | readdir =>
    exact keeps_ite (attrs.keeps.bind fun new_p => (keeps_listing _ keeps_entries).bind fun _ => keeps_pure _ fun _ h => h) attrs.keeps
  | readdirp =>
    exact keeps_ite (attrs.keeps.bind fun new_p => (keeps_listing _ keeps_entriesplus).bind fun _ => keeps_pure _ fun _ h => h)
      attrs.keeps
  | _ => exact Bare.keeps (by simp +decide [printResult, printReadOk, printCreated, volume3])

theorem keeps_v3_resp (op xid : UInt32) (p : Ptr) (actual_len status count : UInt32) :
    Keeps Mode.Open (nfs_v3_print_resp o b lib op xid p actual_len status count) Mode.Open := by
  have header : Bare (fprintf [.lit "R3 ", .x0 8 xid, .lit " ", .x0 2 op, .lit " "]) := by simp +decide
  refine header.keeps.bind fun _ => (keeps_silent rfl).bind fun _ => Keeps.bind (Q := Mode.Open) ?_ fun new_p => ?_
  · cases Proc3.ofNumber op with
    | none => exact Bare.keeps (by simp +decide [printReply])
    | some q =>
      have name : Bare (fprintf [.lit q.name, .lit " "]) := by simp +decide [bare, bare_name]
      exact (keeps_silent rfl).bind fun _ => name.keeps.bind fun _ => (keeps_when _ (bare_printStatus status).keeps).bind fun _ =>
        keeps_result _ _ _ _ _ q
  · have short : Bare (do fprintf [.lit "SHORT PACKET"]; return -1 : Dec Int32) := by simp +decide
    exact keeps_ite short.keeps (keeps_pure _ fun _ h => h)

/-! ## NFSv2 -/

@[simp] theorem bare_print_opaque (p e : Ptr) (print : Bool) (n : UInt32) : Bare <| print_opaque p e print n := by
  unfold print_opaque
  simp +decide

@[simp] theorem bare_print_fh2 (p e : Ptr) (print : Bool) {s : String} (h : bareText s.toList = true) :
    Bare (print_fh2 p e print s) := by
  simp +decide [print_fh2, bare, h]

@[simp] theorem bare_fprintfTime2 (s u : UInt32) : Bare (fprintfTime2 s u) := by simp +decide [fprintfTime2]

@[simp] theorem bare_print_nfstime2 (p e : Ptr) (print : Bool) : Bare (print_nfstime2 p e print) := by simp [print_nfstime2]

@[simp] theorem bare_print_sattr2 (p e : Ptr) (print : Bool) : Bare (print_sattr2 p e print) := by
  simp +decide [print_sattr2, printSet2, printSetTime2]

theorem bare_printLabelled (p : Ptr) (labels : List String) (h : ∀ s ∈ labels, bareText s.toList = true) :
    ∀ i, Bare (printLabelled p labels i) := by
  induction labels with
  | nil => intro i; simp [printLabelled]
  | cons label labels ih =>
    rw [List.forall_mem_cons] at h
    intro i
    simp +decide [printLabelled, bare, h.1, ih h.2]

@[simp] theorem bare_print_fattr2 (p e : Ptr) (print : Bool) : Bare (print_fattr2 p e print) := by
  have labels := bare_printLabelled p fattr2Labels (by decide)
  simp +decide [print_fattr2, labels]

@[simp] theorem bare_print_diropokres2 (p e : Ptr) (print : Bool) : Bare (print_diropokres2 p e print) := by
  simp +decide [print_diropokres2]

@[simp] theorem bare_print_statfsokres2 (p e : Ptr) (print : Bool) : Bare (print_statfsokres2 p e print) := by
  have labels := bare_printLabelled p statfs2Labels (by decide)
  simp +decide [print_statfsokres2, labels]

theorem keeps_fn2 (p e : Ptr) {s : String} (h : bareText s.toList = true) :
    Keeps Mode.Open (print_fn2 o p e true s) Mode.Open := (keeps_lit h).bind fun _ => keeps_fn3 p e true

theorem keeps_diropargs2 (p e : Ptr) {s t : String} (hs : bareText s.toList = true) (ht : bareText t.toList = true) :
    Keeps Mode.Open (print_diropargs2 o p e true s t) Mode.Open :=
  (bare_print_fh2 p e true hs).keeps.bind fun new_p => keeps_fn2 new_p e ht

theorem keeps_args2 (p e : Ptr) (count : UInt32) (q : Proc2) : Keeps Mode.Open (printArgs2 o p e count q) Mode.Open := by
  have dir : ∀ p, Keeps Mode.Open (print_diropargs2 o p e true "fh" "fn") Mode.Open := fun p =>
    keeps_diropargs2 p e (by decide) (by decide)
  have attrs : ∀ p, Keeps Mode.Open (print_sattr2 p e true) Mode.Open := fun p => (bare_print_sattr2 p e true).keeps
  cases q with
  | lookup => exact dir p
  | remove => exact dir p
  | rmdir => exact dir p
  | create => exact (dir p).bind attrs
  | mkdir => exact (dir p).bind attrs
  | rename => exact (dir p).bind fun new_p => keeps_diropargs2 new_p e (by decide) (by decide)
  | link => exact (bare_print_fh2 p e true (by decide)).keeps.bind fun new_p => keeps_diropargs2 new_p e (by decide) (by decide)
  | symlink => exact (dir p).bind fun new_p => (keeps_fn2 new_p e (by decide)).bind attrs
  | _ => exact Bare.keeps (by simp +decide [printArgs2, printReadArgs2, printWriteArgs2, print_cookie2, volume2])

theorem bare_callName (q : Proc2) : bareText q.callName.toList = true := by cases q <;> decide

theorem bare_replyName (q : Proc2) : bareText q.replyName.toList = true := by cases q <;> decide

theorem keeps_v2_call (op xid : UInt32) (p : Ptr) (actual_len count : UInt32) :
    Keeps Mode.Open (nfs_v2_print_call o op xid p actual_len count) Mode.Open := by
  have header : Bare (fprintf [.lit "C2 ", .xLeft 8 xid, .lit " ", .xRight 2 op, .lit " "]) := by simp +decide
  refine (keeps_silent rfl).bind fun _ => header.keeps.bind fun _ => ?_
  split
  · next q _ =>
    have name : Bare (fprintf [.sLeft 8 q.callName, .lit " "]) := by simp +decide [bare, bare_callName]
    have short : Bare (fprintf [.lit "+|+"]) := by simp +decide
    exact (keeps_silent rfl).bind fun _ => name.keeps.bind fun _ => (keeps_args2 p _ count q).bind fun new_p =>
      (keeps_when _ short.keeps).bind fun _ => keeps_pure _ fun _ h => h
  · exact Bare.keeps (by simp +decide [bump2])

theorem keeps_body2 (p e : Ptr) (status count : UInt32) (q : Proc2) : Keeps Mode.Open (printBody2 o p e status count q) Mode.Open := by
  refine keeps_ite ?_ (keeps_pure _ fun _ h => h)
  cases q with
  | readlink => exact keeps_fn2 p e (by decide)
  | _ => exact Bare.keeps (by simp +decide [printResult2, printReadOk2, volume2])

theorem keeps_v2_resp (op xid : UInt32) (p : Ptr) (actual_len status count : UInt32) :
    Keeps Mode.Open (nfs_v2_print_resp o op xid p actual_len status count) Mode.Open := by
  have header : Bare (fprintf [.lit "R2 ", .xLeft 8 xid, .lit " ", .xRight 2 op, .lit " "]) := by simp +decide
  refine header.keeps.bind fun _ => (keeps_silent rfl).bind fun _ => ?_
  split
  · next q _ =>
    have name : Bare (fprintf [.sLeft 8 q.replyName, .lit " "]) := by simp +decide [bare, bare_replyName]
    have bareStatus : Bare (printStatus2 status) := by
      unfold printStatus2
      split <;> simp +decide
    have short : Bare (fprintf [.lit "+/+"]) := by simp +decide
    exact (keeps_silent rfl).bind fun _ => name.keeps.bind fun _ => (keeps_when _ bareStatus.keeps).bind fun _ =>
      (keeps_body2 p _ status count q).bind fun new_p => (keeps_when _ short.keeps).bind fun _ => keeps_pure _ fun _ h => h
  · exact Bare.keeps (by simp +decide [bump2])

end Nfsdump.Pathtree
