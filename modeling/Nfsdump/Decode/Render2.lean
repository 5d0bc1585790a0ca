/-
  Nfsdump.Decode.Render2 — what the decoders of nfs_v2.c make of a value that is there.

  `Runs x ws a`: a printer ends with `a`, having read the payload only, and what it has
  written are the words `ws`, with no mark of truncation among them.

  Proved, for every value and wherever it lies:
  - `runs_fh2` .. `runs_statfsokres2`: labels and values, and the cursor behind the value;
  - `runs_fn2`, `fn2_plain`: so for a name, unless it is empty, to be hashed, and a slash or
    the end of the payload behind it;
  - `sattr2_stays`: `print_sattr2` leaves the cursor in front of the value;
  - `shows_times`: the times of a `fattr` read as their values iff they are plain.
-/

import Nfsdump.Decode.Args2
import Nfsdump.Decode.Bounds
import Nfsdump.Decode.Lines
import Nfsdump.Decode.Render3

namespace Nfsdump.Decode

open Wire Xdr Words

/-! ## Runs -/

/-- Only the `n` words at `p` are read, as words or as bytes. -/
def InPayload (p : Ptr) (n : Nat) : Act → Prop
  | .word a => a ≠ 0 ∧ (a - p.addr).toNat + 4 ≤ 4 * n
  | .byte a => (a - p.addr).toNat < 4 * n
  | _ => True

/-- What is printed is no mark of truncation. -/
def Unmarked (c : Piece) : Prop := c ≠ .lit "+|+" ∧ c ≠ .lit "+/+"

instance (c : Piece) : Decidable (Unmarked c) := inferInstanceAs (Decidable (_ ∧ _))

structure Runs {α : Type} (p : Ptr) (n : Nat) (x : Dec α) (ws : List (List Char)) (a : α) : Prop where
  val : x.val = some a
  reads : Trace.Only (InPayload p n) x
  whole : ∀ c ∈ out x, Unmarked c
  line : Line (text (out x)) ws

section Runs

variable {α β : Type} {p : Ptr} {n i : Nat}

theorem runs_pure (a : α) : Runs p n (pure a) [] a :=
  ⟨rfl, Trace.only_pure _ _, fun _ h => absurd h List.not_mem_nil, yields_nil⟩

theorem Runs.bind {x : Dec α} {f : α → Dec β} {ws vs : List (List Char)} {a : α} {b : β} (hx : Runs p n x ws a)
    (hf : Runs p n (f a) vs b) : Runs p n (x >>= f) (ws ++ vs) b := by
  refine ⟨?_, (Trace.only_bind_some hx.val).mpr ⟨hx.reads, hf.reads⟩, ?_, ?_⟩
  · rw [Trace.val_bind f hx.val, hf.val]
  · rw [out_bind f hx.val]
    intro c hc
    exact (List.mem_append.mp hc).elim (hx.whole c) (hf.whole c)
  · rw [out_bind f hx.val, text_append]
    exact hx.line.append hf.line

theorem Runs.words {x : Dec α} {ws vs : List (List Char)} {a : α} (h : Runs p n x ws a) (heq : ws = vs) : Runs p n x vs a :=
  heq ▸ h

/-- Behind a printer whose value is dropped. -/
theorem Runs.returns {x : Dec α} {ws : List (List Char)} {a : α} (h : Runs p n x ws a) (b : β) :
    Runs p n (x >>= fun _ => pure b) ws b := (h.bind (f := fun _ => pure b) (runs_pure b)).words (List.append_nil ws)

theorem runs_fprintf {ps : List Piece} {ws : List (List Char)} (hps : ∀ c ∈ ps, Unmarked c) (hws : Line (text ps) ws) :
    Runs p n (fprintf ps) ws () := by
  refine ⟨rfl, only_fprintf.mpr fun _ _ => trivial, ?_, ?_⟩
  · rwa [out_fprintf]
  · rwa [out_fprintf]

theorem fprintf_append (ps qs : List Piece) : fprintf (ps ++ qs) = (do fprintf ps; fprintf qs) := by
  rw [fprintf, List.map_append]
  rfl

/-- A label stands as one word. -/
def IsLabel (s : String) : Prop := Nonblank s.toList ∧ s.toList ≠ [] ∧ Unmarked (.lit s)

instance (s : String) : Decidable (IsLabel s) := inferInstanceAs (Decidable (_ ∧ _ ∧ _))

theorem inPayload_word (h : Mapped p n) (hi : i < n) : InPayload p n (.word (cur p i).addr) :=
  (inBounds_cur h (by omega)).mpr hi

/-- A word is read. -/
theorem runs_read (h : Mapped p n) (hi : i < n) (v : UInt32) :
    Runs p n (⟨[.word (cur p i).addr], some v⟩ : Dec UInt32) [] v :=
  ⟨rfl, fun _ ha => List.mem_singleton.mp ha ▸ inPayload_word h hi, fun _ h => absurd h List.not_mem_nil, yields_nil⟩

theorem runs_deref (h : Mapped p n) {k : Nat} (hi : i + k < n) :
    Runs p n (deref (cur p i) (UInt32.ofNat k)) [] (wordAt p (i + k)) := by
  rw [deref_cur h (by omega)]
  exact runs_read h hi _

theorem runs_spaced {s : String} (hs : IsLabel s) : Runs p n (fprintf [.lit s, .lit " "]) [s.toList] () := by
  refine runs_fprintf ?_ (line_word hs.1 hs.2.1)
  simp only [List.forall_mem_cons, List.not_mem_nil, false_implies, implies_true, and_true]
  exact ⟨hs.2.2, by decide⟩

/-- `s` prints the label `w`, with blanks around it. -/
def Labels (s w : String) : Prop :=
  (s.toList = w.toList ++ [' '] ∨ s.toList = ' ' :: (w.toList ++ [' '])) ∧ IsLabel w ∧ Unmarked (.lit s)

instance (s w : String) : Decidable (Labels s w) := inferInstanceAs (Decidable (_ ∧ _ ∧ _))

theorem runs_label {s w : String} (h : Labels s w) : Runs p n (fprintf [.lit s]) [w.toList] () := by
  obtain ⟨hs, hw, hm⟩ := h
  have hword := line_word hw.1 hw.2.1
  refine runs_fprintf (fun c hc => List.mem_singleton.mp hc ▸ hm) ?_
  rw [text_cons, text_nil, List.append_nil, Piece.text]
  rcases hs with hs | hs
  · rw [hs]
    exact hword
  · rw [hs, ← List.singleton_append]
    exact (yields_blanks (by decide)).append hword

/-- Opaque words, one behind the other. -/
theorem runs_opaque (h : Mapped p n) {bs : List UInt8} (hat : At (wordAt p) i (pack bs)) (hdiv : bs.length % 4 = 0)
    (hne : bs ≠ []) (hi : i + bs.length / 4 ≤ n) :
    Runs p n (UInt32.ofNat (bs.length / 4) |> print_opaque (cur p i) (cur p n) true) [hexBytes bs] (cur p (i + bs.length / 4)) := by
  have htop := h.top
  have hlen : (pack bs).length = bs.length / 4 := by rw [pack_length]; omega
  have hpad : padding bs.length = [] := by rw [padding, hdiv]; rfl
  have hlt : ¬ cur p n < cur p (i + bs.length / 4) := by rw [cur_lt h (by omega) (by omega)]; omega
  have hk : (UInt32.ofNat (bs.length / 4)).toNat = bs.length / 4 := toNat_ofNat_lt (by omega)
  have hwords : out (printWords (cur p i) (bs.length / 4) 0) = (pack bs).map (.x0 8) := by
    rw [printWords_out h (by omega), ← hlen, wordPieces_eq hat]
  have htext : text (out (printWords (cur p i) (bs.length / 4) 0)) = hexBytes bs := by
    rw [hwords, text_words, wire_pack, hpad, List.append_nil]
  have hhex : hexBytes bs ≠ [] := by
    rw [← List.length_pos_iff, hexBytes_length]
    have := List.length_pos_iff.mpr hne
    omega
  unfold print_opaque
  rw [if_neg (cur_ne_null h (by omega)), cur_skip, if_neg hlt, Trace.when_true, hk, bind_assoc]
  refine ⟨?_, ?_, ?_, ?_⟩
  · rw [Trace.val_bind _ (printWords_val h (by omega) _)]
    rfl
  · refine (Trace.only_bind_some (printWords_val h (by omega) _)).mpr ⟨?_, ?_⟩
    · rw [printWords_events _ (cur_ne_null h (by omega))]
      intro a ha
      obtain ⟨j, hj, ha⟩ := List.mem_flatMap.mp ha
      have hj := List.mem_range.mp hj
      rw [List.mem_cons, List.mem_singleton, UInt32.zero_add, cur_addr_add] at ha
      rcases ha with rfl | rfl
      · exact inPayload_word h (by omega)
      · trivial
    · exact (Trace.only_bind_some (fprintf_val _)).mpr ⟨only_fprintf.mpr fun _ _ => trivial, Trace.only_pure _ _⟩
  · rw [out_bind _ (printWords_val h (by omega) _), hwords]
    intro c hc
    rcases List.mem_append.mp hc with hc | hc
    · obtain ⟨w, -, rfl⟩ := List.mem_map.mp hc
      simp [Unmarked]
    · obtain rfl := List.mem_singleton.mp hc
      decide
  · rw [out_bind _ (printWords_val h (by omega) _), text_append, htext]
    exact line_word (nonblank_hexBytes bs) hhex

/-! ## Decoders -/

theorem runs_fh2 (h : Mapped p n) {f : NfsFh2} (hat : At (wordAt p) i f.xdr) (hi : i + 8 ≤ n) {str : String} (hs : IsLabel str) :
    Runs p n (print_fh2 (cur p i) (cur p n) true str) [str.toList, hexBytes f.data] (cur p (i + 8)) := by
  have hlen : f.data.length = 32 := f.length_eq
  have hdata := runs_opaque h hat (by omega) (fun h0 => by rw [h0] at hlen; cases hlen) (by omega)
  rw [hlen] at hdata
  exact (runs_spaced hs).bind hdata

theorem runs_cookie2 (h : Mapped p n) {c : Nfscookie} (hat : At (wordAt p) i c.xdr) (hi : i + 1 ≤ n) :
    Runs p n (print_cookie2 (cur p i) (cur p n) true) ["cookie".toList, hexBytes c.data] (cur p (i + 1)) := by
  have hlen : c.data.length = 4 := c.length_eq
  have hdata := runs_opaque h hat (by omega) (fun h0 => by rw [h0] at hlen; cases hlen) (by omega)
  rw [hlen] at hdata
  exact (runs_label (by decide : Labels "cookie " "cookie")).bind hdata

/-- A word and what it prints as. -/
theorem runs_x (w : UInt32) : Runs p n (fprintf [.x w, .lit " "]) [hex w.toNat] () := by
  refine runs_fprintf ?_ (line_word (nonblank_hex _) Nat.toDigits_ne_nil)
  simp only [List.forall_mem_cons, List.not_mem_nil, false_implies, implies_true, and_true]
  exact ⟨⟨nofun, nofun⟩, by decide⟩

theorem runs_word (h : Mapped p n) (hi : i < n) :
    Runs p n (deref (cur p i) 0 >>= fun w => fprintf [.x w, .lit " "]) [hex (wordAt p i).toNat] () := by
  exact (runs_deref h (k := 0) hi).bind (runs_x _)

theorem runs_uint32 (h : Mapped p n) (hi : i < n) :
    Runs p n (print_uint32 (cur p i) (cur p n) true) [hex (wordAt p i).toNat] (cur p (i + 1)) := by
  have hguard : ¬ ((cur p i).addr = 0 ∨ cur p n < cur p i) := by
    rintro (h0 | h0)
    · exact cur_ne_null h (by omega) h0
    · exact absurd ((cur_lt h (by omega) (by omega)).mp h0) (by omega)
  rw [print_uint32, print_uint32_val, if_neg hguard, cur_skip_one, bind_assoc]
  exact (runs_word h hi).returns _

theorem runs_uint32_val (h : Mapped p n) (hi : i < n) (val : UInt32) :
    Runs p n (print_uint32_val (cur p i) (cur p n) true (some val)) [hex (wordAt p i).toNat]
      (cur p (i + 1), some (wordAt p i)) := by
  have hguard : ¬ ((cur p i).addr = 0 ∨ cur p n < cur p i) := by
    rintro (h0 | h0)
    · exact cur_ne_null h (by omega) h0
    · exact absurd ((cur_lt h (by omega) (by omega)).mp h0) (by omega)
  rw [print_uint32_val, if_neg hguard, cur_skip_one]
  exact (runs_word h hi).bind ((runs_deref h (k := 0) hi).bind (runs_pure _))

/-- Words under their labels. -/
def labelledWords (xs : List (String × UInt32)) : List (List Char) := xs.flatMap fun x => [x.1.toList, hex x.2.toNat]

theorem runs_labelled (h : Mapped p n) {ls : List String} : ∀ (k : Nat) (xs : List (String × UInt32)),
    List.Forall₂ Labels ls (xs.map Prod.fst) → At (wordAt p) (i + k) (xs.map Prod.snd) → i + k + xs.length ≤ n →
    Runs p n (printLabelled (cur p i) ls (UInt32.ofNat k)) (labelledWords xs) () := by
  induction ls with
  | nil =>
    intro k xs hls _ _
    obtain rfl : xs = [] := List.map_eq_nil_iff.mp (List.forall₂_nil_left_iff.mp hls)
    exact runs_pure ()
  | cons s ls ih =>
    intro k xs hls hat hi
    obtain _ | ⟨x, xs⟩ := xs
    · cases hls
    rw [List.map_cons] at hls hat
    obtain ⟨hs, hls⟩ := List.forall₂_cons.mp hls
    rw [at_cons] at hat
    rw [List.length_cons] at hi
    have hnext : UInt32.ofNat k + 1 = UInt32.ofNat (k + 1) := by rw [UInt32.ofNat_add]; rfl
    have hrest := ih (k + 1) xs hls (by rw [← Nat.add_assoc]; exact hat.2) (by omega)
    have hread := runs_deref h (k := k) (show i + k < n by omega)
    rw [hat.1] at hread
    have hfield : Runs p n (fprintf ([.lit s] ++ [.x x.2, .lit " "])) ([x.1.toList] ++ [hex x.2.toNat]) () := by
      rw [fprintf_append]
      exact (runs_label hs).bind (runs_x x.2)
    rw [printLabelled, hnext]
    exact hread.bind (hfield.bind hrest)

/-! ### Times -/

/-- A time as it is printed. -/
def timeToken (t : Nfstime2) : List Char := decInt t.seconds.toInt32 ++ '.' :: decInt t.useconds.toInt32

theorem nonblank_timeToken (t : Nfstime2) : Nonblank (timeToken t) := by
  rw [timeToken, ← List.singleton_append]
  exact nonblank_append (nonblank_decInt _) (nonblank_append (by decide) (nonblank_decInt _))

theorem timeToken_ne_nil (t : Nfstime2) : timeToken t ≠ [] := by
  rw [timeToken]
  exact List.append_ne_nil_of_left_ne_nil (decInt_ne_nil _) _

theorem runs_nfstime2 (h : Mapped p n) {t : Nfstime2} (hat : At (wordAt p) i t.xdr) (hi : i + 2 ≤ n) :
    Runs p n (print_nfstime2 (cur p i) (cur p n) true) [timeToken t] (cur p (i + 2)) := by
  have hguard : ¬ ((cur p i).addr = 0 ∨ cur p n < cur p (i + 2)) := by
    rintro (h0 | h0)
    · exact cur_ne_null h (by omega) h0
    · exact absurd ((cur_lt h (by omega) (by omega)).mp h0) (by omega)
  simp only [Nfstime2.xdr, at_cons, at_nil, and_true] at hat
  have hsecs := runs_deref h (k := 0) (show i + 0 < n by omega)
  have husecs := runs_deref h (k := 1) (show i + 1 < n by omega)
  rw [Nat.add_zero, hat.1] at hsecs
  rw [hat.2] at husecs
  have hprint : Runs p n (fprintfTime2 t.seconds t.useconds) [timeToken t] () := by
    refine runs_fprintf ?_ ?_
    · simp only [List.forall_mem_cons, List.not_mem_nil, false_implies, implies_true, and_true]
      exact ⟨by simp [Unmarked], by decide, by simp [Unmarked], by decide⟩
    · have hpad := line_padRight (nonblank_timeToken t) (timeToken_ne_nil t) ((decInt t.seconds.toInt32).length + 1 + 6)
      have htext : text [.d t.seconds.toInt32, .lit ".", .dLeft 6 t.useconds.toInt32, .lit " "] =
          padRight ((decInt t.seconds.toInt32).length + 1 + 6) (timeToken t) ++ [' '] := by
        have hlen : (decInt t.seconds.toInt32).length + 1 + 6 - (timeToken t).length = 6 - (decInt t.useconds.toInt32).length := by
          rw [timeToken, List.length_append, List.length_cons]
          omega
        rw [padRight, hlen]
        simp [Piece.text, padRight, timeToken]
      rw [htext]
      exact hpad
  rw [print_nfstime2, cur_skip_two, if_neg hguard, Trace.when_true, bind_assoc]
  exact hsecs.bind ((husecs.bind hprint).returns _)

/-- Both words fit a signed one, and the second has all its six digits or none. -/
def Nfstime2.Plain (t : Nfstime2) : Prop :=
  t.seconds.toNat < 2 ^ 31 ∧ (t.useconds = 0 ∨ (10 ^ 5 ≤ t.useconds.toNat ∧ t.useconds.toNat < 10 ^ 6))

theorem toInt_toInt32 (w : UInt32) : w.toInt32.toInt = (w.toNat : Int).bmod (2 ^ 32) := BitVec.toInt_eq_toNat_bmod w.toBitVec

theorem decInt_small {w : UInt32} (h : w.toNat < 2 ^ 31) : decInt w.toInt32 = dec w.toNat := by
  have hint : w.toInt32.toInt = w.toNat := by
    rw [toInt_toInt32, Int.bmod_eq_of_le (by omega) (by omega)]
  rw [decInt, hint, if_neg (by omega), Int.natAbs_natCast]

theorem decInt_large {w : UInt32} (h : 2 ^ 31 ≤ w.toNat) : '-' ∈ decInt w.toInt32 := by
  have hlt := w.toNat_lt
  have hint : w.toInt32.toInt < 0 := by
    rw [toInt_toInt32, Int.bmod_def]
    omega
  rw [decInt, if_pos hint]
  exact List.mem_cons_self

/-- A time's token reads as its value iff the time is plain. -/
theorem reads_timeToken (t : Nfstime2) :
    Digits.Reads 6 (t.seconds.toNat * 10 ^ 6 + t.useconds.toNat) (timeToken t) ↔ t.Plain := by
  have signed : ∀ {k m}, Digits.Reads k m (timeToken t) → '-' ∉ timeToken t := fun hr hm => by
    rcases hr.isDigit hm with hd | hd
    · exact absurd hd (by decide)
    · exact absurd hd (by decide)
  have hzero : t.useconds = 0 ↔ t.useconds.toNat = 0 := by
    rw [← UInt32.toNat_inj]
    rfl
  have hlen : (dec t.useconds.toNat).length = 6 ↔ 10 ^ 5 ≤ t.useconds.toNat ∧ t.useconds.toNat < 10 ^ 6 := by
    have h5 := Nat.length_toDigits_le_iff (b := 10) (n := t.useconds.toNat) (k := 5) (by decide) (by decide)
    have h6 := Nat.length_toDigits_le_iff (b := 10) (n := t.useconds.toNat) (k := 6) (by decide) (by decide)
    rw [dec]
    omega
  constructor
  · intro hr
    have hs : t.seconds.toNat < 2 ^ 31 := by
      by_contra hge
      exact signed hr (List.mem_append_left _ (decInt_large (by omega)))
    have hu : t.useconds.toNat < 2 ^ 31 := by
      by_contra hge
      exact signed hr (List.mem_append_right _ (List.mem_cons_of_mem _ (decInt_large (by omega))))
    rw [timeToken, decInt_small hs, decInt_small hu, dec, dec, Digits.reads_iff] at hr
    refine ⟨hs, hr.imp hzero.mpr hlen.mp⟩
  · rintro ⟨hs, hu⟩
    have hu' : t.useconds.toNat < 2 ^ 31 := by
      rcases hu with h0 | h1
      · rw [h0]; decide
      · omega
    rw [timeToken, decInt_small hs, decInt_small hu', dec, dec, Digits.reads_iff]
    exact hu.imp hzero.mp hlen.mpr

/-! ### Attributes -/

def Fattr2.labelled (a : Fattr2) : List (String × UInt32) :=
  [("ftype", a.type), ("mode", a.mode), ("nlink", a.nlink), ("uid", a.uid), ("gid", a.gid), ("size", a.size),
   ("blksize", a.blocksize), ("rdev", a.rdev), ("blocks", a.blocks), ("fsid", a.fsid), ("fileid", a.fileid)]

def Fattr2.printed (a : Fattr2) : List (List Char) :=
  labelledWords a.labelled ++ ["atime".toList, timeToken a.atime, "mtime".toList, timeToken a.mtime, "ctime".toList, timeToken a.ctime]

theorem runs_fattr2 (h : Mapped p n) {a : Fattr2} (hat : At (wordAt p) i a.xdr) (hi : i + 17 ≤ n) :
    Runs p n (print_fattr2 (cur p i) (cur p n) true) a.printed (cur p (i + 17)) := by
  have hend : ¬ cur p n < (cur p i).skip 17 := by
    rw [show (cur p i).skip 17 = cur p (i + 17) from cur_skip p i 17, cur_lt h (by omega) (by omega)]
    omega
  rw [Fattr2.xdr, at_append, at_append, at_append] at hat
  obtain ⟨hwords, ⟨hatime, hmtime⟩, hctime⟩ := hat
  have hatime : At (wordAt p) (i + 11) a.atime.xdr := hatime
  have hmtime : At (wordAt p) (i + 13) a.mtime.xdr := hmtime
  have hctime : At (wordAt p) (i + 15) a.ctime.xdr := hctime
  have hlabels : List.Forall₂ Labels fattr2Labels
      ["ftype", "mode", "nlink", "uid", "gid", "size", "blksize", "rdev", "blocks", "fsid", "fileid"] := by
    unfold fattr2Labels
    repeat' first | exact .nil | refine .cons (by decide) ?_
  have hfields := runs_labelled h 0 a.labelled hlabels hwords (show i + 0 + 11 ≤ n by omega)
  rw [print_fattr2, if_neg (cur_ne_null h (by omega)), if_neg hend, Trace.when_true, bind_assoc,
    show (cur p i).skip 17 = cur p (i + 17) from cur_skip p i 17, show (cur p i).skip 11 = cur p (i + 11) from cur_skip p i 11,
    show (cur p i).skip 13 = cur p (i + 13) from cur_skip p i 13, show (cur p i).skip 15 = cur p (i + 15) from cur_skip p i 15]
  have hblank : Runs p n (fprintf [.lit " "]) [] () := runs_fprintf (by decide) (yields_blanks (by decide))
  have htimes : Runs p n (do
      fprintf [.lit "atime "]
      let _ ← print_nfstime2 (cur p (i + 11)) (cur p n) true
      fprintf [.lit " mtime "]
      let _ ← print_nfstime2 (cur p (i + 13)) (cur p n) true
      fprintf [.lit " ctime "]
      let _ ← print_nfstime2 (cur p (i + 15)) (cur p n) true
      fprintf [.lit " "]) _ () := (runs_label (by decide : Labels "atime " "atime")).bind ((runs_nfstime2 h hatime (by omega)).bind
    ((runs_label (by decide : Labels " mtime " "mtime")).bind ((runs_nfstime2 h hmtime (by omega)).bind
      ((runs_label (by decide : Labels " ctime " "ctime")).bind ((runs_nfstime2 h hctime (by omega)).bind hblank)))))
  exact hfields.bind ((htimes.returns _).words rfl)

/-- The cursor `print_sattr2` returns is not behind the attributes. -/
theorem sattr2_stays (h : Mapped p n) (hi : i + 8 ≤ n) : (print_sattr2 (cur p i) (cur p n) true).val ≠ some (cur p (i + 8)) := by
  have hend : ¬ cur p n < (cur p i).skip 8 := by
    rw [show (cur p i).skip 8 = cur p (i + 8) from cur_skip p i 8, cur_lt h (by omega) (by omega)]
    omega
  rw [print_sattr2, if_neg (cur_ne_null h (by omega)), if_neg hend]
  intro hval
  obtain ⟨_, -, hret⟩ := Trace.of_val_bind hval
  have haddr := congrArg (fun q : Ptr => q.addr.toNat) (Option.some.inj hret)
  rw [cur_addr h (by omega), cur_addr h (by omega)] at haddr
  omega

theorem runs_diropokres2 (h : Mapped p n) {r : Diropokres2} (hat : At (wordAt p) i r.xdr) (hi : i + 25 ≤ n) :
    Runs p n (print_diropokres2 (cur p i) (cur p n) true) ("fh".toList :: hexBytes r.file.data :: r.attributes.printed)
      (cur p (i + 25)) := by
  have hend : ¬ cur p n < cur p i := by rw [cur_lt h (by omega) (by omega)]; omega
  obtain ⟨hfile, hattr⟩ := at_append.mp hat
  rw [NfsFh2.xdr_length] at hattr
  rw [print_diropokres2, if_neg (cur_ne_null h (by omega)), if_neg hend]
  exact (runs_fh2 h hfile (by omega) (by decide : IsLabel "fh")).bind (runs_fattr2 h hattr (by omega))

def Statfsokres.labelled (s : Statfsokres) : List (String × UInt32) :=
  [("tsize", s.tsize), ("bsize", s.bsize), ("blocks", s.blocks), ("bfree", s.bfree), ("bavail", s.bavail)]

theorem runs_statfsokres2 (h : Mapped p n) {s : Statfsokres} (hat : At (wordAt p) i s.xdr) (hi : i + 5 ≤ n) :
    Runs p n (print_statfsokres2 (cur p i) (cur p n) true) (labelledWords s.labelled) (cur p (i + 5)) := by
  have hlabels : List.Forall₂ Labels statfs2Labels ["tsize", "bsize", "blocks", "bfree", "bavail"] := by
    unfold statfs2Labels
    repeat' first | exact .nil | refine .cons (by decide) ?_
  have hend : ¬ cur p n < (cur p i).skip 5 := by
    rw [show (cur p i).skip 5 = cur p (i + 5) from cur_skip p i 5, cur_lt h (by omega) (by omega)]
    omega
  have hfields := runs_labelled h 0 s.labelled hlabels hat (show i + 0 + 5 ≤ n by omega)
  rw [print_statfsokres2, if_neg (cur_ne_null h (by omega)), if_neg hend, Trace.when_true,
    show (cur p i).skip 5 = cur p (i + 5) from cur_skip p i 5]
  exact hfields.returns _

/-! ### Names -/

/-- A name that is printed from its own bytes, or empty with something else than a slash of
    the payload behind it. -/
def NamePlain (o : Opts) (p : Ptr) (n i : Nat) (bs : List UInt8) : Prop :=
  bs ≠ [] ∨ o.RAWNAMES = true ∨ (i + 1 < n ∧ (cur p (i + 1)).byte 0 ≠ SLASH)

theorem inPayload_bytes (h : Mapped p n) {k : Nat} (hi : 4 * i + k ≤ 4 * n) {a : Act} (ha : BytesIn (cur p i) k a) :
    InPayload p n a := by
  cases a with
  | byte a =>
    obtain ⟨j, hj, rfl⟩ := ha
    have htop := h.top
    have hlt := p.addr.toNat_lt
    have haddr := cur_addr h (show i ≤ n + 1000 by omega)
    show ((cur p i).addr + UInt32.ofNat j - p.addr).toNat < 4 * n
    rw [UInt32.toNat_sub, UInt32.toNat_add, toNat_ofNat_lt (by omega), haddr]
    omega
  | word | put | count3 | count2 => first | exact ha.elim | trivial

theorem unmarked_namePieces (o : Opts) (bs : List UInt8) : ∀ c ∈ namePieces o bs, Unmarked c := by
  have component : ∀ bs, ∀ c ∈ componentPieces o bs, Unmarked c := by
    intro bs c hc
    unfold componentPieces at hc
    split_ifs at hc
    · exact absurd hc List.not_mem_nil
    · exact List.mem_singleton.mp hc ▸ by decide
    · exact List.mem_singleton.mp hc ▸ by decide
    · obtain ⟨b, -, rfl⟩ := List.mem_map.mp hc
      simp [Unmarked]
  have segment : ∀ bs, ∀ c ∈ segmentPieces o bs, Unmarked c := by
    intro bs c hc
    obtain _ | ⟨b, bs⟩ := bs
    · exact absurd hc List.not_mem_nil
    · rw [segmentPieces] at hc
      split_ifs at hc
      · rcases List.mem_cons.mp hc with rfl | hc
        · decide
        · exact component _ c hc
      · exact component _ c hc
  have raw : ∀ b, ∀ c ∈ rawPieces b, Unmarked c := by
    intro b c hc
    unfold rawPieces at hc
    split_ifs at hc
    · rcases List.mem_cons.mp hc with rfl | hc
      · decide
      · rw [List.mem_singleton.mp hc]
        simp [Unmarked]
    · rw [List.mem_singleton.mp hc]
      simp [Unmarked]
  intro c hc
  unfold namePieces at hc
  split_ifs at hc
  · obtain ⟨b, -, hb⟩ := List.mem_flatMap.mp hc
    exact raw b c hb
  · obtain ⟨s, -, hs⟩ := List.mem_flatMap.mp hc
    exact segment s c hs

theorem runs_name {o : Opts} (h : Mapped p n) {bs : List UInt8} (hname : NameAt (cur p (i + 1)) bs)
    (hi : 4 * (i + 1) + bs.length ≤ 4 * n) (hplain : NamePlain o p n i bs) :
    Runs p n (print_string o (cur p (i + 1)) (UInt32.ofNat bs.length)) [nameToken o bs] () := by
  have hend : bs = [] → o.RAWNAMES = false → (cur p (i + 1)).byte 0 ≠ SLASH := by
    intro h0 hraw
    rcases hplain with hp | hp | hp
    · exact absurd h0 hp
    · exact absurd hp (by simp [hraw])
    · exact hp.2
  have hquoted := says_print_string hname hend
  refine ⟨hquoted.1, ?_, ?_, ?_⟩
  · by_cases hbytes : 0 < bs.length ∨ o.RAWNAMES = true
    · have hread := bytes_print_string (o := o) (cur p (i + 1)) (UInt32.ofNat bs.length) (by rwa [hname.toNat_length])
      rw [hname.toNat_length] at hread
      exact hread.mono fun a ha => inPayload_bytes h hi ha
    · rw [not_or, Nat.pos_iff_ne_zero, not_not, List.length_eq_zero_iff, Bool.not_eq_true] at hbytes
      obtain ⟨rfl, hraw⟩ := hbytes
      have hlast : i + 1 < n := by
        rcases hplain with hp | hp | hp
        · exact absurd rfl hp
        · exact absurd hp (by simp [hraw])
        · exact hp.1
      rw [List.length_nil, show UInt32.ofNat 0 = 0 from rfl, print_string_empty hname.ne hraw (hend rfl hraw)]
      intro a ha
      simp only [List.mem_cons, List.not_mem_nil, or_false] at ha
      rcases ha with rfl | rfl | rfl
      · trivial
      · exact inPayload_bytes h (i := i + 1) (k := 1) (by omega) ⟨0, by decide, (UInt32.add_zero _).symm⟩
      · trivial
  · rw [hquoted.2, quoted]
    intro c hc
    simp only [List.mem_append, List.mem_singleton] at hc
    rcases hc with (rfl | hc) | rfl
    · decide
    · exact unmarked_namePieces o bs c hc
    · decide
  · rw [hquoted.2, text_quoted]
    exact line_word (nonblank_nameToken o bs) (List.cons_ne_nil _ _)

theorem runs_fn2 {o : Opts} (h : Mapped p n) {bs : List UInt8} (hlies : (cur p i).Holds (wire (counted bs)))
    (hi : i + (counted bs).length ≤ n) (hplain : NamePlain o p n i bs) {str : String} (hs : IsLabel str) :
    Runs p n (print_fn2 o (cur p i) (cur p n) true str) [str.toList, nameToken o bs] (cur p (i + (counted bs).length)) := by
  have hlen : (counted bs).length = 1 + (bs.length + 3) / 4 := counted_length bs
  have hname := runs_name h (nameAt_of_holds h hlies hi) (by omega) hplain
  have hfn3 : Runs p n (print_fn3 o (cur p i) (cur p n) true) [nameToken o bs] (cur p (i + (counted bs).length)) := by
    rw [fn3_there h hlies hi]
    exact (runs_read h (by omega) _).bind (hname.returns _)
  exact (runs_spaced hs).bind hfn3

/-- A name that is decoded to its end without a look behind the payload is plain. -/
theorem fn2_plain {o : Opts} (h : Mapped p n) {bs : List UInt8} (hlies : (cur p i).Holds (wire (counted bs)))
    (hi : i + (counted bs).length ≤ n) {str : String} (hreads : Trace.Only (InPayload p n) (print_fn2 o (cur p i) (cur p n) true str))
    (hval : (print_fn2 o (cur p i) (cur p n) true str).val ≠ none) : NamePlain o p n i bs := by
  have htop := h.top
  have hlen : (counted bs).length = 1 + (bs.length + 3) / 4 := counted_length bs
  by_cases hne : bs = []
  · subst hne
    cases hraw : o.RAWNAMES with
    | true => exact Or.inr (Or.inl hraw)
    | false =>
      have hnull := cur_ne_null h (show i + 1 ≤ n + 1000 by omega)
      have haddr := cur_addr h (show i + 1 ≤ n + 1000 by omega)
      rw [print_fn2, fn3_there h hlies hi] at hreads hval
      have hstring := ((Trace.only_bind_some (fprintf_val _)).mp hreads).2
      have hstring := ((Trace.only_bind_some (show _ = some (UInt32.ofNat ([] : List UInt8).length) from rfl)).mp hstring).2
      have hquoted := (Trace.only_bind.mp hstring).1
      have hquoted := ((Trace.only_bind_some (fprintf_val _)).mp hquoted).2
      have hsegment : Trace.Only (InPayload p n) (print_path_segment o (cur p (i + 1)) 0) := by
        have hq := (Trace.only_bind.mp hquoted).1
        rwa [printQuoted, hraw, List.length_nil, show (UInt32.ofNat 0).toNat = 0 from rfl, if_neg Bool.false_ne_true, printSegments,
          pure_bind, Ptr.add_zero, UInt32.sub_zero] at hq
      have hbyte := only_derefByte.mp (Trace.only_bind.mp hsegment).1
      have hin : i + 1 < n := by
        have hlt : ((cur p (i + 1)).addr + 0 - p.addr).toNat < 4 * n := hbyte
        have hp := p.addr.toNat_lt
        rw [UInt32.add_zero, UInt32.toNat_sub, haddr] at hlt
        omega
      refine Or.inr (Or.inr ⟨hin, fun hslash => hval ?_⟩)
      have hcrash := print_string_crash hnull (by unfold Ptr.Fits; omega) hraw hslash
      have hread : (fprintfIf true [.lit str, .lit " "] : Dec Unit).val = some () := rfl
      have hlength : UInt32.ofNat ([] : List UInt8).length = 0 := rfl
      rw [Trace.val_bind _ hread, Trace.val_bind _ (show _ = some (UInt32.ofNat ([] : List UInt8).length) from rfl), hlength,
        Trace.bind_none _ hcrash]
  · exact Or.inl hne

theorem runs_diropargs2 {o : Opts} (h : Mapped p n) {d : Diropargs2} (hlies : (cur p i).Holds (wire d.xdr))
    (hi : i + d.xdr.length ≤ n) (hplain : NamePlain o p n (i + 8) d.name.chars) {fh_str fn_str : String} (hfh : IsLabel fh_str)
    (hfn : IsLabel fn_str) :
    Runs p n (print_diropargs2 o (cur p i) (cur p n) true fh_str fn_str)
      [fh_str.toList, hexBytes d.dir.data, fn_str.toList, nameToken o d.name.chars] (cur p (i + d.xdr.length)) := by
  have hat := at_of_holds hlies
  have hname := holds_behind _ hlies
  rw [Diropargs2.xdr_length] at hi ⊢
  rw [Filename.xdr] at hi ⊢
  rw [Diropargs2.xdr, at_append] at hat
  rw [NfsFh2.xdr_length] at hname
  rw [← Nat.add_assoc]
  exact (runs_fh2 h hat.1 (by omega) hfh).bind (runs_fn2 h hname (by omega) hplain hfn)

end Runs

end Nfsdump.Decode
