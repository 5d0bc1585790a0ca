/-
  Nfsdump.Pathtree.CellWords — the words of a dump's line are its cells.

  csv has the cells of a line between the blanks outside quotes, scripts have its words
  between any blanks. Nothing the printers write in quotes has a blank in it, so the two
  agree, whatever the payload.

  Proved:
  - `cells_of_words`: where no blank is read in quotes, a word of the line is one cell;
  - `length_fields`: and there is a cell for each blank, and one more;
  - `seamless_v3_call` .. `seamless_v2_resp`: the four printers write no blank in quotes.
-/

import Nfsdump.Pathtree.Rows

namespace Nfsdump.Pathtree

open Wire Decode Words

/-! ## Blanks in quotes -/

def Mode.Outside (m : Mode) : Prop := m = .start ∨ (∃ w, m = .plain w) ∨ ∃ w, m = .closed w

theorem Mode.Open.outside {m : Mode} (h : m.Open) : m.Outside := by
  rcases h with h | h
  · exact Or.inl h
  · exact Or.inr (Or.inl h)

/-- No blank is read in quotes. -/
def Unbroken : Mode → List Char → Prop
  | _, [] => True
  | m, c :: cs => (isBlank c = true → m.Outside) ∧ ∀ r, m.next c = some r → Unbroken r.1 cs

variable {m m' : Mode} {cs ds w line : List Char} {done : List Cell} {r : Mode × List Cell} {row : Row} {c : Char}

theorem Unbroken.append (h : Unbroken m cs) (hd : ∀ r, run m cs = some r → Unbroken r.1 ds) : Unbroken m (cs ++ ds) := by
  induction cs generalizing m with
  | nil => exact hd (m, []) rfl
  | cons c cs ih =>
    rw [Unbroken] at h
    rw [List.cons_append, Unbroken]
    refine ⟨h.1, fun r hr => ih (h.2 r hr) fun s hs => hd (s.1, r.2 ++ s.2) ?_⟩
    rw [run, hr]
    simp only [hs, Option.map_some]

theorem unbroken_nonblank (h : Nonblank cs) (m : Mode) : Unbroken m cs := by
  induction cs generalizing m with
  | nil => trivial
  | cons c cs ih =>
    have hc := h c List.mem_cons_self
    refine ⟨fun hb => ?_, fun r _ => ih (fun d hd => h d (List.mem_cons_of_mem _ hd)) r.1⟩
    rw [hc] at hb
    cases hb

/-- A text that may stand between quoted texts: it is left outside quotes. -/
def Seamless (cs : List Char) : Prop := ∀ m : Mode, m.Outside → Unbroken m cs ∧ ∀ r, run m cs = some r → r.1.Outside

theorem Seamless.append (hc : Seamless cs) (hd : Seamless ds) : Seamless (cs ++ ds) := by
  intro m hm
  obtain ⟨hunbroken, hends⟩ := hc m hm
  refine ⟨hunbroken.append fun r hr => (hd r.1 (hends r hr)).1, fun s hs => ?_⟩
  rw [run_append] at hs
  obtain ⟨r, hr, hmap⟩ := Option.bind_eq_some_iff.mp hs
  obtain ⟨t, ht, rfl⟩ := Option.map_eq_some_iff.mp hmap
  exact (hd r.1 (hends r hr)).2 t ht

theorem seamless_nil : Seamless [] := fun m hm => ⟨trivial, fun r hr => by
  obtain rfl := Option.some_inj.mp hr
  exact hm⟩

theorem next_bare_outside (hm : m.Outside) (hc : bareChar c = true) (hr : m.next c = some r) : r.1.Outside := by
  rcases hm with rfl | ⟨w, rfl⟩ | ⟨w, rfl⟩
  · obtain ⟨m', done, hnext, ho⟩ := next_bare open_start hc
    obtain rfl := Option.some_inj.mp (hnext.symm.trans hr)
    exact ho.outside
  · obtain ⟨m', done, hnext, ho⟩ := next_bare (open_plain w) hc
    obtain rfl := Option.some_inj.mp (hnext.symm.trans hr)
    exact ho.outside
  · rw [Mode.next] at hr
    split at hr
    · obtain rfl := Option.some_inj.mp hr
      exact open_start.outside
    · cases hr

theorem seamless_bare (h : bareText cs = true) : Seamless cs := by
  induction cs with
  | nil => exact seamless_nil
  | cons c cs ih =>
    rw [bareText, List.all_cons, Bool.and_eq_true] at h
    intro m hm
    refine ⟨⟨fun _ => hm, fun r hr => (ih h.2 r.1 (next_bare_outside hm h.1 hr)).1⟩, fun s hs => ?_⟩
    rw [run] at hs
    cases hn : m.next c with
    | none => rw [hn] at hs; cases hs
    | some r =>
      rw [hn] at hs
      obtain ⟨t, ht, rfl⟩ := Option.map_eq_some_iff.mp hs
      exact (ih h.2 r.1 (next_bare_outside hm h.1 hn)).2 t ht

/-- A name with its quotes. -/
theorem seamless_quoted (hw : Nonblank w) (hread : ∀ m : Mode, m.Quoted → ∃ m' done, run m w = some (m', done) ∧ m'.Quoted) :
    Seamless ('"' :: (w ++ ['"'])) := by
  have hmark : Nonblank ['"'] := by decide
  have hblank : Nonblank ('"' :: (w ++ ['"'])) := nonblank_append hmark (nonblank_append hw hmark)
  intro m hm
  refine ⟨unbroken_nonblank hblank m, fun r hr => ?_⟩
  rw [run] at hr
  rcases hm with rfl | ⟨v, rfl⟩ | ⟨v, rfl⟩
  · obtain ⟨m', done, hrun, u, rfl⟩ := hread (.quoted []) ⟨[], rfl⟩
    have hclose : run (.quoted []) (w ++ ['"']) = some (.closed u, done) := by
      rw [run_append_some hrun]
      show some (Mode.closed u, done ++ ([] ++ [])) = _
      rw [List.append_nil, List.append_nil]
    have hopen : Mode.start.next '"' = some (.quoted [], []) := rfl
    rw [hopen] at hr
    simp only [hclose, Option.map_some] at hr
    obtain rfl := Option.some_inj.mp hr
    exact Or.inr (Or.inr ⟨u, rfl⟩)
  · cases hr
  · cases hr

/-! ## Words -/

theorem next_blank (hm : m.Outside) (hc : isBlank c = true) (hr : m.next c = some r) : r.1 = .start ∧ r.2.length = 1 := by
  have hord : ordinary c = false := by simp [ordinary, hc]
  have hquote : ¬ c = '"' := by
    rintro rfl
    exact absurd hc (by decide)
  rcases hm with rfl | ⟨w, rfl⟩ | ⟨w, rfl⟩
  · rw [Mode.next, if_neg hquote, hord, if_neg Bool.false_ne_true] at hr
    split at hr
    · obtain rfl := Option.some_inj.mp hr
      exact ⟨rfl, rfl⟩
    · cases hr
  · rw [Mode.next, hord, if_neg Bool.false_ne_true] at hr
    split at hr
    · obtain rfl := Option.some_inj.mp hr
      exact ⟨rfl, rfl⟩
    · cases hr
  · rw [Mode.next] at hr
    split at hr
    · obtain rfl := Option.some_inj.mp hr
      exact ⟨rfl, rfl⟩
    · cases hr

/-- Only a blank completes a cell. -/
theorem next_nonblank (hc : isBlank c = false) (hr : m.next c = some r) : r.1 ≠ .start ∧ r.2 = [] := by
  have hblank : ¬ c = ' ' := by
    rintro rfl
    exact absurd hc (by decide)
  cases m with
  | start =>
    rw [Mode.next, if_neg hblank] at hr
    split at hr
    · obtain rfl := Option.some_inj.mp hr
      exact ⟨Mode.noConfusion, rfl⟩
    split at hr
    · obtain rfl := Option.some_inj.mp hr
      exact ⟨Mode.noConfusion, rfl⟩
    · cases hr
  | plain w =>
    rw [Mode.next, if_neg hblank] at hr
    split at hr
    · obtain rfl := Option.some_inj.mp hr
      exact ⟨Mode.noConfusion, rfl⟩
    · cases hr
  | quoted w =>
    rw [Mode.next] at hr
    split at hr
    · obtain rfl := Option.some_inj.mp hr
      exact ⟨Mode.noConfusion, rfl⟩
    split at hr
    · obtain rfl := Option.some_inj.mp hr
      exact ⟨Mode.noConfusion, rfl⟩
    split at hr
    · cases hr
    · obtain rfl := Option.some_inj.mp hr
      exact ⟨Mode.noConfusion, rfl⟩
  | escape w =>
    rw [Mode.next] at hr
    split at hr
    · obtain rfl := Option.some_inj.mp hr
      exact ⟨Mode.noConfusion, rfl⟩
    split at hr
    · cases hr
    · obtain rfl := Option.some_inj.mp hr
      exact ⟨Mode.noConfusion, rfl⟩
  | closed w =>
    rw [Mode.next, if_neg hblank] at hr
    cases hr

/-- A word that is one cell, in quotes or without. -/
def OneCell (w : List Char) : Prop := ∃ c, run .start w = some (.plain c, []) ∨ run .start w = some (.closed c, [])

theorem oneCell_closed (hw : run .start w = some (m, [])) (hm : m.Outside) (hstart : m = .start ↔ w = []) :
    ∀ x ∈ closed w, OneCell x := by
  intro x hx
  cases w with
  | nil => exact absurd hx List.not_mem_nil
  | cons c w =>
    rw [List.mem_singleton.mp hx]
    rcases hm with h | ⟨v, rfl⟩ | ⟨v, rfl⟩
    · exact absurd (hstart.mp h) (List.cons_ne_nil c w)
    · exact ⟨v, Or.inl hw⟩
    · exact ⟨v, Or.inr hw⟩

/-- With the word `w` so far. -/
theorem cells_of_wordsFrom (h : Unbroken m cs) (hrun : run m cs = some (m', done)) (hend : m'.Outside) (hw : run .start w = some (m, []))
    (hstart : m = .start ↔ w = []) : ∀ x ∈ wordsFrom isBlank w cs, OneCell x := by
  induction cs generalizing m w done with
  | nil =>
    obtain ⟨rfl, -⟩ := Prod.mk.inj (Option.some_inj.mp hrun)
    exact oneCell_closed hw hend hstart
  | cons c cs ih =>
    rw [Unbroken] at h
    rw [run] at hrun
    cases hn : m.next c with
    | none => rw [hn] at hrun; cases hrun
    | some r =>
      rw [hn] at hrun
      obtain ⟨⟨m₁, done₁⟩, hs, heq⟩ := Option.map_eq_some_iff.mp hrun
      obtain rfl := (Prod.mk.inj heq).1
      rw [wordsFrom]
      by_cases hc : isBlank c = true
      · rw [if_pos hc]
        have hnext := (next_blank (h.1 hc) hc hn).1
        intro x hx
        rcases List.mem_append.mp hx with hx | hx
        · exact oneCell_closed hw (h.1 hc) hstart x hx
        · exact ih (h.2 r hn) hs (by rw [hnext]; rfl) (by simp [hnext]) x hx
      · rw [if_neg hc]
        obtain ⟨hnext, hnone⟩ := next_nonblank (Bool.eq_false_iff.mpr hc) hn
        refine ih (h.2 r hn) hs ?_ (by simp [hnext])
        rw [run_append_some hw, run, hn]
        simp [run, hnone]

theorem cells_of_words (h : Seamless line) (hrow : fields line = some row) : ∀ w ∈ words isBlank line, OneCell w := by
  unfold fields at hrow
  split at hrow
  · cases hrow
  · next m done hrun =>
    obtain ⟨hunbroken, hends⟩ := h .start (Or.inl rfl)
    exact cells_of_wordsFrom hunbroken hrun (hends _ hrun) rfl (by simp)

theorem length_run (h : Unbroken m cs) (hrun : run m cs = some (m', done)) : done.length = cs.countP isBlank := by
  induction cs generalizing m done with
  | nil =>
    obtain ⟨-, rfl⟩ := Prod.mk.inj (Option.some_inj.mp hrun)
    rfl
  | cons c cs ih =>
    rw [Unbroken] at h
    rw [run] at hrun
    cases hn : m.next c with
    | none => rw [hn] at hrun; cases hrun
    | some r =>
      rw [hn] at hrun
      obtain ⟨⟨m₁, done₁⟩, hs, heq⟩ := Option.map_eq_some_iff.mp hrun
      obtain ⟨rfl, rfl⟩ := Prod.mk.inj heq
      rw [List.length_append, ih (h.2 r hn) hs, List.countP_cons]
      by_cases hc : isBlank c = true
      · rw [(next_blank (h.1 hc) hc hn).2, if_pos hc, Nat.add_comm]
      · rw [(next_nonblank (Bool.eq_false_iff.mpr hc) hn).2, if_neg hc]
        simp

theorem length_fields (h : Seamless line) (hrow : fields line = some row) : row.length = line.countP isBlank + 1 := by
  unfold fields at hrow
  split at hrow
  · cases hrow
  · next m done hrun =>
    obtain ⟨v, -, rfl⟩ := Option.map_eq_some_iff.mp hrow
    rw [List.length_append, length_run (h .start (Or.inl rfl)).1 hrun]
    rfl

theorem length_wordsFrom (cs : List Char) (w : List Char) : (wordsFrom isBlank w cs).length ≤ cs.countP isBlank + 1 := by
  have hclosed : ∀ v : List Char, (closed v).length ≤ 1 := by
    intro v
    cases v with
    | nil => exact Nat.zero_le 1
    | cons c v => exact le_refl 1
  induction cs generalizing w with
  | nil => exact hclosed w
  | cons c cs ih =>
    rw [wordsFrom, List.countP_cons]
    by_cases hc : isBlank c = true
    · have hrest := ih []
      have hw := hclosed w
      rw [if_pos hc, if_pos hc, List.length_append]
      omega
    · rw [if_neg hc, if_neg hc]
      exact ih (w ++ [c])

/-- There is a cell for each word, and for every blank that parts none. -/
theorem words_le_fields (h : Seamless line) (hrow : fields line = some row) : (words isBlank line).length ≤ row.length := by
  rw [length_fields h hrow]
  exact length_wordsFrom line []

/-! ## Printers -/

variable {α β : Type} {x : Dec α} {o : Opts} {b : Args} {lib : XdrLib} {count : UInt32}

/-- What is written has no blank in quotes. -/
def WritesSeamless (x : Dec α) : Prop := x.val ≠ none → Seamless (text (out x))

theorem WritesSeamless.bind {f : α → Dec β} (hx : WritesSeamless x) (hf : ∀ a, WritesSeamless (f a)) : WritesSeamless (x >>= f) := by
  intro hval
  obtain ⟨v, hv⟩ := Option.ne_none_iff_exists'.mp hval
  obtain ⟨a, ha, hfa⟩ := Trace.of_val_bind hv
  rw [out_bind f ha, text_append]
  apply (hx (by rw [ha]; exact Option.some_ne_none a)).append
  exact hf a (by rw [hfa]; exact Option.some_ne_none v)

theorem seamless_pure (a : α) : WritesSeamless (pure a : Dec α) := fun _ => seamless_nil

theorem seamless_silent (hx : out x = []) : WritesSeamless x := fun _ => by
  rw [hx]
  exact seamless_nil

theorem seamless_ite {y : Dec α} {p : Prop} [Decidable p] (hx : WritesSeamless x) (hy : WritesSeamless y) :
    WritesSeamless (if p then x else y) := by
  split
  · exact hx
  · exact hy

theorem seamless_when {y : Dec Unit} (p : Bool) (hy : WritesSeamless y) : WritesSeamless (Trace.when p y) := by
  cases p with
  | true => exact hy
  | false => exact seamless_pure ()

theorem Bare.seamless (h : Bare x) : WritesSeamless x := fun _ => seamless_bare h.text

/-! ### Names -/

def NonblankPiece : Act → Prop
  | .put p => Nonblank p.text
  | _ => True

@[simp] theorem nonblankPiece_byte (a : UInt32) : NonblankPiece (.byte a) := trivial

theorem nonblank_out (h : Trace.Only NonblankPiece x) : Nonblank (text (out x)) := by
  refine nonblank_flatMap fun p hp => ?_
  obtain ⟨e, he, hpe⟩ := List.mem_filterMap.mp hp
  cases e with
  | put c =>
    cases hpe
    exact h _ he
  | _ => cases hpe

theorem nonblank_text {ps : List Piece} (h : Nonblank (text ps)) : ∀ p ∈ ps, Nonblank p.text := fun p hp c hc =>
  h c (List.mem_flatMap.mpr ⟨p, hp, hc⟩)

theorem nonblank_printRaw (str : Ptr) (k : Nat) : ∀ i, Trace.Only NonblankPiece (printRaw str k i) := by
  induction k with
  | zero => exact fun i => by simp [printRaw]
  | succ k ih =>
    intro i
    rw [printRaw, Trace.only_bind]
    refine ⟨by simp, fun c _ => ?_⟩
    rw [Trace.only_bind, only_fprintf]
    exact ⟨nonblank_text (nonblank_raw c), fun _ _ => ih (i + 1)⟩

theorem nonblank_printDigest (str : Ptr) (len : UInt32) : Trace.Only NonblankPiece (printDigest o str len) := by
  have digest : ∀ c ∈ (o.sha1 (str.bytes len)).map Piece.X02, NonblankPiece (.put c) := by
    intro c hc
    obtain ⟨d, -, rfl⟩ := List.mem_map.mp hc
    exact nonblank_digest d
  rw [printDigest, Trace.only_bind]
  refine ⟨by simp, fun _ _ => ?_⟩
  split
  · exact Trace.only_crash _
  · exact only_fprintf.mpr digest

theorem nonblank_printComponent (str : Ptr) (len : UInt32) : Trace.Only NonblankPiece (printComponent o str len) := by
  have dots : NonblankPiece (.put (.lit ".")) ∧ NonblankPiece (.put (.lit "..")) := by
    unfold NonblankPiece
    decide
  simp [printComponent, dots, nonblank_printDigest]

theorem nonblank_path_segment (str : Ptr) (len : UInt32) : Trace.Only NonblankPiece (print_path_segment o str len) := by
  have slash : NonblankPiece (.put (.lit "/")) := by unfold NonblankPiece; decide
  simp [print_path_segment, slash, nonblank_printComponent]

theorem nonblank_printSegments (str : Ptr) (k : Nat) : ∀ i seg, Trace.Only NonblankPiece (printSegments o str k i seg) := by
  induction k with
  | zero => intro i seg; simp [printSegments]
  | succ k ih => intro i seg; simp [printSegments, ih, nonblank_path_segment]

theorem nonblank_printQuoted (str : Ptr) (len : UInt32) : Trace.Only NonblankPiece (printQuoted o str len) := by
  unfold printQuoted
  split
  · exact nonblank_printRaw str _ 0
  · simp [nonblank_printSegments, nonblank_path_segment]

theorem seamless_print_string (str : Ptr) (len : UInt32) : WritesSeamless (print_string o str len) := by
  intro hval
  unfold print_string at hval ⊢
  rw [val_fprintf_bind] at hval
  obtain ⟨v, hv⟩ := Option.ne_none_iff_exists'.mp hval
  obtain ⟨a, ha, -⟩ := Trace.of_val_bind hv
  have hquoted := seamless_quoted (nonblank_out (nonblank_printQuoted (o := o) str len))
    (keeps_printQuoted str len (by rw [ha]; exact Option.some_ne_none a))
  have htext : text (out (fprintf [.lit "\""] >>= fun _ => printQuoted o str len >>= fun _ => fprintf [.lit "\" "])) =
      '"' :: (text (out (printQuoted o str len)) ++ ['"']) ++ [' '] := by
    rw [out_fprintf_bind, text_append, out_bind _ ha, text_append, out_fprintf]
    simp [Piece.text]
  rw [htext]
  exact hquoted.append (seamless_bare (by decide))

/-! ### NFSv3 -/

theorem seamless_lit {s : String} (h : bareText s.toList = true) : WritesSeamless (fprintf [.lit s, .lit " "]) := by
  have hbare : Bare (fprintf [.lit s, .lit " "]) := by simp +decide [bare, h]
  exact hbare.seamless

theorem seamless_diropargs3_x (d : Diropargs3) {s t : String} (hs : bareText s.toList = true) (ht : bareText t.toList = true) :
    WritesSeamless (print_diropargs3_x o b d s t) :=
  (bare_fh3_x d.dir hs).seamless.bind fun _ => (seamless_lit ht).bind fun _ => seamless_print_string _ _

theorem seamless_ifGot (got : Option α) {k : α → Dec Unit} (h : ∀ a, WritesSeamless (k a)) : WritesSeamless (ifGot got k) := by
  cases got with
  | none => exact seamless_pure _
  | some a => exact (h a).bind fun _ => seamless_pure _

theorem seamless_callArgs (xdr : XDR) (q : Proc3) : WritesSeamless (printCallArgs o b lib xdr q) := by
  have dir : ∀ d : Diropargs3, WritesSeamless (print_diropargs3_x o b d "fh" "name") := fun d =>
    seamless_diropargs3_x d (by decide) (by decide)
  cases q with
  | lookup => exact seamless_ifGot _ fun d => dir d
  | create => exact seamless_ifGot _ fun d => (dir d.1).bind fun _ => (bare_createhow3_x d.2).seamless
  | mkdir => exact seamless_ifGot _ fun d => (dir d.1).bind fun _ => (bare_sattr3_x d.2).seamless
  | symlink =>
    exact seamless_ifGot _ fun d => (dir d.1).bind fun _ => (bare_sattr3_x d.2.1).seamless.bind fun _ =>
      (seamless_lit (s := "sdata") (by decide)).bind fun _ => seamless_print_string _ _
  | mknod => exact seamless_ifGot _ fun d => dir d
  | remove => exact seamless_ifGot _ fun d => dir d
  | rmdir => exact seamless_ifGot _ fun d => dir d
  | rename => exact seamless_ifGot _ fun d => (dir d.1).bind fun _ => seamless_diropargs3_x d.2 (by decide) (by decide)
  | link =>
    exact seamless_ifGot _ fun d => (bare_fh3_x d.1 (by decide)).seamless.bind fun _ =>
      seamless_diropargs3_x d.2 (by decide) (by decide)
  | mnt => exact seamless_ifGot _ fun path => seamless_print_string _ _
  | write => exact (bare_writeArgs xdr).seamless
  | _ => exact Bare.seamless (by simp +decide [printCallArgs])

theorem seamless_v3_call (op xid : UInt32) (p : Ptr) (actual_len : UInt32) :
    WritesSeamless (nfs_v3_print_call o b lib op xid p actual_len) := by
  have header : Bare (fprintf [.lit "C3 ", .x0 8 xid, .lit " ", .x0 2 op, .lit " "]) := by simp +decide
  have short : ∀ got_all : Bool, Bare (Trace.when (!got_all) (fprintf [.lit "SHORT PACKET"])) := fun got_all => by
    simp +decide
  refine (seamless_silent rfl).bind fun _ => header.seamless.bind fun _ => ?_
  split
  · next q _ =>
    exact (seamless_silent rfl).bind fun _ => (seamless_lit (bare_name q)).bind fun _ => (seamless_callArgs _ q).bind fun got_all =>
      (short got_all).seamless.bind fun _ => seamless_pure _
  · exact Bare.seamless (by simp +decide)

theorem seamless_entryName (label : String) (h : bareText label.toList = true) (num : Nat) (name : List UInt8) {f : Dec Unit}
    (hf : WritesSeamless f) : WritesSeamless (do printNumbered label num; printCstr o b name; f) :=
  (bare_numbered label h num).seamless.bind fun _ => (seamless_print_string _ _).bind fun _ => hf

theorem bare_uint64 (v : UInt64) : Bare (print_uint64_x v none) := bare_uint64_x v none fun s hs => absurd hs (Option.not_mem_none s)

theorem seamless_entries (es : List Entry3) : ∀ k, WritesSeamless (printEntries o b es k) := by
  induction es with
  | nil => exact fun k => seamless_pure _
  | cons entry es ih =>
    intro k
    exact (bare_numbered _ (by decide) k).seamless.bind fun _ => (bare_uint64 _).seamless.bind fun _ =>
      seamless_entryName _ (by decide) k _ <| (bare_numbered _ (by decide) k).seamless.bind fun _ =>
        (bare_uint64 _).seamless.bind fun _ => ih (k + 1)

theorem seamless_entriesplus (es : List Entryplus3) : ∀ k, WritesSeamless (printEntriesplus o b es k) := by
  induction es with
  | nil => exact fun k => seamless_pure _
  | cons entry es ih =>
    intro k
    exact (bare_numbered _ (by decide) k).seamless.bind fun _ => (bare_uint64 _).seamless.bind fun _ =>
      seamless_entryName _ (by decide) k _ <| (bare_numbered _ (by decide) k).seamless.bind fun _ =>
        (bare_uint64 _).seamless.bind fun _ => (bare_nameHandle k _).seamless.bind fun _ => ih (k + 1)

theorem seamless_listing {ε : Type} {entries : List ε → Nat → Dec Unit} (res : Option (Dirlist3 ε))
    (h : ∀ es k, WritesSeamless (entries es k)) : WritesSeamless (printListing entries res) := by
  cases res with
  | none => exact seamless_pure _
  | some res =>
    have eof : Bare (fprintf [.lit "eof ", .d res.eof, .lit " "]) := by simp +decide
    exact eof.seamless.bind fun _ => h _ _

theorem seamless_fn3 (p e : Ptr) (print : Bool) : WritesSeamless (print_fn3 o p e print) := by
  have cut : Bare (do fprintf [.lit " ... "]; return Ptr.null : Dec Ptr) := by simp +decide
  exact seamless_ite (seamless_pure _) <| (seamless_silent rfl).bind fun s_len =>
    seamless_ite cut.seamless <| (seamless_when _ (seamless_print_string _ _)).bind fun _ => seamless_pure _

theorem seamless_result (p e : Ptr) (actual_len status count : UInt32) (q : Proc3) :
    WritesSeamless (printResult o b lib p e actual_len status count q) := by
  have attrs := bare_print_post_op_attr3 p e true
  cases q with
  | readlink =>
    have label : Bare (fprintf [.lit "name "]) := by simp +decide
    exact (bare_print_post_op_attr3 p e false).seamless.bind fun new_p =>
      seamless_ite (label.seamless.bind fun _ => seamless_fn3 _ _ _) (seamless_pure _)
  | readdir =>
    exact seamless_ite (attrs.seamless.bind fun new_p => (seamless_listing _ seamless_entries).bind fun _ => seamless_pure _)
      attrs.seamless
  | readdirp =>
    exact seamless_ite (attrs.seamless.bind fun new_p => (seamless_listing _ seamless_entriesplus).bind fun _ => seamless_pure _)
      attrs.seamless
  | _ => exact Bare.seamless (by simp +decide [printResult, printReadOk, printCreated, volume3])

theorem seamless_v3_resp (op xid : UInt32) (p : Ptr) (actual_len status count : UInt32) :
    WritesSeamless (nfs_v3_print_resp o b lib op xid p actual_len status count) := by
  have header : Bare (fprintf [.lit "R3 ", .x0 8 xid, .lit " ", .x0 2 op, .lit " "]) := by simp +decide
  refine header.seamless.bind fun _ => (seamless_silent rfl).bind fun _ => WritesSeamless.bind ?_ fun new_p => ?_
  · cases Proc3.ofNumber op with
    | none => exact Bare.seamless (by simp +decide [printReply])
    | some q =>
      have name : Bare (fprintf [.lit q.name, .lit " "]) := by simp +decide [bare, bare_name]
      exact (seamless_silent rfl).bind fun _ => name.seamless.bind fun _ =>
        (seamless_when _ (bare_printStatus status).seamless).bind fun _ =>
        seamless_result _ _ _ _ _ q
  · have short : Bare (do fprintf [.lit "SHORT PACKET"]; return -1 : Dec Int32) := by simp +decide
    exact seamless_ite short.seamless (seamless_pure _)

/-! ### NFSv2 -/

theorem seamless_fn2 (p e : Ptr) {s : String} (h : bareText s.toList = true) : WritesSeamless (print_fn2 o p e true s) :=
  (seamless_lit h).bind fun _ => seamless_fn3 p e true

theorem seamless_diropargs2 (p e : Ptr) {s t : String} (hs : bareText s.toList = true) (ht : bareText t.toList = true) :
    WritesSeamless (print_diropargs2 o p e true s t) :=
  (bare_print_fh2 p e true hs).seamless.bind fun new_p => seamless_fn2 new_p e ht

theorem seamless_args2 (p e : Ptr) (count : UInt32) (q : Proc2) : WritesSeamless (printArgs2 o p e count q) := by
  have dir : ∀ p, WritesSeamless (print_diropargs2 o p e true "fh" "fn") := fun p => seamless_diropargs2 p e (by decide) (by decide)
  have attrs : ∀ p, WritesSeamless (print_sattr2 p e true) := fun p => (bare_print_sattr2 p e true).seamless
  cases q with
  | lookup => exact dir p
  | remove => exact dir p
  | rmdir => exact dir p
  | create => exact (dir p).bind attrs
  | mkdir => exact (dir p).bind attrs
  | rename => exact (dir p).bind fun new_p => seamless_diropargs2 new_p e (by decide) (by decide)
  | link => exact (bare_print_fh2 p e true (by decide)).seamless.bind fun new_p => seamless_diropargs2 new_p e (by decide) (by decide)
  | symlink => exact (dir p).bind fun new_p => (seamless_fn2 new_p e (by decide)).bind attrs
  | _ => exact Bare.seamless (by simp +decide [printArgs2, printReadArgs2, printWriteArgs2, print_cookie2, volume2])

theorem seamless_v2_call (op xid : UInt32) (p : Ptr) (actual_len count : UInt32) :
    WritesSeamless (nfs_v2_print_call o op xid p actual_len count) := by
  have header : Bare (fprintf [.lit "C2 ", .xLeft 8 xid, .lit " ", .xRight 2 op, .lit " "]) := by simp +decide
  refine (seamless_silent rfl).bind fun _ => header.seamless.bind fun _ => ?_
  split
  · next q _ =>
    have name : Bare (fprintf [.sLeft 8 q.callName, .lit " "]) := by simp +decide [bare, bare_callName]
    have short : Bare (fprintf [.lit "+|+"]) := by simp +decide
    exact (seamless_silent rfl).bind fun _ => name.seamless.bind fun _ => (seamless_args2 p _ count q).bind fun new_p =>
      (seamless_when _ short.seamless).bind fun _ => seamless_pure _
  · exact Bare.seamless (by simp +decide [bump2])

theorem seamless_body2 (p e : Ptr) (status count : UInt32) (q : Proc2) : WritesSeamless (printBody2 o p e status count q) := by
  refine seamless_ite ?_ (seamless_pure _)
  cases q with
  | readlink => exact seamless_fn2 p e (by decide)
  | _ => exact Bare.seamless (by simp +decide [printResult2, printReadOk2, volume2])

theorem seamless_v2_resp (op xid : UInt32) (p : Ptr) (actual_len status count : UInt32) :
    WritesSeamless (nfs_v2_print_resp o op xid p actual_len status count) := by
  have header : Bare (fprintf [.lit "R2 ", .xLeft 8 xid, .lit " ", .xRight 2 op, .lit " "]) := by simp +decide
  refine header.seamless.bind fun _ => (seamless_silent rfl).bind fun _ => ?_
  split
  · next q _ =>
    have name : Bare (fprintf [.sLeft 8 q.replyName, .lit " "]) := by simp +decide [bare, bare_replyName]
    have bareStatus : Bare (printStatus2 status) := by
      unfold printStatus2
      split <;> simp +decide
    have short : Bare (fprintf [.lit "+/+"]) := by simp +decide
    exact (seamless_silent rfl).bind fun _ => name.seamless.bind fun _ => (seamless_when _ bareStatus.seamless).bind fun _ =>
      (seamless_body2 p _ status count q).bind fun new_p => (seamless_when _ short.seamless).bind fun _ => seamless_pure _
  · exact Bare.seamless (by simp +decide [bump2])

/-! ## Lines -/

section Lines

open Record

variable {l : DumpLine}

theorem text_dumpLine (hval : (l.print o b lib count).val ≠ none) :
    text (out (l.print o b lib count)) = (front o l).flatMap (· ++ [' ']) ++
    (text (out (printBody o b lib count l.record l.xdr l.payload_len l.actual_len)) ++
      text (out (printTrailer l.ids l.con l.len l.longpkt))) := by
  obtain ⟨v, hv⟩ := Option.ne_none_iff_exists'.mp (print_val_body hval)
  rw [DumpLine.print, out_bind _ ((val_printRecord ..).trans hv), text_append, text_printRecord]
  simp [front]

theorem bareText_words {ws : List Cell} (h : ∀ w ∈ ws, Printed w) : bareText (ws.flatMap (· ++ [' '])) = true := by
  induction ws with
  | nil => rfl
  | cons w ws ih =>
    rw [List.forall_mem_cons] at h
    rw [List.flatMap_cons, bareText_append, bareText_append, h.1.bare, ih h.2]
    rfl

theorem seamless_trailer (l : DumpLine) : Seamless (text (out (printTrailer l.ids l.con l.len l.longpkt))) := by
  have hids : Bare (printIds l.ids) := by
    cases l.ids with
    | none => simp [printIds]
    | some i => simp +decide [printIds]
  have hlong : Bare (printLongpkt l.longpkt) := by
    cases l.longpkt with
    | none => simp [printLongpkt]
    | some n => simp +decide [printLongpkt]
  have hbare : Bare (printTrailer l.ids l.con l.len l.longpkt) := by simp +decide [printTrailer, hids, hlong]
  exact seamless_bare hbare.text

theorem seamless_body (hversion : l.record.nfsVersion = 3 ∨ l.record.nfsVersion = 2) :
    WritesSeamless (printBody o b lib count l.record l.xdr l.payload_len l.actual_len) := by
  have h23 : (2 : UInt32) ≠ 3 := by decide
  have hcall : WritesSeamless (printCall o b lib count l.record l.xdr l.actual_len) := by
    unfold printCall
    rcases hversion with h | h
    · rw [if_pos h]
      exact (seamless_v3_call _ _ _ _).bind fun _ => seamless_pure _
    · rw [h, if_neg h23, if_pos rfl]
      exact (seamless_v2_call _ _ _ _ _).bind fun _ => seamless_pure _
  have hreply : WritesSeamless (printReplyBody o b lib count l.record l.xdr l.actual_len) := by
    unfold printReplyBody
    rcases hversion with h | h
    · rw [if_pos h]
      exact (seamless_v3_resp _ _ _ _ _ _).bind fun _ => seamless_pure _
    · rw [h, if_neg h23, if_pos rfl]
      exact (seamless_v2_resp _ _ _ _ _ _).bind fun _ => seamless_pure _
  apply seamless_ite hcall
  exact hreply.bind fun _ => (bare_status _).seamless.bind fun _ => (bare_pl _).seamless

/-- A record's line, unless its version is unknown. -/
theorem seamless_line (hversion : l.record.nfsVersion = 3 ∨ l.record.nfsVersion = 2) (hval : (l.print o b lib count).val ≠ none) :
    Seamless (text (out (l.print o b lib count))) := by
  rw [text_dumpLine hval]
  apply (seamless_bare (bareText_words (printed_front o l))).append
  exact (seamless_body hversion (print_val_body hval)).append (seamless_trailer l)

end Lines

end Nfsdump.Pathtree
