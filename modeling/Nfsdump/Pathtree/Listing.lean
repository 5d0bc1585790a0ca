/-
  Nfsdump.Pathtree.Listing — the relations that `ExtractFhParent.process` takes from a
  READDIRPLUS reply.

  nfsdump numbers the entries of a listing and prints the handles that are there. The
  extractor looks for the handle of a number and goes on to the next number only behind one.

  Proved, for any entries and names:
  - `listed_entries`: what it finds are the entries in front of the first one without a handle;
  - `entries_extracted_iff`: it finds all of them iff behind that entry there is none to be
    found, no name is cut at a NUL and, with RAWNAMES, the names are UTF-8;
  - `entry_behind_gap`: a listing that breaks it.
-/

import Nfsdump.Pathtree.Exchange

namespace Nfsdump.Pathtree

open Wire Decode Xdr Record

/-! ## Numbered labels -/

theorem numbered_injective {label : String} {i j : Nat} (h : numbered label i = numbered label j) : i = j :=
  Digits.toDigits_injective (b := 10) (by decide) (by decide) (List.append_cancel_left h)

/-- A cell that begins like neither of the labels looked for. -/
def Unnumbered (c : Cell) : Prop := ¬ ['n', 'a'] <+: c ∧ ¬ ['f', 'h'] <+: c

theorem Unnumbered.ne_name {c : Cell} (h : Unnumbered c) (i : Nat) : c ≠ numbered "name-" i := by
  intro hx
  apply h.1
  rw [hx, numbered]
  exact ⟨_, rfl⟩

theorem Unnumbered.ne_fh {c : Cell} (h : Unnumbered c) (i : Nat) : c ≠ numbered "fh-" i := by
  intro hx
  apply h.2
  rw [hx, numbered]
  exact ⟨_, rfl⟩

theorem unnumbered_hex (n : Nat) : Unnumbered (hex n) := by
  have digits : ∀ d < 16, Nat.digitChar d ≠ 'n' ∧ Nat.digitChar d ≠ 'h' := by decide
  constructor
  · intro h
    obtain ⟨d, hd, hx⟩ := Digits.mem_toDigits (by decide) (h.subset (List.mem_cons_self : 'n' ∈ ['n', 'a']))
    exact (digits d hd).1 hx.symm
  · intro h
    obtain ⟨d, hd, hx⟩ := Digits.mem_toDigits (by decide) (h.subset (List.mem_cons_of_mem 'f' (List.mem_singleton_self 'h')))
    exact (digits d hd).2 hx.symm

theorem unnumbered_nil : Unnumbered [] := ⟨by decide, by decide⟩

/-- The cells behind a reply's result are no labels. -/
theorem unnumbered_replyEnd (l : DumpLine) : ∀ c ∈ replyEnd l, Unnumbered c := by
  have hids : ∀ c ∈ idsCells l.ids, Unnumbered c := by
    cases l.ids with
    | none => simp [idsCells]
    | some ids =>
      simp only [idsCells, List.forall_mem_cons]
      exact ⟨⟨by decide, by decide⟩, unnumbered_hex _, ⟨by decide, by decide⟩, unnumbered_hex _, by simp⟩
  have hlong : ∀ c ∈ longpktCells l.longpkt, Unnumbered c := by
    cases l.longpkt with
    | none => simp [longpktCells]
    | some n =>
      simp only [longpktCells, List.forall_mem_cons]
      exact ⟨⟨by simp, by simp⟩, unnumbered_nil, by simp⟩
  simp only [replyEnd, trailerCells, List.forall_mem_cons, List.forall_mem_append]
  exact ⟨⟨by simp, by simp⟩, ⟨by simp, by simp⟩, hids, ⟨by simp, by simp⟩, ⟨by simp, by simp⟩, hlong⟩

/-! ## Looking for labels -/

variable {parent : Option Cell} {idx : Nat} {name key value : Cell} {rest : List Cell}

theorem listed_skip (hname : key ≠ numbered "name-" idx) (hfh : key ≠ numbered "fh-" idx) :
    listed parent (key :: value :: rest) idx name = listed parent rest idx name := by
  rw [listed, if_neg hname, if_neg hfh]

theorem listed_name : listed parent (numbered "name-" idx :: value :: rest) idx name = listed parent rest idx value := by
  rw [listed, if_pos rfl]

theorem listed_fh : listed parent (numbered "fh-" idx :: value :: rest) idx name =
    (if name ≠ ".".toList ∧ name ≠ "..".toList then [⟨some value, some name, parent⟩] else []) ++
      listed parent rest (idx + 1) name := by
  have hne : numbered "fh-" idx ≠ numbered "name-" idx := fun hx => absurd (List.cons.inj hx).1 (by decide)
  rw [listed, if_neg hne, if_pos rfl]

theorem listed_unnumbered {cs : List Cell} (h : ∀ c ∈ cs, Unnumbered c) : listed parent cs idx name = [] := by
  induction cs using List.twoStepInduction with
  | nil => rfl
  | singleton c => rfl
  | cons_cons key value rest ih _ =>
    simp only [List.forall_mem_cons] at h
    rw [listed_skip (h.1.ne_name idx) (h.1.ne_fh idx)]
    exact ih h.2.2

/-- Labels with values, none of them looked for. -/
theorem listed_labelled {fs : List (String × Value)} (h : ∀ s ∈ fs.map Prod.fst, Unnumbered s.toList.dropLast) :
    listed parent (labelledCells fs ++ rest) idx name = listed parent rest idx name := by
  induction fs with
  | nil => rfl
  | cons f fs ih =>
    rw [List.map_cons, List.forall_mem_cons] at h
    exact (listed_skip (h.1.ne_name idx) (h.1.ne_fh idx)).trans (ih h.2)

theorem listed_attrs (a : Option Fattr3) :
    listed parent (labelledCells (attrFields a) ++ rest) idx name = listed parent rest idx name := by
  have labels : ∀ s ∈ attrLabels, ¬ ['n', 'a'] <+: s.toList.dropLast ∧ ¬ ['f', 'h'] <+: s.toList.dropLast := by decide
  exact listed_labelled fun s hs => labels s (mem_attrLabels hs)

/-! ## Entries -/

/-- An entry's name in its line. -/
def printedName (o : Opts) (e : Entryplus3) : Cell := nameCell o (cut e.name)

/-- An entry's name in its row. -/
def readName (o : Opts) (e : Entryplus3) : Cell := decoded (nameCell o (cut e.name))

/-- The cells of entry `k`, with its name as `shown`. -/
def entryCells (shown : Entryplus3 → Cell) (k : Nat) (e : Entryplus3) : List Cell :=
  [numbered "fileid-" k, hex e.fileid.toNat, numbered "name-" k, shown e, numbered "cookie-" k, hex e.cookie.toNat] ++
    match e.name_handle with
    | some f => [numbered "fh-" k, handleCell f]
    | none => []

def listingCells (shown : Entryplus3 → Cell) : List Entryplus3 → Nat → List Cell
  | [], _ => []
  | e :: es, k => entryCells shown k e ++ listingCells shown es (k + 1)

/-- What is found for an entry. -/
def found (o : Opts) (parent : Option Cell) (e : Entryplus3) (f : NfsFh3) : List FhRow :=
  let name := readName o e
  if name ≠ ".".toList ∧ name ≠ "..".toList then [⟨some (handleCell f), some name, parent⟩] else []

/-- Nothing is found behind an entry without a handle. -/
def allFound (o : Opts) (parent : Option Cell) : List Entryplus3 → List FhRow
  | [] => []
  | e :: es =>
    match e.name_handle with
    | some f => found o parent e f ++ allFound o parent es
    | none => []

theorem unnumbered_fileid (k : Nat) : Unnumbered (numbered "fileid-" k) := by
  constructor
  · rintro ⟨t, ht⟩
    exact absurd (List.cons.inj ht).1 (by decide)
  · rintro ⟨t, ht⟩
    exact absurd (List.cons.inj (List.cons.inj ht).2).1 (by decide)

theorem unnumbered_cookie (k : Nat) : Unnumbered (numbered "cookie-" k) := by
  constructor
  · rintro ⟨t, ht⟩
    exact absurd (List.cons.inj ht).1 (by decide)
  · rintro ⟨t, ht⟩
    exact absurd (List.cons.inj ht).1 (by decide)

/-- An entry of another number. -/
theorem listed_other {shown : Entryplus3 → Cell} {e : Entryplus3} {k : Nat} (hk : k ≠ idx) :
    listed parent (entryCells shown k e ++ rest) idx name = listed parent rest idx name := by
  have hname : numbered "name-" k ≠ numbered "name-" idx := fun h => hk (numbered_injective h)
  have hfh : numbered "fh-" k ≠ numbered "fh-" idx := fun h => hk (numbered_injective h)
  have hname' : numbered "name-" k ≠ numbered "fh-" idx := fun h => absurd (List.cons.inj h).1 (by decide)
  have hfh' : numbered "fh-" k ≠ numbered "name-" idx := fun h => absurd (List.cons.inj h).1 (by decide)
  unfold entryCells
  simp only [List.cons_append, List.nil_append]
  rw [listed_skip ((unnumbered_fileid k).ne_name idx) ((unnumbered_fileid k).ne_fh idx), listed_skip hname hname',
    listed_skip ((unnumbered_cookie k).ne_name idx) ((unnumbered_cookie k).ne_fh idx)]
  cases e.name_handle with
  | none => rfl
  | some f => exact listed_skip hfh' hfh

theorem listed_others {shown : Entryplus3 → Cell} (es : List Entryplus3) : ∀ k, idx < k →
    listed parent (listingCells shown es k ++ rest) idx name = listed parent rest idx name := by
  induction es with
  | nil => exact fun k _ => rfl
  | cons e es ih =>
    intro k hk
    rw [listingCells, List.append_assoc, listed_other (Nat.ne_of_gt hk), ih (k + 1) (Nat.lt_succ_of_lt hk)]

/-- What is found are the entries in front of the first without a handle. -/
theorem listed_entries {o : Opts} (hrest : ∀ c ∈ rest, Unnumbered c) (es : List Entryplus3) : ∀ (k : Nat) (name : Cell),
    listed parent (listingCells (readName o) es k ++ rest) k name = allFound o parent es := by
  induction es with
  | nil => exact fun k name => listed_unnumbered hrest
  | cons e es ih =>
    intro k name
    have hfront : ∀ more, listed parent (numbered "fileid-" k :: hex e.fileid.toNat :: numbered "name-" k :: readName o e ::
        numbered "cookie-" k :: hex e.cookie.toNat :: more) k name = listed parent more k (readName o e) := by
      intro more
      rw [listed_skip ((unnumbered_fileid k).ne_name k) ((unnumbered_fileid k).ne_fh k), listed_name,
        listed_skip ((unnumbered_cookie k).ne_name k) ((unnumbered_cookie k).ne_fh k)]
    rw [listingCells, entryCells, allFound]
    cases e.name_handle with
    | none =>
      simp only [List.cons_append, List.nil_append, List.append_nil]
      rw [hfront, listed_others es (k + 1) (Nat.lt_succ_self k)]
      exact listed_unnumbered hrest
    | some f =>
      simp only [List.cons_append, List.nil_append]
      rw [hfront, listed_fh, ih]
      rfl

/-! ## Relations -/

/-- The relation an entry stands for. -/
def relationOf (o : Opts) (dir : NfsFh3) (e : Entryplus3) : Option FhRow :=
  match e.name_handle with
  | some f =>
    if e.name = [DOT] ∨ e.name = [DOT, DOT] then none
    else some ⟨some (handleCell f), some (nameCell o e.name), some (handleCell dir)⟩
  | none => none

/-- No entry that stands for a relation is behind one without a handle, and the names of
    those in front are printed whole and read as they are printed. -/
def Extractable (o : Opts) (dir : NfsFh3) (es : List Entryplus3) : Prop :=
  (∀ e ∈ es.takeWhile (·.name_handle.isSome), relationOf o dir e ≠ none → NameShown o e.name) ∧
    ∀ e ∈ es.dropWhile (·.name_handle.isSome), relationOf o dir e = none

variable {o : Opts} {dir : NfsFh3} {e : Entryplus3} {f : NfsFh3}

theorem dotCells : ".".toList = [DOT].map (fun _ => '.') ∧ "..".toList = [DOT, DOT].map (fun _ => '.') := ⟨rfl, rfl⟩

theorem dots_ascii {t : Cell} (h : t = ".".toList ∨ t = "..".toList) : ∀ c ∈ t, c.toNat < 128 := by
  rcases h with rfl | rfl <;> decide

/-- A name that is read as it is, and is not `.` or `..`. -/
theorem readName_ne_dots (h : ¬ (e.name = [DOT] ∨ e.name = [DOT, DOT])) (hshown : encoded (readName o e) = nameCell o e.name) :
    readName o e ≠ ".".toList ∧ readName o e ≠ "..".toList := by
  rw [not_or] at h
  constructor
  · intro hx
    rw [hx, encoded_ascii (dots_ascii (Or.inl rfl)), dotCells.1] at hshown
    exact h.1 ((nameCell_dots (Or.inl rfl)).mp hshown.symm)
  · intro hx
    rw [hx, encoded_ascii (dots_ascii (Or.inr rfl)), dotCells.2] at hshown
    exact h.2 ((nameCell_dots (Or.inr rfl)).mp hshown.symm)

/-- `.` and `..` are left out. -/
theorem found_of_none (hf : e.name_handle = some f) (h : relationOf o dir e = none) (parent : Option Cell) : found o parent e f = [] := by
  have hdots : e.name = [DOT] ∨ e.name = [DOT, DOT] := by
    by_contra hne
    rw [relationOf, hf] at h
    simp only [if_neg hne] at h
    cases h
  refine if_neg fun hx => ?_
  have hcut : cut e.name = e.name := by rcases hdots with h | h <;> rw [h] <;> rfl
  rw [readName, hcut] at hx
  rcases hdots with h | h
  · apply hx.1
    rw [decoded_nameCell_iff (dots_ascii (Or.inl rfl)), dotCells.1]
    exact (nameCell_dots (Or.inl rfl)).mpr h
  · apply hx.2
    rw [decoded_nameCell_iff (dots_ascii (Or.inr rfl)), dotCells.2]
    exact (nameCell_dots (Or.inr rfl)).mpr h

theorem found_le (hf : e.name_handle = some f) (parent : Option Cell) :
    (found o parent e f).length ≤ (relationOf o dir e).toList.length := by
  cases hr : relationOf o dir e with
  | none => rw [found_of_none hf hr]; rfl
  | some r =>
    unfold found
    dsimp only
    split
    · exact Nat.le_refl 1
    · exact Nat.zero_le 1

theorem found_iff (hf : e.name_handle = some f) : (found o (some (handleCell dir)) e f).map FhRow.written = (relationOf o dir e).toList ↔
    (relationOf o dir e ≠ none → NameShown o e.name) := by
  cases hr : relationOf o dir e with
  | none => exact iff_of_true (by rw [found_of_none hf hr _]; rfl) fun h => absurd rfl h
  | some r =>
    have hne : ¬ (e.name = [DOT] ∨ e.name = [DOT, DOT]) := by
      intro hdots
      rw [relationOf, hf] at hr
      simp only [if_pos hdots] at hr
      cases hr
    have hrow : r = ⟨some (handleCell f), some (nameCell o e.name), some (handleCell dir)⟩ := by
      rw [relationOf, hf] at hr
      simp only [if_neg hne, Option.some_inj] at hr
      exact hr.symm
    have hwritten : FhRow.written ⟨some (handleCell f), some (readName o e), some (handleCell dir)⟩ =
        ⟨some (handleCell f), some (encoded (readName o e)), some (handleCell dir)⟩ := by
      rw [FhRow.written, Option.map_some, Option.map_some, Option.map_some, encoded_handle, encoded_handle]
    rw [← nameShown_iff, hrow]
    constructor
    · intro h _
      unfold found at h
      dsimp only at h
      split at h
      · rw [List.map_singleton, hwritten] at h
        exact Option.some_inj.mp (FhRow.mk.inj (List.cons.inj h).1).2.1
      · cases h
    · intro h
      have hshown : encoded (readName o e) = nameCell o e.name := h nofun
      unfold found
      dsimp only
      rw [if_pos (readName_ne_dots hne hshown), List.map_singleton, hwritten, hshown]
      rfl

theorem filterMap_relationOf (e : Entryplus3) (es : List Entryplus3) :
    (e :: es).filterMap (relationOf o dir) = (relationOf o dir e).toList ++ es.filterMap (relationOf o dir) := by
  rw [List.filterMap_cons]
  cases relationOf o dir e <;> rfl

theorem allFound_le (es : List Entryplus3) (parent : Option Cell) :
    (allFound o parent es).length ≤ (es.filterMap (relationOf o dir)).length := by
  induction es with
  | nil => exact Nat.le_refl 0
  | cons e es ih =>
    rw [filterMap_relationOf, List.length_append, allFound]
    cases hf : e.name_handle with
    | none => exact Nat.zero_le _
    | some f =>
      dsimp only
      rw [List.length_append]
      exact Nat.add_le_add (found_le hf parent) ih

/-- Everything is found iff nothing stands behind a gap and the names are whole. -/
theorem allFound_iff (es : List Entryplus3) :
    (allFound o (some (handleCell dir)) es).map FhRow.written = es.filterMap (relationOf o dir) ↔ Extractable o dir es := by
  induction es with
  | nil => exact iff_of_true rfl ⟨nofun, nofun⟩
  | cons e es ih =>
    cases hf : e.name_handle with
    | none =>
      have hgap : ¬ e.name_handle.isSome = true := by rw [hf]; decide
      rw [allFound, hf, Extractable, List.takeWhile_cons_of_neg (p := fun x : Entryplus3 => x.name_handle.isSome) hgap,
        List.dropWhile_cons_of_neg (p := fun x : Entryplus3 => x.name_handle.isSome) hgap]
      dsimp only
      rw [List.map_nil, eq_comm, List.filterMap_eq_nil_iff]
      exact ⟨fun h => ⟨nofun, h⟩, fun h => h.2⟩
    | some f =>
      have hhas : e.name_handle.isSome = true := by rw [hf]; rfl
      rw [allFound, hf, Extractable, List.takeWhile_cons_of_pos (p := fun x : Entryplus3 => x.name_handle.isSome) hhas,
        List.dropWhile_cons_of_pos (p := fun x : Entryplus3 => x.name_handle.isSome) hhas, filterMap_relationOf, List.forall_mem_cons,
        and_assoc, ← Extractable, ← ih, ← found_iff hf]
      dsimp only
      rw [List.map_append]
      constructor
      · intro h
        have hlen : ((found o (some (handleCell dir)) e f).map FhRow.written).length = (relationOf o dir e).toList.length := by
          have hsum := congrArg List.length h
          rw [List.length_append, List.length_append, List.length_map, List.length_map] at hsum
          rw [List.length_map]
          have hle : _ ≤ (relationOf o dir e).toList.length := found_le hf (some (handleCell dir))
          have hle' : _ ≤ (es.filterMap (relationOf o dir)).length := allFound_le es (some (handleCell dir))
          omega
        exact List.append_inj h hlen
      · intro h
        rw [h.1, h.2]

/-! ## The reply's line -/

section Printer

variable {b : Args} {lib : XdrLib} {count : UInt32}

theorem puts_numbered {label : String} (h : Printed label.toList) {k : Nat} (hk : k < 2 ^ 32) :
    Puts (printNumbered label k) [numbered label k] () := by
  refine puts_fprintf ?_
  have hcell := cells_printed (h.append (printed_dec k))
  have htext : text [.lit label, .u (UInt32.ofNat k), .lit " "] = label.toList ++ dec k ++ [' '] := by
    simp [Piece.text, toNat_ofNat_lt hk]
  rw [htext]
  exact hcell

theorem puts_uint64_x (v : UInt64) : Puts (print_uint64_x v none) [hex v.toNat] () := by
  have htext : text (uint64Pieces (UInt32.ofNat (v.toNat / 2 ^ 32)) (UInt32.ofNat v.toNat)) = hex v.toNat ++ [' '] :=
    text_value (.hyper v)
  have hputs : Puts (fprintfUint64 (UInt32.ofNat (v.toNat / 2 ^ 32)) (UInt32.ofNat v.toNat)) [hex v.toNat] () := by
    refine puts_fprintf ?_
    rw [htext]
    exact cells_printed (printed_toDigits (by decide) (by decide))
  exact (puts_pure ()).bind hputs

theorem puts_nameHandle {k : Nat} (hk : k < 2 ^ 32) (f : Option NfsFh3) :
    Puts (printNameHandle k f) (match f with | some f => [numbered "fh-" k, handleCell f] | none => []) () := by
  cases f with
  | none => exact puts_pure ()
  | some f =>
    have hlabel : (String.ofList (text [.lit "fh-", .u (UInt32.ofNat k)])).toList = numbered "fh-" k := by
      rw [String.toList_ofList]
      simp [Piece.text, numbered, toNat_ofNat_lt hk, dec]
    have hprinted : Printed (numbered "fh-" k) := Printed.append (w := "fh-".toList) ⟨by decide, by decide⟩ (printed_dec k)
    rw [← hlabel] at hprinted
    have hputs := puts_fh3_x f hprinted
    rw [hlabel] at hputs
    exact hputs

theorem printed_numbered {label : String} (h : Printed label.toList) (k : Nat) : Printed (numbered label k) :=
  h.append (printed_dec k)

/-- A listing's cells as they are read. -/
theorem listingCells_decoded (es : List Entryplus3) :
    ∀ k, (listingCells (printedName o) es k).map decoded = listingCells (readName o) es k := by
  have handle : ∀ (k : Nat) (f : Option NfsFh3), (match f with | some f => [numbered "fh-" k, handleCell f] | none => []).map decoded =
      match f with | some f => [numbered "fh-" k, handleCell f] | none => [] := by
    intro k f
    cases f with
    | none => rfl
    | some f =>
      dsimp only
      rw [List.map_cons, List.map_singleton, (printed_numbered ⟨by decide, by decide⟩ k).decoded, decoded_handle]
  induction es with
  | nil => exact fun k => rfl
  | cons e es ih =>
    intro k
    have hfileid : decoded (numbered "fileid-" k) = numbered "fileid-" k := (printed_numbered ⟨by decide, by decide⟩ k).decoded
    have hname : decoded (numbered "name-" k) = numbered "name-" k := (printed_numbered ⟨by decide, by decide⟩ k).decoded
    have hcookie : decoded (numbered "cookie-" k) = numbered "cookie-" k := (printed_numbered ⟨by decide, by decide⟩ k).decoded
    have hhex : ∀ n, decoded (hex n) = hex n := fun n => (printed_toDigits (by decide) (by decide)).decoded
    have hread : decoded (printedName o e) = readName o e := rfl
    simp only [listingCells, entryCells, List.map_append, List.map_cons, List.map_nil, hfileid, hname, hcookie, hhex, hread, handle, ih]

theorem puts_entriesplus (es : List Entryplus3) (hnames : ∀ e ∈ es, b.addr.toNat + e.name.length < 2 ^ 32) :
    ∀ k, k + es.length ≤ 2 ^ 32 → Puts (printEntriesplus o b es k) (listingCells (printedName o) es k) () := by
  induction es with
  | nil => exact fun k _ => puts_pure ()
  | cons e es ih =>
    rw [List.forall_mem_cons] at hnames
    intro k hk
    rw [List.length_cons] at hk
    have hk' : k < 2 ^ 32 := by omega
    have hcells : listingCells (printedName o) (e :: es) k = [numbered "fileid-" k] ++ ([hex e.fileid.toNat] ++ ([numbered "name-" k] ++
        ([printedName o e] ++ ([numbered "cookie-" k] ++ ([hex e.cookie.toNat] ++
          ((match e.name_handle with | some f => [numbered "fh-" k, handleCell f] | none => []) ++ listingCells (printedName o) es
            (k + 1))))))) := by
      simp [listingCells, entryCells]
    rw [hcells]
    exact (puts_numbered ⟨by decide, by decide⟩ hk').bind ((puts_uint64_x e.fileid).bind
      ((puts_numbered ⟨by decide, by decide⟩ hk').bind ((puts_cstr hnames.1).bind
        ((puts_numbered ⟨by decide, by decide⟩ hk').bind ((puts_uint64_x e.cookie).bind
          ((puts_nameHandle hk' e.name_handle).bind (ih hnames.2 (k + 1) (by omega))))))))

theorem linked_length {α : Type} (enc : α → List UInt32) (as : List α) : as.length ≤ (linked enc as).length := by
  induction as with
  | nil => exact Nat.zero_le _
  | cons a as ih =>
    rw [linked, List.length_cons, List.length_cons, List.length_append]
    omega

/-- The attributes in front of a listing. -/
theorem puts_dir_attributes {p : Ptr} {actual_len : UInt32} (r : READDIR3resok Entryplus) (h : Mapped p (actual_len.toNat / 4))
    (hlies : p.Holds (wire (Reply3.readdirp (.resok r)).body))
    (hwhole : 4 * (Reply3.readdirp (.resok r)).body.length ≤ actual_len.toNat) :
    (post_op_attr r.dir_attributes).length ≤ actual_len.toNat / 4 ∧
      Puts (print_post_op_attr3 p (cur p (actual_len.toNat / 4)) true) (labelledCells (attrFields r.dir_attributes))
        (cur p (post_op_attr r.dir_attributes).length) := by
  have hbody : (Reply3.readdirp (.resok r)).body = r.xdr Entryplus.xdr := rfl
  rw [hbody] at hlies hwhole
  have hsize : (post_op_attr r.dir_attributes).length ≤ (r.xdr Entryplus.xdr).length := by
    simp only [READDIR3resok.xdr, List.length_append]
    omega
  have hattr : At (wordAt p) 0 (post_op_attr r.dir_attributes) := by
    rw [← cur_zero p] at hlies
    have hat := at_of_holds hlies
    simp only [READDIR3resok.xdr, at_append] at hat
    exact hat.1.1.1
  have hprint : Says (print_post_op_attr3 (cur p 0) (cur p (actual_len.toNat / 4)) true) (labelled (attrFields r.dir_attributes))
      (cur p (0 + (post_op_attr r.dir_attributes).length)) := says_post_op_attr3 h hattr (by omega)
  rw [Nat.zero_add, cur_zero] at hprint
  refine ⟨by omega, hprint.1, ?_⟩
  rw [hprint.2, text_labelled]
  exact cells_attrs r.dir_attributes

/-- The result of a listing with its entries. -/
theorem puts_readdirp {p : Ptr} {actual_len : UInt32} (r : READDIR3resok Entryplus) (homit : o.omitReaddirContents = false)
    (h : Mapped p (actual_len.toNat / 4)) (hlies : p.Holds (wire (Reply3.readdirp (.resok r)).body))
    (hwhole : 4 * (Reply3.readdirp (.resok r)).body.length ≤ actual_len.toNat)
    (hlist : Listed lib b p actual_len (.readdirp (.resok r))) :
    ∃ k ≤ actual_len.toNat / 4, Puts (printResult o b lib p (cur p (actual_len.toNat / 4)) actual_len NFS3_OK count .readdirp)
      (labelledCells (attrFields r.dir_attributes) ++ ("eof".toList :: decInt (if r.eof then 1 else 0) ::
        listingCells (printedName o) (r.entries.map (·.entry)) 0)) (cur p k) := by
  obtain ⟨hk, hattrs⟩ := puts_dir_attributes r h hlies hwhole
  have hbody : (Reply3.readdirp (.resok r)).body = r.xdr Entryplus.xdr := rfl
  rw [hbody] at hwhole
  have hcount : r.entries.length ≤ (r.xdr Entryplus.xdr).length := by
    have hlinked := linked_length Entryplus.xdr r.entries
    simp only [READDIR3resok.xdr, List.length_append]
    omega
  have hlt := actual_len.toNat_lt
  have heof : Puts (fprintf [.lit "eof ", .d (if r.eof then 1 else 0), .lit " "]) ["eof".toList, decInt (if r.eof then 1 else 0)] () := by
    refine puts_fprintf ?_
    have hcells := (cells_printed (w := "eof".toList) ⟨by decide, by decide⟩).append
      (cells_printed (printed_decInt (if r.eof then 1 else 0)))
    simpa [Piece.text] using hcells
  have hdecoded : (lib.READDIRPLUS3resok ⟨p, actual_len / 4 * 4⟩).1 = some ⟨r.entries.map (·.entry), if r.eof then 1 else 0⟩ := by
    rw [hlist.1, if_pos (by omega)]
  have hentries : Puts (printEntriesplus o b (r.entries.map (·.entry)) 0) (listingCells (printedName o) (r.entries.map (·.entry)) 0)
      () := by
    refine puts_entriesplus _ (fun e he => ?_) 0 ?_
    · obtain ⟨entry, hentry, rfl⟩ := List.mem_map.mp he
      exact hlist.2 entry hentry
    · rw [List.length_map]
      omega
  refine ⟨_, hk, ?_⟩
  rw [printResult, if_pos (by rw [homit]; exact ⟨rfl, rfl⟩), hdecoded]
  have hcells : ("eof".toList :: decInt (if r.eof then 1 else 0) :: listingCells (printedName o) (r.entries.map (·.entry)) 0) =
      (["eof".toList, decInt (if r.eof then 1 else 0)] ++ listingCells (printedName o) (r.entries.map (·.entry)) 0) ++ [] := by
    rw [List.append_nil]
    rfl
  rw [hcells]
  exact hattrs.bind ((heof.bind hentries).bind (puts_pure _))

/-- A listing of which only the attributes are printed. -/
theorem puts_readdirp_omitted {p : Ptr} {actual_len : UInt32} (r : READDIR3resok Entryplus) (homit : o.omitReaddirContents = true)
    (h : Mapped p (actual_len.toNat / 4)) (hlies : p.Holds (wire (Reply3.readdirp (.resok r)).body))
    (hwhole : 4 * (Reply3.readdirp (.resok r)).body.length ≤ actual_len.toNat) :
    ∃ k ≤ actual_len.toNat / 4, Puts (printResult o b lib p (cur p (actual_len.toNat / 4)) actual_len NFS3_OK count .readdirp)
      (labelledCells (attrFields r.dir_attributes)) (cur p k) := by
  obtain ⟨hk, hattrs⟩ := puts_dir_attributes r h hlies hwhole
  refine ⟨_, hk, ?_⟩
  rw [printResult, if_neg (by rw [homit]; exact fun hx => absurd hx.1 (by decide))]
  exact hattrs

/-- The directory's handle is the first parameter. -/
theorem begins_readdirp {xdr : XDR} {dir : NfsFh3} {cookie : UInt64} {n m : UInt32}
    (h : (lib.READDIRPLUS3args xdr).1 = some (dir, cookie, n, m)) :
    Begins (printCallArgs o b lib xdr .readdirp) ["fh".toList, handleCell dir] := by
  have hfh : Puts (print_fh3_x dir "fh") ["fh".toList, handleCell dir] () := puts_fh3_x dir ⟨by decide, by decide⟩
  let rest : Dec Unit := do
    print_uint64_x cookie (some "cookie")
    fprintf [.lit "count ", .x n, .lit " "]
    fprintf [.lit "maxcnt ", .x m, .lit " "]
  have hrest : Bare rest := by simp +decide [rest]
  have hends : rest.val ≠ none := Option.some_ne_none ()
  have hargs := hfh.begins (f := fun _ => rest) (begins_nil hends hrest.keeps)
  rw [printCallArgs, h]
  exact hargs.bind (fun _ => by simp) fun _ => keeps_pure true fun _ hm => hm

end Printer

/-! ## All entries -/

section Entries

variable {csv : List Char → List Row} {b : Args} {lib : XdrLib} {count : UInt32} {c l : DumpLine} {m : Matched}

/-- Every entry with a handle is recorded, but for `.` and `..`, iff there is none behind an
    entry without one, the names are printed whole and are UTF-8, and listings are printed. -/
theorem entries_extracted_iff (hcsv : ReadsCsv csv) {cookie : UInt64} {dircount maxcount : UInt32} {r : READDIR3resok Entryplus}
    (h : Pair csv o b lib count c l m) (hc : CallLine .readdirp c)
    (hargs : (lib.READDIRPLUS3args ⟨c.xdr, c.actual_len⟩).1 = some (dir, cookie, dircount, maxcount))
    (hr : ReplyLine (.readdirp (.resok r)) l) (hlist : Listed lib b l.xdr l.actual_len (.readdirp (.resok r))) :
    (process m).map FhRow.written = (r.entries.map (·.entry)).filterMap (relationOf o dir) ↔
      (o.omitReaddirContents = false → Extractable o dir (r.entries.map (·.entry))) ∧
        (o.omitReaddirContents = true → ∀ e ∈ r.entries, relationOf o dir e.entry = none) := by
  obtain ⟨more, hcall⟩ := h.call_row hcsv hc (begins_readdirp hargs)
  have hprocess : ∀ ws : List Cell, (m.op = "readdirp".toList ∧ m.reply[OFFSET.STATUS]? = some "OK".toList ∧
      m.reply.drop OFFSET.RET_START = ws.map decoded ++ replyEnd l) →
      process m = listed (some (handleCell dir)) (ws.map decoded ++ replyEnd l) 0 [] := by
    intro ws hrow
    unfold process
    rw [hrow.1, hrow.2.1, hrow.2.2, hcall, List.map_cons, List.map_cons, List.map_nil, decoded_handle]
    rfl
  cases homit : o.omitReaddirContents with
  | true =>
    obtain ⟨k, hk, hputs⟩ := puts_readdirp_omitted r homit hr.mapped hr.holds hr.whole
    rw [hprocess _ (h.reply_row hcsv hr nofun hk hputs), map_decoded (printed_attrs _), listed_attrs,
      listed_unnumbered (unnumbered_replyEnd l), List.map_nil, eq_comm, List.filterMap_eq_nil_iff, List.forall_mem_map]
    exact ⟨fun hall => ⟨nofun, fun _ => hall⟩, fun hall => hall.2 rfl⟩
  | false =>
    obtain ⟨k, hk, hputs⟩ := puts_readdirp r homit hr.mapped hr.holds hr.whole hlist
    have hlisted : listed (some (handleCell dir)) ((labelledCells (attrFields r.dir_attributes) ++ ("eof".toList ::
        decInt (if r.eof then 1 else 0) :: listingCells (printedName o) (r.entries.map (·.entry)) 0)).map decoded ++ replyEnd l) 0 [] =
        allFound o (some (handleCell dir)) (r.entries.map (·.entry)) := by
      have heof : decoded "eof".toList = "eof".toList := Printed.decoded ⟨by decide, by decide⟩
      rw [List.map_append, List.map_cons, List.map_cons, map_decoded (printed_attrs _), heof, (printed_decInt _).decoded,
        listingCells_decoded, List.append_assoc, listed_attrs, List.cons_append, List.cons_append, listed_skip (by decide) (by decide),
        listed_entries (unnumbered_replyEnd l)]
    rw [hprocess _ (h.reply_row hcsv hr nofun hk hputs), hlisted, allFound_iff]
    exact ⟨fun hall => ⟨fun _ => hall, nofun⟩, fun hall => hall.1 rfl⟩

end Entries

/-! ### Two lines of a dump -/

def sampleDir : NfsFh3 := ⟨[1, 2, 3, 4], by decide⟩

def sampleEntry (c : UInt8) (fh : Option NfsFh3) : Entryplus := ⟨⟨⟨7, [c], 1⟩, fh⟩, none⟩

def sampleListing (es : List Entryplus) : READDIR3resok Entryplus := ⟨none, 0, es, true⟩

/-- What the routines decode of the two messages. -/
def sampleLib (es : List Entryplus) : XdrLib :=
  { XdrLib.short with
    READDIRPLUS3args := fun xdr => (some (sampleDir, 0, 512, 4096), xdr)
    READDIRPLUS3resok := fun xdr => (some ⟨es.map (·.entry), 1⟩, xdr) }

def sampleCall : DumpLine where
  record := ⟨10, 0, 1, 2, 1023, 2049, 5, CALL, 3, 17, 0⟩
  xdr := Ptr.placed 0x8050000 (wire [4, 0x01020304, 0, 0, 0, 0, 512, 4096])
  payload_len := 32
  proto := 17
  actual_len := 32
  ids := none
  con := 74
  len := 74
  longpkt := none

def sampleReply (es : List Entryplus) : DumpLine :=
  let body := (Reply3.readdirp (.resok (sampleListing es))).body
  { record := ⟨10, 1, 2, 1, 2049, 1023, 5, REPLY, 3, 17, NFS3_OK⟩
    xdr := Ptr.placed 0x8050000 (wire body)
    payload_len := UInt32.ofNat (4 * body.length)
    proto := 17
    actual_len := UInt32.ofNat (4 * body.length)
    ids := none
    con := 74
    len := 74
    longpkt := none }

def sampleOpts : Opts := ⟨true, false, false, fun _ => []⟩

def sampleArgs : Args := ⟨0x8049000, by decide⟩

def sampleRow (es : List Entryplus) (l : DumpLine) : Row := readLine (text (out (l.print sampleOpts sampleArgs (sampleLib es) 0)))

def sampleMatched (es : List Entryplus) : Matched :=
  ⟨"readdirp".toList, sampleRow es sampleCall, sampleRow es (sampleReply es)⟩

/-- One entry with a handle. -/
def oneEntry : List Entryplus := [sampleEntry 97 (some ⟨[9, 9, 9, 9], by decide⟩)]

/-- An entry without a handle in front of it. -/
def gapEntries : List Entryplus := sampleEntry 98 none :: oneEntry

theorem sample_pair {es : List Entryplus} (hcall :
    (fields (text (out (sampleCall.print sampleOpts sampleArgs (sampleLib es) 0)))).isSome = true)
    (hreply : (fields (text (out ((sampleReply es).print sampleOpts sampleArgs (sampleLib es) 0)))).isSome = true)
    (hrun : (Parser.init.run [sampleRow es sampleCall, sampleRow es (sampleReply es)]) = [sampleMatched es]) :
    Pair (readCsv []) sampleOpts sampleArgs (sampleLib es) 0 sampleCall (sampleReply es) (sampleMatched es) :=
  pair_of_run hcall hreply hrun

/-- The entry is recorded. -/
theorem entries_extracted_sample :
    (process (sampleMatched oneEntry)).map FhRow.written = (oneEntry.map (·.entry)).filterMap (relationOf sampleOpts sampleDir) := by
  have names : ∀ e ∈ (oneEntry.map (·.entry)).takeWhile (·.name_handle.isSome), 0 ∉ e.name ∧ ∀ c ∈ e.name, c < 128 := by
    simp [oneEntry, sampleEntry]
  have hpair : Pair (readCsv []) sampleOpts sampleArgs (sampleLib oneEntry) 0 sampleCall (sampleReply oneEntry)
    (sampleMatched oneEntry) :=
    sample_pair (by decide +kernel) (by decide +kernel) (by decide +kernel)
  have hreply : ReplyLine (.readdirp (.resok (sampleListing oneEntry))) (sampleReply oneEntry) :=
    ⟨by decide, rfl, rfl, rfl, ⟨by decide, by decide⟩, Ptr.placed_holds (by decide) _, by decide⟩
  have hiff := entries_extracted_iff readCsv_reads hpair ⟨rfl, rfl, rfl⟩ rfl hreply ⟨rfl, by decide⟩
  apply hiff.mpr
  refine ⟨fun _ => ⟨fun e he _ => nameShown_of_plain (names e he).1 (names e he).2, fun e he => ?_⟩, fun h => absurd h (by decide)⟩
  exact absurd he List.not_mem_nil

/-- The handle behind the gap is not recorded. -/
theorem entry_behind_gap :
    Pair (readCsv []) sampleOpts sampleArgs (sampleLib gapEntries) 0 sampleCall (sampleReply gapEntries) (sampleMatched gapEntries) ∧
      CallLine .readdirp sampleCall ∧ ReplyLine (.readdirp (.resok (sampleListing gapEntries))) (sampleReply gapEntries) ∧
      (gapEntries.map (·.entry)).filterMap (relationOf sampleOpts sampleDir) =
        [⟨some "09090909".toList, some "a".toList, some "01020304".toList⟩] ∧
      process (sampleMatched gapEntries) = [] := by
  refine ⟨sample_pair (by decide +kernel) (by decide +kernel) (by decide +kernel), ⟨rfl, rfl, rfl⟩, ?_, by decide +kernel,
    by decide +kernel⟩
  exact ⟨by decide, rfl, rfl, rfl, ⟨by decide, by decide⟩, Ptr.placed_holds (by decide) _, by decide⟩

end Nfsdump.Pathtree
