/-
  Nfsdump.Pathtree.RawNames — reading a name back from a printed line.

  With RAWNAMES the bytes that would break a field are printed as a backslash and two hex
  digits, and so is the backslash: `unescape` undoes it. Without, what tells `.` and `..`
  from other names is that nothing else prints as these.

  Proved, for any bytes:
  - `unescape_raw`: the text of a name gives its bytes back, so names are told apart;
  - `raw_names_reversible`: what `print_string` writes, and that it is one field for both readers;
  - `nameCell_dots`: with RAWNAMES and without it only `.` prints as `.`, and only `..` as `..`.
-/

import Nfsdump.Pathtree.Cells

namespace Nfsdump.Pathtree

open Wire Decode

/-- Every backslash in front of two hex digits is replaced by the byte they denote. -/
def unescape : List Char → List UInt8
  | '\\' :: c :: d :: cs =>
    if isHexDigit c ∧ isHexDigit d then UInt8.ofNat (16 * digitValue c + digitValue d) :: unescape cs
    else byteOf '\\' :: unescape (c :: d :: cs)
  | c :: cs => byteOf c :: unescape cs
  | [] => []

theorem unescape_cons {c : Char} (h : c ≠ '\\') (cs : List Char) : unescape (c :: cs) = byteOf c :: unescape cs := by
  rw [unescape]
  rintro c d cs rfl
  exact absurd rfl h

/-! ## Raw names -/

theorem byteOf_ofNat (b : UInt8) : byteOf (Char.ofNat b.toNat) = b := by
  have small : ∀ n < 256, byteOf (Char.ofNat (UInt8.ofNat n).toNat) = UInt8.ofNat n := by decide +kernel
  exact byte_forall (P := fun b => byteOf (Char.ofNat b.toNat) = b) small b

/-- A byte as it is printed, in front of any text. -/
theorem unescape_rawPieces (b : UInt8) (cs : List Char) : unescape (text (rawPieces b) ++ cs) = b :: unescape cs := by
  unfold rawPieces
  split
  · have digits : ∀ n < 256, ∃ c d, text [.lit "\\", .x0 2 (UInt8.ofNat n).toUInt32] = ['\\', c, d] ∧
        isHexDigit c ∧ isHexDigit d ∧ UInt8.ofNat (16 * digitValue c + digitValue d) = UInt8.ofNat n := by
      intro n hn
      have hw : (UInt8.ofNat n).toUInt32.toNat = n := by
        rw [UInt8.toNat_toUInt32, UInt8.toNat_ofNat']
        exact Nat.mod_eq_of_lt hn
      have value : ∀ d < 16, isHexDigit (Nat.digitChar d) ∧ digitValue (Nat.digitChar d) = d := by decide
      refine ⟨(n / 16 % 16).digitChar, (n % 16).digitChar, ?_, (value _ (Nat.mod_lt _ (by decide))).1,
        (value _ (Nat.mod_lt _ (by decide))).1, ?_⟩
      · rw [text_cons, text_cons, text_nil, List.append_nil, text_x0 (by decide) (by rw [hw]; exact hn), hw]
        rfl
      · rw [(value _ (Nat.mod_lt _ (by decide))).2, (value _ (Nat.mod_lt _ (by decide))).2]
        congr 1
        omega
    obtain ⟨c, d, htext, hc, hd, hval⟩ := byte_forall (P := fun b => ∃ c d, text [.lit "\\", .x0 2 b.toUInt32] = ['\\', c, d] ∧
      isHexDigit c ∧ isHexDigit d ∧ UInt8.ofNat (16 * digitValue c + digitValue d) = b) digits b
    rw [htext]
    show unescape ('\\' :: c :: d :: cs) = _
    rw [unescape, if_pos ⟨hc, hd⟩, hval]
  · next h =>
    rw [not_or, not_or] at h
    have slash : Char.ofNat b.toNat ≠ '\\' := by
      intro hx
      have hb : b = byteOf '\\' := by rw [← hx, byteOf_ofNat]
      exact h.2.1 hb
    show unescape (Char.ofNat b.toNat :: cs) = _
    rw [unescape_cons slash, byteOf_ofNat]

theorem unescape_raw (name : List UInt8) : unescape (text (name.flatMap rawPieces)) = name := by
  induction name with
  | nil => rfl
  | cons b name ih => rw [List.flatMap_cons, text_append, unescape_rawPieces, ih]

variable {o : Opts} {name : List UInt8}

theorem nameCell_raw (hraw : o.RAWNAMES = true) (name : List UInt8) : nameCell o name = text (name.flatMap rawPieces) := by
  rw [nameCell, namePieces, if_pos hraw]

theorem nameCell_injective (hraw : o.RAWNAMES = true) {names : List UInt8} (h : nameCell o name = nameCell o names) : name = names := by
  rw [← unescape_raw name, ← unescape_raw names, ← nameCell_raw hraw, ← nameCell_raw hraw, h]

theorem not_quote_raw (name : List UInt8) : '"' ∉ text (name.flatMap rawPieces) := by
  intro hmem
  rw [text_flatMap] at hmem
  obtain ⟨b, -, hb⟩ := List.mem_flatMap.mp hmem
  unfold rawPieces at hb
  split at hb
  · have digits := nonblank_escaped b
    rw [text_cons, text_cons, text_nil, List.append_nil] at hb
    rcases List.mem_append.mp hb with hb | hb
    · exact absurd hb (by decide)
    · have hbare : bareText (Piece.text (.x0 2 b.toUInt32)) = true := bareText_padLeft (by decide) (bareText_hex _) 2
      exact absurd (List.all_eq_true.mp hbare _ hb) (by decide)
  · next h =>
    rw [text_cons, text_nil, List.append_nil] at hb
    have hquote : '"' = Char.ofNat b.toNat := List.mem_singleton.mp hb
    have h34 : b = byteOf '"' := by rw [hquote, byteOf_ofNat]
    exact h (Or.inl h34)

/-- With RAWNAMES a name is written between quotes as a text without white space or a
    quote, from which `unescape` recovers it; with its quotes it is one word for a reader that
    splits at white space, and one cell for the Parser. -/
theorem raw_names_reversible (hraw : o.RAWNAMES = true) {str : Ptr} (h : NameAt str name) :
    ∃ t, Tells (print_string o str (UInt32.ofNat name.length)) ('"' :: (t ++ ['"', ' '])) () ∧
      Nonblank t ∧ '"' ∉ t ∧ unescape t = name ∧
      Line ('"' :: (t ++ ['"', ' '])) ['"' :: (t ++ ['"'])] ∧
      ∀ rest, fields ('"' :: (t ++ '"' :: ' ' :: rest)) = (fields rest).map (t :: ·) := by
  have hsays := says_print_string h fun _ hx => absurd (hx.symm.trans hraw) (by decide)
  have htext : text (quoted o name) = '"' :: (nameCell o name ++ ['"', ' ']) := by
    rw [text_quoted, nameToken, List.cons_append, List.append_assoc]
    rfl
  refine ⟨nameCell o name, hsays.tells htext, nonblank_namePieces o name, ?_, ?_, ?_, fun rest => ?_⟩
  · rw [nameCell_raw hraw]
    exact not_quote_raw name
  · rw [nameCell_raw hraw, unescape_raw]
  · have hline := line_word (nonblank_nameToken o name) (List.cons_ne_nil _ _)
    rwa [← text_quoted, htext] at hline
  · have hcell := fields_cells (cells_quoted o name) rest
    rw [htext] at hcell
    simpa using hcell

/-- A quote, a backslash in front of hex digits, and a blank. -/
theorem raw_names_reversible_sample :
    ∃ t, Tells (print_string ⟨true, false, false, fun _ => []⟩ (Ptr.placed 0x8050000 [34, 92, 50, 48, 32]) 5)
      ('"' :: (t ++ ['"', ' '])) () ∧
      Nonblank t ∧ '"' ∉ t ∧ unescape t = [34, 92, 50, 48, 32] ∧
      Line ('"' :: (t ++ ['"', ' '])) ['"' :: (t ++ ['"'])] ∧
      ∀ rest, fields ('"' :: (t ++ '"' :: ' ' :: rest)) = (fields rest).map (t :: ·) := by
  have hname : NameAt (Ptr.placed 0x8050000 [34, 92, 50, 48, 32]) [34, 92, 50, 48, 32] :=
    ⟨by decide, by unfold Ptr.Fits; decide, Ptr.placed_holds (by decide) _⟩
  exact raw_names_reversible rfl hname

/-! ## Names as text -/

theorem charOf_injective : Function.Injective fun b : UInt8 => Char.ofNat b.toNat := by
  intro b b' h
  have hbyte := congrArg byteOf h
  dsimp only at hbyte
  rwa [byteOf_ofNat, byteOf_ofNat] at hbyte

theorem bytes_map (bs : List UInt8) : (bs.map fun b => Char.ofNat b.toNat).map byteOf = bs := by
  rw [List.map_map]
  exact (List.map_congr_left fun b _ => byteOf_ofNat b).trans (List.map_id' bs)

/-- A byte is printed as itself, or it is below 128 and so is what stands for it. -/
theorem rawPieces_bytes (b : UInt8) : ∃ bs : List UInt8, text (rawPieces b) = bs.map (fun b => Char.ofNat b.toNat) ∧
    (bs = [b] ∨ b < 128 ∧ ∀ x ∈ bs, x < 128) := by
  unfold rawPieces
  split
  · have escapes : ∀ n < 256, (UInt8.ofNat n = 34 ∨ UInt8.ofNat n = 92 ∨ isspace (UInt8.ofNat n)) →
        text [.lit "\\", .x0 2 (UInt8.ofNat n).toUInt32] =
            ((text [.lit "\\", .x0 2 (UInt8.ofNat n).toUInt32]).map byteOf).map (fun b => Char.ofNat b.toNat) ∧
          UInt8.ofNat n < 128 ∧ ((text [.lit "\\", .x0 2 (UInt8.ofNat n).toUInt32]).map byteOf).all (· < 128) := by
      decide +kernel
    next h =>
    obtain ⟨htext, hlt, hall⟩ := byte_forall (P := fun b => (b = 34 ∨ b = 92 ∨ isspace b) →
      text [.lit "\\", .x0 2 b.toUInt32] = ((text [.lit "\\", .x0 2 b.toUInt32]).map byteOf).map (fun b => Char.ofNat b.toNat) ∧
        b < 128 ∧ ((text [.lit "\\", .x0 2 b.toUInt32]).map byteOf).all (· < 128)) escapes b h
    exact ⟨_, htext, Or.inr ⟨hlt, fun x hx => of_decide_eq_true (List.all_eq_true.mp hall x hx)⟩⟩
  · exact ⟨[b], rfl, Or.inl rfl⟩

/-- What is printed of a name is as well-formed as the name. -/
theorem raw_bytes (name : List UInt8) : ∃ bs : List UInt8, text (name.flatMap rawPieces) = bs.map (fun b => Char.ofNat b.toNat) ∧
    ∀ as, Utf8.WellFormed (as ++ bs) ↔ Utf8.WellFormed (as ++ name) := by
  induction name with
  | nil => exact ⟨[], rfl, fun as => Iff.rfl⟩
  | cons b name ih =>
    obtain ⟨bs, htext, hbs⟩ := ih
    obtain ⟨front, hfront, hkind⟩ := rawPieces_bytes b
    refine ⟨front ++ bs, by rw [List.flatMap_cons, text_append, hfront, htext, List.map_append], fun as => ?_⟩
    rcases hkind with rfl | ⟨hb, hall⟩
    · have hmore := hbs (as ++ [b])
      rwa [List.append_assoc, List.append_assoc] at hmore
    · have hrest : Utf8.WellFormed bs ↔ Utf8.WellFormed name := hbs []
      rw [Utf8.wellFormed_around hb, ← hrest]
      cases front with
      | nil =>
        have hempty := congrArg List.length hfront
        rw [List.map_nil, List.length_nil] at hempty
        unfold rawPieces at hempty
        split at hempty <;> simp [Piece.text] at hempty
      | cons x front =>
        rw [List.forall_mem_cons] at hall
        rw [List.cons_append, Utf8.wellFormed_around hall.1, Utf8.wellFormed_ascii_append hall.2]

/-- With RAWNAMES a printed name is read back as text iff it is well-formed. -/
theorem encoded_raw_iff (name : List UInt8) :
    encoded (decoded (text (name.flatMap rawPieces))) = text (name.flatMap rawPieces) ↔ Utf8.WellFormed name := by
  obtain ⟨bs, htext, hbs⟩ := raw_bytes name
  rw [htext, decoded, bytes_map, encoded, (List.map_injective_iff.mpr charOf_injective).eq_iff]
  exact hbs []

theorem wellFormed_of_encoded {name : List UInt8} {t : Cell} (h : encoded t = text (name.flatMap rawPieces)) : Utf8.WellFormed name := by
  obtain ⟨bs, htext, hbs⟩ := raw_bytes name
  rw [htext, encoded, (List.map_injective_iff.mpr charOf_injective).eq_iff] at h
  exact (hbs []).mp (h ▸ Utf8.wellFormed_encode t)

theorem encoded_hashed (hraw : o.RAWNAMES = false) (name : List UInt8) : encoded (nameCell o name) = nameCell o name :=
  encoded_ascii fun _ hc => bareChar_lt (List.all_eq_true.mp (bareText_hashed hraw name) _ hc)

theorem decoded_hashed (hraw : o.RAWNAMES = false) (name : List UInt8) : decoded (nameCell o name) = nameCell o name :=
  decoded_ascii fun _ hc => bareChar_lt (List.all_eq_true.mp (bareText_hashed hraw name) _ hc)

/-- A text of characters below 128 is read of these characters only. -/
theorem decoded_nameCell_iff {t : Cell} (ht : ∀ c ∈ t, c.toNat < 128) : decoded (nameCell o name) = t ↔ nameCell o name = t := by
  cases hraw : o.RAWNAMES with
  | false => rw [decoded_hashed hraw]
  | true =>
    have hbytes : ∀ b ∈ t.map byteOf, b < 128 := bytes_lt ht
    have hself : (t.map byteOf).map (fun b => Char.ofNat b.toNat) = t := by
      rw [← Utf8.decode_ascii hbytes]
      exact decoded_ascii ht
    obtain ⟨bs, htext, -⟩ := raw_bytes name
    rw [nameCell_raw hraw, htext, decoded, bytes_map, ← hself, Utf8.decode_eq_ascii hbytes,
      (List.map_injective_iff.mpr charOf_injective).eq_iff]

/-! ## The names `.` and `..` -/

theorem slash_segment (rest : List UInt8) : ∀ seg : List UInt8, SLASH ∈ rest ∨ seg.head? = some SLASH →
    ∃ s ∈ segmentsFrom seg rest, s.head? = some SLASH := by
  induction rest with
  | nil =>
    intro seg h
    exact ⟨seg, List.mem_singleton_self seg, h.resolve_left List.not_mem_nil⟩
  | cons c rest ih =>
    intro seg h
    rw [segmentsFrom]
    split
    · next hc =>
      obtain ⟨s, hs, hhead⟩ := ih [c] (Or.inr (by rw [hc.1]; rfl))
      exact ⟨s, List.mem_cons_of_mem _ hs, hhead⟩
    · next hc =>
      apply ih
      rcases h with h | h
      · rcases List.mem_cons.mp h with hslash | h
        · right
          have hseg : seg = [] := not_not.mp fun hne => hc ⟨hslash.symm, hne⟩
          rw [hseg, ← hslash]
          rfl
        · exact Or.inl h
      · right
        rw [List.head?_append, h]
        rfl

theorem segmentsFrom_plain {rest : List UInt8} (h : SLASH ∉ rest) (seg : List UInt8) : segmentsFrom seg rest = [seg ++ rest] := by
  induction rest generalizing seg with
  | nil => rw [List.append_nil]; rfl
  | cons c rest ih =>
    rw [List.mem_cons, not_or] at h
    rw [segmentsFrom, if_neg fun hx => h.1 hx.1.symm, ih h.2, List.append_assoc]
    rfl

theorem slash_nameCell (hraw : o.RAWNAMES = false) (h : SLASH ∈ name) : '/' ∈ nameCell o name := by
  obtain ⟨s, hs, hhead⟩ := slash_segment name [] (Or.inl h)
  have hcell : nameCell o name = (segmentsFrom [] name).flatMap fun bs => text (segmentPieces o bs) := by
    rw [nameCell, namePieces, hraw, if_neg Bool.false_ne_true, text_flatMap]
  rw [hcell, List.mem_flatMap]
  refine ⟨s, hs, ?_⟩
  cases s with
  | nil => cases hhead
  | cons c bs =>
    rw [List.head?_cons, Option.some_inj] at hhead
    rw [segmentPieces, if_pos hhead, text_cons]
    exact List.mem_append_left _ (by decide)

theorem point_notMem_digest (bs : List UInt8) : '.' ∉ text (bs.map .X02) := by
  intro hmem
  rw [text, List.flatMap_map] at hmem
  obtain ⟨b, -, hb⟩ := List.mem_flatMap.mp hmem
  have upper : ∀ d < 16, (Nat.digitChar d).toUpper ≠ '.' := by decide
  obtain ⟨c, hc, hpoint⟩ := List.mem_map.mp hb
  rcases List.mem_append.mp hc with h | h
  · rw [List.eq_of_mem_replicate h] at hpoint
    exact absurd hpoint (by decide)
  · obtain ⟨d, hd, rfl⟩ := Digits.mem_toDigits (by decide) h
    exact upper d hd hpoint

/-- Only `.` prints as `.`, and only `..` as `..`. -/
theorem nameCell_dots {dots : List UInt8} (hdots : dots = [DOT] ∨ dots = [DOT, DOT]) :
    nameCell o name = dots.map (fun _ => '.') ↔ name = dots := by
  have hself : nameCell o dots = dots.map (fun _ => '.') := by
    cases hraw : o.RAWNAMES with
    | true =>
      rw [nameCell_raw hraw]
      rcases hdots with rfl | rfl <;> decide
    | false =>
      rw [nameCell, namePieces, hraw, if_neg Bool.false_ne_true]
      rcases hdots with rfl | rfl <;> rfl
  refine ⟨fun h => ?_, fun h => by rw [h, hself]⟩
  cases hraw : o.RAWNAMES with
  | true => exact nameCell_injective hraw (h.trans hself.symm)
  | false =>
    have hpoints : ∀ c ∈ nameCell o name, c = '.' := by
      rw [h]
      intro c hc
      obtain ⟨d, -, rfl⟩ := List.mem_map.mp hc
      rfl
    have hslash : SLASH ∉ name := fun hx => absurd (hpoints _ (slash_nameCell hraw hx)) (by decide)
    have hcell : nameCell o name = text (segmentPieces o name) := by
      rw [nameCell, namePieces, hraw, if_neg Bool.false_ne_true, segmentsFrom_plain hslash, List.nil_append, List.flatMap_singleton]
    have hlen := congrArg List.length h
    rw [List.length_map] at hlen
    cases name with
    | nil =>
      rw [hcell] at hlen
      rcases hdots with rfl | rfl <;> cases hlen
    | cons c bs =>
      rw [segmentPieces, if_neg fun hx => hslash (by rw [hx]; exact List.mem_cons_self)] at hcell
      unfold componentPieces at hcell
      rw [if_neg (List.cons_ne_nil c bs)] at hcell
      split at hcell
      · next hone =>
        rw [hcell] at hlen
        rcases hdots with rfl | rfl
        · exact hone
        · exact absurd hlen (by decide)
      · split at hcell
        · next htwo =>
          rw [hcell] at hlen
          rcases hdots with rfl | rfl
          · exact absurd hlen (by decide)
          · exact htwo
        · rw [hcell] at h
          have hmem : '.' ∈ text ((o.sha1 (c :: bs)).map .X02) := by
            rw [h]
            rcases hdots with rfl | rfl <;> decide
          exact absurd hmem (point_notMem_digest _)

end Nfsdump.Pathtree
