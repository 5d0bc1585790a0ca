/-
  Nfsdump.Decode.Names — what `print_string` makes of a name.

  With RAWNAMES the bytes stand as they are, those that would break the token escaped.
  Without it a name is cut in front of each slash, and what stands behind a segment's
  slash is replaced by its SHA-1, `.` and `..` apart.

  Proved, for every name in memory:
  - `says_print_string`: the printer writes `quoted`, unless the name is empty, RAWNAMES
    unset and the byte behind it a slash: then the range to be hashed is the whole
    address space;
  - `print_string_crash`: then the printer does not end;
  - `bytes_print_string`, `print_string_empty`: it reads the name's bytes, and for an empty
    name without RAWNAMES the byte behind it.
-/

import Nfsdump.Decode.Cursor

namespace Nfsdump.Decode

open Wire

/-! ## The text of a name -/

/-- What stands behind a segment's slash. -/
def componentPieces (o : Opts) (bs : List UInt8) : List Piece :=
  if bs = [] then []
  else if bs = [DOT] then [.lit "."]
  else if bs = [DOT, DOT] then [.lit ".."]
  else (o.sha1 bs).map .X02

def segmentPieces (o : Opts) : List UInt8 → List Piece
  | [] => []
  | c :: bs => if c = SLASH then .lit "/" :: componentPieces o bs else componentPieces o (c :: bs)

/-- A name cut in front of its slashes, `seg` the segment so far. -/
def segmentsFrom : List UInt8 → List UInt8 → List (List UInt8)
  | seg, [] => [seg]
  | seg, c :: rest => if c = SLASH ∧ seg ≠ [] then seg :: segmentsFrom [c] rest else segmentsFrom (seg ++ [c]) rest

def rawPieces (c : UInt8) : List Piece :=
  if c = 34 ∨ c = 92 ∨ isspace c then [.lit "\\", .x0 2 c.toUInt32] else [.c c]

def namePieces (o : Opts) (name : List UInt8) : List Piece :=
  if o.RAWNAMES then name.flatMap rawPieces else (segmentsFrom [] name).flatMap (segmentPieces o)

def quoted (o : Opts) (name : List UInt8) : List Piece := [.lit "\""] ++ namePieces o name ++ [.lit "\" "]

/-! ## Bytes of a name -/

section Bytes

variable {o : Opts} {str : Ptr} {name : List UInt8}

/-- A name lies at `str`. -/
structure NameAt (str : Ptr) (name : List UInt8) : Prop where
  ne : str.addr ≠ 0
  fits : str.Fits name.length
  holds : str.Holds name

theorem NameAt.length_lt (h : NameAt str name) : name.length < 2 ^ 32 := by
  have := h.fits
  unfold Ptr.Fits at this
  omega

theorem NameAt.toNat_length (h : NameAt str name) : (UInt32.ofNat name.length).toNat = name.length :=
  toNat_ofNat_lt h.length_lt

/-- Part of a name. -/
theorem NameAt.drop (front : List UInt8) {rest : List UInt8} (h : NameAt str (front ++ rest)) :
    NameAt (str.add (UInt32.ofNat front.length)) rest := by
  have hlen := h.length_lt
  have hfits := h.fits
  have hne := h.ne
  unfold Ptr.Fits at hfits
  rw [List.length_append] at hfits hlen
  have haddr : (str.addr + UInt32.ofNat front.length).toNat = str.addr.toNat + front.length := by
    rw [UInt32.toNat_add, toNat_ofNat_lt (by omega)]
    omega
  have hpos : 0 < str.addr.toNat := Nat.pos_of_ne_zero fun h0 => hne (UInt32.toNat.inj h0)
  refine ⟨fun h0 => ?_, ?_, (Ptr.holds_append.mp h.holds).2⟩
  · rw [Ptr.add_addr] at h0
    rw [h0, show (0 : UInt32).toNat = 0 from rfl] at haddr
    omega
  · show (str.addr + UInt32.ofNat front.length).toNat + rest.length < 2 ^ 32
    rw [haddr]
    omega

theorem NameAt.take {front rest : List UInt8} (h : NameAt str (front ++ rest)) : NameAt str front := by
  have hfits := h.fits
  unfold Ptr.Fits at hfits
  rw [List.length_append] at hfits
  exact ⟨h.ne, by unfold Ptr.Fits; omega, Ptr.holds_left h.holds⟩

theorem says_byte (h : NameAt str name) (front : List UInt8) {rest : List UInt8} {c : UInt8} (hname : name = front ++ c :: rest) :
    Says (derefByte str (UInt32.ofNat front.length)) [] c := by
  subst hname
  refine ⟨?_, rfl⟩
  rw [derefByte, if_neg h.ne, Ptr.byte_at front h.holds]

theorem says_first {c : UInt8} {rest : List UInt8} (h : NameAt str (c :: rest)) : Says (derefByte str 0) [] c :=
  says_byte h [] rfl

/-! ## Segments -/

theorem says_digest (h : NameAt str name) : Says (printDigest o str (UInt32.ofNat name.length)) ((o.sha1 name).map .X02) () := by
  have hfits := h.fits
  unfold Ptr.Fits at hfits
  rw [printDigest, Ptr.bytes_of_holds h.holds h.toNat_length, if_neg (by rw [h.toNat_length]; omega)]
  refine Says.silent (a := ()) ⟨rfl, ?_⟩ (says_fprintf _)
  simp [out, Trace.seen, Act.piece, List.filterMap_map, Function.comp_def]

theorem says_component (h : NameAt str name) :
    Says (printComponent o str (UInt32.ofNat name.length)) (componentPieces o name) () := by
  have hlen : ∀ k : Nat, k < 2 ^ 32 → (UInt32.ofNat name.length = UInt32.ofNat k ↔ name.length = k) := by
    intro k hk
    rw [← UInt32.toNat_inj, h.toNat_length, toNat_ofNat_lt hk]
  have hdigest := says_digest (o := o) h
  match name, h with
  | [], _ => exact says_pure ()
  | [a], h =>
    refine (says_first h).silent ?_
    by_cases ha : a = DOT
    · subst ha; exact says_fprintf _
    · simpa [componentPieces, ha] using hdigest
  | [a, b], h =>
    refine (says_first h).silent ?_
    by_cases ha : a = DOT
    · subst ha
      rw [if_pos rfl]
      refine (says_byte h [DOT] rfl).silent ?_
      by_cases hb : b = DOT
      · subst hb; exact says_fprintf _
      · simpa [componentPieces, hb] using hdigest
    · simpa [componentPieces, ha] using hdigest
  | a :: b :: c :: rest, h =>
    have h0 : ¬ UInt32.ofNat (a :: b :: c :: rest).length = 0 := (hlen 0 (by decide)).not.mpr (by simp)
    have h1 : ¬ UInt32.ofNat (a :: b :: c :: rest).length = 1 := (hlen 1 (by decide)).not.mpr (by simp)
    have h2 : ¬ UInt32.ofNat (a :: b :: c :: rest).length = 2 := (hlen 2 (by decide)).not.mpr (by simp)
    unfold printComponent
    rw [if_neg h0, if_neg h1, if_neg h2]
    simpa [componentPieces] using hdigest

theorem says_segment (h : NameAt str name) (hne : name ≠ []) :
    Says (print_path_segment o str (UInt32.ofNat name.length)) (segmentPieces o name) () := by
  cases name with
  | nil => exact absurd rfl hne
  | cons c rest =>
    rw [print_path_segment, segmentPieces]
    refine (says_first h).silent ?_
    by_cases hc : c = SLASH
    · have hrest : NameAt (str.add 1) rest := h.drop [c]
      have hlen : UInt32.ofNat (c :: rest).length - 1 = UInt32.ofNat rest.length :=
        ofNat_sub_ofNat (a := (c :: rest).length) (b := 1) (Nat.le_add_left _ _) h.length_lt
      rw [if_pos hc, if_pos hc, hlen]
      exact (says_fprintf _).bind (says_component hrest)
    · rw [if_neg hc, if_neg hc]
      exact says_component h

/-- The loop over the bytes and the segment behind it, `front` already printed. -/
theorem says_segments (front seg rest : List UInt8) (h : NameAt str (front ++ seg ++ rest)) (hfront : seg = [] → front = [])
    (hne : seg ++ rest ≠ []) :
    Says (printSegments o str rest.length (UInt32.ofNat (front ++ seg).length) (UInt32.ofNat front.length) >>= fun s =>
        print_path_segment o (str.add s) (UInt32.ofNat (front ++ seg ++ rest).length - s))
      ((segmentsFrom seg rest).flatMap (segmentPieces o)) () := by
  induction rest generalizing front seg with
  | nil =>
    rw [List.append_nil] at h hne ⊢
    have hseg : NameAt (str.add (UInt32.ofNat front.length)) seg := h.drop front
    have hlen : UInt32.ofNat (front ++ seg).length - UInt32.ofNat front.length = UInt32.ofNat seg.length := by
      rw [ofNat_sub_ofNat (by simp) h.length_lt, List.length_append, Nat.add_sub_cancel_left]
    show Says (print_path_segment o (str.add (UInt32.ofNat front.length)) _) _ _
    rw [hlen, segmentsFrom, List.flatMap_singleton]
    exact says_segment hseg hne
  | cons c rest ih =>
    have hnext : (front ++ seg ++ c :: rest) = front ++ (seg ++ [c]) ++ rest := by simp
    have hi : UInt32.ofNat (front ++ seg).length + 1 = UInt32.ofNat (front ++ (seg ++ [c])).length := by
      have hlen : (front ++ (seg ++ [c])).length = (front ++ seg).length + 1 := by simp [Nat.add_assoc]
      rw [hlen, UInt32.ofNat_add]; rfl
    have hpos : 0 < UInt32.ofNat (front ++ seg).length ↔ seg ≠ [] := by
      have hlt := h.take.length_lt
      rw [UInt32.lt_iff_toNat_lt, toNat_ofNat_lt hlt, show (0 : UInt32).toNat = 0 from rfl, List.length_pos_iff]
      constructor
      · intro hx hs
        exact hx (by rw [hs, hfront hs]; rfl)
      · intro hs hx
        exact hs (List.append_eq_nil_iff.mp hx).2
    rw [List.length_cons, printSegments, bind_assoc]
    refine (says_byte h (front ++ seg) rfl).silent ?_
    by_cases hc : c = SLASH
    · rw [if_pos hc, bind_assoc]
      by_cases hs : seg = []
      · obtain rfl := hs
        obtain rfl := hfront rfl
        rw [decide_eq_false (fun hx => hpos.mp hx rfl), segmentsFrom, if_neg (fun hx => hx.2 rfl), hi, hnext]
        exact (says_pure ()).silent (ih [] [c] (by rwa [hnext] at h) (fun hx => absurd hx (by simp)) (by simp))
      · have hseg : NameAt (str.add (UInt32.ofNat front.length)) seg := h.take.drop front
        have hlen : UInt32.ofNat (front ++ seg).length - UInt32.ofNat front.length = UInt32.ofNat seg.length := by
          rw [ofNat_sub_ofNat (by simp) h.take.length_lt, List.length_append, Nat.add_sub_cancel_left]
        have hnext' : (front ++ seg ++ c :: rest) = (front ++ seg) ++ [c] ++ rest := by simp
        have hi' : (front ++ (seg ++ [c])).length = ((front ++ seg) ++ [c]).length := by simp
        rw [decide_eq_true (hpos.mpr hs), segmentsFrom, if_pos ⟨hc, hs⟩, hi, hi', hnext', hlen, List.flatMap_cons]
        exact (says_segment hseg hs).bind
          (ih (front ++ seg) [c] (by rwa [hnext'] at h) (fun hx => absurd hx (by simp)) (by simp))
    · rw [if_neg hc, segmentsFrom, if_neg (fun hx => hc hx.1), hi, hnext]
      exact ih front (seg ++ [c]) (by rwa [hnext] at h) (fun hx => absurd hx (by simp)) (by simp)

/-! ## The printer -/

theorem says_raw (front rest : List UInt8) (h : NameAt str (front ++ rest)) :
    Says (printRaw str rest.length (UInt32.ofNat front.length)) (rest.flatMap rawPieces) () := by
  induction rest generalizing front with
  | nil => exact says_pure ()
  | cons c rest ih =>
    have hnext : front ++ c :: rest = (front ++ [c]) ++ rest := by simp
    have hi : UInt32.ofNat front.length + 1 = UInt32.ofNat (front ++ [c]).length := by
      rw [List.length_append, UInt32.ofNat_add]; rfl
    rw [List.length_cons, printRaw, List.flatMap_cons, hi]
    refine (says_byte h front rfl).silent ((says_fprintf (rawPieces c)).bind ?_)
    exact ih (front ++ [c]) (by rwa [hnext] at h)

/-- What is not there is looked at: the byte behind an empty name. -/
theorem says_empty (h : NameAt str []) (hb : str.byte 0 ≠ SLASH) :
    Says (print_path_segment o str 0) [] () := by
  have hread : Says (derefByte str 0) [] (str.byte 0) := ⟨by rw [derefByte, if_neg h.ne], rfl⟩
  rw [print_path_segment]
  refine hread.silent ?_
  rw [if_neg hb]
  exact says_pure ()

/-- A name is printed, unless it is empty, to be hashed, and the byte behind it a slash. -/
theorem says_print_string (h : NameAt str name) (hend : name = [] → o.RAWNAMES = false → str.byte 0 ≠ SLASH) :
    Says (print_string o str (UInt32.ofNat name.length)) (quoted o name) () := by
  have hquoted : Says (printQuoted o str (UInt32.ofNat name.length)) (namePieces o name) () := by
    rw [printQuoted, namePieces, h.toNat_length]
    cases hraw : o.RAWNAMES with
    | true => exact says_raw [] name h
    | false =>
      by_cases hne : name = []
      · subst hne
        have hempty := says_empty (o := o) h (hend rfl hraw)
        simp only [List.length_nil, printSegments, segmentsFrom, List.flatMap_singleton, segmentPieces]
        simpa using hempty
      · exact says_segments [] [] name (by simpa using h) (fun _ => rfl) (by simpa using hne)
  rw [print_string, quoted, List.append_assoc]
  exact (says_fprintf _).bind (hquoted.bind (says_fprintf _))

/-- The exception: `--len` makes an empty name the longest there is. -/
theorem print_string_crash (h : str.addr ≠ 0) (hfits : str.Fits 1) (hraw : o.RAWNAMES = false) (hb : str.byte 0 = SLASH) :
    (print_string o str 0).val = none := by
  have haddr : (str.addr + 1).toNat = str.addr.toNat + 1 := by
    unfold Ptr.Fits at hfits
    rw [UInt32.toNat_add, show (1 : UInt32).toNat = 1 from rfl]
    omega
  have hdigest : (printComponent o (str.add 1) (0 - 1)).val = none := by
    have hlong : 2 ^ 32 ≤ (str.add 1).addr.toNat + ((0 : UInt32) - 1).toNat := by
      rw [Ptr.add_addr, haddr, UInt32.toNat_sub, show (0 : UInt32).toNat = 0 from rfl, show (1 : UInt32).toNat = 1 from rfl]
      omega
    unfold printComponent
    rw [if_neg (by decide), if_neg (by decide), if_neg (by decide), printDigest, if_pos hlong]
    rfl
  have hsegment : (print_path_segment o str 0).val = none := by
    have hread : (derefByte str 0).val = some (str.byte 0) := by rw [derefByte, if_neg h]
    rw [print_path_segment, Trace.val_bind _ hread, if_pos hb, val_fprintf_bind]
    exact hdigest
  have hquoted : printQuoted o str 0 = print_path_segment o str 0 := by
    rw [printQuoted, hraw, show (0 : UInt32).toNat = 0 from rfl, printSegments, pure_bind, Ptr.add_zero, UInt32.sub_zero]
    rfl
  rw [print_string, val_fprintf_bind, hquoted, Trace.bind_none _ hsegment]

/-! ## Which bytes are read -/

/-- Text, and reads of the `k` bytes at `str`. -/
def BytesIn (str : Ptr) (k : Nat) : Act → Prop
  | .byte a => ∃ j < k, a = str.addr + UInt32.ofNat j
  | .put _ => True
  | _ => False

theorem BytesIn.mono {k m : Nat} {a : Act} (h : BytesIn str k a) (hk : k ≤ m) : BytesIn str m a := by
  cases a with
  | byte a =>
    obtain ⟨j, hj, ha⟩ := h
    exact ⟨j, by omega, ha⟩
  | put c => trivial
  | word | count3 | count2 => exact h

theorem BytesIn.shift {front k : Nat} {a : Act} (h : BytesIn (str.add (UInt32.ofNat front)) k a) :
    BytesIn str (front + k) a := by
  cases a with
  | byte a =>
    obtain ⟨j, hj, ha⟩ := h
    refine ⟨front + j, by omega, ?_⟩
    rw [ha, Ptr.add_addr, UInt32.ofNat_add, UInt32.add_assoc]
  | put c => trivial
  | word | count3 | count2 => exact h

theorem bytes_deref {k j : Nat} (hj : j < k) : Trace.Only (BytesIn str k) (derefByte str (UInt32.ofNat j)) :=
  only_derefByte.mpr ⟨j, hj, rfl⟩

theorem bytes_fprintf {k : Nat} (ps : List Piece) : Trace.Only (BytesIn str k) (fprintf ps) :=
  only_fprintf.mpr fun _ _ => trivial

theorem bytes_digest (o : Opts) (str : Ptr) (len : UInt32) : Trace.Only (BytesIn str len.toNat) (printDigest o str len) := by
  have hreads : ∀ a ∈ (List.range len.toNat).map fun i => Act.byte (str.addr + UInt32.ofNat i), BytesIn str len.toNat a := by
    intro a ha
    obtain ⟨j, hj, rfl⟩ := List.mem_map.mp ha
    exact ⟨j, List.mem_range.mp hj, rfl⟩
  refine Trace.only_bind.mpr ⟨Trace.only_emit.mpr hreads, fun _ _ => Trace.only_ite.mpr ⟨fun _ => ?_, fun _ => ?_⟩⟩
  · exact Trace.only_crash _
  · exact bytes_fprintf _

theorem bytes_component (len : UInt32) : Trace.Only (BytesIn str len.toNat) (printComponent o str len) := by
  have hdigest := bytes_digest o str len
  unfold printComponent
  refine Trace.only_ite.mpr ⟨fun _ => Trace.only_pure _ _, fun _ => Trace.only_ite.mpr ⟨fun h1 => ?_, fun _ =>
    Trace.only_ite.mpr ⟨fun h2 => ?_, fun _ => hdigest⟩⟩⟩
  · subst h1
    exact Trace.only_bind.mpr ⟨bytes_deref (j := 0) (by decide), fun _ _ =>
      Trace.only_ite.mpr ⟨fun _ => bytes_fprintf _, fun _ => hdigest⟩⟩
  · subst h2
    refine Trace.only_bind.mpr ⟨bytes_deref (j := 0) (by decide), fun _ _ => Trace.only_ite.mpr ⟨fun _ => ?_, fun _ => hdigest⟩⟩
    exact Trace.only_bind.mpr ⟨bytes_deref (j := 1) (by decide), fun _ _ =>
      Trace.only_ite.mpr ⟨fun _ => bytes_fprintf _, fun _ => hdigest⟩⟩

theorem bytes_segment (len : UInt32) (hlen : 0 < len.toNat) :
    Trace.Only (BytesIn str len.toNat) (print_path_segment o str len) := by
  have hpred : (len - 1).toNat = len.toNat - 1 := by
    have hlt := len.toNat_lt
    rw [UInt32.toNat_sub, show (1 : UInt32).toNat = 1 from rfl]
    omega
  refine Trace.only_bind.mpr ⟨bytes_deref (j := 0) hlen, fun _ _ => Trace.only_ite.mpr ⟨fun _ => ?_, fun _ => bytes_component len⟩⟩
  refine Trace.only_bind.mpr ⟨bytes_fprintf _, fun _ _ => (bytes_component (len - 1)).mono fun a ha => ?_⟩
  exact (show BytesIn str (1 + _) a from BytesIn.shift ha).mono (by omega)

/-- `k` more bytes from `i` on, the segment begun at `seg`. -/
theorem bytes_segments (o : Opts) (str : Ptr) (k : Nat) : ∀ (i seg : Nat), seg ≤ i → (i = 0 ∨ seg < i) → i + k < 2 ^ 32 →
    Trace.Only (BytesIn str (i + k)) (printSegments o str k (UInt32.ofNat i) (UInt32.ofNat seg)) ∧
      ∀ v, (printSegments o str k (UInt32.ofNat i) (UInt32.ofNat seg)).val = some v →
        ∃ s, v = UInt32.ofNat s ∧ (s = seg ∨ s < i + k) := by
  induction k with
  | zero =>
    intro i seg _ _ _
    refine ⟨Trace.only_pure _ _, fun v hv => ⟨seg, ?_, Or.inl rfl⟩⟩
    exact (Option.some.inj hv).symm
  | succ k ih =>
    intro i seg hle hseg hlt
    have hnext : UInt32.ofNat i + 1 = UInt32.ofNat (i + 1) := by rw [UInt32.ofNat_add]; rfl
    have hsum : i + 1 + k = i + (k + 1) := by omega
    obtain ⟨hslash, vslash⟩ := ih (i + 1) i (by omega) (by omega) (by omega)
    obtain ⟨hother, vother⟩ := ih (i + 1) seg (by omega) (by omega) (by omega)
    rw [hsum] at hslash vslash hother vother
    have hpart : 0 < i → Trace.Only (BytesIn str (i + (k + 1)))
        (print_path_segment o (str.add (UInt32.ofNat seg)) (UInt32.ofNat i - UInt32.ofNat seg)) := by
      intro hi
      have hlen : (UInt32.ofNat i - UInt32.ofNat seg).toNat = i - seg := by
        rw [ofNat_sub_ofNat hle (by omega), toNat_ofNat_lt (by omega)]
      refine (bytes_segment _ (by omega)).mono fun a ha => (BytesIn.shift ha).mono ?_
      omega
    have hwhen : Trace.Only (BytesIn str (i + (k + 1)))
        (Trace.when (UInt32.ofNat i > 0) (print_path_segment o (str.add (UInt32.ofNat seg)) (UInt32.ofNat i - UInt32.ofNat seg))) := by
      refine Trace.only_when.mpr fun hpos => hpart ?_
      have := UInt32.lt_iff_toNat_lt.mp (of_decide_eq_true hpos)
      rwa [toNat_ofNat_lt (by omega)] at this
    rw [printSegments, hnext]
    refine ⟨Trace.only_bind.mpr ⟨bytes_deref (by omega), fun _ _ => Trace.only_ite.mpr ⟨fun _ => ?_, fun _ => hother⟩⟩, ?_⟩
    · exact Trace.only_bind.mpr ⟨hwhen, fun _ _ => hslash⟩
    · intro v hv
      obtain ⟨c, -, hv⟩ := Trace.of_val_bind hv
      by_cases hc : c = SLASH
      · rw [if_pos hc] at hv
        obtain ⟨_, -, hv⟩ := Trace.of_val_bind hv
        obtain ⟨s, hs, hle'⟩ := vslash v hv
        exact ⟨s, hs, by omega⟩
      · rw [if_neg hc] at hv
        exact vother v hv

theorem bytes_raw (str : Ptr) (k : Nat) : ∀ (i : Nat), Trace.Only (BytesIn str (i + k)) (printRaw str k (UInt32.ofNat i)) := by
  induction k with
  | zero => intro i; exact Trace.only_pure _ _
  | succ k ih =>
    intro i
    have hnext : UInt32.ofNat i + 1 = UInt32.ofNat (i + 1) := by rw [UInt32.ofNat_add]; rfl
    have hrest := ih (i + 1)
    rw [Nat.add_right_comm, Nat.add_assoc] at hrest
    rw [printRaw, hnext]
    exact Trace.only_bind.mpr ⟨bytes_deref (by omega), fun _ _ => Trace.only_bind.mpr ⟨bytes_fprintf _, fun _ _ => hrest⟩⟩

theorem bytes_print_string (str : Ptr) (len : UInt32) (h : 0 < len.toNat ∨ o.RAWNAMES = true) :
    Trace.Only (BytesIn str len.toNat) (print_string o str len) := by
  have hquoted : Trace.Only (BytesIn str len.toNat) (printQuoted o str len) := by
    have hraw := bytes_raw str len.toNat 0
    rw [Nat.zero_add] at hraw
    refine Trace.only_ite.mpr ⟨fun _ => hraw, fun hnot => ?_⟩
    have hpos : 0 < len.toNat := h.resolve_right hnot
    have hlt := len.toNat_lt
    obtain ⟨hsegs, vsegs⟩ := bytes_segments o str len.toNat 0 0 (Nat.le_refl 0) (Or.inl rfl) (by omega)
    rw [Nat.zero_add] at hsegs vsegs
    refine Trace.only_bind.mpr ⟨hsegs, fun v hv => ?_⟩
    obtain ⟨s, rfl, hs⟩ := vsegs v hv
    have hlen : (len - UInt32.ofNat s).toNat = len.toNat - s := by
      rw [UInt32.toNat_sub, toNat_ofNat_lt (by omega)]
      omega
    exact (bytes_segment _ (by omega)).mono fun a ha => (BytesIn.shift ha).mono (by omega)
  exact Trace.only_bind.mpr ⟨bytes_fprintf _, fun _ _ => Trace.only_bind.mpr ⟨hquoted, fun _ _ => bytes_fprintf _⟩⟩

/-- An empty name, with no slash behind it. -/
theorem print_string_empty (h : str.addr ≠ 0) (hraw : o.RAWNAMES = false) (hb : str.byte 0 ≠ SLASH) :
    print_string o str 0 = ⟨[.put (.lit "\""), .byte str.addr, .put (.lit "\" ")], some ()⟩ := by
  have hread : derefByte str 0 = ⟨[.byte str.addr], some (str.byte 0)⟩ := by rw [derefByte, if_neg h, UInt32.add_zero]
  have hquoted : printQuoted o str 0 = ⟨[.byte str.addr], some ()⟩ := by
    rw [printQuoted, hraw, show (0 : UInt32).toNat = 0 from rfl, printSegments, pure_bind, Ptr.add_zero, UInt32.sub_zero,
      print_path_segment, hread, Trace.bind_some _ (show _ = some (str.byte 0) from rfl), if_neg hb]
    rfl
  rw [print_string, hquoted]
  rfl

end Bytes

end Nfsdump.Decode
