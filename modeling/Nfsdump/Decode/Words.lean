/-
  Nfsdump.Decode.Words — a payload of `n` captured words, and the decoders by word index.

  `cur p i` is the cursor at word `i` of the payload at `p`. The decoders compare
  addresses; for a payload the system can have mapped (`Mapped`) these compare as the
  indices do, some words beyond the end included.

  Proved, for every index up to a page beyond the end and any memory:
  - `val_scalar`, `val_fields`, `val_fattr3` ..: where a decoder leaves the cursor;
  - `null_scalar`, `null_fields` ..: NULL is passed on, and nothing is read through it.
-/

import Nfsdump.Decode.Cursor

namespace Nfsdump.Decode

open Wire

/-- `n` words lie at `p`: not at NULL, and not in the last page, which is never mapped. -/
structure Mapped (p : Ptr) (n : Nat) : Prop where
  pos : 0 < p.addr.toNat
  top : p.addr.toNat + 4 * n + 4096 ≤ 2 ^ 32

/-- The cursor at word `i`. -/
def cur (p : Ptr) (i : Nat) : Ptr := p.skip (UInt32.ofNat i)

/-- Word `i`, in host order. -/
def wordAt (p : Ptr) (i : Nat) : UInt32 := p.word (4 * UInt32.ofNat i)

/-! ## Cursors -/

section Cursors

variable {p : Ptr} {n i j : Nat}

@[simp] theorem cur_zero (p : Ptr) : cur p 0 = p := Ptr.add_zero p

theorem cur_skip (p : Ptr) (i k : Nat) : (cur p i).skip (UInt32.ofNat k) = cur p (i + k) := by
  simp only [cur, Ptr.skip, Ptr.add_add, UInt32.ofNat_add, UInt32.mul_add]

theorem cur_skip_one (p : Ptr) (i : Nat) : (cur p i).skip 1 = cur p (i + 1) := cur_skip p i 1

theorem cur_skip_two (p : Ptr) (i : Nat) : (cur p i).skip 2 = cur p (i + 2) := cur_skip p i 2

theorem cur_word (p : Ptr) (i k : Nat) : (cur p i).word (4 * UInt32.ofNat k) = wordAt p (i + k) := by
  rw [cur, Ptr.skip, Ptr.word_add, wordAt, UInt32.ofNat_add, UInt32.mul_add]

theorem cur_addr_add (p : Ptr) (i k : Nat) : (cur p i).addr + 4 * UInt32.ofNat k = (cur p (i + k)).addr := by
  rw [← cur_skip]; rfl

theorem cur_addr (h : Mapped p n) (hi : i ≤ n + 1000) : (cur p i).addr.toNat = p.addr.toNat + 4 * i := by
  have htop := h.top
  rw [cur, Ptr.skip_addr, UInt32.toNat_add, UInt32.toNat_mul, toNat_ofNat_lt (by omega),
    show (4 : UInt32).toNat = 4 from rfl]
  omega

theorem cur_ne_null (h : Mapped p n) (hi : i ≤ n + 1000) : (cur p i).addr ≠ 0 := by
  intro h0
  have haddr := cur_addr h hi
  have hpos := h.pos
  rw [h0, show (0 : UInt32).toNat = 0 from rfl] at haddr
  omega

theorem cur_lt (h : Mapped p n) (hi : i ≤ n + 1000) (hj : j ≤ n + 1000) : cur p i < cur p j ↔ i < j := by
  rw [Ptr.lt_def, UInt32.lt_iff_toNat_lt, cur_addr h hi, cur_addr h hj]
  omega

theorem deref_cur (h : Mapped p n) (hi : i ≤ n + 1000) (k : Nat) :
    deref (cur p i) (UInt32.ofNat k) = ⟨[.word (cur p (i + k)).addr], some (wordAt p (i + k))⟩ := by
  rw [deref, cur_addr_add, cur_word, if_neg (cur_ne_null h hi)]

theorem deref_cur_zero (h : Mapped p n) (hi : i ≤ n + 1000) :
    deref (cur p i) 0 = ⟨[.word (cur p i).addr], some (wordAt p i)⟩ := deref_cur h hi 0

theorem deref_cur_one (h : Mapped p n) (hi : i ≤ n + 1000) :
    deref (cur p i) 1 = ⟨[.word (cur p (i + 1)).addr], some (wordAt p (i + 1))⟩ := deref_cur h hi 1

theorem cur_end (p : Ptr) (actual_len : UInt32) : p.skip (actual_len / 4) = cur p (actual_len.toNat / 4) := by
  have hword : actual_len / 4 = UInt32.ofNat (actual_len.toNat / 4) := by
    have hlt := actual_len.toNat_lt
    apply UInt32.toNat.inj
    rw [toNat_ofNat_lt (by omega), UInt32.toNat_div]
    rfl
  rw [cur, hword]

end Cursors

/-! ## Scalars -/

section Scalars

variable {p : Ptr} {n i : Nat} {print : Bool}

/-- The words of a scalar, and by how many its bound test is off. -/
def Scalar.size : Scalar → Nat
  | .uint32 => 1
  | .uint64 => 2
  | .nfstime3 => 2

def Scalar.slack : Scalar → Nat
  | .uint32 => 1
  | .uint64 => 1
  | .nfstime3 => 0

/-- What a scalar prints as, from its words. -/
def Scalar.pieces (w : Nat → UInt32) (i : Nat) : Scalar → List Piece
  | .uint32 => [.x (w i), .lit " "]
  | .uint64 => uint64Pieces (w i) (w (i + 1))
  | .nfstime3 => time3Pieces (w i) (w (i + 1))

/-- The reads of `k` words from word `i` on. -/
def reads (p : Ptr) (i k : Nat) : List Act := (List.range k).map fun j => .word (cur p (i + j)).addr

theorem reads_one (p : Ptr) (i : Nat) : reads p i 1 = [.word (cur p i).addr] := rfl

theorem print_two (ps : UInt32 → UInt32 → List Piece) (a b : Act) (x y : UInt32) (r : Ptr) :
    (do (do let u ← (⟨[a], some x⟩ : Dec UInt32)
            let v ← (⟨[b], some y⟩ : Dec UInt32)
            fprintf (ps u v))
        pure r : Dec Ptr) = ⟨[a, b] ++ (ps x y).map .put, some r⟩ := by
  show (⟨([a] ++ ([b] ++ (ps x y).map .put)) ++ [], some r⟩ : Dec Ptr) = _
  rw [List.append_nil]
  rfl

theorem uint32_val_pass (h : Mapped p n) (hi : i ≤ n) (print : Bool) (val : Option UInt32) :
    print_uint32_val (cur p i) (cur p n) print val =
      ⟨(if print then reads p i 1 ++ (Scalar.uint32.pieces (wordAt p) i).map .put else []) ++
        (if val.isSome then reads p i 1 else []), some (cur p (i + 1), val.map fun _ => wordAt p i)⟩ := by
  have hnull := cur_ne_null h (i := i) (by omega)
  have hlt : ¬ cur p n < cur p i := by rw [cur_lt h (by omega) (by omega)]; omega
  unfold print_uint32_val
  rw [if_neg (by rintro (h0 | h0); exacts [hnull h0, hlt h0]), cur_skip_one]
  cases print <;> cases val <;> simp only [Trace.when, Bool.false_eq_true, if_false, if_true, pure_bind,
    deref_cur_zero h (show i ≤ n + 1000 by omega)] <;> rfl

theorem uint32_val_stop (h : Mapped p n) (hi : n < i) (hi' : i ≤ n + 1000) (print : Bool) (val : Option UInt32) :
    print_uint32_val (cur p i) (cur p n) print val = pure (.null, val) := by
  unfold print_uint32_val
  rw [if_pos (Or.inr ((cur_lt h (by omega) hi').mpr hi))]

theorem scalar_pass (h : Mapped p n) (s : Scalar) (hi : i + s.size ≤ n + s.slack) (print : Bool) :
    s.print (cur p i) (cur p n) print =
      ⟨if print then reads p i s.size ++ (s.pieces (wordAt p) i).map .put else [], some (cur p (i + s.size))⟩ := by
  cases s with
  | uint32 =>
    show print_uint32 _ _ _ = _
    have hi' : i ≤ n := by simpa [Scalar.size, Scalar.slack] using hi
    rw [print_uint32, uint32_val_pass h hi']
    cases print <;> rfl
  | uint64 =>
    have hi' : i + 1 ≤ n := by simp only [Scalar.size, Scalar.slack] at hi; omega
    show print_uint64 _ _ _ = _
    have hnull := cur_ne_null h (i := i) (by omega)
    have hlt : ¬ cur p n < cur p (i + 1) := by rw [cur_lt h (by omega) (by omega)]; omega
    rw [print_uint64, cur_skip_one, if_neg (by rintro (h0 | h0); exacts [hnull h0, hlt h0]), cur_skip_two]
    cases print with
    | false => rfl
    | true =>
      simp only [Trace.when, if_true, deref_cur_zero h (show i ≤ n + 1000 by omega),
        deref_cur_one h (show i ≤ n + 1000 by omega)]
      exact print_two uint64Pieces _ _ _ _ _
  | nfstime3 =>
    have hi' : i + 2 ≤ n := by simpa [Scalar.size, Scalar.slack] using hi
    show print_nfstime3 _ _ _ = _
    have hnull := cur_ne_null h (i := i) (by omega)
    have hlt : ¬ cur p n < cur p (i + 2) := by rw [cur_lt h (by omega) (by omega)]; omega
    rw [print_nfstime3, if_neg hnull, cur_skip_two, if_neg hlt]
    cases print with
    | false => rfl
    | true =>
      simp only [Trace.when, if_true, deref_cur_zero h (show i ≤ n + 1000 by omega),
        deref_cur_one h (show i ≤ n + 1000 by omega)]
      exact print_two time3Pieces _ _ _ _ _

theorem scalar_stop (h : Mapped p n) (s : Scalar) (hi : n + s.slack < i + s.size) (hi' : i ≤ n + 900) (print : Bool) :
    s.print (cur p i) (cur p n) print = pure .null := by
  cases s with
  | uint32 =>
    have hn : n < i := by simpa [Scalar.size, Scalar.slack] using hi
    show print_uint32 _ _ _ = _
    rw [print_uint32, uint32_val_stop h hn (by omega)]
    rfl
  | uint64 =>
    have hn : n < i + 1 := by simp only [Scalar.size, Scalar.slack] at hi; omega
    show print_uint64 _ _ _ = _
    rw [print_uint64, cur_skip_one, if_pos (Or.inr ((cur_lt h (by omega) (by omega)).mpr hn))]
  | nfstime3 =>
    have hn : n < i + 2 := by simpa [Scalar.size, Scalar.slack] using hi
    show print_nfstime3 _ _ _ = _
    rw [print_nfstime3, if_neg (cur_ne_null h (by omega)), cur_skip_two,
      if_pos ((cur_lt h (by omega) (by omega)).mpr hn)]

/-! ### NULL is passed on -/

theorem uint32_val_null (e : Ptr) (print : Bool) (val : Option UInt32) :
    print_uint32_val .null e print val = pure (.null, val) := by
  unfold print_uint32_val
  exact if_pos (Or.inl rfl)

theorem scalar_null (s : Scalar) (e : Ptr) (print : Bool) : s.print .null e print = pure .null := by
  cases s with
  | uint32 => show print_uint32 _ _ _ = _; rw [print_uint32, uint32_val_null]; rfl
  | uint64 => show print_uint64 _ _ _ = _; exact if_pos (Or.inl rfl)
  | nfstime3 => show print_nfstime3 _ _ _ = _; exact if_pos rfl

end Scalars

/-! ## Labelled fields -/

section Fields

variable {p : Ptr} {n i : Nat} {print : Bool}

def fieldsSize (fs : List (String × Scalar)) : Nat := (fs.map fun f => f.2.size).sum

/-- The last field's bound test is not off, so the fields' is not. -/
def EndsExact : List (String × Scalar) → Bool
  | [] => false
  | [f] => f.2.slack = 0
  | _ :: f :: fs => EndsExact (f :: fs)

/-- What fields print from the words at `i`. -/
def fieldPieces (w : Nat → UInt32) : List (String × Scalar) → Nat → List Piece
  | [], _ => []
  | (label, s) :: fs, i => .lit label :: s.pieces w i ++ fieldPieces w fs (i + s.size)

theorem fieldsSize_cons (f : String × Scalar) (fs : List (String × Scalar)) :
    fieldsSize (f :: fs) = f.2.size + fieldsSize fs := by simp [fieldsSize]

theorem scalar_size_pos (s : Scalar) : 0 < s.size ∧ s.size ≤ 2 ∧ s.slack ≤ 1 := by cases s <;> decide

theorem printFields_cons (label : String) (s : Scalar) (fs : List (String × Scalar)) (p e : Ptr) (print : Bool) :
    printFields ((label, s) :: fs) p e print =
      fprintfIf print [.lit label] >>= fun _ => s.print p e print >>= fun new_p => printFields fs new_p e print := rfl

theorem fields_null_val (fs : List (String × Scalar)) (e : Ptr) : (printFields fs .null e print).val = some .null := by
  induction fs with
  | nil => rfl
  | cons f fs ih =>
    obtain ⟨label, s⟩ := f
    rw [printFields_cons, val_fprintfIf_bind, scalar_null]
    exact ih

/-- Fields leave the cursor behind them, or NULL when they are not all there. -/
theorem fields_val (h : Mapped p n) {fs : List (String × Scalar)} (hfs : EndsExact fs) : ∀ {i}, i ≤ n + 1 →
    (printFields fs (cur p i) (cur p n) print).val =
      some (if i + fieldsSize fs ≤ n then cur p (i + fieldsSize fs) else .null) := by
  induction fs with
  | nil => cases hfs
  | cons f fs ih =>
    intro i hi
    obtain ⟨label, s⟩ := f
    have hs := scalar_size_pos s
    rw [printFields_cons, val_fprintfIf_bind, fieldsSize_cons]
    by_cases hpass : i + s.size ≤ n + s.slack
    · have hval : (s.print (cur p i) (cur p n) print).val = some (cur p (i + s.size)) := by rw [scalar_pass h s hpass]
      rw [Trace.val_bind _ hval]
      cases fs with
      | nil =>
        have h0 : s.slack = 0 := by simpa [EndsExact] using hfs
        rw [show fieldsSize [] = 0 from rfl, Nat.add_zero, if_pos (by simpa using by omega)]
        rfl
      | cons g gs =>
        show (printFields (g :: gs) (cur p (i + s.size)) (cur p n) print).val = _
        rw [ih hfs (i := i + s.size) (by omega), Nat.add_assoc]
    · rw [scalar_stop h s (by omega) (by omega), if_neg (by dsimp only; omega)]
      exact fields_null_val fs _

/-- What fields that are all there print. -/
theorem fields_out (h : Mapped p n) (fs : List (String × Scalar)) : ∀ {i}, i + fieldsSize fs ≤ n →
    out (printFields fs (cur p i) (cur p n) print) = if print then fieldPieces (wordAt p) fs i else [] := by
  induction fs with
  | nil => intro i _; cases print <;> rfl
  | cons f fs ih =>
    intro i hi
    obtain ⟨label, s⟩ := f
    rw [fieldsSize_cons] at hi
    dsimp only at hi
    have hpass := scalar_pass h s (i := i) (by omega) print
    have hout : out (s.print (cur p i) (cur p n) print) = if print then s.pieces (wordAt p) i else [] := by
      rw [hpass]
      cases print
      · rfl
      · simp [out, Trace.seen, reads, Act.piece, List.filterMap_append, List.filterMap_map, Function.comp_def]
    rw [printFields_cons, fprintfIf, out_fprintf_bind, out_bind _ (by rw [hpass]), hout, ih (by omega)]
    cases print <;> simp [fieldPieces]

end Fields

/-! ## Attributes -/

section Attributes

variable {p : Ptr} {n i : Nat} {print : Bool}

theorem guards_pass (h : Mapped p n) (hi : i ≤ n) : ¬ (cur p i).addr = 0 ∧ ¬ cur p n < cur p i :=
  ⟨cur_ne_null h (by omega), by rw [cur_lt h (by omega) (by omega)]; omega⟩

theorem guards_stop (h : Mapped p n) (hi : n < i) (hi' : i ≤ n + 1000) : ¬ (cur p i).addr = 0 ∧ cur p n < cur p i :=
  ⟨cur_ne_null h hi', (cur_lt h (by omega) hi').mpr hi⟩

theorem fattr3_pass (h : Mapped p n) (hi : i ≤ n) :
    print_fattr3 (cur p i) (cur p n) print = printFields fattr3Fields (cur p i) (cur p n) print := by
  rw [print_fattr3, if_neg (guards_pass h hi).1, if_neg (guards_pass h hi).2]

theorem fattr3_stop (h : Mapped p n) (hi : n < i) (hi' : i ≤ n + 1000) :
    print_fattr3 (cur p i) (cur p n) print = pure .null := by
  rw [print_fattr3, if_neg (guards_stop h hi hi').1, if_pos (guards_stop h hi hi').2]

theorem fattr3_val (h : Mapped p n) (hi : i ≤ n + 900) :
    (print_fattr3 (cur p i) (cur p n) print).val = some (if i + 21 ≤ n then cur p (i + 21) else .null) := by
  by_cases hn : i ≤ n
  · rw [fattr3_pass h hn]
    exact fields_val h (show EndsExact fattr3Fields from rfl) (by omega)
  · rw [fattr3_stop h (by omega) (by omega), if_neg (by omega)]
    rfl

theorem fattr3_out (h : Mapped p n) (hi : i + 21 ≤ n) :
    out (print_fattr3 (cur p i) (cur p n) print) = if print then fieldPieces (wordAt p) fattr3Fields i else [] := by
  rw [fattr3_pass h (by omega)]
  exact fields_out h fattr3Fields hi

theorem pre_op_attr3_val (h : Mapped p n) (hi : i ≤ n + 900) :
    (print_pre_op_attr3 (cur p i) (cur p n) print).val = some (if i + 6 ≤ n then cur p (i + 6) else .null) := by
  by_cases hn : i ≤ n
  · rw [print_pre_op_attr3, if_neg (guards_pass h hn).1, if_neg (guards_pass h hn).2]
    exact fields_val h (show EndsExact preOpAttr3Fields from rfl) (by omega)
  · have hstop := guards_stop h (show n < i by omega) (by omega)
    rw [print_pre_op_attr3, if_neg hstop.1, if_pos hstop.2, if_neg (by omega)]
    rfl

theorem pre_op_attr3_out (h : Mapped p n) (hi : i + 6 ≤ n) :
    out (print_pre_op_attr3 (cur p i) (cur p n) print) =
      if print then fieldPieces (wordAt p) preOpAttr3Fields i else [] := by
  rw [print_pre_op_attr3, if_neg (guards_pass h (by omega)).1, if_neg (guards_pass h (by omega)).2]
  exact fields_out h preOpAttr3Fields hi

/-- A flag word, and the attributes behind it when it is set. -/
def attrSize (w : Nat → UInt32) (i : Nat) : Nat := if w i = 0 then 1 else 22

theorem post_op_attr3_null (e : Ptr) : print_post_op_attr3 .null e print = pure .null := if_pos rfl

theorem post_op_attr3_stop (h : Mapped p n) (hi : n < i) (hi' : i ≤ n + 1000) :
    print_post_op_attr3 (cur p i) (cur p n) print = pure .null := by
  rw [print_post_op_attr3, if_neg (guards_stop h hi hi').1, if_pos (guards_stop h hi hi').2]

theorem post_op_attr3_pass (h : Mapped p n) (hi : i ≤ n) :
    print_post_op_attr3 (cur p i) (cur p n) print =
      (⟨[.word (cur p i).addr], some (wordAt p i)⟩ : Dec UInt32) >>= fun attributes_follow =>
        if attributes_follow ≠ 0 then print_fattr3 (cur p (i + 1)) (cur p n) print else pure (cur p (i + 1)) := by
  rw [print_post_op_attr3, if_neg (guards_pass h hi).1, if_neg (guards_pass h hi).2, deref_cur_zero h (by omega),
    cur_skip_one]

theorem post_op_attr3_val (h : Mapped p n) (hi : i ≤ n + 800) :
    (print_post_op_attr3 (cur p i) (cur p n) print).val =
      some (if i + attrSize (wordAt p) i ≤ n ∨ (i = n ∧ wordAt p i = 0) then cur p (i + attrSize (wordAt p) i) else .null) := by
  by_cases hn : i ≤ n
  · rw [post_op_attr3_pass h hn, Trace.val_bind _ rfl]
    by_cases hw : wordAt p i = 0
    · rw [if_neg (not_not.mpr hw), if_pos (by simp only [attrSize, hw, if_true, and_true]; omega), attrSize, if_pos hw]
      rfl
    · rw [if_pos hw, fattr3_val h (by omega), attrSize, if_neg hw]
      simp only [hw, and_false, or_false, Nat.add_assoc, Nat.reduceAdd]
  · have hsize : 0 < attrSize (wordAt p) i := by unfold attrSize; split <;> omega
    rw [post_op_attr3_stop h (by omega) (by omega), if_neg (by omega)]
    rfl

theorem post_op_attr3_out (h : Mapped p n) (hi : i + attrSize (wordAt p) i ≤ n) :
    out (print_post_op_attr3 (cur p i) (cur p n) print) =
      if print ∧ wordAt p i ≠ 0 then fieldPieces (wordAt p) fattr3Fields (i + 1) else [] := by
  have hsize : 0 < attrSize (wordAt p) i := by unfold attrSize; split <;> omega
  rw [post_op_attr3_pass h (by omega), out_bind _ rfl]
  by_cases hw : wordAt p i = 0
  · simp [hw]
  · rw [attrSize, if_neg hw] at hi
    rw [if_pos hw, fattr3_out h (by omega)]
    cases print <;> simp [hw]

/-! ## Weak cache consistency data -/

/-- The index of the second flag. -/
def wccAfter (w : Nat → UInt32) (i : Nat) : Nat := if w i = 0 then i + 1 else i + 7

def wccSize (w : Nat → UInt32) (i : Nat) : Nat := wccAfter w i - i + attrSize w (wccAfter w i)

/-- The second flag on. -/
theorem wcc_after_val (h : Mapped p n) (hi : i ≤ n + 800) :
    (deref (cur p i) 0 >>= fun after =>
      if after ≠ 0 then print_fattr3 ((cur p i).skip 1) (cur p n) print else pure ((cur p i).skip 1)).val =
      some (if wordAt p i = 0 ∨ i + 22 ≤ n then cur p (i + attrSize (wordAt p) i) else .null) := by
  rw [deref_cur_zero h (by omega), Trace.val_bind _ rfl, cur_skip_one]
  by_cases hw : wordAt p i = 0
  · rw [if_neg (not_not.mpr hw), if_pos (Or.inl hw), attrSize, if_pos hw]
    rfl
  · rw [if_pos hw, fattr3_val h (by omega), attrSize, if_neg hw]
    simp only [hw, false_or, Nat.add_assoc, Nat.reduceAdd]

theorem wcc_data3_pass (h : Mapped p n) (hi : i ≤ n) :
    print_wcc_data3 (cur p i) (cur p n) print =
      (⟨[.word (cur p i).addr], some (wordAt p i)⟩ : Dec UInt32) >>= fun before =>
        printBefore before (cur p (i + 1)) (cur p n) print >>= fun new_p =>
          deref new_p 0 >>= fun after =>
            if after ≠ 0 then print_fattr3 (new_p.skip 1) (cur p n) print else pure (new_p.skip 1) := by
  rw [print_wcc_data3, if_neg (guards_pass h hi).1, if_neg (guards_pass h hi).2, deref_cur_zero h (by omega),
    cur_skip_one]

theorem before_val (h : Mapped p n) (hi : i ≤ n) :
    (printBefore (wordAt p i) (cur p (i + 1)) (cur p n) print).val =
      some (if wordAt p i = 0 ∨ i + 7 ≤ n then cur p (wccAfter (wordAt p) i) else .null) := by
  by_cases hw : wordAt p i = 0
  · rw [printBefore, if_neg (not_not.mpr hw), if_pos (Or.inl hw), wccAfter, if_pos hw]
    rfl
  · rw [printBefore, if_pos hw, pre_op_attr3_val h (by omega), wccAfter, if_neg hw]
    simp only [hw, false_or, Nat.add_assoc, Nat.reduceAdd]

/-- The decoder crashes when the payload ends inside the attributes before the operation. -/
theorem wcc_data3_val (h : Mapped p n) (hi : i ≤ n) :
    (print_wcc_data3 (cur p i) (cur p n) print).val =
      if wordAt p i = 0 ∨ i + 7 ≤ n then
        some (if wordAt p (wccAfter (wordAt p) i) = 0 ∨ wccAfter (wordAt p) i + 22 ≤ n
          then cur p (i + wccSize (wordAt p) i) else .null)
      else none := by
  rw [wcc_data3_pass h hi, Trace.val_bind _ rfl, Trace.val_bind _ (before_val h hi)]
  have hj : i < wccAfter (wordAt p) i ∧ wccAfter (wordAt p) i ≤ i + 7 := by unfold wccAfter; split <;> omega
  by_cases hb : wordAt p i = 0 ∨ i + 7 ≤ n
  · rw [if_pos hb, if_pos hb, wcc_after_val h (by omega), wccSize, ← Nat.add_assoc,
      show i + (wccAfter (wordAt p) i - i) = wccAfter (wordAt p) i by omega]
  · rw [if_neg hb, if_neg hb]
    rfl

theorem wcc_data3_out (h : Mapped p n) (hi : i + wccSize (wordAt p) i ≤ n) :
    out (print_wcc_data3 (cur p i) (cur p n) print) =
      if print then
        (if wordAt p i ≠ 0 then fieldPieces (wordAt p) preOpAttr3Fields (i + 1) else []) ++
        (if wordAt p (wccAfter (wordAt p) i) ≠ 0 then
          fieldPieces (wordAt p) fattr3Fields (wccAfter (wordAt p) i + 1) else [])
      else [] := by
  have hj : i < wccAfter (wordAt p) i := by unfold wccAfter; split <;> omega
  have hsize : 0 < attrSize (wordAt p) (wccAfter (wordAt p) i) := by unfold attrSize; split <;> omega
  have hb : wordAt p i = 0 ∨ i + 7 ≤ n := by
    by_cases hw : wordAt p i = 0
    · exact Or.inl hw
    · simp only [wccSize, wccAfter, hw, if_false] at hi hsize
      right; omega
  have hi' : wccAfter (wordAt p) i + attrSize (wordAt p) (wccAfter (wordAt p) i) ≤ n := by rw [wccSize] at hi; omega
  have hbefore : out (printBefore (wordAt p i) (cur p (i + 1)) (cur p n) print) =
      if print ∧ wordAt p i ≠ 0 then fieldPieces (wordAt p) preOpAttr3Fields (i + 1) else [] := by
    by_cases hw : wordAt p i = 0
    · simp [printBefore, hw]
    · rw [printBefore, if_pos hw, pre_op_attr3_out h (by have := hb.resolve_left hw; omega)]
      cases print <;> simp [hw]
  have hval : (printBefore (wordAt p i) (cur p (i + 1)) (cur p n) print).val = _ := before_val h (show i ≤ n by omega)
  rw [if_pos hb] at hval
  rw [wcc_data3_pass h (by omega), out_bind _ rfl, out_bind _ hval, hbefore, deref_cur_zero h (by omega), out_bind _ rfl,
    cur_skip_one]
  generalize hjd : wccAfter (wordAt p) i = j at *
  by_cases hw : wordAt p j = 0
  · cases print <;> simp [hw]
  · rw [attrSize, if_neg hw] at hi'
    rw [if_pos hw, fattr3_out h (by omega)]
    cases print <;> simp [hw]

end Attributes

/-! ## Handles -/

section Handles

variable {p : Ptr} {n i : Nat} {print : Bool}

/-- The words of an opaque of `len` bytes. -/
def opaqueWords (len : UInt32) : Nat := (len.toNat + 3) / 4

theorem n_words_eq (len : UInt32) :
    (if len &&& 3 ≠ 0 then len / 4 + 1 else len / 4) = UInt32.ofNat (opaqueWords len) := by
  have hand : (len &&& 3).toNat = len.toNat % 4 := by
    rw [UInt32.toNat_and, show (3 : UInt32).toNat = 2 ^ 2 - 1 from rfl, Nat.and_two_pow_sub_one_eq_mod]
  have hdiv : (len / 4).toNat = len.toNat / 4 := by rw [UInt32.toNat_div]; rfl
  have hlt := len.toNat_lt
  apply UInt32.toNat.inj
  by_cases h0 : len &&& 3 = 0
  · rw [h0, show (0 : UInt32).toNat = 0 from rfl] at hand
    rw [if_neg (not_not.mpr h0), hdiv, toNat_ofNat_lt (by unfold opaqueWords; omega), opaqueWords]
    omega
  · have hne : len.toNat % 4 ≠ 0 := fun h => h0 (UInt32.toNat.inj (hand.trans h))
    rw [if_pos h0, UInt32.toNat_add, hdiv, toNat_ofNat_lt (by unfold opaqueWords; omega), opaqueWords,
      show (1 : UInt32).toNat = 1 from rfl]
    omega

theorem printWords_events (q : Ptr) (hq : q.addr ≠ 0) (k : Nat) : ∀ i,
    printWords q k i = ⟨(List.range k).flatMap fun j =>
      [.word (q.addr + 4 * (i + UInt32.ofNat j)), .put (.x0 8 (q.word (4 * (i + UInt32.ofNat j))))], some ()⟩ := by
  induction k with
  | zero => intro i; rfl
  | succ k ih =>
    intro i
    have hread : deref q i = ⟨[.word (q.addr + 4 * i)], some (q.word (4 * i))⟩ := by rw [deref, if_neg hq]
    rw [printWords, hread, ih]
    have hshift : ∀ j : Nat, i + 1 + UInt32.ofNat j = i + UInt32.ofNat (j + 1) := fun j => by
      rw [UInt32.ofNat_add, show UInt32.ofNat 1 = 1 from rfl]; grind
    rw [List.range_succ_eq_map, List.flatMap_cons, List.flatMap_map]
    simp only [hshift]
    rw [show UInt32.ofNat 0 = 0 from rfl, UInt32.add_zero]
    rfl

/-- The words from `i` on, as a loop prints them. -/
def wordPieces (w : Nat → UInt32) (i k : Nat) : List Piece := (List.range k).map fun j => .x0 8 (w (i + j))

theorem printWords_out (h : Mapped p n) (hi : i ≤ n + 1000) (k : Nat) :
    out (printWords (cur p i) k 0) = wordPieces (wordAt p) i k := by
  rw [printWords_events _ (cur_ne_null h hi), wordPieces]
  simp only [UInt32.zero_add, cur_word]
  generalize List.range k = l
  induction l with
  | nil => rfl
  | cons j l ih => exact congrArg _ ih

theorem printWords_val (h : Mapped p n) (hi : i ≤ n + 1000) (k : Nat) : (printWords (cur p i) k 0).val = some () := by
  rw [printWords_events _ (cur_ne_null h hi)]

/-- The end a handle's length gives it lies beyond the address space. -/
def HandleWraps (p : Ptr) (i : Nat) : Prop := 2 ^ 32 ≤ p.addr.toNat + 4 * (i + 1 + opaqueWords (wordAt p i))

/-- A length word and the handle's words. -/
def handleSize (w : Nat → UInt32) (i : Nat) : Nat := 1 + opaqueWords (w i)

theorem fh3_stop (h : Mapped p n) (hi : n < i + 2) (hi' : i ≤ n + 900) :
    print_fh3 (cur p i) (cur p n) print = pure .null := by
  rw [print_fh3, if_neg (cur_ne_null h (by omega)), cur_skip_two, if_pos ((cur_lt h (by omega) (by omega)).mpr hi)]

theorem fh3_pass (h : Mapped p n) (hi : i + 2 ≤ n) :
    print_fh3 (cur p i) (cur p n) print =
      (⟨[.word (cur p i).addr], some (wordAt p i)⟩ : Dec UInt32) >>= fun fh_len =>
        if cur p n < (cur p (i + 1)).skip (UInt32.ofNat (opaqueWords fh_len)) then pure .null
        else do
          Trace.when print do
            printWords (cur p (i + 1)) (UInt32.ofNat (opaqueWords fh_len)).toNat 0
            fprintf [.lit " "]
          return (cur p (i + 1)).skip (UInt32.ofNat (opaqueWords fh_len)) := by
  have hlt : ¬ cur p n < cur p (i + 2) := by rw [cur_lt h (by omega) (by omega)]; omega
  rw [print_fh3, if_neg (cur_ne_null h (by omega)), cur_skip_two, if_neg hlt, deref_cur_zero h (by omega)]
  simp only [cur_skip_one, n_words_eq]

theorem opaqueWords_lt (len : UInt32) : opaqueWords len ≤ 2 ^ 30 := by
  have := len.toNat_lt
  unfold opaqueWords
  omega

/-- Whether the cursor behind an opaque is beyond the end, when it has not wrapped. -/
theorem opaque_end (h : Mapped p n) (hi : i + 1 ≤ n) (hw : ¬ HandleWraps p i) :
    cur p n < (cur p (i + 1)).skip (UInt32.ofNat (opaqueWords (wordAt p i))) ↔ n < i + handleSize (wordAt p) i := by
  have hle := opaqueWords_lt (wordAt p i)
  unfold HandleWraps at hw
  rw [Ptr.lt_def, UInt32.lt_iff_toNat_lt, cur_addr h (by omega), Ptr.skip_addr, UInt32.toNat_add, UInt32.toNat_mul,
    toNat_ofNat_lt (by omega), cur_addr h (by omega), show (4 : UInt32).toNat = 4 from rfl, handleSize]
  omega

theorem fh3_val (h : Mapped p n) (hi : i ≤ n + 900) (hw : i + 2 ≤ n → ¬ HandleWraps p i) :
    (print_fh3 (cur p i) (cur p n) print).val =
      some (if i + 2 ≤ n ∧ i + handleSize (wordAt p) i ≤ n then cur p (i + handleSize (wordAt p) i) else .null) := by
  by_cases hn : i + 2 ≤ n
  · rw [fh3_pass h hn, Trace.val_bind _ rfl]
    by_cases hend : n < i + handleSize (wordAt p) i
    · rw [if_pos ((opaque_end h (by omega) (hw hn)).mpr hend), if_neg (by omega)]
      rfl
    · rw [if_neg (mt (opaque_end h (by omega) (hw hn)).mp hend), if_pos ⟨hn, by omega⟩, cur_skip, handleSize, ← Nat.add_assoc]
      cases print with
      | false => rfl
      | true =>
        rw [Trace.when_true, Trace.val_bind (a := ()) _ (by
          rw [Trace.val_bind _ (printWords_val h (by omega) _)]; rfl)]
        rfl
  · rw [fh3_stop h (by omega) hi, if_neg (by omega)]
    rfl

theorem fh3_out (h : Mapped p n) (hi : i + 2 ≤ n) (hend : i + handleSize (wordAt p) i ≤ n) :
    out (print_fh3 (cur p i) (cur p n) print) =
      if print then wordPieces (wordAt p) (i + 1) (opaqueWords (wordAt p i)) ++ [.lit " "] else [] := by
  have hle := opaqueWords_lt (wordAt p i)
  have hw : ¬ HandleWraps p i := by
    have := h.top
    unfold HandleWraps
    unfold handleSize at hend
    omega
  rw [fh3_pass h hi, out_bind _ rfl, if_neg (mt (opaque_end h (by omega) hw).mp (by omega)), toNat_ofNat_lt (by omega)]
  cases print with
  | false => rfl
  | true =>
    have hwords := printWords_val h (show i + 1 ≤ n + 1000 by omega) (opaqueWords (wordAt p i))
    rw [Trace.when_true, out_bind (a := ()) _ (by rw [Trace.val_bind _ hwords]; rfl), out_bind _ hwords,
      printWords_out h (by omega)]
    simp

/-- A flag word, and the handle behind it when it is set. -/
def optHandleSize (w : Nat → UInt32) (i : Nat) : Nat := if w i = 0 then 1 else 1 + handleSize w (i + 1)

theorem post_op_fh3_pass (h : Mapped p n) (hi : i ≤ n) :
    print_post_op_fh3 (cur p i) (cur p n) print =
      (⟨[.word (cur p i).addr], some (wordAt p i)⟩ : Dec UInt32) >>= fun handle_follows =>
        if handle_follows ≠ 0 then print_fh3 (cur p (i + 1)) (cur p n) print else pure (cur p (i + 1)) := by
  rw [print_post_op_fh3, if_neg (guards_pass h hi).1, if_neg (guards_pass h hi).2, deref_cur_zero h (by omega),
    cur_skip_one]

theorem post_op_fh3_val (h : Mapped p n) (hi : i ≤ n) (hw : wordAt p i ≠ 0 → i + 3 ≤ n → ¬ HandleWraps p (i + 1)) :
    (print_post_op_fh3 (cur p i) (cur p n) print).val =
      some (if wordAt p i = 0 ∨ (i + 3 ≤ n ∧ i + optHandleSize (wordAt p) i ≤ n)
        then cur p (i + optHandleSize (wordAt p) i) else .null) := by
  rw [post_op_fh3_pass h hi, Trace.val_bind _ rfl]
  by_cases h0 : wordAt p i = 0
  · rw [if_neg (not_not.mpr h0), if_pos (Or.inl h0), optHandleSize, if_pos h0]
    rfl
  · rw [if_pos h0, fh3_val h (by omega) (hw h0), optHandleSize, if_neg h0]
    simp only [h0, false_or, Nat.add_assoc, Nat.reduceAdd]

end Handles

/-! ## Names, and the word that says how a write was committed -/

section Others

variable {p : Ptr} {n i : Nat} {print : Bool} {o : Opts}

theorem fn3_null (e : Ptr) : print_fn3 o .null e print = pure .null := if_pos (Or.inl rfl)

theorem fn3_stop (h : Mapped p n) (hi : n < i + 1) (hi' : i ≤ n + 900) :
    print_fn3 o (cur p i) (cur p n) print = pure .null := by
  rw [print_fn3, cur_skip_one, if_pos (Or.inr ((cur_lt h (by omega) (by omega)).mpr hi))]

/-- The length rounded up to whole words. -/
theorem tot_len_eq (len : UInt32) :
    (if len &&& 3 ≠ 0 then (len &&& ~~~3) + 4 else len) = 4 * UInt32.ofNat (opaqueWords len) := by
  have hlt := len.toNat_lt
  have hand : (len &&& 3).toNat = len.toNat % 4 := by
    rw [UInt32.toNat_and, show (3 : UInt32).toNat = 2 ^ 2 - 1 from rfl, Nat.and_two_pow_sub_one_eq_mod]
  have hmask : (len &&& ~~~3).toNat = len.toNat / 4 * 4 := by
    rw [UInt32.toNat_and, show (~~~(3 : UInt32)).toNat = (2 ^ 30 - 1) * 2 ^ 2 from rfl, show (4 : Nat) = 2 ^ 2 from rfl]
    apply Nat.eq_of_testBit_eq
    intro j
    rw [Nat.testBit_and, Nat.testBit_mul_two_pow, Nat.testBit_mul_two_pow, Nat.testBit_two_pow_sub_one,
      Nat.testBit_div_two_pow]
    by_cases hj : j < 32
    · by_cases h2 : 2 ≤ j
      · simp [h2, show j - 2 < 30 by omega, show j - 2 + 2 = j by omega]
      · simp [h2]
    · have hfalse : len.toNat.testBit j = false :=
        Nat.testBit_lt_two_pow (lt_of_lt_of_le hlt (Nat.pow_le_pow_right (by decide) (by omega)))
      by_cases h2 : 2 ≤ j
      · simp [hfalse, h2, show j - 2 + 2 = j by omega]
      · simp [h2]
  apply UInt32.toNat.inj
  rw [UInt32.toNat_mul, show (4 : UInt32).toNat = 4 from rfl,
    toNat_ofNat_lt (lt_of_le_of_lt (opaqueWords_lt len) (by decide)), opaqueWords]
  by_cases h0 : len &&& 3 = 0
  · rw [h0, show (0 : UInt32).toNat = 0 from rfl] at hand
    rw [if_neg (not_not.mpr h0)]
    omega
  · have hne : len.toNat % 4 ≠ 0 := fun h => h0 (UInt32.toNat.inj (hand.trans h))
    rw [if_pos h0, UInt32.toNat_add, hmask, show (4 : UInt32).toNat = 4 from rfl]
    omega

theorem fn3_pass (h : Mapped p n) (hi : i + 1 ≤ n) :
    print_fn3 o (cur p i) (cur p n) print =
      (⟨[.word (cur p i).addr], some (wordAt p i)⟩ : Dec UInt32) >>= fun s_len =>
        if cur p n < (cur p (i + 1)).skip (UInt32.ofNat (opaqueWords s_len)) then do
          fprintf [.lit " ... "]
          return .null
        else do
          Trace.when print (print_string o (cur p (i + 1)) s_len)
          return (cur p (i + 1)).skip (UInt32.ofNat (opaqueWords s_len)) := by
  have hlt : ¬ cur p n < cur p (i + 1) := by rw [cur_lt h (by omega) (by omega)]; omega
  rw [print_fn3, cur_skip_one, if_neg (by rintro (h0 | h0); exacts [cur_ne_null h (by omega) h0, hlt h0]),
    deref_cur_zero h (by omega)]
  simp only [tot_len_eq, Ptr.skip]
  rfl

/-- A name that is all there is printed; otherwise the cursor is NULL. -/
theorem fn3_val (h : Mapped p n) (hi : i ≤ n + 900) (hw : i + 1 ≤ n → ¬ HandleWraps p i) :
    (print_fn3 o (cur p i) (cur p n) true).val =
      if i + handleSize (wordAt p) i ≤ n then
        (print_string o (cur p (i + 1)) (wordAt p i)).val.map fun _ => cur p (i + handleSize (wordAt p) i)
      else some .null := by
  have hsize : 1 ≤ handleSize (wordAt p) i := Nat.le_add_right _ _
  by_cases hn : i + 1 ≤ n
  · rw [fn3_pass h hn, Trace.val_bind _ rfl]
    by_cases hend : n < i + handleSize (wordAt p) i
    · rw [if_pos ((opaque_end h hn (hw hn)).mpr hend), if_neg (by omega)]
      rfl
    · rw [if_neg (mt (opaque_end h hn (hw hn)).mp hend), if_pos (by omega), cur_skip, handleSize, ← Nat.add_assoc,
        Trace.when_true]
      cases hval : (print_string o (cur p (i + 1)) (wordAt p i)).val with
      | none => rw [Trace.bind_none _ hval]; rfl
      | some u => rw [Trace.val_bind _ hval]; rfl
  · rw [fn3_stop h (by omega) hi, if_neg (by omega)]
    rfl

theorem stable3_null (e : Ptr) : print_stable3 .null e print = pure .null := if_pos rfl

theorem stable3_stop (h : Mapped p n) (hi : n ≤ i) (hi' : i ≤ n + 1000) :
    print_stable3 (cur p i) (cur p n) print = pure .null := by
  rw [print_stable3, if_neg (cur_ne_null h hi'), if_neg (by rw [cur_lt h hi' (by omega)]; omega)]

theorem stable3_pass (h : Mapped p n) (hi : i < n) :
    print_stable3 (cur p i) (cur p n) print =
      ⟨if print then reads p i 1 ++ [.put (.c (stableLetter (wordAt p i))), .put (.lit " ")] else [],
        some (cur p (i + 1))⟩ := by
  rw [print_stable3, if_neg (cur_ne_null h (by omega)), if_pos ((cur_lt h (by omega) (by omega)).mpr hi), cur_skip_one]
  cases print with
  | false => rfl
  | true => rw [Trace.when_true, deref_cur_zero h (by omega)]; rfl

end Others

end Nfsdump.Decode
