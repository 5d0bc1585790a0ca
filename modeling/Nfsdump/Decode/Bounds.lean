/-
  Nfsdump.Decode.Bounds — which words `nfs_v3_print_resp` reads.

  The bound tests of `print_uint32` and `print_uint64`, and those in front of a flag word,
  are off by one: the word they protect is read also when it is the first one behind the
  payload. `print_wcc_data3` reads its second flag without any test, through NULL when the
  attributes in front of it are cut short. `print_fh3` adds a length from the wire to a
  cursor, and the sum can wrap.

  Proved, for every memory and every payload of `n` words:
  - `inside_scalar` .. `inside_wcc_data3`: when a decoder stays inside;
  - `resp_inside_iff`: a reply is decoded inside its payload iff the payload does not end
    right in front of an exposed word and no handle's end wraps.
-/

import Nfsdump.Decode.Text
import Nfsdump.Decode.Words

namespace Nfsdump.Decode

open Wire

/-- A word that is read lies among the `n` words at `p`. -/
def InBounds (p : Ptr) (n : Nat) : Act → Prop
  | .word a => a ≠ 0 ∧ (a - p.addr).toNat + 4 ≤ 4 * n
  | _ => True

abbrev Inside {α : Type} (p : Ptr) (n : Nat) (x : Dec α) : Prop := Trace.Only (InBounds p n) x

@[simp] theorem inBounds_put (p : Ptr) (n : Nat) (c : Piece) : InBounds p n (.put c) := trivial
@[simp] theorem inBounds_byte (p : Ptr) (n : Nat) (a : UInt32) : InBounds p n (.byte a) := trivial
@[simp] theorem inBounds_count3 (p : Ptr) (n : Nat) (c : Count Proc3) : InBounds p n (.count3 c) := trivial

theorem Textual.inside {α : Type} {x : Dec α} (h : Textual x) (p : Ptr) (n : Nat) : Inside p n x := h.mono fun a ha => by
  cases a with
  | word a => exact ha.elim
  | _ => trivial

variable {o : Opts} {b : Args} {lib : XdrLib} {p : Ptr} {n i : Nat} {print : Bool}

theorem inside_pure {α : Type} (a : α) : Inside p n (pure a : Dec α) := Trace.only_pure _ _

theorem inside_bind {α β : Type} {x : Dec α} {f : α → Dec β} {a : α} (h : x.val = some a) :
    Inside p n (x >>= f) ↔ Inside p n x ∧ Inside p n (f a) := Trace.only_bind_some h

theorem inside_fprintf_bind {α : Type} (ps : List Piece) (f : Unit → Dec α) :
    Inside p n (fprintf ps >>= f) ↔ Inside p n (f ()) := by
  rw [inside_bind (fprintf_val ps)]
  exact and_iff_right (by simp)

theorem inBounds_cur (h : Mapped p n) (hi : i ≤ n + 1000) : InBounds p n (.word (cur p i).addr) ↔ i < n := by
  have haddr := cur_addr h hi
  have hlt := p.addr.toNat_lt
  have htop := h.top
  have hsub : ((cur p i).addr - p.addr).toNat = 4 * i := by
    rw [UInt32.toNat_sub, haddr]; omega
  show _ ∧ _ ↔ _
  rw [hsub, and_iff_right (cur_ne_null h hi)]
  omega

theorem inside_read (h : Mapped p n) (hi : i ≤ n + 1000) (v : Option UInt32) :
    Inside p n (⟨[.word (cur p i).addr], v⟩ : Dec UInt32) ↔ i < n := by
  simp [Trace.Only, inBounds_cur h hi]

/-- Nothing is inside at NULL. -/
theorem not_inside_null (e : UInt32 → Dec Ptr) : ¬ Inside p n (deref .null 0 >>= e) := by
  intro h
  have := (Trace.only_bind.mp h).1
  rw [only_deref] at this
  exact this.1 rfl

/-! ## Scalars and fields -/

theorem inside_scalar (h : Mapped p n) (s : Scalar) (hi : i ≤ n + 900) :
    Inside p n (s.print (cur p i) (cur p n) print) ↔ (print = true → ¬ (s.slack = 1 ∧ i + s.size = n + 1)) := by
  have hs := scalar_size_pos s
  by_cases hpass : i + s.size ≤ n + s.slack
  · rw [scalar_pass h s hpass]
    cases print with
    | false => simp [Trace.Only]
    | true =>
      have hread : (∀ a ∈ reads p i s.size, InBounds p n a) ↔ i + s.size ≤ n := by
        constructor
        · intro hr
          have hlast := hr (.word (cur p (i + (s.size - 1))).addr) (List.mem_map.mpr ⟨s.size - 1, List.mem_range.mpr (by omega), rfl⟩)
          rw [inBounds_cur h (by omega)] at hlast
          omega
        · intro hle a ha
          obtain ⟨j, hj, rfl⟩ := List.mem_map.mp ha
          have := List.mem_range.mp hj
          exact (inBounds_cur h (by omega)).mpr (by omega)
      have hput : ∀ a ∈ (s.pieces (wordAt p) i).map Act.put, InBounds p n a := by
        intro a ha
        obtain ⟨c, _, rfl⟩ := List.mem_map.mp ha
        trivial
      have hall : (∀ a ∈ reads p i s.size ++ (s.pieces (wordAt p) i).map Act.put, InBounds p n a) ↔ i + s.size ≤ n := by
        rw [List.forall_mem_append, hread]
        exact and_iff_left hput
      show (∀ a ∈ reads p i s.size ++ (s.pieces (wordAt p) i).map Act.put, InBounds p n a) ↔ _
      rw [hall]
      constructor
      · intro hle _; omega
      · intro hx
        have := hx rfl
        omega
  · rw [scalar_stop h s (by omega) hi]
    refine iff_of_true (inside_pure _) fun _ => ?_
    omega

/-- The last words of the scalars whose bound test is off, in fields from word `i` on. -/
def exposedFields : List (String × Scalar) → Nat → List Nat
  | [], _ => []
  | (_, s) :: fs, i => (if s.slack = 1 then [i + s.size - 1] else []) ++ exposedFields fs (i + s.size)

theorem exposedFields_ge (fs : List (String × Scalar)) : ∀ {i k}, k ∈ exposedFields fs i → i ≤ k := by
  induction fs with
  | nil => intro i k hk; cases hk
  | cons f fs ih =>
    intro i k hk
    obtain ⟨label, s⟩ := f
    have hs := scalar_size_pos s
    rcases List.mem_append.mp hk with hk | hk
    · by_cases h1 : s.slack = 1
      · rw [if_pos h1] at hk
        have := List.mem_singleton.mp hk
        omega
      · rw [if_neg h1] at hk
        cases hk
    · have := ih hk
      omega

theorem inside_fields_null (fs : List (String × Scalar)) (e : Ptr) : Inside p n (printFields fs .null e print) := by
  induction fs with
  | nil => exact inside_pure _
  | cons f fs ih =>
    obtain ⟨label, s⟩ := f
    rw [printFields_cons, scalar_null]
    exact (inside_fprintf_bind _ _).mpr ih

theorem inside_fields (h : Mapped p n) (fs : List (String × Scalar)) : ∀ {i}, i ≤ n + 1 →
    (Inside p n (printFields fs (cur p i) (cur p n) print) ↔ (print = true → n ∉ exposedFields fs i)) := by
  induction fs with
  | nil => intro i _; simp [printFields, exposedFields]
  | cons f fs ih =>
    intro i hi
    obtain ⟨label, s⟩ := f
    have hs := scalar_size_pos s
    rw [printFields_cons, fprintfIf, inside_fprintf_bind]
    by_cases hpass : i + s.size ≤ n + s.slack
    · have hval : (s.print (cur p i) (cur p n) print).val = some (cur p (i + s.size)) := by rw [scalar_pass h s hpass]
      rw [inside_bind hval, inside_scalar h s (by omega), ih (by omega), exposedFields]
      by_cases h1 : s.slack = 1
      · rw [if_pos h1, List.mem_append, List.mem_singleton, h1]
        constructor
        · rintro ⟨ha, hb⟩ hp hor
          exact hor.elim (fun he => ha hp ⟨rfl, by omega⟩) (hb hp)
        · intro hx
          exact ⟨fun hp he => hx hp (Or.inl (by omega)), fun hp hm => hx hp (Or.inr hm)⟩
      · simp [h1]
    · rw [inside_bind (by rw [scalar_stop h s (by omega) (by omega)]; rfl), inside_scalar h s (by omega)]
      refine iff_of_true ⟨fun _ => by omega, inside_fields_null fs _⟩ fun _ hm => ?_
      rcases List.mem_append.mp hm with hm | hm
      · by_cases h1 : s.slack = 1
        · rw [if_pos h1] at hm
          have := List.mem_singleton.mp hm
          omega
        · rw [if_neg h1] at hm
          cases hm
      · have := exposedFields_ge fs hm
        omega

/-! ## Attributes -/

def exposedFattr3 (i : Nat) (print : Bool) : List Nat := if print then exposedFields fattr3Fields i else []

theorem exposedFattr3_ge {k : Nat} (hk : k ∈ exposedFattr3 i print) : i ≤ k := by
  cases print
  · cases hk
  · exact exposedFields_ge _ hk

theorem inside_fattr3 (h : Mapped p n) (hi : i ≤ n + 900) :
    Inside p n (print_fattr3 (cur p i) (cur p n) print) ↔ n ∉ exposedFattr3 i print := by
  by_cases hn : i ≤ n
  · rw [fattr3_pass h hn, inside_fields h _ (by omega), exposedFattr3]
    cases print <;> simp
  · rw [fattr3_stop h (by omega) (by omega)]
    refine iff_of_true (inside_pure _) fun hm => ?_
    have := exposedFattr3_ge hm
    omega

def exposedAttr (w : Nat → UInt32) (i : Nat) (print : Bool) : List Nat :=
  i :: if w i = 0 then [] else exposedFattr3 (i + 1) print

theorem exposedAttr_ge {w : Nat → UInt32} {k : Nat} (hk : k ∈ exposedAttr w i print) : i ≤ k := by
  rcases List.mem_cons.mp hk with rfl | hk
  · exact Nat.le_refl _
  · by_cases hw : w i = 0
    · rw [if_pos hw] at hk
      cases hk
    · rw [if_neg hw] at hk
      have := exposedFattr3_ge hk
      omega

theorem inside_post_op_attr3 (h : Mapped p n) (hi : i ≤ n + 800) :
    Inside p n (print_post_op_attr3 (cur p i) (cur p n) print) ↔ n ∉ exposedAttr (wordAt p) i print := by
  by_cases hn : i ≤ n
  · rw [post_op_attr3_pass h hn, inside_bind (a := wordAt p i) rfl, inside_read h (by omega), exposedAttr]
    by_cases hw : wordAt p i = 0
    · simp only [hw, ne_eq, not_true, if_false, if_true, Trace.only_pure, and_true, List.mem_singleton]
      omega
    · rw [if_pos hw, if_neg hw, inside_fattr3 h (by omega), List.mem_cons, not_or]
      constructor
      · rintro ⟨hlt, hm⟩; exact ⟨by omega, hm⟩
      · rintro ⟨hne, hm⟩; exact ⟨by omega, hm⟩
  · rw [post_op_attr3_stop h (by omega) (by omega)]
    refine iff_of_true (inside_pure _) fun hm => ?_
    have := exposedAttr_ge hm
    omega

/-- Every word up to the second flag: the first flag's own test is off, and behind it there
    is none that keeps the second flag from being read. -/
def exposedWcc (w : Nat → UInt32) (i : Nat) : List Nat :=
  List.range' i (wccAfter w i - i + 1) ++ if w (wccAfter w i) = 0 then [] else exposedFattr3 (wccAfter w i + 1) true

theorem inside_wcc_data3 (h : Mapped p n) (hi : i ≤ n) :
    Inside p n (print_wcc_data3 (cur p i) (cur p n) true) ↔ n ∉ exposedWcc (wordAt p) i := by
  have hj : i < wccAfter (wordAt p) i ∧ wccAfter (wordAt p) i ≤ i + 7 := by unfold wccAfter; split <;> omega
  have hrange : n ∈ List.range' i (wccAfter (wordAt p) i - i + 1) ↔ n ≤ wccAfter (wordAt p) i := by
    rw [List.mem_range'_1]; omega
  rw [wcc_data3_pass h hi, inside_bind (a := wordAt p i) rfl, inside_read h (by omega), exposedWcc,
    List.mem_append, hrange]
  have hbefore : (printBefore (wordAt p i) (cur p (i + 1)) (cur p n) true).val = _ := before_val h hi
  by_cases hcut : n ≤ wccAfter (wordAt p) i
  · -- the second flag is beyond the end, or read through NULL
    refine iff_of_false (fun ⟨hlt, hx⟩ => ?_) (not_not.mpr (Or.inl hcut))
    by_cases hb : wordAt p i = 0 ∨ i + 7 ≤ n
    · rw [if_pos hb] at hbefore
      have hd : Inside p n (deref (cur p (wccAfter (wordAt p) i)) 0) := (Trace.only_bind.mp ((inside_bind hbefore).mp hx).2).1
      rw [deref_cur_zero h (by omega), inside_read h (by omega)] at hd
      omega
    · rw [if_neg hb] at hbefore
      exact not_inside_null _ ((inside_bind hbefore).mp hx).2
  · have hb : wordAt p i = 0 ∨ i + 7 ≤ n := by
      by_cases hw : wordAt p i = 0
      · exact Or.inl hw
      · rw [wccAfter, if_neg hw] at hcut; right; omega
    have hpre : Inside p n (printBefore (wordAt p i) (cur p (i + 1)) (cur p n) true) := by
      by_cases hw : wordAt p i = 0
      · simp [printBefore, hw]
      · have h7 := hb.resolve_left hw
        rw [printBefore, if_pos hw, print_pre_op_attr3, if_neg (guards_pass h (by omega)).1,
          if_neg (guards_pass h (by omega)).2, inside_fields h _ (by omega)]
        intro _ hm
        simp [exposedFields, preOpAttr3Fields, Scalar.slack, Scalar.size] at hm
        omega
    rw [if_pos hb] at hbefore
    rw [inside_bind hbefore, and_iff_right hpre, deref_cur_zero h (by omega),
      inside_bind (a := wordAt p (wccAfter (wordAt p) i)) rfl, inside_read h (by omega), cur_skip_one]
    by_cases hw : wordAt p (wccAfter (wordAt p) i) = 0
    · rw [if_neg (not_not.mpr hw), if_pos hw, and_iff_left (inside_pure _)]
      simp only [List.not_mem_nil, or_false]
      omega
    · rw [if_pos hw, if_neg hw, inside_fattr3 h (by omega)]
      constructor
      · rintro ⟨_, _, hm⟩ hor; exact hor.elim hcut hm
      · intro hm; exact ⟨by omega, by omega, fun hx => hm (Or.inr hx)⟩

/-! ## Handles -/

theorem inside_printWords (h : Mapped p n) {k : Nat} (hi : i + k ≤ n) :
    Inside p n (printWords (cur p i) k 0) := by
  rw [printWords_events _ (cur_ne_null h (by omega))]
  intro a ha
  obtain ⟨j, hj, ha⟩ := List.mem_flatMap.mp ha
  have hjk := List.mem_range.mp hj
  rcases List.mem_cons.mp ha with rfl | ha
  · rw [UInt32.zero_add, cur_addr_add]
    exact (inBounds_cur h (by omega)).mpr (by omega)
  · obtain rfl := List.mem_singleton.mp ha
    trivial

/-- Words printed past the end are read there. -/
theorem not_inside_printWords (h : Mapped p n) {k : Nat} (hi : i ≤ n) (hk : n < i + k) :
    ¬ Inside p n (printWords (cur p i) k 0) := by
  rw [printWords_events _ (cur_ne_null h (by omega))]
  intro hx
  have hend := hx (.word (cur p n).addr) (List.mem_flatMap.mpr ⟨n - i, List.mem_range.mpr (by omega), ?_⟩)
  · rw [inBounds_cur h (by omega)] at hend
    omega
  · rw [UInt32.zero_add, cur_addr_add, show i + (n - i) = n by omega]
    exact List.mem_cons_self

/-- Where the end of a handle wraps, the cursor behind it passes for one in the payload. -/
theorem wraps_lt (h : Mapped p n) (hi : i + 2 ≤ n) (hw : HandleWraps p i) :
    ¬ cur p n < (cur p (i + 1)).skip (UInt32.ofNat (opaqueWords (wordAt p i))) ∧ n < i + 1 + opaqueWords (wordAt p i) := by
  have hle := opaqueWords_lt (wordAt p i)
  have htop := h.top
  unfold HandleWraps at hw
  rw [Ptr.lt_def, UInt32.lt_iff_toNat_lt, cur_addr h (by omega), Ptr.skip_addr, UInt32.toNat_add, UInt32.toNat_mul,
    toNat_ofNat_lt (by omega), cur_addr h (by omega), show (4 : UInt32).toNat = 4 from rfl]
  omega

theorem inside_fh3 (h : Mapped p n) (hi : i ≤ n + 900) :
    Inside p n (print_fh3 (cur p i) (cur p n) true) ↔ (i + 2 ≤ n → ¬ HandleWraps p i) := by
  by_cases hn : i + 2 ≤ n
  · have hle := opaqueWords_lt (wordAt p i)
    rw [fh3_pass h hn, inside_bind (a := wordAt p i) rfl, and_iff_right ((inside_read h (by omega) _).mpr (by omega)),
      toNat_ofNat_lt (by omega)]
    have hwords := printWords_val h (show i + 1 ≤ n + 1000 by omega) (opaqueWords (wordAt p i))
    by_cases hw : HandleWraps p i
    · obtain ⟨hlt, hpast⟩ := wraps_lt h hn hw
      rw [if_neg hlt, Trace.when_true]
      refine iff_of_false (fun hx => ?_) (fun hx => hx hn hw)
      have hwhen := (Trace.only_bind.mp hx).1
      exact not_inside_printWords h (show i + 1 ≤ n by omega) hpast (Trace.only_bind.mp hwhen).1
    · refine iff_of_true ?_ fun _ => hw
      by_cases hend : n < i + handleSize (wordAt p) i
      · rw [if_pos ((opaque_end h (by omega) hw).mpr hend)]
        exact inside_pure _
      · rw [if_neg (mt (opaque_end h (by omega) hw).mp hend), Trace.when_true]
        have hin : Inside p n (printWords (cur p (i + 1)) (opaqueWords (wordAt p i)) 0) :=
          inside_printWords h (by rw [handleSize] at hend; omega)
        rw [inside_bind (a := ()) (by rw [Trace.val_bind _ hwords]; rfl), and_iff_left (inside_pure _), inside_bind hwords]
        exact ⟨hin, by simp⟩
  · rw [fh3_stop h (by omega) hi]
    exact iff_of_true (inside_pure _) fun hx => absurd hx hn

theorem inside_post_op_fh3 (h : Mapped p n) (hi : i ≤ n) :
    Inside p n (print_post_op_fh3 (cur p i) (cur p n) true) ↔
      i ≠ n ∧ (wordAt p i ≠ 0 → i + 3 ≤ n → ¬ HandleWraps p (i + 1)) := by
  rw [post_op_fh3_pass h hi, inside_bind (a := wordAt p i) rfl, inside_read h (by omega)]
  have hne : i < n ↔ i ≠ n := by omega
  by_cases hw : wordAt p i = 0
  · rw [if_neg (not_not.mpr hw), and_iff_left (inside_pure _), hne]
    simp [hw]
  · rw [if_pos hw, inside_fh3 h (by omega), hne]
    simp only [ne_eq, hw, not_false_eq_true, true_implies]

/-! ## Names and single words -/

theorem inside_uint32_val (h : Mapped p n) (hi : i ≤ n + 900) (val : Option UInt32) :
    Inside p n (print_uint32_val (cur p i) (cur p n) true val) ↔ i ≠ n := by
  by_cases hn : i ≤ n
  · have hread : (∀ a ∈ reads p i 1, InBounds p n a) ↔ i < n := by
      simp only [reads_one, List.mem_singleton, forall_eq]
      exact inBounds_cur h (by omega)
    have hput : ∀ a ∈ (Scalar.uint32.pieces (wordAt p) i).map Act.put, InBounds p n a := by
      intro a ha
      obtain ⟨c, _, rfl⟩ := List.mem_map.mp ha
      trivial
    rw [uint32_val_pass h hn, if_pos rfl]
    show (∀ a ∈ (reads p i 1 ++ _) ++ _, InBounds p n a) ↔ _
    rw [List.forall_mem_append, List.forall_mem_append, hread, and_iff_left hput]
    constructor
    · rintro ⟨hlt, _⟩; omega
    · intro hne
      refine ⟨by omega, ?_⟩
      by_cases hv : val.isSome = true
      · rw [if_pos hv]; exact hread.mpr (by omega)
      · rw [if_neg hv]; simp
  · rw [uint32_val_stop h (by omega) (by omega)]
    exact iff_of_true (inside_pure _) (by omega)

theorem inside_uint32 (h : Mapped p n) (hi : i ≤ n + 900) :
    Inside p n (print_uint32 (cur p i) (cur p n) true) ↔ i ≠ n := by
  rw [print_uint32, bind_pure_comp]
  exact Trace.only_map.trans (inside_uint32_val h hi none)

theorem inside_fn3 (h : Mapped p n) (hi : i ≤ n + 900) : Inside p n (print_fn3 o (cur p i) (cur p n) print) := by
  by_cases hn : i + 1 ≤ n
  · have hlt : ¬ cur p n < cur p (i + 1) := by rw [cur_lt h (by omega) (by omega)]; omega
    rw [print_fn3, cur_skip_one, if_neg (by rintro (h0 | h0); exacts [cur_ne_null h (by omega) h0, hlt h0]),
      deref_cur_zero h (by omega), inside_bind (a := wordAt p i) rfl, inside_read h (by omega)]
    refine ⟨by omega, ?_⟩
    have hstring := (textual_print_string (o := o) (cur p (i + 1)) (wordAt p i)).inside p n
    simp only [Trace.only_ite, Trace.only_bind, Trace.only_when, Trace.only_pure, only_fprintf, hstring, inBounds_put,
      implies_true, and_self]
  · rw [fn3_stop h (by omega) hi]
    exact inside_pure _

theorem inside_stable3 (h : Mapped p n) (hi : i ≤ n + 900) : Inside p n (print_stable3 (cur p i) (cur p n) print) := by
  by_cases hn : i < n
  · rw [stable3_pass h hn]
    cases print
    · simp [Trace.Only]
    · simp [Trace.Only, reads_one, inBounds_cur h (show i ≤ n + 1000 by omega), hn]
  · rw [stable3_stop h (by omega) (by omega)]
    exact inside_pure _

/-! ## Replies -/

/-- The words of a reply that are read when the payload ends in front of them. In front of
    the attributes that follow a handle there are at least the words its own test asks for. -/
def exposed (w : Nat → UInt32) (status : UInt32) : Proc3 → List Nat
  | .getattr => if status = NFS3_OK then exposedFattr3 0 true else []
  | .setattr => if status = NFS3_OK then exposedWcc w 0 else []
  | .lookup =>
    if status = NFS3_OK then
      (exposedAttr w (handleSize w 0) true ++
        exposedAttr w (handleSize w 0 + attrSize w (handleSize w 0)) false).filter (2 ≤ ·)
    else []
  | .access => exposedAttr w 0 false ++ if status = NFS3_OK then [attrSize w 0] else []
  | .readlink => exposedAttr w 0 false
  | .read => exposedAttr w 0 true ++ if status = NFS3_OK then [attrSize w 0, attrSize w 0 + 1] else []
  | .write => exposedWcc w 0 ++ if status = NFS3_OK then [wccSize w 0] else []
  | .create | .mkdir | .symlink | .mknod =>
    if status = NFS3_OK then
      0 :: (exposedAttr w (optHandleSize w 0) true).filter (w 0 = 0 ∨ 3 ≤ ·)
    else []
  | .remove | .rmdir | .commit => exposedWcc w 0
  | .readdir | .readdirp => exposedAttr w 0 true
  | .null | .rename | .link | .fsstat | .fsinfo | .pathconf | .mnt => []

/-- A handle is decoded whose end lies beyond the address space. -/
def WrapsHandle (p : Ptr) (n : Nat) (status : UInt32) : Proc3 → Prop
  | .lookup | .mnt => status = NFS3_OK ∧ 2 ≤ n ∧ HandleWraps p 0
  | .create | .mkdir | .symlink | .mknod => status = NFS3_OK ∧ wordAt p 0 ≠ 0 ∧ 3 ≤ n ∧ HandleWraps p 1
  | _ => False

/-- The payload does not end in front of an exposed word, and no handle wraps. -/
def Sheltered (p : Ptr) (n : Nat) (status : UInt32) : Option Proc3 → Prop
  | some q => n ∉ exposed (wordAt p) status q ∧ ¬ WrapsHandle p n status q
  | none => True

section Replies

variable {status count actual_len : UInt32}

theorem inside_post_op_attr3_null (e : Ptr) : Inside p n (print_post_op_attr3 .null e print) := by
  rw [post_op_attr3_null]; exact inside_pure _

/-- Attributes behind a decoder that leaves NULL when the payload ends in front of them. -/
theorem inside_attr_if (h : Mapped p n) {c : Prop} [Decidable c] (hi : c → i ≤ n + 800) (hc : i ≤ n → c) :
    Inside p n (print_post_op_attr3 (if c then cur p i else .null) (cur p n) print) ↔
      n ∉ exposedAttr (wordAt p) i print := by
  by_cases h' : c
  · rw [if_pos h', inside_post_op_attr3 h (hi h')]
  · rw [if_neg h']
    exact iff_of_true (inside_post_op_attr3_null _) fun hx => h' (hc (exposedAttr_ge hx))

/-- Attributes that stay inside do not end in front of their flag. -/
theorem post_op_attr3_val' (h : Mapped p n) (hi : i ≤ n) (hx : n ∉ exposedAttr (wordAt p) i print) :
    (print_post_op_attr3 (cur p i) (cur p n) print).val =
      some (if i + attrSize (wordAt p) i ≤ n then cur p (i + attrSize (wordAt p) i) else .null) := by
  have hne : i ≠ n := fun he => hx (he ▸ List.mem_cons_self)
  rw [post_op_attr3_val h (by omega)]
  simp only [hne, false_and, or_false]

/-- The attributes of the object and the directory, behind the handle. -/
theorem inside_lookup (h : Mapped p n) :
    Inside p n (do
      let new_p ← print_fh3 (cur p 0) (cur p n) true
      let new_p ← print_post_op_attr3 new_p (cur p n) true
      print_post_op_attr3 new_p (cur p n) false) ↔
      n ∉ exposed (wordAt p) NFS3_OK .lookup ∧ ¬ WrapsHandle p n NFS3_OK .lookup := by
  simp only [exposed, WrapsHandle, if_true, true_and, List.mem_filter, List.mem_append, decide_eq_true_eq]
  by_cases hw : 2 ≤ n ∧ HandleWraps p 0
  · refine iff_of_false (fun hx => ?_) fun hx => hx.2 hw
    have hfh := (Trace.only_bind.mp hx).1
    exact (inside_fh3 h (Nat.zero_le _)).mp hfh hw.1 hw.2
  · have hnw : 0 + 2 ≤ n → ¬ HandleWraps p 0 := fun hn hh => hw ⟨by omega, hh⟩
    rw [inside_bind (fh3_val h (Nat.zero_le _) hnw), and_iff_right ((inside_fh3 h (Nat.zero_le _)).mpr hnw),
      and_iff_left hw]
    simp only [Nat.zero_add]
    generalize handleSize (wordAt p) 0 = k
    by_cases hin : 2 ≤ n ∧ k ≤ n
    · rw [if_pos hin]
      by_cases hx : n ∈ exposedAttr (wordAt p) k true
      · refine iff_of_false (fun hx' => ?_) fun hx' => hx' ⟨Or.inl hx, hin.1⟩
        exact (inside_post_op_attr3 h (by omega)).mp (Trace.only_bind.mp hx').1 hx
      · rw [inside_bind (post_op_attr3_val' h hin.2 hx), inside_post_op_attr3 h (by omega), and_iff_right hx,
          inside_attr_if h (fun hc => by omega) id]
        simp only [hx, false_or, hin.1, and_true]
    · rw [if_neg hin, post_op_attr3_null, pure_bind]
      refine iff_of_true (inside_post_op_attr3_null _) ?_
      rintro ⟨hx | hx, h2⟩
      · exact hin ⟨h2, exposedAttr_ge hx⟩
      · exact hin ⟨h2, le_trans (Nat.le_add_right _ _) (exposedAttr_ge hx)⟩

theorem inside_created (h : Mapped p n) :
    Inside p n (printCreated NFS3_OK (cur p 0) (cur p n)) ↔
      n ∉ exposed (wordAt p) NFS3_OK .create ∧ ¬ WrapsHandle p n NFS3_OK .create := by
  rw [printCreated, if_pos rfl, inside_fprintf_bind]
  simp only [exposed, WrapsHandle, if_true, true_and, List.mem_cons, List.mem_filter, decide_eq_true_eq, not_or]
  by_cases hin : Inside p n (print_post_op_fh3 (cur p 0) (cur p n) true)
  · have hfh := (inside_post_op_fh3 h (Nat.zero_le n)).mp hin
    have hw : ¬ (wordAt p 0 ≠ 0 ∧ 3 ≤ n ∧ HandleWraps p 1) := fun hh => hfh.2 hh.1 (by omega) hh.2.2
    have hval : (print_post_op_fh3 (cur p 0) (cur p n) true).val = _ := post_op_fh3_val h (Nat.zero_le n) hfh.2
    rw [inside_bind hval, and_iff_right hin, and_iff_left hw, and_iff_right (Ne.symm hfh.1)]
    simp only [Nat.zero_add]
    by_cases h3 : wordAt p 0 = 0 ∨ 3 ≤ n
    · have hsmall : wordAt p 0 = 0 → optHandleSize (wordAt p) 0 = 1 := fun h0 => if_pos h0
      rw [inside_attr_if h (fun hc => by rcases hc with hc | hc; exacts [by rw [hsmall hc]; omega, by omega])
        (fun hle => h3.imp id fun h3 => ⟨h3, hle⟩)]
      simp only [h3, and_true]
    · rw [if_neg (fun hc => h3 (hc.imp id And.left))]
      exact iff_of_true (inside_post_op_attr3_null _) fun hx => h3 hx.2
  · refine iff_of_false (fun hx => hin (Trace.only_bind.mp hx).1) fun hx => hin ?_
    exact (inside_post_op_fh3 h (Nat.zero_le n)).mpr ⟨Ne.symm hx.1.1, fun h0 h3 hw => hx.2 ⟨h0, by omega, hw⟩⟩

/-- What follows attributes runs at the cursor behind them, or at NULL. -/
theorem inside_behind_attr (h : Mapped p n) {f : Ptr → Dec Ptr} {P : Prop} (hnull : Inside p n (f .null))
    (hf : i + attrSize (wordAt p) i ≤ n → (Inside p n (f (cur p (i + attrSize (wordAt p) i))) ↔ P))
    (hP : ¬ P → i + attrSize (wordAt p) i ≤ n) (hi : i ≤ n) :
    Inside p n (print_post_op_attr3 (cur p i) (cur p n) print >>= f) ↔ n ∉ exposedAttr (wordAt p) i print ∧ P := by
  by_cases hx : n ∈ exposedAttr (wordAt p) i print
  · refine iff_of_false (fun hx' => ?_) fun hx' => hx'.1 hx
    exact (inside_post_op_attr3 h (by omega)).mp (Trace.only_bind.mp hx').1 hx
  · rw [inside_bind (post_op_attr3_val' h hi hx), inside_post_op_attr3 h (by omega)]
    by_cases hend : i + attrSize (wordAt p) i ≤ n
    · rw [if_pos hend, hf hend]
    · rw [if_neg hend]
      have hp : P := by_contra fun hp => hend (hP hp)
      exact and_congr_right fun _ => iff_of_true hnull hp

theorem inside_acc (h : Mapped p n) :
    Inside p n (print_post_op_attr3 (cur p 0) (cur p n) false >>= fun new_p =>
      fprintf [.lit "acc "] >>= fun _ => print_uint32 new_p (cur p n) true) ↔
      n ∉ exposedAttr (wordAt p) 0 false ∧ n ≠ attrSize (wordAt p) 0 := by
  refine inside_behind_attr h ?_ (fun hend => ?_) (fun hP => ?_) (Nat.zero_le n)
  · rw [inside_fprintf_bind, print_uint32, uint32_val_null]
    exact inside_pure _
  · rw [inside_fprintf_bind, inside_uint32 h (by omega), Nat.zero_add, ne_comm]
  · rw [Nat.zero_add, not_not.mp hP]

theorem inside_path (h : Mapped p n) :
    Inside p n (print_post_op_attr3 (cur p 0) (cur p n) false >>= fun new_p =>
      fprintf [.lit "name "] >>= fun _ => print_fn3 o new_p (cur p n) true) ↔
      n ∉ exposedAttr (wordAt p) 0 false := by
  rw [← and_true (n ∉ exposedAttr (wordAt p) 0 false)]
  refine inside_behind_attr h ?_ (fun hend => ?_) (fun hP => absurd trivial hP) (Nat.zero_le n)
  · rw [inside_fprintf_bind, fn3_null]
    exact inside_pure _
  · rw [inside_fprintf_bind]
    exact iff_of_true (inside_fn3 h (by omega)) trivial

theorem inside_readOk (h : Mapped p n) (hi : i ≤ n) (count : UInt32) :
    Inside p n (printReadOk (cur p i) (cur p n) count) ↔ n ≠ i ∧ n ≠ i + 1 := by
  rw [printReadOk, inside_fprintf_bind]
  have hval : (print_uint32_val (cur p i) (cur p n) true (some count)).val = some (cur p (i + 1), some (wordAt p i)) := by
    rw [uint32_val_pass h hi]; rfl
  rw [inside_bind hval, inside_uint32_val h (by omega)]
  simp only [inside_bind (a := ()) (x := volume3 .reply _) rfl, inside_fprintf_bind, inside_uint32 h (show i + 1 ≤ n + 900 by omega)]
  simp [volume3, ne_comm]

theorem inside_readOk_null (e : Ptr) (count : UInt32) : Inside p n (printReadOk .null e count) := by
  rw [printReadOk, inside_fprintf_bind, uint32_val_null, pure_bind]
  simp only [print_uint32, uint32_val_null, pure_bind]
  simp [volume3]

theorem inside_read_reply (h : Mapped p n) (count : UInt32) :
    Inside p n (print_post_op_attr3 (cur p 0) (cur p n) true >>= fun new_p => printReadOk new_p (cur p n) count) ↔
      n ∉ exposedAttr (wordAt p) 0 true ∧ n ≠ attrSize (wordAt p) 0 ∧ n ≠ attrSize (wordAt p) 0 + 1 := by
  refine inside_behind_attr h (inside_readOk_null _ _) (fun hend => ?_) (fun hP => ?_) (Nat.zero_le n)
  · rw [inside_readOk h hend, Nat.zero_add]
  · rw [not_and_or, not_not, not_not] at hP
    omega

/-- Data that stays inside reaches its second flag. -/
theorem wcc_data3_val' (h : Mapped p n) (hi : i ≤ n) (hx : n ∉ exposedWcc (wordAt p) i) :
    (print_wcc_data3 (cur p i) (cur p n) print).val =
      some (if i + wccSize (wordAt p) i ≤ n then cur p (i + wccSize (wordAt p) i) else .null) := by
  have hj : i < wccAfter (wordAt p) i := by unfold wccAfter; split <;> omega
  have hlt : wccAfter (wordAt p) i < n := by
    by_contra hcut
    exact hx (List.mem_append_left _ (List.mem_range'_1.mpr (by omega)))
  have hb : wordAt p i = 0 ∨ i + 7 ≤ n := by
    by_cases hw : wordAt p i = 0
    · exact Or.inl hw
    · rw [wccAfter, if_neg hw] at hlt; right; omega
  have hsum : i + wccSize (wordAt p) i = wccAfter (wordAt p) i + attrSize (wordAt p) (wccAfter (wordAt p) i) := by
    rw [wccSize]; omega
  have hend : (wordAt p (wccAfter (wordAt p) i) = 0 ∨ wccAfter (wordAt p) i + 22 ≤ n) ↔ i + wccSize (wordAt p) i ≤ n := by
    rw [hsum, attrSize]
    by_cases hw : wordAt p (wccAfter (wordAt p) i) = 0
    · simp only [hw, true_or, if_true, true_iff]; omega
    · simp only [hw, false_or, if_false]
  rw [wcc_data3_val h hi, if_pos hb]
  simp only [hend]

theorem inside_write_reply (h : Mapped p n) :
    Inside p n (print_wcc_data3 (cur p 0) (cur p n) true >>= fun new_p =>
      fprintf [.lit "count "] >>= fun _ => print_uint32 new_p (cur p n) true >>= fun new_p =>
        fprintf [.lit "stable "] >>= fun _ => print_stable3 new_p (cur p n) true) ↔
      n ∉ exposedWcc (wordAt p) 0 ∧ n ≠ wccSize (wordAt p) 0 := by
  by_cases hx : n ∈ exposedWcc (wordAt p) 0
  · refine iff_of_false (fun hx' => ?_) fun hx' => hx'.1 hx
    exact (inside_wcc_data3 h (Nat.zero_le n)).mp (Trace.only_bind.mp hx').1 hx
  · rw [inside_bind (wcc_data3_val' h (Nat.zero_le n) hx), inside_wcc_data3 h (Nat.zero_le n)]
    refine and_congr_right fun _ => ?_
    simp only [Nat.zero_add, inside_fprintf_bind]
    generalize wccSize (wordAt p) 0 = k
    by_cases hk : k ≤ n
    · rw [if_pos hk]
      have hval : (print_uint32 (cur p k) (cur p n) true).val = some (cur p (k + 1)) := by
        rw [print_uint32, uint32_val_pass h hk]; rfl
      rw [inside_bind hval, inside_uint32 h (by omega), inside_fprintf_bind, and_iff_left (inside_stable3 h (by omega)),
        ne_comm]
    · rw [if_neg hk, print_uint32, uint32_val_null]
      refine iff_of_true ?_ (by omega)
      rw [pure_bind, pure_bind, inside_fprintf_bind, stable3_null]
      exact inside_pure _

/-! ### The dispatcher -/

theorem inside_printResult (h : Mapped p n) (q : Proc3) :
    Inside p n (printResult o b lib (cur p 0) (cur p n) actual_len status count q) ↔
      n ∉ exposed (wordAt p) status q ∧ ¬ WrapsHandle p n status q := by
  have skip : ∀ {P : Prop}, P → (Inside p n (pure (cur p 0) : Dec Ptr) ↔ P) := fun hP => iff_of_true (inside_pure _) hP
  have wcc : Inside p n (print_wcc_data3 (cur p 0) (cur p n) true) ↔ n ∉ exposedWcc (wordAt p) 0 ∧ ¬ False := by
    rw [inside_wcc_data3 h (Nat.zero_le n), not_false_eq_true, and_true]
  have attr : Inside p n (print_post_op_attr3 (cur p 0) (cur p n) true) ↔ n ∉ exposedAttr (wordAt p) 0 true ∧ ¬ False := by
    rw [inside_post_op_attr3 h (Nat.zero_le _), not_false_eq_true, and_true]
  have listing : ∀ {c : Prop} [Decidable c] {f : Dec Unit}, Inside p n f →
      (Inside p n (if c then print_post_op_attr3 (cur p 0) (cur p n) true >>= fun new_p => f >>= fun _ => pure new_p
        else print_post_op_attr3 (cur p 0) (cur p n) true) ↔ n ∉ exposedAttr (wordAt p) 0 true ∧ ¬ False) := by
    intro c _ f hf
    by_cases hc : c
    · rw [if_pos hc, ← attr]
      exact ⟨fun hx => (Trace.only_bind.mp hx).1, fun hx => Trace.only_bind.mpr ⟨hx, fun _ _ =>
        Trace.only_bind.mpr ⟨hf, fun _ _ => inside_pure _⟩⟩⟩
    · rw [if_neg hc, attr]
  by_cases hs : status = NFS3_OK
  · have created : Inside p n (printCreated status (cur p 0) (cur p n)) ↔
        n ∉ exposed (wordAt p) status .create ∧ ¬ WrapsHandle p n status .create := by subst hs; exact inside_created h
    cases q with
    | null | rename | link | fsstat | fsinfo | pathconf => exact skip ⟨List.not_mem_nil, id⟩
    | getattr =>
      simp only [printResult, exposed, WrapsHandle, if_pos hs, inside_fattr3 h (Nat.zero_le _), not_false_eq_true, and_true]
    | setattr => simpa only [printResult, exposed, WrapsHandle, if_pos hs] using wcc
    | lookup =>
      subst hs
      rw [printResult, if_pos rfl, inside_fprintf_bind]
      exact inside_lookup h
    | access =>
      simp only [printResult, exposed, WrapsHandle, if_pos hs, inside_acc h, List.mem_append, List.mem_singleton, not_or,
        not_false_eq_true, and_true]
    | readlink =>
      simp only [printResult, exposed, WrapsHandle, if_pos hs, inside_path h, not_false_eq_true, and_true]
    | read =>
      simp only [printResult, exposed, WrapsHandle, if_pos hs, inside_read_reply h, List.mem_append, List.mem_cons,
        List.not_mem_nil, or_false, not_or, not_false_eq_true, and_true]
    | write =>
      simp only [printResult, exposed, WrapsHandle, if_pos hs, inside_write_reply h, List.mem_append, List.mem_singleton,
        not_or, not_false_eq_true, and_true]
    | create | mkdir | symlink | mknod => exact created
    | remove | rmdir | commit => exact wcc
    | readdir => exact listing ((textual_printListing _ textual_printEntries).inside p n)
    | readdirp => exact listing ((textual_printListing _ textual_printEntriesplus).inside p n)
    | mnt =>
      subst hs
      rw [printResult, if_pos rfl, inside_fprintf_bind, inside_fh3 h (Nat.zero_le _)]
      simp only [exposed, WrapsHandle, List.not_mem_nil, not_false_eq_true, true_and, not_and, Nat.zero_add]
  · cases q with
    | null | rename | link | fsstat | fsinfo | pathconf => exact skip ⟨List.not_mem_nil, id⟩
    | getattr | setattr =>
      simp only [printResult, exposed, if_neg hs]
      exact skip ⟨List.not_mem_nil, id⟩
    | lookup | create | mkdir | symlink | mknod | mnt =>
      simp only [printResult, printCreated, exposed, WrapsHandle, if_neg hs]
      exact skip ⟨List.not_mem_nil, fun hw => hs hw.1⟩
    | access | readlink =>
      simp only [printResult, exposed, WrapsHandle, if_neg hs, List.append_nil, bind_pure,
        inside_post_op_attr3 h (Nat.zero_le _), not_false_eq_true, and_true]
    | read =>
      simp only [printResult, exposed, WrapsHandle, if_neg hs, List.append_nil, bind_pure]
      exact attr
    | write =>
      simp only [printResult, exposed, WrapsHandle, if_neg hs, List.append_nil, bind_pure]
      exact wcc
    | remove | rmdir | commit => exact wcc
    | readdir => exact listing ((textual_printListing _ textual_printEntries).inside p n)
    | readdirp => exact listing ((textual_printListing _ textual_printEntriesplus).inside p n)

theorem inside_bump3 (dir : Direction) (t : Tally Proc3) : Inside p n (bump3 dir t) := by simp [bump3]

theorem inside_printReply (h : Mapped p n) (q : Option Proc3) :
    Inside p n (printReply o b lib p (cur p n) actual_len status count q) ↔ Sheltered p n status q := by
  cases q with
  | none => simp [printReply, Sheltered]
  | some q =>
    have hq : Inside p n (printResult o b lib p (cur p n) actual_len status count q) ↔ Sheltered p n status (some q) := by
      have hq' : Inside p n (printResult o b lib (cur p 0) (cur p n) actual_len status count q) ↔ _ := inside_printResult h q
      rwa [cur_zero] at hq'
    have hstatus : Inside p n (Trace.when (q ≠ .null) (printStatus status)) := by
      rw [Inside, Trace.only_when]
      exact fun _ => (textual_printStatus status).inside p n
    have hval : (Trace.when (q ≠ .null) (printStatus status)).val = some () := by
      by_cases hn : q = .null
      · rw [decide_eq_false (not_not.mpr hn)]; rfl
      · rw [decide_eq_true hn]; rfl
    rw [printReply, inside_bind (a := ()) rfl, and_iff_right (inside_bump3 _ _), inside_fprintf_bind, inside_bind hval,
      and_iff_right hstatus, hq]

/-- A reply is decoded inside its payload iff the payload does not end in front of an exposed
    word and no handle's end wraps. -/
theorem resp_inside_iff (o : Opts) (b : Args) (lib : XdrLib) (op xid : UInt32) (p : Ptr)
    (actual_len status count : UInt32) (h : Mapped p (actual_len.toNat / 4)) :
    Inside p (actual_len.toNat / 4) (nfs_v3_print_resp o b lib op xid p actual_len status count) ↔
      Sheltered p (actual_len.toNat / 4) status (Proc3.ofNumber op) := by
  have hrest : ∀ new_p : Ptr, Inside p (actual_len.toNat / 4)
      (if new_p.addr = 0 then fprintf [.lit "SHORT PACKET"] >>= fun _ => pure (-1) else pure 0 : Dec Int32) := by
    intro new_p
    by_cases h0 : new_p.addr = 0 <;> simp [h0]
  have hbody : Inside p (actual_len.toNat / 4)
      (printReply o b lib p (cur p (actual_len.toNat / 4)) actual_len status count (Proc3.ofNumber op)) ↔ _ :=
    inside_printReply h (Proc3.ofNumber op)
  rw [← hbody, nfs_v3_print_resp, cur_end, inside_fprintf_bind, inside_bind (a := ()) rfl, and_iff_right (inside_bump3 _ _)]
  constructor
  · intro hx
    exact (Trace.only_bind.mp hx).1
  · intro hx
    exact Trace.only_bind.mpr ⟨hx, fun new_p _ => hrest new_p⟩

/-- An ACCESS reply cut in front of its rights: they are read all the same. A REMOVE reply
    cut behind its first flag: the second one is read through NULL. -/
theorem cut_replies_read_on :
    ¬ Inside ⟨0x8050000, fun _ => 0⟩ 1
      (nfs_v3_print_resp ⟨true, false, false, fun _ => []⟩ ⟨0x8049000, by decide⟩ XdrLib.short 4 7
        ⟨0x8050000, fun _ => 0⟩ 4 NFS3_OK 0) ∧
    ¬ Inside ⟨0x8050000, fun _ => 1⟩ 1
      (nfs_v3_print_resp ⟨true, false, false, fun _ => []⟩ ⟨0x8049000, by decide⟩ XdrLib.short 12 7
        ⟨0x8050000, fun _ => 1⟩ 4 NFS3_OK 0) := by
  constructor
  · intro h
    have hread := h (.word 0x8050004) (by decide)
    exact absurd hread (show ¬ (_ ∧ _) by decide)
  · intro h
    have hread := h (.word 0) (by decide)
    exact hread.1 rfl

/-- An ACCESS reply with its rights. -/
theorem whole_access_inside :
    Mapped ⟨0x8050000, fun _ => 0⟩ 2 ∧
      Inside ⟨0x8050000, fun _ => 0⟩ 2
        (nfs_v3_print_resp ⟨true, false, false, fun _ => []⟩ ⟨0x8049000, by decide⟩ XdrLib.short 4 7
          ⟨0x8050000, fun _ => 0⟩ 8 NFS3_OK 0) := by
  have h : Mapped ⟨0x8050000, fun _ => 0⟩ 2 := ⟨by decide, by decide⟩
  refine ⟨h, (resp_inside_iff _ _ _ 4 7 _ 8 NFS3_OK 0 h).mpr ?_⟩
  exact ⟨by decide, id⟩

end Replies

end Nfsdump.Decode
