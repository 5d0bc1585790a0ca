/-
  Nfsdump.Wire.Reads — which words of a message `getRpcHeader` and `get_auth` read
  (nfsrecord.c).

  Two of the reads stand behind a test against the end of the message; the words in front of
  the first one, the machine name's length and the two ids behind the machine name do not.

  Proved:
  - `getRpcHeader_reads`: nothing else is read;
  - `reads_inside_iff`: all of them lie in the message iff it is long enough for the words
    that are read untested and no pointer came around to pass a test (`Guarded`).
-/

import Nfsdump.Wire.Placement

namespace Nfsdump.Wire

/-! ## The words that are read -/

/-- By `get_auth`, from the message at `bp` with the credential at offset `ui`. -/
def get_auth_reads (bp : Ptr) (ui : UInt32) : List UInt32 :=
  if bp.word ui ≠ AUTH_UNIX then [ui]
  else
    let len := bp.word (ui + 12)
    let len := if len % 4 ≠ 0 then len / 4 + 1 else len / 4
    let pi := ui + (16 + 4 * len)
    [ui, ui + 12, pi, pi + 4]

/-- By `getRpcHeader`, in order. -/
def getRpcHeader_words (bp : Ptr) (maxlen : UInt32) : List UInt32 :=
  let max_ptr := bp.addr + 4 * (maxlen / 4)
  let dir := bp.word 4
  4 :: if dir = CALL then
    let rpc_program := bp.word 12
    [12, 8] ++
      if bp.word 8 ≠ RPC_VERSION ∨ (rpc_program ≠ NFS_PROGRAM ∧ rpc_program ≠ MOUNT_PROGRAM) then []
      else
        let ui : UInt32 := 24
        if bp.addr + (ui + 4) ≥ max_ptr then []
        else
          let cred_len := bp.word (ui + 4)
          let auth_base := ui
          let ui := ui + authBytes cred_len
          (auth_base + 4) ::
            if bp.addr + (ui + 4) ≥ max_ptr then []
            else get_auth_reads bp auth_base ++ if bp.word auth_base ≠ AUTH_UNIX then [] else [ui + 4]
  else if dir = REPLY then
    let ui : UInt32 := 12
    if bp.addr + (ui + 4) ≥ max_ptr then [] else [ui + 4]
  else []

variable {bp q : Ptr} {maxlen : UInt32}

theorem get_auth_same {ui : UInt32} (h : ∀ x ∈ get_auth_reads bp ui, q.word x = bp.word x) (euid egid : Int32) :
    get_auth (q.add ui) euid egid = get_auth (bp.add ui) euid egid ∧ get_auth_reads q ui = get_auth_reads bp ui := by
  unfold get_auth_reads at h ⊢
  unfold get_auth
  simp only [Ptr.word_add, UInt32.add_zero] at h ⊢
  by_cases hflavor : bp.word ui ≠ AUTH_UNIX
  · rw [if_pos hflavor] at h
    have h0 := h ui List.mem_cons_self
    simp only [h0, if_pos hflavor, and_self]
  · rw [if_neg hflavor] at h
    simp only [List.forall_mem_cons] at h
    obtain ⟨h0, h12, hpi, hpi4, -⟩ := h
    simp only [h0, if_neg hflavor, h12, hpi, ← UInt32.add_assoc ui _ 4, hpi4, and_self]

/-- The result depends on nothing else. -/
theorem getRpcHeader_reads (haddr : q.addr = bp.addr) (h : ∀ x ∈ getRpcHeader_words bp maxlen, q.word x = bp.word x) (euid egid : Int32) :
    getRpcHeader q maxlen euid egid = getRpcHeader bp maxlen euid egid ∧ getRpcHeader_words q maxlen = getRpcHeader_words bp maxlen := by
  unfold getRpcHeader_words at h ⊢
  unfold getRpcHeader
  simp only [List.forall_mem_cons] at h
  obtain ⟨hdir, h⟩ := h
  simp only [haddr, hdir]
  by_cases hcall : bp.word 4 = CALL
  · simp only [if_pos hcall] at h ⊢
    simp only [List.cons_append, List.nil_append, List.forall_mem_cons] at h
    obtain ⟨hprog, hvers, h⟩ := h
    simp only [hprog, hvers]
    by_cases hbad : bp.word 8 ≠ RPC_VERSION ∨ (bp.word 12 ≠ NFS_PROGRAM ∧ bp.word 12 ≠ MOUNT_PROGRAM)
    · simp only [if_pos hbad, and_self]
    simp only [if_neg hbad] at h ⊢
    by_cases hcred : bp.addr + (24 + 4) ≥ bp.addr + 4 * (maxlen / 4)
    · simp only [if_pos hcred, and_self]
    simp only [if_neg hcred, List.forall_mem_cons] at h ⊢
    obtain ⟨hlen, h⟩ := h
    simp only [hlen]
    by_cases hverf : bp.addr + (24 + authBytes (bp.word (24 + 4)) + 4) ≥ bp.addr + 4 * (maxlen / 4)
    · simp only [if_pos hverf, and_self]
    simp only [if_neg hverf, List.forall_mem_append] at h ⊢
    obtain ⟨hauth, h⟩ := h
    obtain ⟨hsame, hreads⟩ := get_auth_same hauth euid egid
    have hflavor : q.word 24 = bp.word 24 := by
      refine hauth 24 ?_
      unfold get_auth_reads
      split
      · exact List.mem_cons_self
      · exact List.mem_cons_self
    simp only [hsame, hreads, hflavor, and_true]
    have hrc := get_auth_rc (bp.add 24) euid egid
    rw [Ptr.word_add, UInt32.add_zero] at hrc
    by_cases hunix : bp.word 24 = AUTH_UNIX
    · rw [if_neg (not_not.mpr hunix), List.forall_mem_singleton] at h
      rw [if_pos hunix] at hrc
      simp only [if_neg (not_not.mpr hrc), h]
    · rw [if_neg hunix] at hrc
      simp only [hrc, if_pos (by decide : (-1 : Int32) ≠ 0)]
  · simp only [if_neg hcall] at h ⊢
    by_cases hreply : bp.word 4 = REPLY
    · simp only [if_pos hreply] at h ⊢
      by_cases hverf : bp.addr + (12 + 4) ≥ bp.addr + 4 * (maxlen / 4)
      · simp only [if_pos hverf, and_self]
      · simp only [if_neg hverf, List.forall_mem_cons] at h ⊢
        simp only [h.1, and_self]
    · simp only [if_neg hreply, and_self]

/-! ## When all of them lie in the message -/

/-- The word at `x` is one of the message's. -/
def Inside (maxlen x : UInt32) : Prop := x.toNat / 4 < maxlen.toNat / 4

instance (maxlen x : UInt32) : Decidable (Inside maxlen x) := inferInstanceAs (Decidable (_ < _))

/-- A call of the programs and the version that are traced. -/
def Traced (bp : Ptr) : Prop :=
  bp.word 4 = CALL ∧ bp.word 8 = RPC_VERSION ∧ (bp.word 12 = NFS_PROGRAM ∨ bp.word 12 = MOUNT_PROGRAM)

/-- Where the length of a call's verifier stands. -/
def verfLength (bp : Ptr) : UInt32 := 24 + authBytes (bp.word 28) + 4

/-- Where the ids of a call's credential stand. -/
def credIds (bp : Ptr) : UInt32 :=
  24 + (16 + 4 * if bp.word 36 % 4 ≠ 0 then bp.word 36 / 4 + 1 else bp.word 36 / 4)

/-- The pointer to `x` comes around to the start of the address space. -/
def Around (bp : Ptr) (x : UInt32) : Prop := 2 ^ 32 ≤ bp.addr.toNat + x.toNat

structure Guarded (bp : Ptr) (maxlen : UInt32) : Prop where
  direction : 8 ≤ maxlen.toNat
  call : bp.word 4 = CALL → 16 ≤ maxlen.toNat
  reply : bp.word 4 = REPLY → ¬ Around bp 16
  cred : Traced bp → ¬ Around bp 28
  verf : Traced bp → bp.word 24 = AUTH_UNIX → 32 ≤ maxlen.toNat → ¬ Around bp (verfLength bp)
  ids : Traced bp → bp.word 24 = AUTH_UNIX → 32 ≤ maxlen.toNat → Inside maxlen (verfLength bp) →
    40 ≤ maxlen.toNat ∧ Inside maxlen (credIds bp) ∧ Inside maxlen (credIds bp + 4)

variable {x : UInt32}

theorem passes_iff (hfit : bp.Fits maxlen.toNat) :
    ¬ bp.addr + x ≥ bp.addr + 4 * (maxlen / 4) ↔ Inside maxlen x ∨ Around bp x := by
  have hfit' : bp.addr.toNat + maxlen.toNat < 2 ^ 32 := hfit
  have hx := x.toNat_lt
  unfold Inside Around
  rw [ge_iff_le, UInt32.le_iff_toNat_le, UInt32.toNat_add, UInt32.toNat_add, end_toNat]
  omega

/-- A word in the message is not where the pointer came around. -/
theorem Inside.not_around (hfit : bp.Fits maxlen.toNat) (h : Inside maxlen x) : ¬ Around bp x := by
  have hfit' : bp.addr.toNat + maxlen.toNat < 2 ^ 32 := hfit
  unfold Inside at h
  unfold Around
  omega

theorem inside_iff {n : Nat} (hx : x.toNat = n) (hn : n % 4 = 0) : Inside maxlen x ↔ n + 4 ≤ maxlen.toNat := by
  unfold Inside
  rw [hx]
  omega

theorem get_auth_inside (ui : UInt32) : (∀ x ∈ get_auth_reads bp ui, Inside maxlen x) ↔
    Inside maxlen ui ∧ (bp.word ui = AUTH_UNIX → Inside maxlen (ui + 12) ∧
      Inside maxlen (ui + (16 + 4 * if bp.word (ui + 12) % 4 ≠ 0 then bp.word (ui + 12) / 4 + 1 else bp.word (ui + 12) / 4)) ∧
      Inside maxlen (ui + (16 + 4 * if bp.word (ui + 12) % 4 ≠ 0 then bp.word (ui + 12) / 4 + 1 else bp.word (ui + 12) / 4) + 4)) := by
  unfold get_auth_reads
  by_cases hflavor : bp.word ui = AUTH_UNIX
  · simp only [hflavor, ne_eq, not_true, if_false, List.forall_mem_cons, List.not_mem_nil, false_imp_iff, implies_true, and_true,
      true_imp_iff]
  · simp only [hflavor, ne_eq, not_false_eq_true, if_true, List.forall_mem_singleton, false_imp_iff, and_true]

/-- The words read of a call that is traced, behind the fixed ones. -/
theorem traced_inside (hfit : bp.Fits maxlen.toNat) :
    (∀ x ∈ (if bp.addr + (24 + 4) ≥ bp.addr + 4 * (maxlen / 4) then []
        else (24 + 4 : UInt32) ::
          if bp.addr + (24 + authBytes (bp.word (24 + 4)) + 4) ≥ bp.addr + 4 * (maxlen / 4) then []
          else get_auth_reads bp 24 ++ if bp.word 24 ≠ AUTH_UNIX then [] else [24 + authBytes (bp.word (24 + 4)) + 4]), Inside maxlen x) ↔
      ¬ Around bp 28 ∧ (bp.word 24 = AUTH_UNIX → 32 ≤ maxlen.toNat → ¬ Around bp (verfLength bp) ∧
        (Inside maxlen (verfLength bp) → 40 ≤ maxlen.toNat ∧ Inside maxlen (credIds bp) ∧ Inside maxlen (credIds bp + 4))) := by
  have h28 : Inside maxlen 28 ↔ 32 ≤ maxlen.toNat := inside_iff rfl rfl
  have h24 : Inside maxlen 24 ↔ 28 ≤ maxlen.toNat := inside_iff rfl rfl
  have h36 : Inside maxlen 36 ↔ 40 ≤ maxlen.toNat := inside_iff rfl rfl
  have refused : ∀ {x : UInt32}, bp.addr + x ≥ bp.addr + 4 * (maxlen / 4) → ¬ Inside maxlen x ∧ ¬ Around bp x := by
    intro x hx
    exact not_or.mp fun hor => (passes_iff hfit).mpr hor hx
  rw [show (24 : UInt32) + 4 = 28 from rfl]
  show (∀ x ∈ (if bp.addr + 28 ≥ bp.addr + 4 * (maxlen / 4) then []
    else (28 : UInt32) :: if bp.addr + verfLength bp ≥ bp.addr + 4 * (maxlen / 4) then []
      else get_auth_reads bp 24 ++ if bp.word 24 ≠ AUTH_UNIX then [] else [verfLength bp]), Inside maxlen x) ↔ _
  by_cases hcred : bp.addr + 28 ≥ bp.addr + 4 * (maxlen / 4)
  · obtain ⟨hin, haround⟩ := refused hcred
    rw [if_pos hcred]
    exact ⟨fun _ => ⟨haround, fun _ h32 => absurd (h28.mpr h32) hin⟩, fun _ x hx => absurd hx List.not_mem_nil⟩
  rw [if_neg hcred, List.forall_mem_cons]
  by_cases hin : Inside maxlen 28
  swap
  · -- the test is passed by a pointer that came around
    have haround := ((passes_iff hfit).mp hcred).resolve_left hin
    exact iff_of_false (fun h => hin h.1) fun h => h.1 haround
  have h32 := h28.mp hin
  have hna := hin.not_around hfit
  by_cases hverf : bp.addr + verfLength bp ≥ bp.addr + 4 * (maxlen / 4)
  · obtain ⟨hinv, haround⟩ := refused hverf
    rw [if_pos hverf]
    exact ⟨fun _ => ⟨hna, fun _ _ => ⟨haround, fun h => absurd h hinv⟩⟩, fun _ => ⟨hin, fun x hx => absurd hx List.not_mem_nil⟩⟩
  rw [if_neg hverf, List.forall_mem_append, get_auth_inside]
  by_cases hunix : bp.word 24 = AUTH_UNIX
  · rw [if_neg (not_not.mpr hunix), List.forall_mem_singleton]
    by_cases hinv : Inside maxlen (verfLength bp)
    · constructor
      · rintro ⟨-, ⟨-, hids⟩, -⟩
        obtain ⟨hname, huid, hgid⟩ := hids hunix
        exact ⟨hna, fun _ _ => ⟨hinv.not_around hfit, fun _ => ⟨h36.mp hname, huid, hgid⟩⟩⟩
      · rintro ⟨-, hids⟩
        obtain ⟨hname, huid, hgid⟩ := (hids hunix h32).2 hinv
        exact ⟨hin, ⟨h24.mpr (by omega), fun _ => ⟨h36.mpr hname, huid, hgid⟩⟩, hinv⟩
    · have haround := ((passes_iff hfit).mp hverf).resolve_left hinv
      exact iff_of_false (fun h => hinv h.2.2) fun h => (h.2 hunix h32).1 haround
  · rw [if_pos hunix]
    constructor
    · intro _
      exact ⟨hna, fun h => absurd h hunix⟩
    · intro _
      exact ⟨hin, ⟨h24.mpr (by omega), fun h => absurd h hunix⟩, fun x hx => absurd hx List.not_mem_nil⟩

/-- All words that are read lie in the message iff the message is guarded. -/
theorem reads_inside_iff (hfit : bp.Fits maxlen.toNat) : (∀ x ∈ getRpcHeader_words bp maxlen, Inside maxlen x) ↔ Guarded bp maxlen := by
  have h4 : Inside maxlen 4 ↔ 8 ≤ maxlen.toNat := inside_iff rfl rfl
  have h8 : Inside maxlen 8 ↔ 12 ≤ maxlen.toNat := inside_iff rfl rfl
  have h12 : Inside maxlen 12 ↔ 16 ≤ maxlen.toNat := inside_iff rfl rfl
  unfold getRpcHeader_words
  simp only [List.forall_mem_cons, h4]
  by_cases hcall : bp.word 4 = CALL
  · have hnreply : ¬ bp.word 4 = REPLY := by
      rw [hcall]
      decide
    simp only [if_pos hcall, List.cons_append, List.nil_append, List.forall_mem_cons, h8, h12]
    by_cases hbad : bp.word 8 ≠ RPC_VERSION ∨ (bp.word 12 ≠ NFS_PROGRAM ∧ bp.word 12 ≠ MOUNT_PROGRAM)
    · have hnt : ¬ Traced bp := by
        rintro ⟨-, hvers, hprog⟩
        rcases hbad with h | h
        · exact h hvers
        · exact hprog.elim h.1 h.2
      rw [if_pos hbad]
      constructor
      · rintro ⟨h, h16, -⟩
        exact ⟨h, fun _ => h16, fun h => absurd h hnreply, fun h => absurd h hnt, fun h => absurd h hnt, fun h => absurd h hnt⟩
      · intro h
        exact ⟨h.direction, h.call hcall, Nat.le_trans (by decide) (h.call hcall), fun x hx => absurd hx List.not_mem_nil⟩
    · have ht : Traced bp := by
        rw [not_or, not_not, not_and_or, not_not, not_not] at hbad
        exact ⟨hcall, hbad.1, hbad.2⟩
      rw [if_neg hbad, traced_inside hfit]
      constructor
      · rintro ⟨h, h16, -, hcred, hrest⟩
        exact ⟨h, fun _ => h16, fun h => absurd h hnreply, fun _ => hcred, fun _ hunix h32 => (hrest hunix h32).1,
          fun _ hunix h32 => (hrest hunix h32).2⟩
      · intro h
        exact ⟨h.direction, h.call hcall, Nat.le_trans (by decide) (h.call hcall), h.cred ht, fun hunix h32 =>
          ⟨h.verf ht hunix h32, h.ids ht hunix h32⟩⟩
  · have hnt : ¬ Traced bp := fun h => hcall h.1
    rw [if_neg hcall]
    by_cases hreply : bp.word 4 = REPLY
    · rw [if_pos hreply]
      have h16 : Inside maxlen 16 ↔ 20 ≤ maxlen.toNat := inside_iff rfl rfl
      constructor
      · rintro ⟨h, hread⟩
        refine ⟨h, fun h => absurd h hcall, fun _ => ?_, fun h => absurd h hnt, fun h => absurd h hnt, fun h => absurd h hnt⟩
        by_cases hverf : bp.addr + (12 + 4) ≥ bp.addr + 4 * (maxlen / 4)
        · exact fun haround => (passes_iff hfit).mpr (Or.inr haround) hverf
        · rw [if_neg hverf, List.forall_mem_singleton] at hread
          exact hread.not_around hfit
      · intro h
        refine ⟨h.direction, ?_⟩
        by_cases hverf : bp.addr + (12 + 4) ≥ bp.addr + 4 * (maxlen / 4)
        · rw [if_pos hverf]
          exact fun x hx => absurd hx List.not_mem_nil
        · rw [if_neg hverf, List.forall_mem_singleton]
          exact ((passes_iff hfit).mp hverf).resolve_right (h.reply hreply)
    · rw [if_neg hreply]
      constructor
      · rintro ⟨h, -⟩
        exact ⟨h, fun h => absurd h hcall, fun h => absurd h hreply, fun h => absurd h hnt, fun h => absurd h hnt, fun h => absurd h hnt⟩
      · intro h
        exact ⟨h.direction, fun x hx => absurd hx List.not_mem_nil⟩

/-- A call with an AUTH_UNIX credential, up to its arguments. -/
def unixCall : Ptr :=
  Ptr.ofBytes ([0, 0, 0, 7, 0, 0, 0, 0, 0, 0, 0, 2, 0, 1, 0x86, 0xa3, 0, 0, 0, 3, 0, 0, 0, 1, 0, 0, 0, 1, 0, 0, 0, 20] ++
    List.replicate 28 0)

theorem reads_inside_iff_unixCall : Guarded unixCall 60 ∧ getRpcHeader_words unixCall 60 = [4, 12, 8, 28, 24, 36, 40, 44, 56] := by
  have hfit : unixCall.Fits (60 : UInt32).toNat := by unfold Ptr.Fits; decide
  have hwords : getRpcHeader_words unixCall 60 = [4, 12, 8, 28, 24, 36, 40, 44, 56] := by decide
  refine ⟨(reads_inside_iff hfit).mp ?_, hwords⟩
  rw [hwords]
  simp [Inside]

/-- In a message of four bytes the direction is read behind the end. -/
theorem short_message_overread :
    (Ptr.ofBytes (List.replicate 4 0)).Fits (4 : UInt32).toNat ∧
      ¬ ∀ x ∈ getRpcHeader_words (Ptr.ofBytes (List.replicate 4 0)) 4, Inside 4 x := by
  refine ⟨by unfold Ptr.Fits; decide, fun h => ?_⟩
  exact absurd (h 4 List.mem_cons_self) (by decide)

end Nfsdump.Wire
