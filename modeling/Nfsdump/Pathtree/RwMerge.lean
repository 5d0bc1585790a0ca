/-
  Nfsdump.Pathtree.RwMerge — merging reads and writes into extents of whole segments
  (pathtree/rwmerge.js).

  Rows of one op and name that are close enough in time form a group. A read or write row
  marks segments of its group, and the group is written out as runs of marked segments when
  the next one opens and at the end.

  Proved, over any rows whose bytes end at 2 ^ 53 or in front of it (`OpRow.exact`):
  - `covered_iff`: the extents written for an op and a name cover what its rows marked, and
    `marks_iff` what a row marks: the segments it has a byte in, and with a count of 0 the
    segment its start is inside of;
  - `coverage_exact_iff`: so the segments covered are those with a byte in a row iff each row
    with a count of 0 and its start inside of a segment has another row there.
-/

import Nfsdump.Pathtree.Parser

namespace Nfsdump.Pathtree

/-! ## Rows -/

/-- A row as read; `start` and `count` are what `parseInt` makes of them. The program's numbers
    are doubles: up to 2 ^ 53 they are whole numbers and so are sums, behind it they are rounded. -/
structure OpRow (τ : Type) where
  t : τ
  op : Cell
  name : Cell
  version : Cell
  start : Nat
  count : Nat
  exact : start + count ≤ 2 ^ 53
  deriving DecidableEq

/-- A row as written, without the last columns for most ops. -/
structure MergedRow (τ ν : Type) where
  t : Option τ
  op : Cell
  name : Cell
  version : ν
  start : Option Nat
  count : Option Nat
  deriving DecidableEq, Repr

/-- The arithmetic of the program on timestamps and versions, which are not whole numbers. -/
structure Floats (τ ν : Type) where
  /-- `row.t < this.t - this.maxSlack`, where `this.t` can still be infinite. -/
  early : τ → Option τ → Bool
  infinity : ν
  /-- `row.version || Infinity` -/
  orInfinity : Cell → ν
  /-- `Math.min(this.version, row.version)` -/
  min : ν → Cell → ν
  /-- `this.version == Infinity ? 0 : this.version` -/
  finite : ν → ν

/-! ## The program -/

def segmentSize : Nat := 4096

def dirPerSegment : Nat := 32

structure RwMerge (τ ν : Type) where
  t : Option τ
  op : Cell
  name : Cell
  /-- `seg=>timestamp`, oldest entry first. -/
  segments : List (Nat × τ)
  dirCount : Nat
  version : ν
  deriving DecidableEq, Repr

section

variable {τ ν : Type}

def computeSegment (offset : Int) : Int := offset / segmentSize

/-- `segments[seg] = t` -/
def setSegment (segments : List (Nat × τ)) (seg : Nat) (t : τ) : List (Nat × τ) :=
  if segments.any (·.1 = seg) then segments.map fun e => if e.1 = seg then (seg, t) else e else segments ++ [(seg, t)]

/-- The segments of the loop from `begin` to `end`. -/
def OpRow.marks (row : OpRow τ) : List Nat :=
  let first := computeSegment row.start
  let last := computeSegment ((row.start : Int) + row.count - 1)
  List.range' first.toNat (last + 1 - first).toNat

def isRw (op : Cell) : Bool := op = "read".toList || op = "write".toList

/-- `recordExtent` at the end and before each extent but the first; an extent is from `begin` to `end`. -/
def extents : Option (Nat × Nat) → List Nat → List (Nat × Nat)
  | cur, [] => cur.toList
  | none, seg :: segs => extents (some (seg, seg)) segs
  | some (first, last), seg :: segs =>
    if seg = last + 1 then extents (some (first, seg)) segs else (first, last) :: extents (some (seg, seg)) segs

variable (f : Floats τ ν)

def RwMerge.recordRW (st : RwMerge τ ν) : List (MergedRow τ ν) :=
  let segments := (st.segments.map Prod.fst).insertionSort (· ≤ ·)
  (extents none segments).map fun (first, last) =>
    ⟨st.segments.lookup first, st.op, st.name, st.version, some first, some (last - first + 1)⟩

/-- The count is rounded up. -/
def RwMerge.recordReadDir (st : RwMerge τ ν) : List (MergedRow τ ν) :=
  [⟨st.t, st.op, st.name, st.version, some 0, some ((st.dirCount + dirPerSegment - 1) / dirPerSegment)⟩]

def RwMerge.recordOp (st : RwMerge τ ν) : List (MergedRow τ ν) :=
  if st.op = [] then []
  else if isRw st.op then st.recordRW
  else if st.op = "readdirp".toList then st.recordReadDir
  else [⟨st.t, st.op, st.name, f.finite st.version, none, none⟩]

def RwMerge.reset (row : OpRow τ) : RwMerge τ ν := ⟨none, row.op, row.name, [], 0, f.orInfinity row.version⟩

def RwMerge.init : RwMerge τ ν := ⟨none, [], [], [], 0, f.infinity⟩

/-- The rest of `processRow`, in the group of the row. -/
def RwMerge.add (st : RwMerge τ ν) (row : OpRow τ) : RwMerge τ ν :=
  let st := { st with t := some row.t }
  if isRw row.op then
    { st with
      segments := row.marks.foldl (fun segments seg => setSegment segments seg row.t) st.segments
      version := f.min st.version row.version }
  else if row.op = "readdirp".toList then
    { st with dirCount := st.dirCount + row.count, version := f.min st.version row.version }
  else st

def RwMerge.processRow (st : RwMerge τ ν) (row : OpRow τ) : RwMerge τ ν × List (MergedRow τ ν) :=
  if row.op ≠ st.op || row.name ≠ st.name || f.early row.t st.t then ((RwMerge.reset f row).add f row, st.recordOp f)
  else (st.add f row, [])

def RwMerge.processRows (st : RwMerge τ ν) : List (OpRow τ) → RwMerge τ ν × List (MergedRow τ ν)
  | [] => (st, [])
  | row :: rows =>
    let r := st.processRow f row
    let rest := r.1.processRows rows
    (rest.1, r.2 ++ rest.2)

/-- All rows, and then `end`. -/
def rwmerge (rows : List (OpRow τ)) : List (MergedRow τ ν) :=
  let r := (RwMerge.init f).processRows f rows
  r.2 ++ r.1.recordOp f

end

/-! ## Segments of an extent -/

variable {τ ν : Type} {f : Floats τ ν}

/-- A segment of the extent that a row describes. -/
def MergedRow.Covers (row : MergedRow τ ν) (op name : Cell) (seg : Nat) : Prop :=
  row.op = op ∧ row.name = name ∧ ∃ start count, row.start = some start ∧ row.count = some count ∧ start ≤ seg ∧ seg < start + count

def Covered (out : List (MergedRow τ ν)) (op name : Cell) (seg : Nat) : Prop := ∃ row ∈ out, row.Covers op name seg

/-- Some byte of the row's range is in the segment. -/
def OpRow.Touches (row : OpRow τ) (seg : Nat) : Prop :=
  ∃ b, row.start ≤ b ∧ b < row.start + row.count ∧ b / segmentSize = seg

/-- A row without a byte, inside of a segment. -/
def OpRow.Hollow (row : OpRow τ) : Prop := row.count = 0 ∧ row.start % segmentSize ≠ 0

theorem covered_append {out out' : List (MergedRow τ ν)} {op name : Cell} {seg : Nat} :
    Covered (out ++ out') op name seg ↔ Covered out op name seg ∨ Covered out' op name seg := by
  simp only [Covered, List.mem_append, or_and_right, exists_or]

theorem mem_extents {seg : Nat} (segs : List Nat) : ∀ {first last : Nat}, first ≤ last →
    ((∃ e ∈ extents (some (first, last)) segs, e.1 ≤ seg ∧ seg ≤ e.2) ↔ (first ≤ seg ∧ seg ≤ last) ∨ seg ∈ segs) := by
  induction segs with
  | nil => intro first last _; simp [extents]
  | cons s segs ih =>
    intro first last hle
    rw [extents]
    split
    · next hs =>
      rw [ih (by omega), List.mem_cons]
      constructor
      · rintro (h | h)
        · by_cases hseg : seg = s
          · exact Or.inr (Or.inl hseg)
          · exact Or.inl (by omega)
        · exact Or.inr (Or.inr h)
      · rintro (h | h | h)
        · exact Or.inl (by omega)
        · exact Or.inl (by omega)
        · exact Or.inr h
    · simp only [List.mem_cons, exists_eq_or_imp]
      rw [ih (Nat.le_refl s)]
      refine or_congr_right (or_congr_left ?_)
      omega

theorem mem_extents_none {seg : Nat} (segs : List Nat) :
    (∃ e ∈ extents none segs, e.1 ≤ seg ∧ seg ≤ e.2) ↔ seg ∈ segs := by
  cases segs with
  | nil => simp [extents]
  | cons s segs =>
    rw [extents, mem_extents segs (Nat.le_refl s), List.mem_cons]
    refine or_congr_left ?_
    omega

theorem extents_le (segs : List Nat) : ∀ {first last : Nat}, first ≤ last → ∀ e ∈ extents (some (first, last)) segs, e.1 ≤ e.2 := by
  induction segs with
  | nil =>
    intro first last hle e he
    rw [extents, Option.mem_toList] at he
    cases he
    exact hle
  | cons s segs ih =>
    intro first last hle e he
    rw [extents] at he
    split at he
    · exact ih (by omega) e he
    · rcases List.mem_cons.mp he with rfl | he
      · exact hle
      · exact ih (Nat.le_refl s) e he

theorem extents_none_le (segs : List Nat) (e : Nat × Nat) (he : e ∈ extents none segs) : e.1 ≤ e.2 := by
  cases segs with
  | nil => cases he
  | cons s segs => exact extents_le segs (Nat.le_refl s) e he

theorem covered_recordRW (st : RwMerge τ ν) (op name : Cell) (seg : Nat) :
    Covered st.recordRW op name seg ↔ st.op = op ∧ st.name = name ∧ seg ∈ st.segments.map Prod.fst := by
  have hkeys : (∃ e ∈ extents none ((st.segments.map Prod.fst).insertionSort (· ≤ ·)), e.1 ≤ seg ∧ seg ≤ e.2) ↔
      seg ∈ st.segments.map Prod.fst := by
    rw [mem_extents_none, List.mem_insertionSort]
  rw [← hkeys]
  constructor
  · rintro ⟨row, hrow, hop, hname, start, count, hs, hc, hle, hlt⟩
    obtain ⟨e, he, rfl⟩ := List.mem_map.mp hrow
    simp only [Option.some_inj] at hs hc
    subst hs hc
    have hfl := extents_none_le _ e he
    exact ⟨hop, hname, e, he, hle, by omega⟩
  · rintro ⟨hop, hname, e, he, hle, hlt⟩
    exact ⟨_, List.mem_map_of_mem he, hop, hname, e.1, e.2 - e.1 + 1, rfl, rfl, hle, by omega⟩

/-- What is written when a group ends: for reads and writes, the segments marked. -/
theorem covered_recordOp (st : RwMerge τ ν) {op : Cell} (hop : isRw op = true) (name : Cell) (seg : Nat) :
    Covered (st.recordOp f) op name seg ↔ st.op = op ∧ st.name = name ∧ seg ∈ st.segments.map Prod.fst := by
  by_cases hst : st.op = op
  · have hne : st.op ≠ [] := by
      rintro h
      rw [← hst, h] at hop
      exact absurd hop (by decide)
    rw [RwMerge.recordOp, if_neg hne, if_pos (hst ▸ hop)]
    exact covered_recordRW st op name seg
  · refine iff_of_false ?_ fun h => hst h.1
    rintro ⟨row, hrow, hcov⟩
    refine hst (Eq.trans (Eq.symm ?_) hcov.1)
    unfold RwMerge.recordOp at hrow
    split at hrow
    · cases hrow
    · split at hrow
      · obtain ⟨e, -, rfl⟩ := List.mem_map.mp hrow
        rfl
      · split at hrow
        · rw [List.mem_singleton.mp hrow]
        · rw [List.mem_singleton.mp hrow]

/-! ## Marks -/

theorem map_fst_replace (segments : List (Nat × τ)) (seg : Nat) (t : τ) :
    (segments.map fun e => if e.1 = seg then (seg, t) else e).map Prod.fst = segments.map Prod.fst := by
  rw [List.map_map]
  apply List.map_congr_left
  intro e _
  by_cases he : e.1 = seg
  · simp [he]
  · simp [he]

theorem keys_setSegment (segments : List (Nat × τ)) (seg : Nat) (t : τ) (s : Nat) :
    s ∈ (setSegment segments seg t).map Prod.fst ↔ s ∈ segments.map Prod.fst ∨ s = seg := by
  unfold setSegment
  split
  · next hany =>
    rw [map_fst_replace]
    refine ⟨Or.inl, fun h => h.elim id fun hs => ?_⟩
    obtain ⟨e, he, heq⟩ := List.any_eq_true.mp hany
    rw [hs, ← of_decide_eq_true heq]
    exact List.mem_map_of_mem he
  · simp

theorem keys_foldl (segs : List Nat) (t : τ) (s : Nat) : ∀ segments : List (Nat × τ),
    s ∈ (segs.foldl (fun segments seg => setSegment segments seg t) segments).map Prod.fst ↔
      s ∈ segments.map Prod.fst ∨ s ∈ segs := by
  induction segs with
  | nil => intro segments; simp
  | cons seg segs ih =>
    intro segments
    rw [List.foldl_cons, ih, keys_setSegment, List.mem_cons, or_assoc]

/-- What a row marks. -/
theorem marks_iff (row : OpRow τ) (seg : Nat) : seg ∈ row.marks ↔ row.Touches seg ∨ row.Hollow ∧ seg = row.start / segmentSize := by
  simp only [OpRow.marks, OpRow.Touches, OpRow.Hollow, computeSegment, segmentSize, List.mem_range'_1]
  constructor
  · intro h
    rcases Nat.eq_zero_or_pos row.count with hc | hc
    · right
      omega
    · left
      by_cases hseg : seg = row.start / 4096
      · exact ⟨row.start, by omega, by omega, hseg.symm⟩
      · exact ⟨seg * 4096, by omega, by omega, by omega⟩
  · rintro (⟨b, hle, hlt, rfl⟩ | ⟨⟨hc, hmod⟩, rfl⟩)
    · omega
    · omega

theorem add_op (st : RwMerge τ ν) (row : OpRow τ) : (st.add f row).op = st.op ∧ (st.add f row).name = st.name := by
  unfold RwMerge.add
  split
  · exact ⟨rfl, rfl⟩
  · split <;> exact ⟨rfl, rfl⟩

theorem keys_add (st : RwMerge τ ν) {row : OpRow τ} (hop : isRw row.op = true) (seg : Nat) :
    seg ∈ (st.add f row).segments.map Prod.fst ↔ seg ∈ st.segments.map Prod.fst ∨ seg ∈ row.marks := by
  rw [RwMerge.add, if_pos hop]
  exact keys_foldl row.marks row.t seg st.segments

/-! ## Runs -/

/-- What was written so far, and what the open group has. -/
def Held (out : List (MergedRow τ ν)) (st : RwMerge τ ν) (op name : Cell) (seg : Nat) : Prop :=
  Covered out op name seg ∨ st.op = op ∧ st.name = name ∧ seg ∈ st.segments.map Prod.fst

theorem held_processRow (out : List (MergedRow τ ν)) (st : RwMerge τ ν) (row : OpRow τ) {op : Cell} (hop : isRw op = true)
    (name : Cell) (seg : Nat) :
    Held (out ++ (st.processRow f row).2) (st.processRow f row).1 op name seg ↔
      Held out st op name seg ∨ row.op = op ∧ row.name = name ∧ seg ∈ row.marks := by
  have hadd : ∀ st' : RwMerge τ ν, st'.op = row.op → st'.name = row.name →
      ((st'.add f row).op = op ∧ (st'.add f row).name = name ∧ seg ∈ (st'.add f row).segments.map Prod.fst ↔
        (st'.op = op ∧ st'.name = name ∧ seg ∈ st'.segments.map Prod.fst) ∨ row.op = op ∧ row.name = name ∧ seg ∈ row.marks) := by
    intro st' hop' hname'
    rw [(add_op st' row).1, (add_op st' row).2, hop', hname']
    by_cases hrow : row.op = op
    · rw [keys_add st' (hrow ▸ hop)]
      tauto
    · tauto
  unfold RwMerge.processRow
  split
  · rw [Held, covered_append, covered_recordOp st hop, hadd (RwMerge.reset f row) rfl rfl]
    have hempty : seg ∉ (RwMerge.reset f row).segments.map Prod.fst := List.not_mem_nil
    unfold Held
    tauto
  · next hsame =>
    simp only [Bool.or_eq_true, decide_eq_true_eq, not_or, ne_eq, not_not] at hsame
    rw [Held, List.append_nil, hadd st hsame.1.1.symm hsame.1.2.symm]
    unfold Held
    tauto

theorem held_processRows {op : Cell} (hop : isRw op = true) (name : Cell) (seg : Nat) (rows : List (OpRow τ)) :
    ∀ (out : List (MergedRow τ ν)) (st : RwMerge τ ν),
      Held (out ++ (st.processRows f rows).2) (st.processRows f rows).1 op name seg ↔
        Held out st op name seg ∨ ∃ row ∈ rows, row.op = op ∧ row.name = name ∧ seg ∈ row.marks := by
  induction rows with
  | nil => intro out st; simp [RwMerge.processRows]
  | cons row rows ih =>
    intro out st
    rw [RwMerge.processRows, ← List.append_assoc, ih, held_processRow out st row hop, or_assoc]
    simp only [List.mem_cons, exists_eq_or_imp]

/-- The extents written for an op and a name cover what its rows marked. -/
theorem covered_iff (f : Floats τ ν) (rows : List (OpRow τ)) {op : Cell} (hop : isRw op = true) (name : Cell) (seg : Nat) :
    Covered (rwmerge f rows) op name seg ↔ ∃ row ∈ rows, row.op = op ∧ row.name = name ∧ seg ∈ row.marks := by
  have h := held_processRows (f := f) hop name seg rows [] (RwMerge.init f)
  rw [rwmerge, covered_append, covered_recordOp _ hop]
  rw [List.nil_append, Held] at h
  rw [h]
  refine or_iff_right fun hinit => ?_
  rcases hinit with ⟨row, hrow, -⟩ | ⟨-, -, hseg⟩
  · cases hrow
  · cases hseg

/-- For reads and for writes and each name, the segments covered are those with a byte in a row. -/
def CoverageExact (f : Floats τ ν) (rows : List (OpRow τ)) : Prop :=
  ∀ op, isRw op = true → ∀ name seg,
    Covered (rwmerge f rows) op name seg ↔ ∃ row ∈ rows, row.op = op ∧ row.name = name ∧ row.Touches seg

theorem coverage_exact_iff (f : Floats τ ν) (rows : List (OpRow τ)) :
    CoverageExact f rows ↔
      ∀ row ∈ rows, isRw row.op = true → row.Hollow →
        ∃ other ∈ rows, other.op = row.op ∧ other.name = row.name ∧ other.Touches (row.start / segmentSize) := by
  constructor
  · intro h row hrow hop hhollow
    apply (h row.op hop row.name _).mp
    rw [covered_iff f rows hop]
    exact ⟨row, hrow, rfl, rfl, (marks_iff row _).mpr (Or.inr ⟨hhollow, rfl⟩)⟩
  · intro h op hop name seg
    rw [covered_iff f rows hop]
    constructor
    · rintro ⟨row, hrow, rfl, rfl, hmark⟩
      rcases (marks_iff row seg).mp hmark with htouch | ⟨hhollow, rfl⟩
      · exact ⟨row, hrow, rfl, rfl, htouch⟩
      · exact h row hrow hop hhollow
    · rintro ⟨row, hrow, rfl, rfl, htouch⟩
      exact ⟨row, hrow, rfl, rfl, (marks_iff row seg).mpr (Or.inl htouch)⟩

/-- A read of nothing at offset 1. -/
theorem hollow_read_covered :
    ¬ CoverageExact (⟨fun _ _ => true, 0, fun _ => 0, fun v _ => v, id⟩ : Floats Nat Nat)
      [⟨0, "read".toList, ['f'], [], 1, 0, Nat.one_le_two_pow⟩] := by
  intro h
  obtain ⟨row, hrow, -, -, b, hle, hlt, -⟩ := (h "read".toList (by decide) ['f'] 0).mp
    ⟨⟨some 0, "read".toList, ['f'], 0, some 0, some 1⟩, by decide, rfl, rfl, 0, 1, rfl, rfl, Nat.le_refl 0, Nat.one_pos⟩
  rw [List.mem_singleton.mp hrow] at hle hlt
  exact absurd (Nat.lt_of_le_of_lt hle hlt) (Nat.lt_irrefl 1)

end Nfsdump.Pathtree
