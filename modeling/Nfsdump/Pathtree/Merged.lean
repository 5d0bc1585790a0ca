/-
  Nfsdump.Pathtree.Merged — the extents that `recordRW` of rwmerge.js writes for a group,
  and their timestamps.

  The keys of `segments` are sorted and cut where one does not follow the last. An extent
  gets the timestamp of its first segment, which the last row that marked it has set.

  Proved, over any group:
  - `extents_maximal`: the extents are the maximal ones of the marked segments, and no
    description of the same segments is shorter;
  - `rwmerge_groups`: what is written is written group by group, and `recordRW_t` the
    timestamp of an extent;
  - `start_times_iff`: it is the smallest of any row with a byte in the extent iff a row as
    early marks the first segment, and no row without a byte is earlier there;
  - `backward_write_late`: two writes of which the earlier one is behind.
-/

import Mathlib.Data.List.SplitBy
import Nfsdump.Lib.Extents
import Nfsdump.Pathtree.RwMerge

namespace Nfsdump.Pathtree

variable {τ ν : Type} {f : Floats τ ν}

/-! ## Extents -/

/-- The extents described by rows: start and count. -/
def extentsOf (out : List (MergedRow τ ν)) : List (Nat × Nat) :=
  out.filterMap fun row => row.start.bind fun start => row.count.map fun count => (start, count)

theorem extentsOf_recordRW (st : RwMerge τ ν) : extentsOf st.recordRW =
    (extents none ((st.segments.map Prod.fst).insertionSort (· ≤ ·))).map fun e => (e.1, e.2 - e.1 + 1) := by
  rw [extentsOf, RwMerge.recordRW, List.filterMap_map]
  exact congrFun List.filterMap_eq_map _

theorem length_extentsOf (st : RwMerge τ ν) : (extentsOf st.recordRW).length = st.recordRW.length := by
  rw [extentsOf_recordRW, RwMerge.recordRW, List.length_map, List.length_map]

theorem sorted_segments {keys : List Nat} (h : keys.Nodup) : (keys.insertionSort (· ≤ ·)).Pairwise (· < ·) := by
  have hle := List.pairwise_insertionSort (· ≤ ·) keys
  have hne : (keys.insertionSort (· ≤ ·)).Nodup := (List.perm_insertionSort (· ≤ ·) keys).nodup_iff.mpr h
  exact (hle.and hne).imp fun h => Nat.lt_of_le_of_ne h.1 h.2

/-- Over segments in order, behind the open extent: each extent ends in front of a gap. -/
theorem extents_apart (segs : List Nat) : ∀ {first last : Nat}, first ≤ last → segs.Pairwise (· < ·) → (∀ seg ∈ segs, last < seg) →
    (extents (some (first, last)) segs).Pairwise (fun e e' => e.2 + 1 < e'.1) ∧ ∀ e ∈ extents (some (first, last)) segs, first ≤ e.1 := by
  induction segs with
  | nil =>
    intro first last _ _ _
    simp [extents]
  | cons seg segs ih =>
    intro first last hle hsorted hlast
    rw [List.pairwise_cons] at hsorted
    rw [List.forall_mem_cons] at hlast
    rw [extents]
    split
    · exact ih (by omega) hsorted.2 hsorted.1
    · next hgap =>
      obtain ⟨hapart, hfirst⟩ := ih (Nat.le_refl seg) hsorted.2 hsorted.1
      constructor
      · rw [List.pairwise_cons]
        refine ⟨fun e he => ?_, hapart⟩
        have := hfirst e he
        have := hlast.1
        dsimp only
        omega
      · rw [List.forall_mem_cons]
        refine ⟨Nat.le_refl first, fun e he => ?_⟩
        have := hfirst e he
        have := hlast.1
        omega

theorem extents_none_apart {segs : List Nat} (h : segs.Pairwise (· < ·)) : (extents none segs).Pairwise fun e e' => e.2 + 1 < e'.1 := by
  cases segs with
  | nil => exact List.Pairwise.nil
  | cons seg segs =>
    rw [List.pairwise_cons] at h
    exact (extents_apart segs (Nat.le_refl seg) h.2 h.1).1

/-- The extents of a map's keys. -/
theorem extentsOf_maximal (st : RwMerge τ ν) (hmap : (st.segments.map Prod.fst).Nodup) : Extents.Maximal (extentsOf st.recordRW) where
  pos := by
    rw [extentsOf_recordRW]
    intro e he
    obtain ⟨x, -, rfl⟩ := List.mem_map.mp he
    exact Nat.le_add_left 1 _
  apart := by
    rw [extentsOf_recordRW, List.pairwise_map]
    refine (extents_none_apart (sorted_segments hmap)).imp_of_mem fun {a b} ha _ hab => ?_
    have := extents_none_le _ a ha
    dsimp only
    omega

theorem extentsOf_covers (st : RwMerge τ ν) (seg : Nat) :
    Extents.Covers (extentsOf st.recordRW) seg ↔ seg ∈ st.segments.map Prod.fst := by
  rw [← List.mem_insertionSort (· ≤ ·), ← mem_extents_none, extentsOf_recordRW]
  constructor
  · intro h
    obtain ⟨e, he, hle, hlt⟩ := h
    obtain ⟨x, hx, rfl⟩ := List.mem_map.mp he
    have := extents_none_le _ x hx
    dsimp only at hle hlt
    exact ⟨x, hx, hle, by omega⟩
  · intro h
    obtain ⟨x, hx, hle, hle'⟩ := h
    have := extents_none_le _ x hx
    exact ⟨_, List.mem_map_of_mem hx, hle, by dsimp only; omega⟩

/-- The extents are those of the key set alone. -/
theorem extentsOf_congr {st st' : RwMerge τ ν} (hmap : (st.segments.map Prod.fst).Nodup) (hmap' : (st'.segments.map Prod.fst).Nodup)
    (hkeys : ∀ seg, seg ∈ st'.segments.map Prod.fst ↔ seg ∈ st.segments.map Prod.fst) :
    extentsOf st'.recordRW = extentsOf st.recordRW := by
  have hperm : (st'.segments.map Prod.fst).Perm (st.segments.map Prod.fst) := (List.perm_ext_iff_of_nodup hmap' hmap).mpr hkeys
  have hsorted : (st'.segments.map Prod.fst).insertionSort (· ≤ ·) = (st.segments.map Prod.fst).insertionSort (· ≤ ·) := by
    refine List.Perm.eq_of_sortedLE List.sortedLE_insertionSort List.sortedLE_insertionSort ?_
    exact ((List.perm_insertionSort _ _).trans hperm).trans (List.perm_insertionSort _ _).symm
  rw [extentsOf_recordRW, extentsOf_recordRW, hsorted]

/-- The extents written for a map of segments are the maximal ones of its keys: in order, not
    empty, apart from each other; nothing else of the map counts, and no list is shorter. -/
theorem extents_maximal (st : RwMerge τ ν) (hmap : (st.segments.map Prod.fst).Nodup) :
    Extents.Maximal (extentsOf st.recordRW) ∧ (extentsOf st.recordRW).length = st.recordRW.length ∧
      (∀ seg, Extents.Covers (extentsOf st.recordRW) seg ↔ seg ∈ st.segments.map Prod.fst) ∧
      (∀ st' : RwMerge τ ν, (st'.segments.map Prod.fst).Nodup →
        (∀ seg, seg ∈ st'.segments.map Prod.fst ↔ seg ∈ st.segments.map Prod.fst) → extentsOf st'.recordRW = extentsOf st.recordRW) ∧
      ∀ es, (∀ seg, Extents.Covers es seg ↔ seg ∈ st.segments.map Prod.fst) → st.recordRW.length ≤ es.length := by
  refine ⟨extentsOf_maximal st hmap, length_extentsOf st, extentsOf_covers st, fun st' hmap' =>
    extentsOf_congr hmap hmap', fun es hes => ?_⟩
  rw [← length_extentsOf]
  exact (extentsOf_maximal st hmap).length_le fun seg => (extentsOf_covers st seg).trans (hes seg).symm

/-- Segments 0, 1 and 3, marked from the back. -/
def markedBackwards : RwMerge Nat Nat := ⟨some 7, "write".toList, ['a'], [(3, 9), (1, 8), (0, 7)], 0, 0⟩

theorem extents_maximal_sample : markedBackwards.recordRW.map MergedRow.start = [some 0, some 3] ∧
    Extents.Maximal (extentsOf markedBackwards.recordRW) ∧
    (extentsOf markedBackwards.recordRW).length = markedBackwards.recordRW.length ∧
    (∀ seg, Extents.Covers (extentsOf markedBackwards.recordRW) seg ↔ seg ∈ markedBackwards.segments.map Prod.fst) ∧
    (∀ st' : RwMerge Nat Nat, (st'.segments.map Prod.fst).Nodup →
      (∀ seg, seg ∈ st'.segments.map Prod.fst ↔ seg ∈ markedBackwards.segments.map Prod.fst) →
      extentsOf st'.recordRW = extentsOf markedBackwards.recordRW) ∧
    ∀ es, (∀ seg, Extents.Covers es seg ↔ seg ∈ markedBackwards.segments.map Prod.fst) → markedBackwards.recordRW.length ≤ es.length :=
  ⟨by decide, extents_maximal markedBackwards (by decide)⟩

/-! ### Maps -/

theorem lookup_replace (segments : List (Nat × τ)) (seg : Nat) (t : τ) (s : Nat) :
    (segments.map fun e => if e.1 = seg then (seg, t) else e).lookup s =
      if s = seg then (segments.lookup s).map fun _ => t else segments.lookup s := by
  induction segments with
  | nil => simp
  | cons e segments ih =>
    obtain ⟨k, v⟩ := e
    rw [List.map_cons, List.lookup_cons]
    by_cases hk : k = seg
    · rw [if_pos hk, List.lookup_cons, ih]
      by_cases hs : s = seg
      · simp [hs, hk]
      · simp [hs, hk, beq_eq_false_iff_ne.mpr hs]
    · rw [if_neg hk, List.lookup_cons, ih]
      by_cases hs : s = k
      · simp [hs, hk]
      · simp [beq_eq_false_iff_ne.mpr hs]

theorem lookup_setSegment (segments : List (Nat × τ)) (seg : Nat) (t : τ) (s : Nat) :
    (setSegment segments seg t).lookup s = if s = seg then some t else segments.lookup s := by
  unfold setSegment
  split
  · next hany =>
    rw [lookup_replace]
    by_cases hs : s = seg
    · subst hs
      obtain ⟨e, he, heq⟩ := List.any_eq_true.mp hany
      have hsome : (segments.lookup s).isSome = true := List.lookup_isSome_iff.mpr ⟨e, he, by simpa using (of_decide_eq_true heq).symm⟩
      obtain ⟨v, hv⟩ := Option.isSome_iff_exists.mp hsome
      rw [if_pos rfl, if_pos rfl, hv]
      rfl
    · rw [if_neg hs, if_neg hs]
  · next hany =>
    rw [List.lookup_append, List.lookup_cons, List.lookup_nil]
    by_cases hs : s = seg
    · subst hs
      have hnone : segments.lookup s = none := by
        rw [List.lookup_eq_none_iff]
        intro e he
        rw [bne_iff_ne]
        intro heq
        exact hany (List.any_eq_true.mpr ⟨e, he, decide_eq_true heq.symm⟩)
      rw [hnone, if_pos rfl]
      simp
    · simp [hs, beq_eq_false_iff_ne.mpr hs]

theorem nodup_setSegment {segments : List (Nat × τ)} (h : (segments.map Prod.fst).Nodup) (seg : Nat) (t : τ) :
    ((setSegment segments seg t).map Prod.fst).Nodup := by
  unfold setSegment
  split
  · rwa [map_fst_replace]
  · next hany =>
    rw [List.map_append, List.nodup_append]
    refine ⟨h, List.nodup_singleton _, fun a ha b hb hab => hany ?_⟩
    obtain ⟨e, he, rfl⟩ := List.mem_map.mp ha
    rw [List.map_singleton, List.mem_singleton] at hb
    exact List.any_eq_true.mpr ⟨e, he, decide_eq_true (hab.trans hb)⟩

theorem nodup_foldl (segs : List Nat) (t : τ) : ∀ segments : List (Nat × τ), (segments.map Prod.fst).Nodup →
    ((segs.foldl (fun segments seg => setSegment segments seg t) segments).map Prod.fst).Nodup := by
  induction segs with
  | nil => exact fun _ h => h
  | cons seg segs ih => exact fun segments h => ih _ (nodup_setSegment h seg t)

theorem nodup_add (st : RwMerge τ ν) (row : OpRow τ) (h : (st.segments.map Prod.fst).Nodup) :
    ((st.add f row).segments.map Prod.fst).Nodup := by
  unfold RwMerge.add
  split
  · exact nodup_foldl row.marks row.t _ h
  · split
    · exact h
    · exact h

/-- The groups of a run are maps. -/
theorem nodup_processRows (rows : List (OpRow τ)) : ∀ st : RwMerge τ ν, (st.segments.map Prod.fst).Nodup →
    ((st.processRows f rows).1.segments.map Prod.fst).Nodup := by
  induction rows with
  | nil => exact fun _ h => h
  | cons row rows ih =>
    intro st h
    rw [RwMerge.processRows]
    apply ih
    unfold RwMerge.processRow
    split
    · exact nodup_add _ row List.nodup_nil
    · exact nodup_add st row h

/-! ## Groups -/

/-- The next row of a group. -/
def continues (f : Floats τ ν) (last row : OpRow τ) : Bool := !(row.op ≠ last.op || row.name ≠ last.name || f.early row.t (some last.t))

/-- The rows, group by group. -/
def groups (f : Floats τ ν) (rows : List (OpRow τ)) : List (List (OpRow τ)) := rows.splitBy (continues f)

/-- What a group of rows leaves behind. -/
def groupState (f : Floats τ ν) (g : List (OpRow τ)) : RwMerge τ ν :=
  g.foldl (fun st row => st.add f row) (match g with | [] => .init f | row :: _ => .reset f row)

/-- The state has the group of this row, and its time. -/
structure Behind (st : RwMerge τ ν) (last : OpRow τ) : Prop where
  op : st.op = last.op
  name : st.name = last.name
  t : st.t = some last.t

variable {st : RwMerge τ ν} {row last : OpRow τ} {rows g : List (OpRow τ)}

theorem add_t (st : RwMerge τ ν) (row : OpRow τ) : (st.add f row).t = some row.t := by
  unfold RwMerge.add
  split
  · rfl
  · split <;> rfl

theorem behind_add (hop : st.op = row.op) (hname : st.name = row.name) : Behind (st.add f row) row :=
  ⟨(add_op st row).1.trans hop, (add_op st row).2.trans hname, add_t st row⟩

theorem processRow_eq (h : Behind st last) (row : OpRow τ) : st.processRow f row =
    if continues f last row = true then (st.add f row, []) else ((RwMerge.reset f row).add f row, st.recordOp f) := by
  rw [RwMerge.processRow, continues, h.op, h.name, h.t]
  cases (row.op ≠ last.op || row.name ≠ last.name || f.early row.t (some last.t)) <;> rfl

/-- The other rows of a group. -/
theorem processRows_chain (more : List (OpRow τ)) : ∀ {st : RwMerge τ ν} {last : OpRow τ}, Behind st last →
    (last :: more).IsChain (fun a b => continues f a b = true) →
      (∀ rest, st.processRows f (more ++ rest) = (more.foldl (fun st row => st.add f row) st).processRows f rest) ∧
        Behind (more.foldl (fun st row => st.add f row) st) ((last :: more).getLast (List.cons_ne_nil _ _)) := by
  induction more with
  | nil => exact fun h _ => ⟨fun _ => rfl, h⟩
  | cons row more ih =>
    intro st last h hchain
    rw [List.isChain_cons_cons] at hchain
    have hsame := hchain.1
    simp only [continues, Bool.not_eq_true', Bool.or_eq_false_iff, decide_eq_false_iff_not, ne_eq, not_not] at hsame
    have hbehind : Behind (st.add f row) row := behind_add (h.op.trans hsame.1.1.symm) (h.name.trans hsame.1.2.symm)
    obtain ⟨hrun, hlast⟩ := ih hbehind hchain.2
    refine ⟨fun rest => ?_, hlast⟩
    rw [List.cons_append, RwMerge.processRows, processRow_eq h, if_pos hchain.1, hrun]
    rfl

/-- A group does not go on behind its end. -/
theorem cut_behind {gs : List (List (OpRow τ))} (hg : g ≠ [])
    (hcuts : (g :: gs).IsChain fun a b => ∃ ha hb, continues f (a.getLast ha) (b.head hb) = false) :
    ∀ g' ∈ gs.head?, ∀ row ∈ g'.head?, continues f (g.getLast hg) row = false := by
  intro g' hg' row hrow
  rw [List.isChain_cons] at hcuts
  obtain ⟨_, hb, hcontinues⟩ := hcuts.1 g' hg'
  rwa [← List.head_of_mem_head? hrow]

/-- Groups behind each other are written one by one. -/
theorem processRows_groups (gs : List (List (OpRow τ))) : ∀ {st : RwMerge τ ν} {last : OpRow τ}, Behind st last → [] ∉ gs →
    (∀ g ∈ gs, g.IsChain fun a b => continues f a b = true) →
    (gs.IsChain fun a b => ∃ ha hb, continues f (a.getLast ha) (b.head hb) = false) →
    (∀ g ∈ gs.head?, ∀ row ∈ g.head?, continues f last row = false) →
    (st.processRows f gs.flatten).2 ++ (st.processRows f gs.flatten).1.recordOp f =
      st.recordOp f ++ gs.flatMap fun g => (groupState f g).recordOp f := by
  induction gs with
  | nil =>
    intro st last _ _ _ _ _
    simp [RwMerge.processRows]
  | cons g gs ih =>
    intro st last hst hne hchains hcuts hhead
    rw [List.mem_cons, not_or] at hne
    rw [List.forall_mem_cons] at hchains
    cases g with
    | nil => exact absurd rfl hne.1
    | cons row more =>
      have hcut : continues f last row = false := hhead _ rfl row rfl
      have hbehind : Behind ((RwMerge.reset f row).add f row) row := behind_add rfl rfl
      obtain ⟨hrun, hlast⟩ := processRows_chain more hbehind hchains.1
      have hrest := ih hlast hne.2 hchains.2 hcuts.tail (cut_behind (List.cons_ne_nil _ _) hcuts)
      rw [List.flatten_cons, List.cons_append, RwMerge.processRows, processRow_eq hst, if_neg (by rw [hcut]; decide), hrun]
      dsimp only
      rw [List.append_assoc, hrest, List.flatMap_cons]
      rfl

theorem foldl_add_op (rows : List (OpRow τ)) : ∀ st : RwMerge τ ν,
    (rows.foldl (fun st row => st.add f row) st).op = st.op ∧ (rows.foldl (fun st row => st.add f row) st).name = st.name := by
  induction rows with
  | nil => exact fun st => ⟨rfl, rfl⟩
  | cons row rows ih =>
    intro st
    obtain ⟨hop, hname⟩ := ih (st.add f row)
    exact ⟨hop.trans (add_op st row).1, hname.trans (add_op st row).2⟩

theorem recordOp_initial (h : st.op = []) : st.recordOp f = [] := by rw [RwMerge.recordOp, if_pos h]

/-- What is written for rows is written group by group. -/
theorem rwmerge_groups (f : Floats τ ν) (rows : List (OpRow τ)) :
    rwmerge f rows = (groups f rows).flatMap fun g => (groupState f g).recordOp f := by
  obtain ⟨gs, hgs⟩ : ∃ gs, groups f rows = gs := ⟨_, rfl⟩
  obtain ⟨hflatten, hne, hchains, hcuts⟩ := List.splitBy_eq_iff.mp hgs
  rw [hgs, hflatten]
  cases gs with
  | nil => rfl
  | cons g gs =>
    rw [List.mem_cons, not_or] at hne
    rw [List.forall_mem_cons] at hchains
    cases g with
    | nil => exact absurd rfl hne.1
    | cons row more =>
      have hfollow : ∀ st : RwMerge τ ν, st.op = row.op → st.name = row.name →
          ((st.add f row).processRows f (more ++ gs.flatten)).2 ++ ((st.add f row).processRows f (more ++ gs.flatten)).1.recordOp f =
            (more.foldl (fun st row => st.add f row) (st.add f row)).recordOp f ++ gs.flatMap fun g => (groupState f g).recordOp f := by
        intro st hop hname
        obtain ⟨hrun, hlast⟩ := processRows_chain more (behind_add (f := f) hop hname) hchains.1
        rw [hrun]
        exact processRows_groups gs hlast hne.2 hchains.2 hcuts.tail (cut_behind (List.cons_ne_nil _ _) hcuts)
      rw [rwmerge, List.flatten_cons, List.cons_append, RwMerge.processRows, RwMerge.processRow, List.flatMap_cons]
      split
      · rw [recordOp_initial rfl, List.nil_append]
        exact hfollow (RwMerge.reset f row) rfl rfl
      · next hsame =>
        simp only [Bool.or_eq_true, decide_eq_true_eq, not_or, ne_eq, not_not] at hsame
        have hinit := hfollow (RwMerge.init f) hsame.1.1.symm hsame.1.2.symm
        have hnone : (more.foldl (fun st row => st.add f row) ((RwMerge.init f).add f row)).recordOp f = [] :=
          recordOp_initial ((foldl_add_op more _).1.trans (add_op _ row).1)
        have hnone' : (groupState f (row :: more)).recordOp f = [] := by
          refine recordOp_initial ((foldl_add_op (row :: more) _).1.trans ?_)
          exact hsame.1.1
        rw [hnone] at hinit
        rw [hnone']
        exact hinit

/-! ## Timestamps -/

/-- A byte of the row is in the extent. -/
def OpRow.Within (row : OpRow τ) (e : Nat × Nat) : Prop := ∃ seg, e.1 ≤ seg ∧ seg < e.1 + e.2 ∧ row.Touches seg

theorem lookup_foldl (segs : List Nat) (t : τ) (s : Nat) : ∀ segments : List (Nat × τ),
    (segs.foldl (fun segments seg => setSegment segments seg t) segments).lookup s =
      if s ∈ segs then some t else segments.lookup s := by
  induction segs with
  | nil => exact fun segments => by rw [if_neg List.not_mem_nil]; rfl
  | cons seg segs ih =>
    intro segments
    rw [List.foldl_cons, ih, lookup_setSegment]
    by_cases hs : s ∈ segs
    · rw [if_pos hs, if_pos (List.mem_cons_of_mem seg hs)]
    · by_cases heq : s = seg
      · rw [if_neg hs, if_pos heq, if_pos (heq ▸ List.mem_cons_self)]
      · rw [if_neg hs, if_neg heq, if_neg (by rw [List.mem_cons, not_or]; exact ⟨heq, hs⟩)]

theorem lookup_add (st : RwMerge τ ν) {row : OpRow τ} (hop : isRw row.op = true) (s : Nat) :
    (st.add f row).segments.lookup s = if s ∈ row.marks then some row.t else st.segments.lookup s := by
  rw [RwMerge.add, if_pos hop]
  exact lookup_foldl row.marks row.t s st.segments

/-- The time of a segment is that of the last row that marks it. -/
theorem lookup_group (s : Nat) (g : List (OpRow τ)) (hop : ∀ row ∈ g, isRw row.op = true) (st : RwMerge τ ν) (hst : st.segments = []) :
    (g.foldl (fun st row => st.add f row) st).segments.lookup s = (g.reverse.find? fun row => s ∈ row.marks).map OpRow.t := by
  induction g using List.reverseRecOn with
  | nil => rw [List.foldl_nil, hst]; rfl
  | append_singleton g row ih =>
    rw [List.foldl_concat, lookup_add _ (hop row (List.mem_append_right _ (List.mem_singleton_self row))),
      ih fun row' h => hop row' (List.mem_append_left _ h), List.reverse_concat, List.find?_cons]
    by_cases hs : s ∈ row.marks
    · simp [hs]
    · simp [hs]

theorem same_of_chain (more : List (OpRow τ)) : ∀ {last : OpRow τ}, (last :: more).IsChain (fun a b => continues f a b = true) →
    ∀ row ∈ last :: more, row.op = last.op ∧ row.name = last.name := by
  induction more with
  | nil =>
    intro last _ row hrow
    rw [List.mem_singleton.mp hrow]
    exact ⟨rfl, rfl⟩
  | cons next more ih =>
    intro last hchain row hrow
    rw [List.isChain_cons_cons] at hchain
    have hsame := hchain.1
    simp only [continues, Bool.not_eq_true', Bool.or_eq_false_iff, decide_eq_false_iff_not, ne_eq, not_not] at hsame
    rcases List.mem_cons.mp hrow with rfl | hrow
    · exact ⟨rfl, rfl⟩
    · obtain ⟨hop, hname⟩ := ih hchain.2 row hrow
      exact ⟨hop.trans hsame.1.1, hname.trans hsame.1.2⟩

theorem groupState_op (hg : row ∈ g) (hsame : ∀ a ∈ g, ∀ b ∈ g, a.op = b.op ∧ a.name = b.name) : (groupState f g).op = row.op := by
  cases g with
  | nil => cases hg
  | cons first more =>
    rw [groupState, (foldl_add_op (first :: more) _).1]
    exact (hsame first List.mem_cons_self row hg).1

/-- An extent's time is that of the last row that marks its first segment. -/
theorem recordRW_t (hop : ∀ row ∈ g, isRw row.op = true) {out : MergedRow τ ν} (hout : out ∈ (groupState f g).recordRW)
    {start count : Nat}
    (hstart : out.start = some start) (hcount : out.count = some count) :
    ∃ row, (g.reverse.find? fun row => start ∈ row.marks) = some row ∧ out.t = some row.t := by
  obtain ⟨e, he, rfl⟩ := List.mem_map.mp hout
  obtain rfl : e.1 = start := Option.some_inj.mp hstart
  have hstate : ∀ s, (groupState f g).segments.lookup s = (g.reverse.find? fun row => s ∈ row.marks).map OpRow.t := by
    intro s
    refine lookup_group s g hop _ ?_
    cases g <;> rfl
  have hkey : e.1 ∈ (groupState f g).segments.map Prod.fst := by
    rw [← List.mem_insertionSort (· ≤ ·), ← mem_extents_none]
    exact ⟨e, he, Nat.le_refl _, extents_none_le _ e he⟩
  obtain ⟨p, hp, hfst⟩ := List.mem_map.mp hkey
  have hsome : ((groupState f g).segments.lookup e.1).isSome = true := List.lookup_isSome_iff.mpr ⟨p, hp, by simpa using hfst.symm⟩
  rw [hstate, Option.isSome_map] at hsome
  obtain ⟨row, hrow⟩ := Option.isSome_iff_exists.mp hsome
  have htime := hstate e.1
  rw [hrow] at htime
  exact ⟨row, hrow, htime⟩

section Times

variable [LinearOrder τ]

/-- The last of the rows that mark a segment is the earliest, when times go down. -/
theorem least_of_last {p : OpRow τ → Bool} (hsorted : g.Pairwise fun a b => b.t ≤ a.t) (h : g.reverse.find? p = some row) :
    (row ∈ g ∧ p row = true) ∧ ∀ other ∈ g, p other = true → row.t ≤ other.t := by
  obtain ⟨hp, front, back, hreverse, hfront⟩ := List.find?_eq_some_iff_append.mp h
  have hmem : ∀ other, other ∈ g ↔ other ∈ front ++ row :: back := fun other => by rw [← hreverse, List.mem_reverse]
  refine ⟨⟨(hmem row).mpr (List.mem_append_right _ List.mem_cons_self), hp⟩, fun other hother hpother => ?_⟩
  have hup : (front ++ row :: back).Pairwise fun a b => a.t ≤ b.t := by
    rw [← hreverse, List.pairwise_reverse]
    exact hsorted
  rw [List.pairwise_append, List.pairwise_cons] at hup
  rcases List.mem_append.mp ((hmem other).mp hother) with h | h
  · have hnot := hfront other h
    rw [hpother] at hnot
    cases hnot
  · rcases List.mem_cons.mp h with rfl | h
    · exact le_refl _
    · exact hup.2.1.1 other h

/-- Rows of one op and one name do not go forward in time. -/
def Descending (rows : List (OpRow τ)) : Prop := rows.Pairwise fun a b => a.op = b.op → a.name = b.name → b.t ≤ a.t

/-- A group's rows are of one op and one name, and do not go forward in time. -/
theorem group_spec (hsorted : Descending rows) (hg : g ∈ groups f rows) :
    (∀ a ∈ g, ∀ b ∈ g, a.op = b.op ∧ a.name = b.name) ∧ g.Pairwise fun a b => b.t ≤ a.t := by
  obtain ⟨hflatten, hne, hchains, -⟩ := List.splitBy_eq_iff.mp (rfl : rows.splitBy (continues f) = groups f rows)
  have hsame : ∀ a ∈ g, ∀ b ∈ g, a.op = b.op ∧ a.name = b.name := by
    intro a ha b hb
    cases g with
    | nil => cases ha
    | cons first more =>
      have hall := same_of_chain more (hchains _ hg)
      exact ⟨(hall a ha).1.trans (hall b hb).1.symm, (hall a ha).2.trans (hall b hb).2.symm⟩
  refine ⟨hsame, ?_⟩
  have hsub : g.Sublist rows := by
    rw [hflatten]
    exact List.sublist_flatten_of_mem hg
  refine (hsorted.sublist hsub).imp_of_mem fun {a b} ha hb hab => ?_
  exact hab (hsame a ha b hb).1 (hsame a ha b hb).2

/-- The time of an extent is the smallest of the group's rows with a byte in it iff none of
    these is earlier than all rows that mark its first segment, nor any such row earlier than
    all of these. -/
theorem start_times_iff (f : Floats τ ν) (rows : List (OpRow τ)) (hsorted : Descending rows) :
    rwmerge f rows = (groups f rows).flatMap (fun g => (groupState f g).recordOp f) ∧
    ∀ g ∈ groups f rows, (∀ row ∈ g, isRw row.op = true) → ∀ out ∈ (groupState f g).recordOp f, ∀ start count,
      out.start = some start → out.count = some count →
      ((∃ t, out.t = some t ∧ IsLeast {t | ∃ row ∈ g, row.Within (start, count) ∧ row.t = t} t) ↔
        (∀ row ∈ g, row.Within (start, count) → ∃ first ∈ g, start ∈ first.marks ∧ first.t ≤ row.t) ∧
          ∀ first ∈ g, start ∈ first.marks → ∃ row ∈ g, row.Within (start, count) ∧ row.t ≤ first.t) := by
  refine ⟨rwmerge_groups f rows, fun g hg hop out hout start count hstart hcount => ?_⟩
  obtain ⟨hsame, hdown⟩ := group_spec hsorted hg
  have hrw : (groupState f g).recordOp f = (groupState f g).recordRW := by
    cases g with
    | nil => exact absurd hg (List.nil_notMem_splitBy _ _)
    | cons row more =>
      have hrow := groupState_op (f := f) List.mem_cons_self hsame
      have hne : (groupState f (row :: more)).op ≠ [] := by
        intro hempty
        have hbad := hop row List.mem_cons_self
        rw [← hrow, hempty] at hbad
        exact absurd hbad (by decide)
      rw [RwMerge.recordOp, if_neg hne, if_pos (by rw [hrow]; exact hop row List.mem_cons_self)]
  rw [hrw] at hout
  obtain ⟨last, hlast, ht⟩ := recordRW_t hop hout hstart hcount
  obtain ⟨⟨hmem, hmark⟩, hleast⟩ := least_of_last hdown hlast
  rw [decide_eq_true_eq] at hmark
  constructor
  · intro h
    obtain ⟨t, htime, ⟨row, hrow, hwithin, hrowt⟩, hbound⟩ := h
    obtain rfl : last.t = t := Option.some_inj.mp (ht.symm.trans htime)
    refine ⟨fun row hrow hwithin => ⟨last, hmem, hmark, hbound ⟨row, hrow, hwithin, rfl⟩⟩, fun first hfirst hmarks => ?_⟩
    exact ⟨row, hrow, hwithin, hrowt ▸ hleast first hfirst (decide_eq_true hmarks)⟩
  · intro h
    obtain ⟨row, hrow, hwithin, hle⟩ := h.2 last hmem hmark
    obtain ⟨first, hfirst, hmarks, hle'⟩ := h.1 row hrow hwithin
    have heq : row.t = last.t := le_antisymm hle (le_trans (hleast first hfirst (decide_eq_true hmarks)) hle')
    refine ⟨last.t, ht, ⟨row, hrow, hwithin, heq⟩, ?_⟩
    intro t hmemt
    obtain ⟨other, hother, hwithin', rfl⟩ := hmemt
    obtain ⟨first', hfirst', hmarks', hle''⟩ := h.1 other hother hwithin'
    exact le_trans (hleast first' hfirst' (decide_eq_true hmarks')) hle''

end Times

/-! ### Two writes -/

/-- Whole seconds, and no versions. -/
def wholeSeconds : Floats Nat Nat := ⟨fun t last => last.elim true fun t' => t + 4096 < t', 0, fun _ => 0, fun v _ => v, id⟩

theorem writeAt_exact (segment : Fin 2) : 4096 * segment.val + 4096 ≤ 2 ^ 53 := by omega

def writeAt (t : Nat) (segment : Fin 2) : OpRow Nat := ⟨t, "write".toList, ['f'], [], 4096 * segment, 4096, writeAt_exact segment⟩

/-- Forwards in time and in the file. -/
def forwardWrites : List (OpRow Nat) := [writeAt 2 1, writeAt 1 0]

/-- The second of the two segments is written first. -/
def backwardWrites : List (OpRow Nat) := [writeAt 2 0, writeAt 1 1]

theorem start_times_sample : ∃ t, some 1 = some t ∧ IsLeast {t | ∃ row ∈ forwardWrites, row.Within (0, 2) ∧ row.t = t} t := by
  have hsorted : Descending forwardWrites := by
    unfold Descending
    decide
  have hwithin : (writeAt 1 0).Within (0, 2) := ⟨0, by decide, by decide, 0, by decide, by decide, by decide⟩
  have hmem : writeAt 1 0 ∈ forwardWrites := by decide
  have htimes : ∀ row ∈ forwardWrites, 1 ≤ row.t := by decide
  refine ((start_times_iff wholeSeconds forwardWrites hsorted).2 forwardWrites (by decide) (by decide)
    ⟨some 1, "write".toList, ['f'], 0, some 0, some 2⟩ (by decide) 0 2 rfl rfl).mpr ⟨fun row hrow _ => ?_, fun first hfirst _ => ?_⟩
  · exact ⟨writeAt 1 0, hmem, by decide, htimes row hrow⟩
  · exact ⟨writeAt 1 0, hmem, hwithin, htimes first hfirst⟩

/-- The extent of both has the later time. -/
theorem backward_write_late :
    Descending backwardWrites ∧ rwmerge wholeSeconds backwardWrites = [⟨some 2, "write".toList, ['f'], 0, some 0, some 2⟩] ∧
      groups wholeSeconds backwardWrites = [backwardWrites] ∧
      ¬ IsLeast {t | ∃ row ∈ backwardWrites, row.Within (0, 2) ∧ row.t = t} 2 := by
  have hsorted : Descending backwardWrites := by
    unfold Descending
    decide
  have hwithin : (writeAt 1 1).Within (0, 2) := ⟨1, by decide, by decide, 4096, by decide, by decide, by decide⟩
  refine ⟨hsorted, by decide, by decide, fun h => ?_⟩
  have hle : 2 ≤ (writeAt 1 1).t := h.2 ⟨writeAt 1 1, by decide, hwithin, rfl⟩
  exact absurd hle (by decide)

end Nfsdump.Pathtree
