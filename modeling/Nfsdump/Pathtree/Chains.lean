/-
  Nfsdump.Pathtree.Chains — the paths that fullpath.cc and fullpath.js construct, and the
  rows they write.

  The chain of a handle goes from its last row to the parent's, up to a mountpoint or a
  handle without a row.

  Proved, for any rows whose chains end:
  - `paths_agree`: both programs return the names along the chain and where it ends;
  - `paths_disagree`: the handles for which they do not;
  - `handles_written_iff`: the rows they write are those of all handles that occur iff every
    parent has a row of its own;
  - `parent_not_written`: the handle at the top of an unresolved path has no row.
-/

import Nfsdump.Pathtree.FullPath
import Nfsdump.Pathtree.SvcQuerier

namespace Nfsdump.Pathtree

/-! ## Chains -/

/-- The last row of a handle. -/
def lastRow (rows : List Triple) (fh : Cell) : Option Triple := rows.reverse.find? fun row => row.fh = fh

/-- Where a chain ends. -/
inductive Stop where
  | mountpoint
  | unresolved (fh : Cell)
  deriving DecidableEq

/-- The second column of a full path. -/
def Stop.top : Stop → Cell
  | .mountpoint => []
  | .unresolved fh => fh

/-- The names from the outermost relation down to a handle, and where its chain ends. -/
inductive Chain (rows : List Triple) : Cell → List Cell → Stop → Prop
  | unresolved {fh : Cell} : lastRow rows fh = none → Chain rows fh [] (.unresolved fh)
  | mountpoint {fh : Cell} {row : Triple} : lastRow rows fh = some row → row.parent = MOUNTPOINT → Chain rows fh [row.name] .mountpoint
  | child {fh : Cell} {row : Triple} {names : List Cell} {stop : Stop} : lastRow rows fh = some row → row.parent ≠ MOUNTPOINT →
      Chain rows row.parent names stop → Chain rows fh (names ++ [row.name]) stop

variable {rows : List Triple} {fh : Cell} {row : Triple} {names : List Cell} {stop : Stop}

theorem mem_of_lastRow (h : lastRow rows fh = some row) : row ∈ rows ∧ row.fh = fh :=
  ⟨List.mem_reverse.mp (List.mem_of_find?_eq_some h), by simpa using List.find?_some h⟩

theorem lastRow_eq_none : lastRow rows fh = none ↔ fh ∉ rows.map Triple.fh := by
  rw [lastRow, List.find?_eq_none]
  simp

theorem lastRow_concat (rows : List Triple) (row : Triple) (fh : Cell) :
    lastRow (rows ++ [row]) fh = if fh = row.fh then some row else lastRow rows fh := by
  rw [lastRow, List.reverse_concat, List.find?_cons]
  by_cases h : row.fh = fh
  · simp [h]
  · simp only [h, decide_false, Ne.symm h, if_false]
    rfl

theorem parentOf_eq (h : lastRow rows fh = some row) (hparent : row.parent ≠ MOUNTPOINT) : parentOf rows fh = some row.parent := by
  have hfind : rows.reverse.find? (fun row => row.fh = fh) = some row := h
  rw [parentOf, hfind]
  exact if_neg hparent

/-- Without circles every handle has a chain. -/
theorem chain_of_acyclic (h : Ascent.Acyclic (parentOf rows)) (fh : Cell) : ∃ names stop, Chain rows fh names stop := by
  induction (parentOf_wellFounded_iff rows).mpr h fh with
  | intro fh _ ih =>
    cases hrow : lastRow rows fh with
    | none => exact ⟨_, _, .unresolved hrow⟩
    | some row =>
      by_cases hparent : row.parent = MOUNTPOINT
      · exact ⟨_, _, .mountpoint hrow hparent⟩
      · obtain ⟨names, stop, hchain⟩ := ih row.parent (parentOf_eq hrow hparent)
        exact ⟨_, _, .child hrow hparent hchain⟩

/-! ## Joining -/

/-- The names and what follows them, with `/` between them. -/
def joined (names : List Cell) (tail : Cell) : Cell := ['/'].intercalate (names ++ if tail = [] then [] else [tail])

theorem joined_nil (tail : Cell) : joined [] tail = tail := by
  unfold joined
  split
  · next h => rw [h]; rfl
  · exact List.intercalate_singleton

theorem joined_single (name tail : Cell) : joined [name] tail = if tail ≠ [] then name ++ '/' :: tail else name := by
  by_cases h : tail = []
  · rw [joined, if_pos h, if_neg (not_not.mpr h)]
    exact List.intercalate_singleton
  · rw [joined, if_neg h, if_pos h]
    simp [List.intercalate]

theorem intercalate_last (names : List Cell) (a b : Cell) :
    ['/'].intercalate (names ++ [a ++ '/' :: b]) = ['/'].intercalate (names ++ [a, b]) := by
  induction names with
  | nil => simp [List.intercalate]
  | cons name names ih =>
    rw [List.cons_append, List.cons_append, List.intercalate_cons_of_ne_nil (by simp), List.intercalate_cons_of_ne_nil (by simp), ih]

/-- A name in front of the tail. -/
theorem joined_joined {name : Cell} (hname : name ≠ []) (names : List Cell) (tail : Cell) :
    joined names (joined [name] tail) = joined (names ++ [name]) tail := by
  rw [joined_single]
  by_cases htail : tail = []
  · rw [if_neg (not_not.mpr htail), joined, joined, if_neg hname, if_pos htail, List.append_nil]
  · rw [if_pos htail, joined, joined, if_neg (by simp), if_neg htail, intercalate_last, List.append_assoc]
    rfl

theorem foldr_joined (names : List Cell) (hnames : ∀ name ∈ names, name ≠ []) :
    ∀ tail, names.foldr (fun name tail => joined [name] tail) tail = joined names tail := by
  induction names using List.reverseRecOn with
  | nil => exact fun tail => (joined_nil tail).symm
  | append_singleton names name ih =>
    intro tail
    rw [List.foldr_append, List.foldr_cons, List.foldr_nil, ih fun name h => hnames name (List.mem_append_left _ h),
      joined_joined (hnames name (List.mem_append_right _ (List.mem_singleton_self name)))]

theorem foldr_some (names : List Cell) (tail : Option Cell) :
    names.foldr (fun name tail => some (joined [name] (tail.getD []))) tail =
      if names = [] then tail else some (names.foldr (fun name tail => joined [name] tail) (tail.getD [])) := by
  induction names with
  | nil => rfl
  | cons name names ih =>
    rw [List.foldr_cons, ih, if_neg (List.cons_ne_nil _ _), List.foldr_cons]
    split
    · next h => rw [h]; rfl
    · rfl

/-! ## fullpath.cc -/

/-- Of rows as `input >> name` has read them: no cell is empty or has a blank in it. -/
def ccRelations (rows : List Triple) : CcRelations := parseInput (rows.flatMap fun row => [row.fh, row.name, row.parent]) fun _ => none

theorem triples_words (rows : List Triple) : triples (rows.flatMap fun row => [row.fh, row.name, row.parent]) = rows := by
  induction rows with
  | nil => rfl
  | cons row rows ih => exact congrArg (row :: ·) ih

theorem ccRelations_concat (rows : List Triple) (row : Triple) :
    ccRelations (rows ++ [row]) = ccInsert (ccRelations rows) row.fh row.name row.parent := by
  simp only [ccRelations, parseInput_eq, triples_words, List.foldl_concat]

/-- A relation is the last row's; behind a mountpoint's flag an older parent may be left. -/
theorem ccRelations_lastRow (rows : List Triple) (fh : Cell) :
    (lastRow rows fh = none → ccRelations rows fh = none) ∧
      ∀ row, lastRow rows fh = some row → ∃ parent, ccRelations rows fh = some ⟨row.name, parent, row.parent = MOUNTPOINT⟩ ∧
        (row.parent ≠ MOUNTPOINT → parent = row.parent) := by
  induction rows using List.reverseRecOn with
  | nil => exact ⟨fun _ => rfl, by simp [lastRow]⟩
  | append_singleton rows last ih =>
    rw [ccRelations_concat, lastRow_concat, ccInsert]
    by_cases h : fh = last.fh
    · simp only [h, if_true]
      refine ⟨by simp, fun row hrow => ?_⟩
      obtain rfl := Option.some_inj.mp hrow
      exact ⟨_, rfl, fun hparent => if_neg (by simpa using hparent)⟩
    · simp only [h, if_false]
      exact ih

def CcReturns (rows : List Triple) (fh tail : Cell) (r : Cell × Cell) : Prop :=
  ∃ n, ∀ fuel ≥ n, ccConstructPath (ccRelations rows) fuel fh tail = some r

/-- By induction on the chain, for any tail. -/
theorem Chain.cc_returns (h : Chain rows fh names stop) :
    ∀ tail, CcReturns rows fh tail (stop.top, names.foldr (fun name tail => joined [name] tail) tail) := by
  induction h with
  | @unresolved fh hrow =>
    intro tail
    refine ⟨1, fun fuel hfuel => ?_⟩
    obtain ⟨fuel, rfl⟩ := Nat.exists_eq_succ_of_ne_zero (Nat.ne_of_gt hfuel)
    rw [ccConstructPath, (ccRelations_lastRow rows fh).1 hrow]
    rfl
  | @mountpoint fh row hrow hparent =>
    intro tail
    obtain ⟨old, hrelation, -⟩ := (ccRelations_lastRow rows fh).2 row hrow
    refine ⟨1, fun fuel hfuel => ?_⟩
    obtain ⟨fuel, rfl⟩ := Nat.exists_eq_succ_of_ne_zero (Nat.ne_of_gt hfuel)
    rw [ccConstructPath, hrelation, List.foldr_cons, List.foldr_nil, joined_single]
    exact if_pos (decide_eq_true hparent)
  | @child fh row names stop hrow hparent _ ih =>
    intro tail
    obtain ⟨parent, hrelation, hup⟩ := (ccRelations_lastRow rows fh).2 row hrow
    obtain rfl := hup hparent
    obtain ⟨n, hn⟩ := ih (joined [row.name] tail)
    refine ⟨n + 1, fun fuel hfuel => ?_⟩
    obtain ⟨fuel, rfl⟩ := Nat.exists_eq_succ_of_ne_zero (Nat.ne_of_gt (Nat.lt_of_lt_of_le (Nat.succ_pos n) hfuel))
    rw [ccConstructPath, hrelation, List.foldr_append, List.foldr_cons, List.foldr_nil, ← hn fuel (Nat.le_of_succ_le_succ hfuel),
      joined_single]
    exact if_neg (by simpa using hparent)

/-! ## fullpath.js -/

/-- A handle that is neither empty nor something every object has. -/
structure IsHandle (fh : Cell) : Prop where
  nonempty : fh ≠ []
  own : fh ∉ inherited

theorem jsProcessRows_lastRow (start : JsRelations) (rows : List Triple) (fh : Cell) :
    (lastRow rows fh = none → rows.foldl jsProcessRow start fh = start fh) ∧
      ∀ row, lastRow rows fh = some row →
        rows.foldl jsProcessRow start fh = some ⟨row.name, if row.parent = MOUNTPOINT then none else some row.parent⟩ := by
  induction rows using List.reverseRecOn with
  | nil => exact ⟨fun _ => rfl, by simp [lastRow]⟩
  | append_singleton rows last ih =>
    rw [List.foldl_concat, lastRow_concat, jsProcessRow]
    by_cases h : fh = last.fh
    · simp only [h, if_true]
      refine ⟨by simp, fun row hrow => ?_⟩
      obtain rfl := Option.some_inj.mp hrow
      rfl
    · simp only [h, if_false]
      exact ih

def JsReturns (rows : List Triple) (fh : Cell) (tail : Option Cell) (r : Cell × Option Cell) : Prop :=
  ∃ n, ∀ fuel ≥ n, jsConstructPath (jsRelations rows) fuel fh tail = some r

theorem jsTail_eq (name : Cell) (tail : Option Cell) : name ++ jsTail tail = joined [name] (tail.getD []) := by
  rw [joined_single]
  cases tail with
  | none => exact List.append_nil name
  | some tail =>
    by_cases htail : tail = []
    · rw [jsTail, if_pos htail, Option.getD_some, if_neg (not_not.mpr htail), List.append_nil]
    · rw [jsTail, if_neg htail, Option.getD_some, if_pos htail]

theorem Chain.js_returns (h : Chain rows fh names stop) (hrows : ∀ row ∈ rows, row.parent ∉ inherited) : fh ∉ inherited →
    ∀ tail, JsReturns rows fh tail (stop.top, names.foldr (fun name tail => some (joined [name] (tail.getD []))) tail) := by
  induction h with
  | @unresolved fh hrow =>
    intro hfh tail
    refine ⟨1, fun fuel hfuel => ?_⟩
    obtain ⟨fuel, rfl⟩ := Nat.exists_eq_succ_of_ne_zero (Nat.ne_of_gt hfuel)
    rw [jsConstructPath, jsRelations, (jsProcessRows_lastRow _ rows fh).1 hrow, emptyObject_of_own hfh]
    rfl
  | @mountpoint fh row hrow hparent =>
    intro hfh tail
    refine ⟨1, fun fuel hfuel => ?_⟩
    obtain ⟨fuel, rfl⟩ := Nat.exists_eq_succ_of_ne_zero (Nat.ne_of_gt hfuel)
    rw [jsConstructPath, jsRelations, (jsProcessRows_lastRow _ rows fh).2 row hrow, if_pos hparent, List.foldr_cons, List.foldr_nil,
      ← jsTail_eq]
    rfl
  | @child fh row names stop hrow hparent _ ih =>
    intro hfh tail
    obtain ⟨n, hn⟩ := ih (hrows row (mem_of_lastRow hrow).1) (some (joined [row.name] (tail.getD [])))
    refine ⟨n + 1, fun fuel hfuel => ?_⟩
    obtain ⟨fuel, rfl⟩ := Nat.exists_eq_succ_of_ne_zero (Nat.ne_of_gt (Nat.lt_of_lt_of_le (Nat.succ_pos n) hfuel))
    rw [jsConstructPath, jsRelations, (jsProcessRows_lastRow _ rows fh).2 row hrow, if_neg hparent, List.foldr_append, List.foldr_cons,
      List.foldr_nil, ← hn fuel (Nat.le_of_succ_le_succ hfuel), ← jsTail_eq]
    rfl

/-! ## The paths -/

theorem Chain.top_eq_nil_iff (h : Chain rows fh names stop) (hfh : fh ≠ []) (hrows : ∀ row ∈ rows, row.parent ≠ []) :
    stop.top = [] ↔ stop = .mountpoint := by
  induction h with
  | unresolved _ => exact iff_of_false hfh nofun
  | mountpoint _ _ => exact iff_of_true rfl rfl
  | child hrow _ _ ih => exact ih (hrows _ (mem_of_lastRow hrow).1)

theorem Chain.names_mem (h : Chain rows fh names stop) : ∀ name ∈ names, ∃ row ∈ rows, row.name = name := by
  induction h with
  | unresolved _ => nofun
  | mountpoint hrow _ => exact fun name hname => ⟨_, (mem_of_lastRow hrow).1, (List.mem_singleton.mp hname).symm⟩
  | child hrow _ _ ih =>
    intro name hname
    rcases List.mem_append.mp hname with hname | hname
    · exact ih name hname
    · exact ⟨_, (mem_of_lastRow hrow).1, (List.mem_singleton.mp hname).symm⟩

/-- Both return where the chain ends and the names along it; without a relation there is no
    name, and the path is empty in one and undefined in the other. -/
theorem paths_agree (rows : List Triple) (hrows : ∀ row ∈ rows, row.name ≠ [] ∧ IsHandle row.fh ∧ IsHandle row.parent)
    (hacyclic : Ascent.Acyclic (parentOf rows)) (fh : Cell) (hfh : IsHandle fh) :
    ∃ names stop, Chain rows fh names stop ∧
      CcReturns rows fh [] (stop.top, ['/'].intercalate names) ∧
      JsReturns rows fh none (stop.top, if names = [] then none else some (['/'].intercalate names)) ∧
      (stop.top = [] ↔ stop = .mountpoint) := by
  obtain ⟨names, stop, hchain⟩ := chain_of_acyclic hacyclic fh
  have hnames : ∀ name ∈ names, name ≠ [] := by
    intro name hname
    obtain ⟨row, hrow, rfl⟩ := hchain.names_mem name hname
    exact (hrows row hrow).1
  have hpath : names.foldr (fun name tail => joined [name] tail) [] = ['/'].intercalate names := by
    rw [foldr_joined names hnames, joined, if_pos rfl, List.append_nil]
  have hcc := hchain.cc_returns []
  have hjs := hchain.js_returns (fun row h => (hrows row h).2.2.own) hfh.own none
  rw [hpath] at hcc
  rw [foldr_some, Option.getD_none, hpath] at hjs
  exact ⟨names, stop, hchain, hcc, hjs, hchain.top_eq_nil_iff hfh.nonempty fun row h => (hrows row h).2.2.nonempty⟩

/-- Two rows of the README. -/
def sampleRows : List Triple :=
  [⟨"77ad".toList, "C".toList, "9a65".toList⟩, ⟨"1fd1".toList, "D".toList, "77ad".toList⟩]

theorem isHandle_iff : IsHandle fh ↔ fh ≠ [] ∧ fh ∉ inherited := ⟨fun h => ⟨h.nonempty, h.own⟩, fun h => ⟨h.1, h.2⟩⟩

theorem sampleRows_acyclic : Ascent.Acyclic (parentOf sampleRows) := by
  refine Ascent.acyclic_of_rank (fun fh => (["9a65", "77ad", "1fd1"].map String.toList).findIdx fun gh => gh = fh) fun k l h => ?_
  have hk : k ∈ sampleRows.map Triple.fh := mem_of_parentOf (by rw [h]; nofun)
  have hup : parentOf sampleRows "77ad".toList = some "9a65".toList ∧ parentOf sampleRows "1fd1".toList = some "77ad".toList := by
    decide
  simp only [sampleRows, List.map_cons, List.map_nil, List.mem_cons, List.not_mem_nil, or_false] at hk
  rcases hk with rfl | rfl
  · obtain rfl := Option.some_inj.mp (h.symm.trans hup.1)
    decide
  · obtain rfl := Option.some_inj.mp (h.symm.trans hup.2)
    decide

theorem sampleRows_handles : ∀ row ∈ sampleRows, row.name ≠ [] ∧ IsHandle row.fh ∧ IsHandle row.parent := by
  simp only [isHandle_iff]
  decide

theorem paths_agree_sample : ∃ names stop, Chain sampleRows "1fd1".toList names stop ∧
    CcReturns sampleRows "1fd1".toList [] (stop.top, ['/'].intercalate names) := by
  obtain ⟨names, stop, hchain, hcc, -, -⟩ := paths_agree sampleRows sampleRows_handles sampleRows_acyclic "1fd1".toList
    (isHandle_iff.mpr (by decide))
  exact ⟨names, stop, hchain, hcc⟩

/-- A handle without a relation has no path in one program and an empty one in the other; an
    empty handle at the top passes for a mountpoint; and every object has a constructor. -/
theorem paths_disagree :
    (CcReturns [] "77ad".toList [] ("77ad".toList, []) ∧ JsReturns [] "77ad".toList none ("77ad".toList, none)) ∧
    (CcReturns [⟨"77ad".toList, "C".toList, []⟩] "77ad".toList [] ([], "C".toList) ∧
      Chain [⟨"77ad".toList, "C".toList, []⟩] "77ad".toList ["C".toList] (.unresolved [])) ∧
    (CcReturns [] "constructor".toList [] ("constructor".toList, []) ∧
      ∃ top, JsReturns [] "constructor".toList none (top, some "Object".toList)) := by
  have once : ∀ fuel ≥ 1, ∃ n, fuel = n + 1 := fun fuel h => Nat.exists_eq_succ_of_ne_zero (Nat.ne_of_gt h)
  have twice : ∀ fuel ≥ 2, ∃ n, fuel = n + 2 := fun fuel h => ⟨fuel - 2, by omega⟩
  have hlast : lastRow [⟨"77ad".toList, "C".toList, []⟩] "77ad".toList = some ⟨"77ad".toList, "C".toList, []⟩ := by decide
  have hempty : Chain [⟨"77ad".toList, "C".toList, []⟩] "77ad".toList ([] ++ ["C".toList]) (.unresolved []) :=
    .child hlast (by decide) (.unresolved (by decide))
  refine ⟨⟨⟨1, fun fuel h => ?_⟩, ⟨1, fun fuel h => ?_⟩⟩, ⟨⟨2, fun fuel h => ?_⟩, hempty⟩,
    ⟨⟨1, fun fuel h => ?_⟩, "undefined".toList, 2, fun fuel h => ?_⟩⟩
  · obtain ⟨n, rfl⟩ := once fuel h
    rfl
  · obtain ⟨n, rfl⟩ := once fuel h
    rfl
  · obtain ⟨n, rfl⟩ := twice fuel h
    rfl
  · obtain ⟨n, rfl⟩ := once fuel h
    rfl
  · obtain ⟨n, rfl⟩ := twice fuel h
    rfl

/-! ## The rows written -/

/-- The keys of a map in some order. -/
structure Keys {α : Type} (map : Cell → Option α) (keys : List Cell) : Prop where
  nodup : keys.Nodup
  mem : ∀ key, key ∈ keys ↔ map key ≠ none

def ccWriteResults (relations : CcRelations) (fuel : Nat) (keys : List Cell) : Option (List PathRow) :=
  keys.mapM fun fh => (ccConstructPath relations fuel fh []).map fun r => ⟨fh, some r.1, some r.2⟩

def jsWriteResults (relations : JsRelations) (fuel : Nat) (keys : List Cell) : Option (List PathRow) :=
  keys.mapM fun fh => (jsConstructPath relations fuel fh none).map fun r => ⟨fh, some r.1, r.2⟩

/-- The program writes these rows, its map listed in this order. -/
def CcWrites (rows : List Triple) (keys : List Cell) (out : List PathRow) : Prop :=
  Keys (ccRelations rows) keys ∧ ∃ n, ∀ fuel ≥ n, ccWriteResults (ccRelations rows) fuel keys = some out

/-- `Object.keys` lists what was put there. -/
def JsWrites (rows : List Triple) (keys : List Cell) (out : List PathRow) : Prop :=
  Keys (rows.foldl jsProcessRow fun _ => none) keys ∧ ∃ n, ∀ fuel ≥ n, jsWriteResults (jsRelations rows) fuel keys = some out

def Occurs (rows : List Triple) (fh : Cell) : Prop :=
  fh ∈ rows.map Triple.fh ∨ fh ≠ MOUNTPOINT ∧ fh ∈ rows.map Triple.parent

/-- One row for every handle that occurs, and an empty path for one without a relation. -/
structure EveryHandle (rows : List Triple) (out : List PathRow) : Prop where
  once : (out.map PathRow.fh).Nodup
  all : ∀ fh, fh ∈ out.map PathRow.fh ↔ Occurs rows fh
  alone : ∀ row ∈ out, row.fh ∉ rows.map Triple.fh → row.top = some row.fh ∧ row.path.getD [] = []

/-- Every parent has a row of its own. -/
def ParentsKnown (rows : List Triple) : Prop := ∀ row ∈ rows, row.parent ≠ MOUNTPOINT → row.parent ∈ rows.map Triple.fh

theorem keys_of_lastRow {α : Type} {map : Cell → Option α} (hmap : ∀ fh, map fh = none ↔ lastRow rows fh = none) {keys : List Cell}
    (h : Keys map keys) (fh : Cell) : fh ∈ keys ↔ fh ∈ rows.map Triple.fh := by
  rw [h.mem, ne_eq, hmap, lastRow_eq_none, not_not]

theorem everyHandle_iff {keys : List Cell} {out : List PathRow} (hnodup : keys.Nodup)
    (hkeys : ∀ fh, fh ∈ keys ↔ fh ∈ rows.map Triple.fh) (hout : out.map PathRow.fh = keys) :
    EveryHandle rows out ↔ ParentsKnown rows := by
  constructor
  · intro h row hrow hparent
    have hwritten := (h.all row.parent).mpr (Or.inr ⟨hparent, List.mem_map_of_mem hrow⟩)
    rwa [hout, hkeys] at hwritten
  · intro h
    refine ⟨hout ▸ hnodup, fun fh => ?_, fun row hrow hnone => ?_⟩
    · rw [hout, hkeys]
      refine ⟨Or.inl, fun hoccurs => ?_⟩
      rcases hoccurs with hfh | ⟨hmount, hparent⟩
      · exact hfh
      · obtain ⟨row, hrow, rfl⟩ := List.mem_map.mp hparent
        exact h row hrow hmount
    · have hwritten := List.mem_map_of_mem (f := PathRow.fh) hrow
      rw [hout, hkeys] at hwritten
      exact absurd hwritten hnone

/-- What each key returns, with fuel enough for all of them. -/
theorem mapM_returns {construct : Nat → Cell → Option PathRow} {keys : List Cell}
    (h : ∀ fh ∈ keys, ∃ row : PathRow, row.fh = fh ∧ ∃ n, ∀ fuel ≥ n, construct fuel fh = some row) :
    ∃ out : List PathRow, out.map PathRow.fh = keys ∧ ∃ n, ∀ fuel ≥ n, keys.mapM (construct fuel) = some out := by
  induction keys with
  | nil => exact ⟨[], rfl, 0, fun _ _ => rfl⟩
  | cons fh keys ih =>
    rw [List.forall_mem_cons] at h
    obtain ⟨⟨row, rfl, n, hn⟩, hrest⟩ := h
    obtain ⟨out, rfl, m, hm⟩ := ih hrest
    refine ⟨row :: out, rfl, max n m, fun fuel hfuel => ?_⟩
    rw [List.mapM_cons, hn fuel (le_of_max_le_left hfuel), hm fuel (le_of_max_le_right hfuel)]
    rfl

theorem ccWrites_of_acyclic (hacyclic : Ascent.Acyclic (parentOf rows)) {keys : List Cell} (hkeys : Keys (ccRelations rows) keys) :
    ∃ out, CcWrites rows keys out ∧ out.map PathRow.fh = keys := by
  have hreturns : ∀ fh ∈ keys, ∃ row : PathRow, row.fh = fh ∧ ∃ n, ∀ fuel ≥ n,
      ((ccConstructPath (ccRelations rows) fuel fh []).map fun r => (⟨fh, some r.1, some r.2⟩ : PathRow)) = some row := by
    intro fh _
    obtain ⟨names, stop, hchain⟩ := chain_of_acyclic hacyclic fh
    obtain ⟨n, hn⟩ := hchain.cc_returns []
    exact ⟨_, rfl, n, fun fuel hfuel => by rw [hn fuel hfuel]; rfl⟩
  obtain ⟨out, hout, hwritten⟩ := mapM_returns hreturns
  exact ⟨out, ⟨hkeys, hwritten⟩, hout⟩

theorem jsWrites_of_acyclic (hacyclic : Ascent.Acyclic (parentOf rows))
    (hrows : ∀ row ∈ rows, row.fh ∉ inherited ∧ row.parent ∉ inherited) {keys : List Cell}
    (hkeys : Keys (rows.foldl jsProcessRow fun _ => none) keys) (hmem : ∀ fh ∈ keys, fh ∈ rows.map Triple.fh) :
    ∃ out, JsWrites rows keys out ∧ out.map PathRow.fh = keys := by
  have hreturns : ∀ fh ∈ keys, ∃ row : PathRow, row.fh = fh ∧ ∃ n, ∀ fuel ≥ n,
      ((jsConstructPath (jsRelations rows) fuel fh none).map fun r => (⟨fh, some r.1, r.2⟩ : PathRow)) = some row := by
    intro fh hfh
    obtain ⟨row, hrow, rfl⟩ := List.mem_map.mp (hmem fh hfh)
    obtain ⟨names, stop, hchain⟩ := chain_of_acyclic hacyclic row.fh
    obtain ⟨n, hn⟩ := hchain.js_returns (fun row h => (hrows row h).2) (hrows row hrow).1 none
    exact ⟨_, rfl, n, fun fuel hfuel => by rw [hn fuel hfuel]; rfl⟩
  obtain ⟨out, hout, hwritten⟩ := mapM_returns hreturns
  exact ⟨out, ⟨hkeys, hwritten⟩, hout⟩

theorem ccRelations_eq_none (rows : List Triple) (fh : Cell) : ccRelations rows fh = none ↔ lastRow rows fh = none := by
  refine ⟨fun h => ?_, (ccRelations_lastRow rows fh).1⟩
  by_contra hrow
  obtain ⟨row, hrow⟩ := Option.ne_none_iff_exists'.mp hrow
  obtain ⟨_, hrelation, -⟩ := (ccRelations_lastRow rows fh).2 row hrow
  rw [hrelation] at h
  cases h

theorem jsProcessRows_eq_none (rows : List Triple) (fh : Cell) :
    rows.foldl jsProcessRow (fun _ => none) fh = none ↔ lastRow rows fh = none := by
  refine ⟨fun h => ?_, (jsProcessRows_lastRow _ rows fh).1⟩
  by_contra hrow
  obtain ⟨row, hrow⟩ := Option.ne_none_iff_exists'.mp hrow
  rw [(jsProcessRows_lastRow _ rows fh).2 row hrow] at h
  cases h

/-- Every handle that occurs gets its row iff every parent is a handle with a row. -/
theorem handles_written_iff (rows : List Triple) (hacyclic : Ascent.Acyclic (parentOf rows)) :
    (∀ keys, Keys (ccRelations rows) keys → ∃ out, CcWrites rows keys out ∧ (EveryHandle rows out ↔ ParentsKnown rows)) ∧
    ((∀ row ∈ rows, row.fh ∉ inherited ∧ row.parent ∉ inherited) → ∀ keys, Keys (rows.foldl jsProcessRow fun _ => none) keys →
      ∃ out, JsWrites rows keys out ∧ (EveryHandle rows out ↔ ParentsKnown rows)) := by
  constructor
  · intro keys hkeys
    obtain ⟨out, hwrites, hout⟩ := ccWrites_of_acyclic hacyclic hkeys
    exact ⟨out, hwrites, everyHandle_iff hkeys.nodup (keys_of_lastRow (ccRelations_eq_none rows) hkeys) hout⟩
  · intro hrows keys hkeys
    have hmem := keys_of_lastRow (jsProcessRows_eq_none rows) hkeys
    obtain ⟨out, hwrites, hout⟩ := jsWrites_of_acyclic hacyclic hrows hkeys fun fh => (hmem fh).mp
    exact ⟨out, hwrites, everyHandle_iff hkeys.nodup hmem hout⟩

theorem sampleRows_keys {α : Type} {map : Cell → Option α} (hmap : ∀ fh, map fh = none ↔ lastRow sampleRows fh = none) :
    Keys map ["77ad".toList, "1fd1".toList] where
  nodup := by decide
  mem := by
    intro fh
    rw [ne_eq, hmap, lastRow_eq_none, not_not]
    rfl

/-- A mountpoint and a directory in it. -/
def mountedRows : List Triple := [⟨"cf46".toList, "/export1".toList, MOUNTPOINT⟩, ⟨"6adf".toList, "A".toList, "cf46".toList⟩]

theorem mountedRows_acyclic : Ascent.Acyclic (parentOf mountedRows) := by
  refine Ascent.acyclic_of_rank (fun fh => if fh = "6adf".toList then 1 else 0) fun fh gh h => ?_
  have hrows : parentOf mountedRows "cf46".toList = none ∧ parentOf mountedRows "6adf".toList = some "cf46".toList := by decide
  have hmem : fh ∈ mountedRows.map Triple.fh := mem_of_parentOf (by rw [h]; simp)
  simp only [mountedRows, List.map_cons, List.map_nil, List.mem_cons, List.not_mem_nil, or_false] at hmem
  rcases hmem with rfl | rfl
  · rw [hrows.1] at h
    cases h
  · obtain rfl := Option.some_inj.mp (hrows.2.symm.trans h)
    decide

theorem mountedRows_keys {α : Type} {map : Cell → Option α} (hmap : ∀ fh, map fh = none ↔ lastRow mountedRows fh = none) :
    Keys map ["cf46".toList, "6adf".toList] where
  nodup := by decide
  mem := by
    intro fh
    rw [ne_eq, hmap, lastRow_eq_none, not_not]
    rfl

/-- All parents have rows in one list, and one has none in the other. -/
theorem handles_written_sample :
    (ParentsKnown mountedRows ∧ ∃ out, JsWrites mountedRows ["cf46".toList, "6adf".toList] out ∧
      (EveryHandle mountedRows out ↔ ParentsKnown mountedRows)) ∧
    ¬ ParentsKnown sampleRows ∧ ∃ out, CcWrites sampleRows ["77ad".toList, "1fd1".toList] out ∧
      (EveryHandle sampleRows out ↔ ParentsKnown sampleRows) := by
  have hown : ∀ row ∈ mountedRows, row.fh ∉ inherited ∧ row.parent ∉ inherited := by decide
  refine ⟨⟨by unfold ParentsKnown; decide, ?_⟩, by unfold ParentsKnown; decide, ?_⟩
  · exact (handles_written_iff mountedRows mountedRows_acyclic).2 hown _ (mountedRows_keys (jsProcessRows_eq_none mountedRows))
  · exact (handles_written_iff sampleRows sampleRows_acyclic).1 _ (sampleRows_keys (ccRelations_eq_none sampleRows))

def sampleOut : List PathRow :=
  [⟨"77ad".toList, some "9a65".toList, some "C".toList⟩, ⟨"1fd1".toList, some "9a65".toList, some "C/D".toList⟩]

/-- The parent `9a65` occurs, and gets no row. -/
theorem parent_not_written : Occurs sampleRows "9a65".toList ∧ "9a65".toList ∉ sampleOut.map PathRow.fh ∧
    CcWrites sampleRows ["77ad".toList, "1fd1".toList] sampleOut ∧ JsWrites sampleRows ["77ad".toList, "1fd1".toList] sampleOut := by
  have thrice : ∀ fuel ≥ 3, ∃ n, fuel = n + 3 := fun fuel h => ⟨fuel - 3, by omega⟩
  refine ⟨Or.inr (by decide), by decide, ⟨sampleRows_keys (ccRelations_eq_none sampleRows), 3, fun fuel h => ?_⟩,
    ⟨sampleRows_keys (jsProcessRows_eq_none sampleRows), 3, fun fuel h => ?_⟩⟩
  · obtain ⟨n, rfl⟩ := thrice fuel h
    rfl
  · obtain ⟨n, rfl⟩ := thrice fuel h
    rfl

end Nfsdump.Pathtree
