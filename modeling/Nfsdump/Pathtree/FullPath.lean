/-
  Nfsdump.Pathtree.FullPath — fullpath.cc and fullpath.js: the rows of fhparent in, a path
  for each handle out.

  Both keep a row per handle, the last one read, and climb from handle to parent until
  there is no row or a mountpoint. Neither remembers where it has been. `relations` of
  fullpath.js is an object, and what every object has is found in it before anything is put
  there. The C++ program reads words, behind a `tr` of the commas to tabs; the other lets the csv module cut the
  rows.

  Proved, for every dump and whatever the csv module writes and reads:
  - `ccEnds_iff`, `jsEnds_iff`: `constructPath` ends for every handle iff the parents of the
    last rows do not run in a circle;
  - `paths_end_iff`: both, for the output of fhparent.
-/

import Nfsdump.Lib.Ascent
import Nfsdump.Lib.Words
import Nfsdump.Pathtree.FhParent
import Nfsdump.Pathtree.SvcQuerier

namespace Nfsdump.Pathtree

/-- A row as a program has read it. -/
structure Triple where
  fh : Cell
  name : Cell
  parent : Cell
  deriving DecidableEq, Repr

def MOUNTPOINT : Cell := "MOUNTPOINT".toList

/-! ## fullpath.cc -/

structure CcRelation where
  name : Cell
  parent : Cell
  mountpoint : Bool

abbrev CcRelations := Cell → Option CcRelation

/-- The body of the loop; `relations[fh]` makes an empty relation where there is none. -/
def ccInsert (relations : CcRelations) (fh name parent : Cell) : CcRelations :=
  let relation := (relations fh).getD ⟨[], [], false⟩
  let mountpoint := parent = MOUNTPOINT
  let relation : CcRelation := ⟨name, if mountpoint then relation.parent else parent, mountpoint⟩
  fun key => if key = fh then some relation else relations key

/-- `while (input >> fh >> name >> parent)`. -/
def parseInput : List Cell → CcRelations → CcRelations
  | fh :: name :: parent :: input, relations => parseInput input (ccInsert relations fh name parent)
  | _, relations => relations

/-- The recursion has no bound in the source; `none` is that the fuel ran out. -/
def ccConstructPath (relations : CcRelations) : Nat → Cell → Cell → Option (Cell × Cell)
  | 0, _, _ => none
  | fuel + 1, fh, tail =>
    match relations fh with
    | none => some (fh, tail)
    | some relation =>
      let newTail := if tail ≠ [] then relation.name ++ '/' :: tail else relation.name
      if relation.mountpoint then some ([], newTail)
      else ccConstructPath relations fuel relation.parent newTail

/-! ## fullpath.js -/

structure JsRelation where
  name : Cell
  /-- `none` for a mountpoint. -/
  parent : Option Cell

abbrev JsRelations := Cell → Option JsRelation

def jsProcessRow (relations : JsRelations) (row : Triple) : JsRelations :=
  let relation : JsRelation := ⟨row.name, if row.parent = MOUNTPOINT then none else some row.parent⟩
  fun key => if key = row.fh then some relation else relations key

/-- What an object has that nothing was put into: functions with their names, which have no
    parent. Undefined is used as a key by its text. -/
def emptyObject : JsRelations := fun key =>
  if key = "constructor".toList then some ⟨"Object".toList, some "undefined".toList⟩
  else if key = "__proto__".toList then some ⟨"undefined".toList, some "undefined".toList⟩
  else if key ∈ inherited then some ⟨key, some "undefined".toList⟩
  else none

def jsRelations (rows : List Triple) : JsRelations := rows.foldl jsProcessRow emptyObject

/-- `tail ? '/' + tail : ''`. -/
def jsTail : Option Cell → Cell
  | some tail => if tail = [] then [] else '/' :: tail
  | none => []

/-- `tail` is undefined at first. -/
def jsConstructPath (relations : JsRelations) : Nat → Cell → Option Cell → Option (Cell × Option Cell)
  | 0, _, _ => none
  | fuel + 1, fh, tail =>
    match relations fh with
    | none => some (fh, tail)
    | some relation =>
      match relation.parent with
      | none => some ([], some (relation.name ++ jsTail tail))
      | some parent => jsConstructPath relations fuel parent (some (relation.name ++ jsTail tail))

/-! ## The last rows -/

/-- The parent in the last row of a handle, if that is no mountpoint's. -/
def parentOf (rows : List Triple) (fh : Cell) : Option Cell :=
  match rows.reverse.find? fun row => row.fh = fh with
  | none => none
  | some row => if row.parent = MOUNTPOINT then none else some row.parent

theorem parentOf_concat (rows : List Triple) (row : Triple) (fh : Cell) :
    parentOf (rows ++ [row]) fh =
      if fh = row.fh then if row.parent = MOUNTPOINT then none else some row.parent else parentOf rows fh := by
  rw [parentOf, List.reverse_concat, List.find?_cons]
  by_cases h : row.fh = fh
  · simp [h]
  · simp only [h, decide_false, Ne.symm h, if_false]
    rfl

theorem mem_of_parentOf {rows : List Triple} {fh : Cell} (h : parentOf rows fh ≠ none) : fh ∈ rows.map Triple.fh := by
  cases hrow : rows.reverse.find? fun row => row.fh = fh with
  | none => rw [parentOf, hrow] at h; exact absurd rfl h
  | some row =>
    have hfh : row.fh = fh := by simpa using List.find?_some hrow
    rw [← hfh]
    exact List.mem_map_of_mem (List.mem_reverse.mp (List.mem_of_find?_eq_some hrow))

/-- Where the C++ program goes from a handle. -/
def ccNext (relations : CcRelations) (fh : Cell) : Option Cell :=
  (relations fh).bind fun relation => if relation.mountpoint then none else some relation.parent

def jsNext (relations : JsRelations) (fh : Cell) : Option Cell := (relations fh).bind JsRelation.parent

/-- The words of the input, three to a row. -/
def triples : List Cell → List Triple
  | fh :: name :: parent :: input => ⟨fh, name, parent⟩ :: triples input
  | _ => []

theorem parseInput_eq (input : List Cell) : ∀ relations,
    parseInput input relations = (triples input).foldl (fun r row => ccInsert r row.fh row.name row.parent) relations := by
  induction input using triples.induct with
  | case1 fh name parent input ih => intro relations; rw [parseInput, triples, List.foldl_cons, ih]
  | case2 input hshort => intro relations; rw [parseInput, triples, List.foldl_nil] <;> exact hshort

theorem ccNext_rows (rows : List Triple) :
    ccNext (rows.foldl (fun r row => ccInsert r row.fh row.name row.parent) fun _ => none) = parentOf rows := by
  induction rows using List.reverseRecOn with
  | nil => rfl
  | append_singleton rows row ih =>
    funext fh
    rw [parentOf_concat, List.foldl_concat, ccNext, ccInsert]
    by_cases h : fh = row.fh
    · by_cases hm : row.parent = MOUNTPOINT <;> simp [h, hm]
    · simp only [h, if_false]
      rw [← ih]
      rfl

theorem emptyObject_of_own (h : fh ∉ inherited) : emptyObject fh = none := by
  have hconstructor : fh ≠ "constructor".toList := by
    rintro rfl
    exact h (by decide)
  have hproto : fh ≠ "__proto__".toList := by
    rintro rfl
    exact h (by decide)
  rw [emptyObject, if_neg hconstructor, if_neg hproto, if_neg h]

/-- A handle without a row has no parent, unless every object has a property of its name. -/
theorem jsNext_rows (rows : List Triple) (fh : Cell) : jsNext (jsRelations rows) fh =
    if fh ∈ rows.map Triple.fh then parentOf rows fh else jsNext emptyObject fh := by
  induction rows using List.reverseRecOn with
  | nil => rfl
  | append_singleton rows row ih =>
    have hmem : fh ∈ (rows ++ [row]).map Triple.fh ↔ fh ∈ rows.map Triple.fh ∨ fh = row.fh := by simp
    rw [parentOf_concat, jsRelations, List.foldl_concat, jsNext, jsProcessRow]
    by_cases h : fh = row.fh
    · rw [if_pos (hmem.mpr (Or.inr h))]
      by_cases hm : row.parent = MOUNTPOINT
      · simp [h, hm]
      · simp [h, hm]
    · simp only [hmem, h, if_false, or_false]
      exact ih

theorem jsNext_emptyObject (fh : Cell) : jsNext emptyObject fh = none ∨ jsNext emptyObject fh = some "undefined".toList := by
  unfold jsNext emptyObject
  split
  · exact Or.inr rfl
  · split
    · exact Or.inr rfl
    · split
      · exact Or.inr rfl
      · exact Or.inl rfl

theorem parentOf_mem {rows : List Triple} {fh gh : Cell} (h : parentOf rows fh = some gh) : ∃ row ∈ rows, row.parent = gh := by
  unfold parentOf at h
  split at h
  · cases h
  · next row hrow =>
    split at h
    · cases h
    · exact ⟨row, List.mem_reverse.mp (List.mem_of_find?_eq_some hrow), Option.some_inj.mp h⟩

/-! ## Termination -/

/-- `constructPath` ends for a handle. -/
def CcEnds (relations : CcRelations) (fh : Cell) : Prop := ∃ fuel, (ccConstructPath relations fuel fh []).isSome
def JsEnds (relations : JsRelations) (fh : Cell) : Prop := ∃ fuel, (jsConstructPath relations fuel fh none).isSome

/-- What the C++ program has gathered behind a handle. -/
def ccGo (relations : CcRelations) (fh tail : Cell) : Cell :=
  match relations fh with
  | none => tail
  | some relation => if tail ≠ [] then relation.name ++ '/' :: tail else relation.name

def ccStop (relations : CcRelations) (fh tail : Cell) : Cell × Cell :=
  match relations fh with
  | none => (fh, tail)
  | some _ => ([], ccGo relations fh tail)

def jsGo (relations : JsRelations) (fh : Cell) (tail : Option Cell) : Option Cell :=
  match relations fh with
  | none => tail
  | some relation => some (relation.name ++ jsTail tail)

def jsStop (relations : JsRelations) (fh : Cell) (tail : Option Cell) : Cell × Option Cell :=
  match relations fh with
  | none => (fh, tail)
  | some _ => ([], jsGo relations fh tail)

theorem ccConstructPath_eq (relations : CcRelations) (fuel : Nat) : ∀ fh tail,
    ccConstructPath relations fuel fh tail = Ascent.climb (ccNext relations) (ccStop relations) (ccGo relations) fuel fh tail := by
  induction fuel with
  | zero => intro fh tail; rfl
  | succ fuel ih =>
    intro fh tail
    cases h : relations fh with
    | none => simp only [ccConstructPath, Ascent.climb, ccNext, ccStop, h, Option.bind_none]
    | some relation =>
      cases hm : relation.mountpoint with
      | true => simp [ccConstructPath, Ascent.climb, ccNext, ccStop, ccGo, h, hm]
      | false => simp [ccConstructPath, Ascent.climb, ccNext, ccGo, h, hm, ih]

theorem jsConstructPath_eq (relations : JsRelations) (fuel : Nat) : ∀ fh tail,
    jsConstructPath relations fuel fh tail = Ascent.climb (jsNext relations) (jsStop relations) (jsGo relations) fuel fh tail := by
  induction fuel with
  | zero => intro fh tail; rfl
  | succ fuel ih =>
    intro fh tail
    cases h : relations fh with
    | none => simp only [jsConstructPath, Ascent.climb, jsNext, jsStop, h, Option.bind_none]
    | some relation =>
      cases hp : relation.parent with
      | none => simp [jsConstructPath, Ascent.climb, jsNext, jsStop, jsGo, h, hp]
      | some parent => simp [jsConstructPath, Ascent.climb, jsNext, jsGo, h, hp, ih]

theorem parentOf_wellFounded_iff (rows : List Triple) :
    (∀ fh, Acc (fun l k => Ascent.Up (parentOf rows) k l) fh) ↔ Ascent.Acyclic (parentOf rows) := by
  rw [← Ascent.wellFounded_iff (fun _ => mem_of_parentOf)]
  exact ⟨fun h => ⟨h⟩, fun h => h.apply⟩

theorem ccEnds_iff (input : List Cell) :
    (∀ fh, CcEnds (parseInput input fun _ => none) fh) ↔ Ascent.Acyclic (parentOf (triples input)) := by
  rw [← parentOf_wellFounded_iff, ← ccNext_rows, ← parseInput_eq]
  refine forall_congr' fun fh => ?_
  simp only [CcEnds, ccConstructPath_eq]
  exact Ascent.climb_ends_iff

/-- The rows have no handle of a name that every object has. -/
def OwnHandles (rows : List Triple) : Prop := ∀ row ∈ rows, row.fh ∉ inherited ∧ row.parent ∉ inherited

/-- What every object has leads to nothing else that every object has. -/
theorem js_acc_iff {rows : List Triple} (hown : OwnHandles rows) :
    (∀ fh, Acc (fun l k => Ascent.Up (jsNext (jsRelations rows)) k l) fh) ↔ ∀ fh, Acc (fun l k => Ascent.Up (parentOf rows) k l) fh := by
  constructor
  · intro h fh
    refine Subrelation.accessible (fun {l k} hup => ?_) (h fh)
    rw [Ascent.Up, jsNext_rows, if_pos (mem_of_parentOf (by rw [show parentOf rows k = some l from hup]; simp))]
    exact hup
  · intro h
    have hplain : ∀ fh, fh ∉ inherited → Acc (fun l k => Ascent.Up (jsNext (jsRelations rows)) k l) fh := by
      intro fh
      induction h fh with
      | intro fh _ ih =>
        intro hfh
        refine Acc.intro fh fun l hl => ?_
        rw [Ascent.Up, jsNext_rows] at hl
        split at hl
        · obtain ⟨row, hrow, rfl⟩ := parentOf_mem hl
          exact ih _ hl (hown row hrow).2
        · rw [jsNext, emptyObject_of_own hfh] at hl
          cases hl
    intro fh
    refine Acc.intro fh fun l hl => hplain l ?_
    rw [Ascent.Up, jsNext_rows] at hl
    split at hl
    · obtain ⟨row, hrow, rfl⟩ := parentOf_mem hl
      exact (hown row hrow).2
    · rcases jsNext_emptyObject fh with hnone | hsome
      · rw [hnone] at hl
        cases hl
      · rw [← Option.some_inj.mp (hsome.symm.trans hl)]
        decide

theorem jsEnds_iff {rows : List Triple} (hown : OwnHandles rows) :
    (∀ fh, JsEnds (jsRelations rows) fh) ↔ Ascent.Acyclic (parentOf rows) := by
  rw [← parentOf_wellFounded_iff, ← js_acc_iff hown]
  refine forall_congr' fun fh => ?_
  simp only [JsEnds, jsConstructPath_eq]
  exact Ascent.climb_ends_iff

/-! ## The output of fhparent -/

/-- The csv module: what it writes for a row, and the rows it reads from a text. -/
structure Csv where
  stringify : Triple → List Char
  parse : List Char → List Triple

/-- The output of fhparent; undefined is written as nothing. -/
def fhparentText (csv : Csv) (dump : List Row) : List Char :=
  (fhparent dump).flatMap fun row => csv.stringify ⟨row.fh.getD [], row.name.getD [], row.parent.getD []⟩

/-- `isspace`, for `>>`. -/
def isspaceChar (c : Char) : Bool := c = ' ' || (9 ≤ c.toNat && c.toNat ≤ 13)

/-- The input of fullpath.cc: `tr ',' '\\t'`, and cut into words. -/
def ccInput (text : List Char) : List Cell := Words.words isspaceChar (text.map fun c => if c = ',' then '\t' else c)

/-- Both programs end for every handle iff in neither's last rows the parents run in a
    circle. -/
theorem paths_end_iff (csv : Csv) (dump : List Row) (hown : OwnHandles (csv.parse (fhparentText csv dump))) :
    (∀ fh, CcEnds (parseInput (ccInput (fhparentText csv dump)) fun _ => none) fh ∧
      JsEnds (jsRelations (csv.parse (fhparentText csv dump))) fh) ↔
      Ascent.Acyclic (parentOf (triples (ccInput (fhparentText csv dump)))) ∧
      Ascent.Acyclic (parentOf (csv.parse (fhparentText csv dump))) := by
  rw [forall_and, ccEnds_iff, jsEnds_iff hown]

/-- Cells without anything to quote, joined. -/
def plainLine (row : Triple) : List Char := row.fh ++ ',' :: (row.name ++ ',' :: (row.parent ++ ['\n']))

/-- What is cut at commas and line ends. -/
def plainCsv : Csv := ⟨plainLine, fun text => triples (Words.words (fun c => c = ',' || c = '\n') text)⟩

/-- A LOOKUP of a name in the directory `cf46`, and its reply, as rows. -/
def lookupRow (name : String) : Row :=
  ["1000.000000", "0a000001.03ff", "0a000002.0801", "U", "C3", "00000001", "03", "lookup", "fh", "cf46", "name", name].map
    String.toList
def foundRow (fh : String) : Row :=
  ["1000.000100", "0a000002.0801", "0a000001.03ff", "U", "R3", "00000001", "03", "lookup", "OK", "fh", fh, "ftype", "2"].map
    String.toList

theorem fhparent_lookup : fhparent [lookupRow "A", foundRow "6adf"] =
    [⟨some "6adf".toList, some "A".toList, some "cf46".toList⟩] := by decide

/-- A LOOKUP of a directory in another. -/
theorem paths_end_lookup : fhparentText plainCsv [lookupRow "A", foundRow "6adf"] = "6adf,A,cf46\n".toList ∧
    ∀ fh, CcEnds (parseInput (ccInput (fhparentText plainCsv [lookupRow "A", foundRow "6adf"])) fun _ => none) fh ∧
      JsEnds (jsRelations (plainCsv.parse (fhparentText plainCsv [lookupRow "A", foundRow "6adf"]))) fh := by
  have htext : fhparentText plainCsv [lookupRow "A", foundRow "6adf"] = "6adf,A,cf46\n".toList := by
    rw [fhparentText, fhparent_lookup]
    decide
  have hcc : triples (ccInput (fhparentText plainCsv [lookupRow "A", foundRow "6adf"])) =
    [⟨"6adf".toList, "A".toList, "cf46".toList⟩] := by
    rw [htext]
    decide
  have hjs : plainCsv.parse (fhparentText plainCsv [lookupRow "A", foundRow "6adf"]) = [⟨"6adf".toList, "A".toList, "cf46".toList⟩] := by
    rw [htext]
    decide
  have hacyclic : Ascent.Acyclic (parentOf [⟨"6adf".toList, "A".toList, "cf46".toList⟩]) := by
    refine Ascent.acyclic_of_rank (fun fh => if fh = "6adf".toList then 1 else 0) fun fh gh h => ?_
    have hmem : fh ∈ ["6adf".toList] := mem_of_parentOf (h.trans_ne (Option.some_ne_none _))
    obtain rfl := List.mem_singleton.mp hmem
    obtain rfl : "cf46".toList = gh := Option.some_inj.mp ((by decide : parentOf _ _ = some "cf46".toList).symm.trans h)
    decide
  have hown : OwnHandles (plainCsv.parse (fhparentText plainCsv [lookupRow "A", foundRow "6adf"])) := by
    rw [hjs]
    unfold OwnHandles
    decide
  refine ⟨htext, (paths_end_iff plainCsv [lookupRow "A", foundRow "6adf"] hown).mpr ?_⟩
  rw [hcc, hjs]
  exact ⟨hacyclic, hacyclic⟩

/-- A LOOKUP of `.`: a directory becomes its own parent, and the climb does not end. -/
theorem dot_never_ends :
    fhparent [lookupRow ".", foundRow "cf46"] = [⟨some "cf46".toList, some ".".toList, some "cf46".toList⟩] ∧
    ¬ CcEnds (parseInput (ccInput (fhparentText plainCsv [lookupRow ".", foundRow "cf46"])) fun _ => none) "cf46".toList ∧
    ¬ JsEnds (jsRelations (plainCsv.parse (fhparentText plainCsv [lookupRow ".", foundRow "cf46"]))) "cf46".toList := by
  have hrows : fhparent [lookupRow ".", foundRow "cf46"] = [⟨some "cf46".toList, some ".".toList, some "cf46".toList⟩] := by decide
  have hcc : triples (ccInput (fhparentText plainCsv [lookupRow ".", foundRow "cf46"])) =
    [⟨"cf46".toList, ".".toList, "cf46".toList⟩] := by
    rw [fhparentText, hrows]
    decide
  have hjs : plainCsv.parse (fhparentText plainCsv [lookupRow ".", foundRow "cf46"]) = [⟨"cf46".toList, ".".toList, "cf46".toList⟩] := by
    rw [fhparentText, hrows]
    decide
  have hself : parentOf [⟨"cf46".toList, ".".toList, "cf46".toList⟩] "cf46".toList = some "cf46".toList := by decide
  refine ⟨hrows, ?_, ?_⟩
  · rw [parseInput_eq, hcc]
    simp only [CcEnds, ccConstructPath_eq, ccNext_rows]
    exact fun hends => Ascent.not_acc_of_self hself (Ascent.climb_ends_iff.mp hends)
  · rw [hjs]
    simp only [JsEnds, jsConstructPath_eq]
    have hself' : jsNext (jsRelations [⟨"cf46".toList, ".".toList, "cf46".toList⟩]) "cf46".toList = some "cf46".toList := by decide
    exact fun hends => Ascent.not_acc_of_self hself' (Ascent.climb_ends_iff.mp hends)

end Nfsdump.Pathtree
