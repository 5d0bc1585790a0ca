/-
  Nfsdump.Pathtree.PathTable — the fullpath table, as fullpath.func.js and fullpath-svc.cc
  read it.

  `mapQuerier` fills a map when the table is read: an unresolved row gets what the handler
  makes of it. The service keeps the lines; it reads the words of the table's file, and
  aborts at one without a comma. The csv module is not part of the repository: `CsvReads`
  is what is used of it.

  Proved, for any table and handler:
  - `svcParseInput_eq`, `served_eq`: where no line has a blank, the service keeps every record
    under its handle, and what it sends is read as the row;
  - `readAsMap_eq`: what the map has for a handle;
  - `answers_agree_iff`: the two make the same of a handle iff it has no unresolved row with
    an empty path of which the handler makes one.
-/

import Nfsdump.Lib.Words
import Nfsdump.Pathtree.FullPath
import Nfsdump.Pathtree.SvcQuerier

namespace Nfsdump.Pathtree

/-! ## Handlers -/

/-- The values that count as true, all others as one. -/
def truthy : Option Cell → Option Cell
  | some [] => none
  | v => v

inductive HandlerOption where
  | default
  | false
  | function (f : PathRow → Option Cell)

/-- A column, as `+` shows it. -/
def shown (column : Option Cell) : Cell := column.getD "undefined".toList

def defaultUnresolvedHandler (row : PathRow) : Option Cell :=
  some ("/UNRESOLVED-".toList ++ shown row.top ++ '/' :: shown row.path)

def makeUnresolvedHandler : HandlerOption → PathRow → Option Cell
  | .false => fun _ => none
  | .function f => f
  | .default => defaultUnresolvedHandler

/-! ## mapQuerier -/

abbrev PathMap := Cell → Option Cell

def mapRow (unresolvedHandler : PathRow → Option Cell) (map : PathMap) (row : PathRow) : PathMap :=
  if truthy row.top ≠ none then
    if truthy (unresolvedHandler row) ≠ none then Function.update map row.fh (unresolvedHandler row) else map
  else Function.update map row.fh row.path

def readAsMap (unresolvedHandler : PathRow → Option Cell) (rows : List PathRow) : PathMap :=
  rows.foldl (mapRow unresolvedHandler) fun _ => none

/-! ## fullpath-svc.cc -/

/-- `fh=>line`. -/
abbrev SvcTable := Cell → Option (List Char)

/-- The body of the loop; `none` if the assertion that there is a comma fails. -/
def svcParseLine (table : SvcTable) (line : List Char) : Option SvcTable :=
  if ',' ∈ line then some (Function.update table (line.takeWhile (· ≠ ',')) (some line)) else none

/-- `while (input >> line)`, over the words of the input. -/
def svcParseInput (lines : List (List Char)) : Option SvcTable := lines.foldlM svcParseLine fun _ => none

/-- A handle that is not found is echoed. -/
def serve (table : SvcTable) (fh : Cell) : List Char := (table fh).getD fh

/-! ## The table's file -/

/-- A record of the file, and the row that it is read as. -/
structure PathLine where
  line : List Char
  row : PathRow
  deriving DecidableEq

def tableText (table : List PathLine) : List Char := table.flatMap fun l => l.line ++ ['\n']

/-- A handle as nfsdump prints it has nothing in it that is quoted, and is no property that
    every object has. -/
structure PlainHandle (fh : Cell) : Prop where
  nonempty : fh ≠ []
  bare : ∀ c ∈ fh, isspaceChar c = false ∧ c ≠ ',' ∧ c ≠ '"' ∧ c ≠ '\\'
  own : fh ∉ inherited

/-- Rows with distinct handles, and all their columns. -/
structure PathTable (rows : List PathRow) : Prop where
  distinct : (rows.map PathRow.fh).Nodup
  handle : ∀ row ∈ rows, PlainHandle row.fh
  columns : ∀ row ∈ rows, row.top ≠ none ∧ row.path ≠ none

def Blank (text : List Char) : Prop := ∃ c ∈ text, isspaceChar c = true

/-- What is used of the csv module; `makeCsvParser needEndHack text` are the rows that it has
    read when it got `text`. A record has its handle in front. The file is read as its
    rows, and a record without blanks is read in the same way when the service sends it. A
    line that is a handle alone is a row without the other columns, and the cells of a line
    without blanks have none. -/
structure CsvReads (makeCsvParser : Bool → List Char → List PathRow) (table : List PathLine) : Prop where
  front : ∀ l ∈ table, ∃ rest, l.line = l.row.fh ++ ',' :: rest
  nil : ∀ needEndHack, makeCsvParser needEndHack [] = []
  file : ∀ l ∈ table, ∀ rest, makeCsvParser false (l.line ++ '\n' :: rest) = l.row :: makeCsvParser false rest
  sent : ∀ l ∈ table, ¬ Blank l.line → ∀ rest, makeCsvParser true (l.line ++ '\n' :: rest) = l.row :: makeCsvParser true rest
  alone : ∀ fh, PlainHandle fh → ∀ rest, makeCsvParser true (fh ++ '\n' :: rest) = ⟨fh, none, none⟩ :: makeCsvParser true rest
  cells : ∀ line, ¬ Blank line → ∀ row ∈ makeCsvParser true (line ++ ['\n']), ∀ cell, row.top = some cell ∨ row.path = some cell →
    ¬ Blank cell

variable {makeCsvParser : Bool → List Char → List PathRow} {table : List PathLine} {rows : List PathRow}
  {unresolvedHandler : PathRow → Option Cell} {fh : Cell} {row : PathRow}

theorem PlainHandle.plain (h : PlainHandle fh) : Plain fh where
  own := h.own
  line hmem := by
    have hspace := (h.bare '\n' hmem).1
    exact absurd hspace (by decide)

/-! ## What each makes of a handle -/

def rowOf (rows : List PathRow) (fh : Cell) : Option PathRow := rows.find? fun row => row.fh = fh

theorem rowOf_eq_none (h : fh ∉ rows.map PathRow.fh) : rowOf rows fh = none := by
  rw [rowOf, List.find?_eq_none]
  intro row hrow heq
  exact h (List.mem_map.mpr ⟨row, hrow, of_decide_eq_true heq⟩)

theorem csv_text (h : CsvReads makeCsvParser table) : makeCsvParser false (tableText table) = table.map PathLine.row := by
  have htext : ∀ table', (∀ l ∈ table', l ∈ table) → makeCsvParser false (tableText table') = table'.map PathLine.row := by
    intro table'
    induction table' with
    | nil => exact fun _ => h.nil false
    | cons l table' ih =>
      intro hmem
      rw [List.forall_mem_cons] at hmem
      rw [tableText, List.flatMap_cons, List.append_assoc, List.singleton_append, h.file l hmem.1]
      exact congrArg (l.row :: ·) (ih hmem.2)
  exact htext table fun _ h => h

theorem not_blank_iff {text : List Char} : ¬ Blank text ↔ ∀ c ∈ text, isspaceChar c = false := by
  simp [Blank]

theorem words_text (h : CsvReads makeCsvParser table) (hblank : ∀ l ∈ table, ¬ Blank l.line) :
    Words.words isspaceChar (tableText table) = table.map PathLine.line := by
  have htext : ∀ table', (∀ l ∈ table', l ∈ table) →
      Words.Yields isspaceChar (tableText table') (table'.map PathLine.line) := by
    intro table'
    induction table' with
    | nil => exact fun _ => Words.yields_nil
    | cons l table' ih =>
      intro hmem
      rw [List.forall_mem_cons] at hmem
      obtain ⟨rest, hfront⟩ := h.front l hmem.1
      have hne : l.line ≠ [] := by simp [hfront]
      have hword := not_blank_iff.mp (hblank l hmem.1)
      exact (Words.yields_word hword hne (by decide) (List.cons_ne_nil _ _)).append (ih hmem.2)
  exact (htext table fun _ h => h).words_eq

/-- Each record is kept under its handle. -/
theorem svcParseInput_eq (htable : PathTable (table.map PathLine.row)) (h : CsvReads makeCsvParser table)
    (hblank : ∀ l ∈ table, ¬ Blank l.line) : ∃ svcTable, svcParseInput (Words.words isspaceChar (tableText table)) = some svcTable ∧
      (∀ l ∈ table, svcTable l.row.fh = some l.line) ∧ ∀ fh ∉ (table.map PathLine.row).map PathRow.fh, svcTable fh = none := by
  have hkey : ∀ l ∈ table, ',' ∈ l.line ∧ l.line.takeWhile (· ≠ ',') = l.row.fh := by
    intro l hl
    obtain ⟨rest, hfront⟩ := h.front l hl
    have hbare := (htable.handle l.row (List.mem_map_of_mem hl)).bare
    have hall : ∀ c ∈ l.row.fh, decide (c ≠ ',') = true := fun c hc => decide_eq_true (hbare c hc).2.1
    rw [hfront, List.takeWhile_append_of_pos hall]
    simp
  have hfold : ∀ (table' : List PathLine) (before : SvcTable), (∀ l ∈ table', l ∈ table) →
      ((table'.map PathLine.row).map PathRow.fh).Nodup → ∃ svcTable, (table'.map PathLine.line).foldlM svcParseLine before =
        some svcTable ∧
        (∀ l ∈ table', svcTable l.row.fh = some l.line) ∧
        ∀ fh ∉ (table'.map PathLine.row).map PathRow.fh, svcTable fh = before fh := by
    intro table'
    induction table' with
    | nil => exact fun before _ _ => ⟨before, rfl, by simp, by simp⟩
    | cons l table' ih =>
      intro before hmem hnodup
      rw [List.forall_mem_cons] at hmem
      rw [List.map_cons, List.map_cons, List.nodup_cons] at hnodup
      obtain ⟨hcomma, hfh⟩ := hkey l hmem.1
      obtain ⟨svcTable, hrun, hin, hout⟩ := ih (Function.update before l.row.fh (some l.line)) hmem.2 hnodup.2
      refine ⟨svcTable, ?_, ?_, ?_⟩
      · rw [List.map_cons, List.foldlM_cons, svcParseLine, if_pos hcomma, hfh]
        exact hrun
      · refine List.forall_mem_cons.mpr ⟨?_, hin⟩
        rw [hout _ hnodup.1, Function.update_self]
      · intro fh hfh
        rw [List.map_cons, List.map_cons, List.mem_cons, not_or] at hfh
        rw [hout fh hfh.2, Function.update_of_ne hfh.1]
  rw [words_text h hblank]
  exact hfold table _ (fun _ h => h) htable.distinct

/-- One word without a comma is enough. -/
theorem svcParseInput_none {lines : List (List Char)} (h : ∃ line ∈ lines, ',' ∉ line) : svcParseInput lines = none := by
  have hfold : ∀ before : SvcTable, lines.foldlM svcParseLine before = none := by
    induction lines with
    | nil => simp at h
    | cons line lines ih =>
      intro before
      rw [List.foldlM_cons, svcParseLine]
      by_cases hcomma : ',' ∈ line
      · rw [if_pos hcomma]
        apply ih
        obtain ⟨line', hmem, hno⟩ := h
        rcases List.mem_cons.mp hmem with hhere | hmem
        · exact absurd hcomma (hhere ▸ hno)
        · exact ⟨line', hmem, hno⟩
      · rw [if_neg hcomma]
        rfl
  exact hfold _

/-- A path with a blank in it. -/
example : svcParseInput (Words.words isspaceChar "6adf,,/export1/A B\n".toList) = none := rfl

/-- What is kept are words. -/
theorem svcParseInput_mem {lines : List (List Char)} {svcTable : SvcTable} (h : svcParseInput lines = some svcTable)
    {line : List Char} (hline : svcTable fh = some line) : line ∈ lines := by
  have hfold : ∀ (lines' : List (List Char)) (before : SvcTable), (∀ line ∈ lines', line ∈ lines) →
      (∀ line, before fh = some line → line ∈ lines) → lines'.foldlM svcParseLine before = some svcTable → line ∈ lines := by
    intro lines'
    induction lines' with
    | nil =>
      intro before _ hbefore hrun
      rw [List.foldlM_nil, Option.pure_def, Option.some_inj] at hrun
      exact hbefore line (hrun ▸ hline)
    | cons line' lines' ih =>
      intro before hmem hbefore hrun
      rw [List.forall_mem_cons] at hmem
      rw [List.foldlM_cons, svcParseLine] at hrun
      by_cases hcomma : ',' ∈ line'
      · rw [if_pos hcomma] at hrun
        refine ih _ hmem.2 (fun kept hkept => ?_) hrun
        by_cases hkey : fh = line'.takeWhile (· ≠ ',')
        · rw [hkey, Function.update_self, Option.some_inj] at hkept
          exact hkept ▸ hmem.1
        · rw [Function.update_of_ne hkey] at hkept
          exact hbefore kept hkept
      · rw [if_neg hcomma] at hrun
        cases hrun
  exact hfold lines _ (fun _ h => h) (by simp) h

/-- The row that comes back for a handle. -/
def served (rows : List PathRow) (fh : Cell) : PathRow := (rowOf rows fh).getD ⟨fh, none, none⟩

theorem mem_of_rowOf (h : rowOf rows fh = some row) : row ∈ rows ∧ row.fh = fh :=
  ⟨List.mem_of_find?_eq_some h, by simpa using List.find?_some h⟩

theorem served_fh (rows : List PathRow) (fh : Cell) : (served rows fh).fh = fh := by
  rw [served]
  cases h : rowOf rows fh with
  | none => rfl
  | some row => exact (mem_of_rowOf h).2

/-- What is sent for a handle is read as its row. -/
def Serves (makeCsvParser : Bool → List Char → List PathRow) (rows : List PathRow) (svcTable : SvcTable) : Prop :=
  ∀ fh, PlainHandle fh → ∀ rest, makeCsvParser true (serve svcTable fh ++ '\n' :: rest) = served rows fh :: makeCsvParser true rest

theorem served_eq (htable : PathTable (table.map PathLine.row)) (h : CsvReads makeCsvParser table)
    (hblank : ∀ l ∈ table, ¬ Blank l.line) :
    ∃ svcTable, svcParseInput (Words.words isspaceChar (tableText table)) = some svcTable ∧
      Serves makeCsvParser (table.map PathLine.row) svcTable := by
  obtain ⟨svcTable, hrun, hin, hout⟩ := svcParseInput_eq htable h hblank
  refine ⟨svcTable, hrun, fun fh hfh rest => ?_⟩
  rw [serve, served]
  cases hrow : rowOf (table.map PathLine.row) fh with
  | none =>
    have hno : fh ∉ (table.map PathLine.row).map PathRow.fh := by
      intro hmem
      obtain ⟨row, hrow', hfh'⟩ := List.mem_map.mp hmem
      exact absurd (decide_eq_true hfh') (List.find?_eq_none.mp hrow row hrow')
    rw [hout fh hno]
    exact h.alone fh hfh rest
  | some row =>
    obtain ⟨hmem, hrowFh⟩ := mem_of_rowOf hrow
    obtain ⟨l, hl, hlrow⟩ := List.mem_map.mp hmem
    rw [← hrowFh, ← hlrow, hin l hl]
    exact h.sent l hl (hblank l hl) rest

theorem truthy_top (htable : PathTable rows) (hrow : row ∈ rows) : truthy row.top ≠ none ↔ row.top ≠ some [] := by
  have htop := (htable.columns row hrow).1
  match h : row.top with
  | none => exact absurd h htop
  | some [] => exact iff_of_false (fun hx => hx rfl) fun hx => hx rfl
  | some (c :: cs) => exact iff_of_true nofun (by simp)

theorem readAsMap_eq (htable : PathTable rows) (fh : Cell) : truthy (readAsMap unresolvedHandler rows fh) =
    match rowOf rows fh with
    | none => none
    | some row => if row.top = some [] then truthy row.path else truthy (unresolvedHandler row) := by
  have hfold : ∀ (rows' : List PathRow) (map : PathMap), (∀ row ∈ rows', row ∈ rows) → (rows'.map PathRow.fh).Nodup →
      truthy (rows'.foldl (mapRow unresolvedHandler) map fh) =
        match rowOf rows' fh with
        | none => truthy (map fh)
        | some row => if row.top = some [] then truthy row.path else
            if truthy (unresolvedHandler row) ≠ none then truthy (unresolvedHandler row) else truthy (map fh) := by
    intro rows'
    induction rows' with
    | nil => exact fun map _ _ => rfl
    | cons row rows' ih =>
      intro map hmem hnodup
      rw [List.forall_mem_cons] at hmem
      rw [List.map_cons, List.nodup_cons] at hnodup
      rw [List.foldl_cons, ih _ hmem.2 hnodup.2, rowOf, rowOf, List.find?_cons]
      by_cases hfh : row.fh = fh
      · subst hfh
        have hnone : rows'.find? (fun row' => row'.fh = row.fh) = none := rowOf_eq_none hnodup.1
        rw [hnone, decide_eq_true rfl, mapRow]
        dsimp only
        by_cases htop : row.top = some []
        · rw [if_neg (mt (truthy_top htable hmem.1).mp (not_not.mpr htop)), if_pos htop, Function.update_self]
        · rw [if_pos ((truthy_top htable hmem.1).mpr htop), if_neg htop]
          by_cases hpath : truthy (unresolvedHandler row) ≠ none
          · rw [if_pos hpath, if_pos hpath, Function.update_self]
          · rw [if_neg hpath, if_neg hpath]
      · have hmap : mapRow unresolvedHandler map row fh = map fh := by
          unfold mapRow
          split
          · split
            · exact Function.update_of_ne (Ne.symm hfh) ..
            · rfl
          · exact Function.update_of_ne (Ne.symm hfh) ..
        rw [hmap, decide_eq_false hfh]
  rw [readAsMap, hfold rows _ (fun _ h => h) htable.distinct]
  cases rowOf rows fh with
  | none => rfl
  | some row =>
    dsimp only
    by_cases htop : row.top = some []
    · rw [if_pos htop, if_pos htop]
    · rw [if_neg htop, if_neg htop]
      by_cases hpath : truthy (unresolvedHandler row) ≠ none
      · rw [if_pos hpath]
      · rw [if_neg hpath, not_not.mp hpath]
        rfl

/-- What the service's row and the map make of a handle. -/
theorem answers_agree_iff (htable : PathTable rows) (fh : Cell) :
    truthy ((served rows fh).answer unresolvedHandler) = truthy (readAsMap unresolvedHandler rows fh) ↔
      ∀ row ∈ rows, row.fh = fh → row.top ≠ some [] → row.path = some [] → truthy (unresolvedHandler row) = none := by
  rw [readAsMap_eq htable, served]
  cases hrow : rowOf rows fh with
  | none =>
    refine iff_of_true rfl fun row hmem hfh => ?_
    exact absurd (decide_eq_true hfh) (List.find?_eq_none.mp hrow row hmem)
  | some row =>
    obtain ⟨hmem, rfl⟩ := mem_of_rowOf hrow
    have hthe : (∀ row' ∈ rows, row'.fh = row.fh → row'.top ≠ some [] → row'.path = some [] → truthy (unresolvedHandler row') = none) ↔
        (row.top ≠ some [] → row.path = some [] → truthy (unresolvedHandler row) = none) := by
      refine ⟨fun h => h row hmem rfl, fun h row' hmem' hfh => ?_⟩
      rwa [List.inj_on_of_nodup_map htable.distinct hmem' hmem hfh]
    have hpath := (htable.columns row hmem).2
    rw [hthe, Option.getD_some, PathRow.answer]
    dsimp only
    match hp : row.path with
    | none => exact absurd hp hpath
    | some [] =>
      by_cases htop : row.top = some []
      · rw [if_pos htop]
        exact iff_of_true rfl fun hx => absurd htop hx
      · rw [if_neg htop]
        exact ⟨fun h _ _ => h.symm, fun h => (h htop rfl).symm⟩
    | some (c :: cs) =>
      refine iff_of_true ?_ fun _ hx => absurd hx (by simp)
      by_cases htop : row.top = some []
      · simp only [htop, if_true]
      · simp only [htop, if_false]

end Nfsdump.Pathtree
