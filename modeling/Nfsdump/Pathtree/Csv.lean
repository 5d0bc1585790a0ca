/-
  Nfsdump.Pathtree.Csv — the lines of a dump as rows.

  The csv module is not part of the repository. `fields` is the format it documents for
  pathtree's options (delimiter a blank, quote `"`, escape a backslash): cells with a blank
  between them, each either in quotes or without any; between two blanks there is an empty
  cell. `ltrim` cuts off the white space a cell begins with, of which the format has none.
  A line is bytes, each the character of its number, and the stream is read as UTF-8: what
  stands for the bytes of a cell is `decoded`. A byte below 128 is a character of its own, so
  it makes no difference that the line is cut into cells first. `ReadsCsv` says that a parser
  reads the lines that are in the format; of other lines it says nothing.

  Proved:
  - `run_append`: a line is read part by part;
  - `run_cell`, `run_quoted`: a cell, without quotes and with them;
  - `decoded_ordinary`: a cell without quotes is read as it is;
  - `readCsv_reads`: there is such a parser.
-/

import Nfsdump.Decode.Lines
import Nfsdump.Lib.Utf8
import Nfsdump.Pathtree.Parser

namespace Nfsdump.Pathtree

open Decode

/-! ## The format -/

/-- Where in a line the reader is, with the cell so far. -/
inductive Mode where
  | start
  | plain (w : Cell)
  | quoted (w : Cell)
  /-- Behind a backslash in quotes. -/
  | escape (w : Cell)
  | closed (w : Cell)
  deriving DecidableEq

def isBreak (c : Char) : Bool := c = '\n' || c = '\r'

/-- A character of a cell without quotes. -/
def ordinary (c : Char) : Bool := !isBlank c && c.toNat < 128 && c ≠ '"' && c ≠ '\\'

/-- One character: the cells it completes are the second result. -/
def Mode.next : Mode → Char → Option (Mode × List Cell)
  | .start, c =>
    if c = ' ' then some (.start, [[]])
    else if c = '"' then some (.quoted [], [])
    else if ordinary c then some (.plain [c], []) else none
  | .plain w, c => if c = ' ' then some (.start, [w]) else if ordinary c then some (.plain (w ++ [c]), []) else none
  | .quoted w, c =>
    if c = '"' then some (.closed w, [])
    else if c = '\\' then some (.escape w, [])
    else if isBreak c then none else some (.quoted (w ++ [c]), [])
  | .escape w, c =>
    if c = '"' ∨ c = '\\' then some (.quoted (w ++ [c]), [])
    else if isBreak c then none else some (.quoted (w ++ ['\\', c]), [])
  | .closed w, c => if c = ' ' then some (.start, [w]) else none

/-- The cell that the end of the line completes. -/
def Mode.last : Mode → Option Cell
  | .start => some []
  | .plain w => some w
  | .closed w => some w
  | _ => none

def run : Mode → List Char → Option (Mode × List Cell)
  | m, [] => some (m, [])
  | m, c :: cs =>
    match m.next c with
    | none => none
    | some (m', done) => (run m' cs).map fun r => (r.1, done ++ r.2)

/-- The cells of a line in the format. -/
def fields (line : List Char) : Option Row :=
  match run .start line with
  | none => none
  | some (m, done) => m.last.map fun w => done ++ [w]

/-- The byte a character stands for. -/
def byteOf (c : Char) : UInt8 := UInt8.ofNat c.toNat

/-- The text of a cell, from its bytes. -/
def decoded (w : Cell) : Cell := Utf8.decode (w.map byteOf)

/-- A text as the bytes it is written as. -/
def encoded (t : Cell) : Cell := (Utf8.encode t).map fun b => Char.ofNat b.toNat

/-- The row of a line in the format. -/
def csvRow (line : List Char) : Option Row := (fields line).map (List.map decoded)

/-- A parser that reads lines in the format. -/
structure ReadsCsv (csv : List Char → List Row) : Prop where
  done : csv [] = []
  line : ∀ line row rest, csvRow line = some row → csv (line ++ '\n' :: rest) = row :: csv rest

/-! ## Parts of a line -/

variable {m m' : Mode} {cs ds w : List Char} {done : List Cell}

theorem run_append (cs ds : List Char) : ∀ m,
    run m (cs ++ ds) = (run m cs).bind fun r => (run r.1 ds).map fun s => (s.1, r.2 ++ s.2) := by
  induction cs with
  | nil => intro m; simp [run]
  | cons c cs ih =>
    intro m
    rw [List.cons_append, run, run]
    cases m.next c with
    | none => rfl
    | some r =>
      simp only [ih]
      cases run r.1 cs with
      | none => rfl
      | some s =>
        simp only [Option.bind_some, Option.map_map, Option.map_some, Function.comp_def, List.append_assoc]

theorem run_append_some (h : run m cs = some (m', done)) (ds : List Char) :
    run m (cs ++ ds) = (run m' ds).map fun r => (r.1, done ++ r.2) := by
  rw [run_append, h]
  rfl

theorem run_word (hw : ∀ c ∈ w, ordinary c) (v : Cell) : run (.plain v) w = some (.plain (v ++ w), []) := by
  induction w generalizing v with
  | nil => rw [List.append_nil]; rfl
  | cons c w ih =>
    rw [List.forall_mem_cons] at hw
    have hblank : ¬ c = ' ' := by
      rintro rfl
      exact absurd hw.1 (by decide)
    rw [run, Mode.next, if_neg hblank, if_pos hw.1]
    simp only [ih hw.2, Option.map_some, List.append_assoc]
    rfl

theorem next_ordinary {c : Char} (hc : ordinary c) : Mode.start.next c = some (.plain [c], []) := by
  have hblank : ¬ c = ' ' := by
    rintro rfl
    exact absurd hc (by decide)
  have hquote : ¬ c = '"' := by
    rintro rfl
    exact absurd hc (by decide)
  rw [Mode.next, if_neg hblank, if_neg hquote, if_pos hc]

theorem run_plain (hw : ∀ c ∈ w, ordinary c) (hne : w ≠ []) : run .start w = some (.plain w, []) := by
  cases w with
  | nil => exact absurd rfl hne
  | cons c w =>
    rw [List.forall_mem_cons] at hw
    rw [run, next_ordinary hw.1]
    simp only [run_word hw.2, Option.map_some]
    rfl

/-- A cell without quotes, and the blank behind it. -/
theorem run_cell (hw : ∀ c ∈ w, ordinary c) (hne : w ≠ []) : run .start (w ++ [' ']) = some (.start, [w]) := by
  rw [run_append_some (run_plain hw hne)]
  rfl

/-- A cell in quotes, and the blank behind it. -/
theorem run_quoted (hw : run (.quoted []) w = some (.quoted ds, [])) : run .start ('"' :: (w ++ ['"', ' '])) = some (.start, [ds]) := by
  show (run (.quoted []) (w ++ ['"', ' '])).map _ = _
  rw [run_append_some hw]
  rfl

/-! ## Cells as text -/

theorem ordinary_lt {c : Char} (h : ordinary c = true) : c.toNat < 128 := by
  simp only [ordinary, Bool.and_eq_true, decide_eq_true_eq] at h
  exact h.1.1.2

theorem toNat_byteOf {c : Char} (h : c.toNat < 256) : (byteOf c).toNat = c.toNat := by
  rw [byteOf, UInt8.toNat_ofNat', Nat.mod_eq_of_lt h]

theorem bytes_lt (h : ∀ c ∈ w, c.toNat < 128) : ∀ b ∈ w.map byteOf, b < 128 := by
  rw [List.forall_mem_map]
  intro c hc
  have hlt := h c hc
  rw [UInt8.lt_iff_toNat_lt, toNat_byteOf (by omega)]
  exact hlt

theorem decoded_ascii (h : ∀ c ∈ w, c.toNat < 128) : decoded w = w := by
  have hself : ∀ c ∈ w, Char.ofNat (byteOf c).toNat = c := by
    intro c hc
    have hlt := h c hc
    rw [toNat_byteOf (by omega), Char.ofNat_toNat]
  rw [decoded, Utf8.decode_ascii (bytes_lt h), List.map_map]
  exact (List.map_congr_left hself).trans (List.map_id' w)

theorem encoded_ascii (h : ∀ c ∈ w, c.toNat < 128) : encoded w = w := by
  have hself := decoded_ascii h
  have hwf := Utf8.wellFormed_ascii (bytes_lt h)
  rw [Utf8.WellFormed] at hwf
  rw [encoded, ← hself, decoded, hwf, ← Utf8.decode_ascii (bytes_lt h)]

/-- A cell without quotes is read as it is. -/
theorem decoded_ordinary (h : ∀ c ∈ w, ordinary c) : decoded w = w := decoded_ascii fun c hc => ordinary_lt (h c hc)

theorem cell_map_decoded (row : Row) (i : Nat) : cell (row.map decoded) i = decoded (cell row i) := by
  rw [cell, cell, List.getD_eq_getElem?_getD, List.getD_eq_getElem?_getD, List.getElem?_map]
  cases row[i]? <;> rfl

theorem csvRow_fields {line : List Char} {row : Row} (h : fields line = some row) : csvRow line = some (row.map decoded) := by
  rw [csvRow, h]
  rfl

theorem ReadsCsv.row {csv : List Char → List Row} (hcsv : ReadsCsv csv) {line : List Char} {row : Row} (h : fields line = some row)
    (rest : List Char) : csv (line ++ '\n' :: rest) = row.map decoded :: csv rest := hcsv.line line _ rest (csvRow_fields h)

/-! ## A parser -/

theorem next_break (m : Mode) : m.next '\n' = none := by
  cases m with
  | start => decide
  | plain w =>
    rw [Mode.next]
    exact if_neg (by decide)
  | quoted w => rfl
  | escape w =>
    rw [Mode.next, if_neg (by decide)]
    rfl
  | closed w => rfl

theorem no_break (h : run m cs = some (m', done)) : '\n' ∉ cs := by
  induction cs generalizing m m' done with
  | nil => exact List.not_mem_nil
  | cons c cs ih =>
    rw [run] at h
    cases hn : m.next c with
    | none => rw [hn] at h; cases h
    | some r =>
      rw [hn] at h
      obtain ⟨s, hs, -⟩ := Option.map_eq_some_iff.mp h
      rw [List.mem_cons, not_or]
      refine ⟨?_, ih hs⟩
      rintro rfl
      rw [next_break] at hn
      cases hn

theorem fields_no_break {line : List Char} {row : Row} (h : fields line = some row) : '\n' ∉ line := by
  unfold fields at h
  split at h
  · cases h
  · next m done hrun => exact no_break hrun

/-- A line that is not in the format makes an empty row. -/
def readLine (line : List Char) : Row := (csvRow line).getD []

/-- `line` is the line so far. -/
def readCsv (line : List Char) : List Char → List Row
  | [] => if line = [] then [] else [readLine line]
  | c :: cs => if c = '\n' then readLine line :: readCsv [] cs else readCsv (line ++ [c]) cs

theorem readCsv_line {line : List Char} (h : '\n' ∉ line) (before rest : List Char) :
    readCsv before (line ++ '\n' :: rest) = readLine (before ++ line) :: readCsv [] rest := by
  induction line generalizing before with
  | nil =>
    rw [List.nil_append, readCsv, if_pos rfl, List.append_nil]
  | cons c line ih =>
    rw [List.mem_cons, not_or] at h
    rw [List.cons_append, readCsv, if_neg (Ne.symm h.1), ih h.2, List.append_assoc]
    rfl

theorem readCsv_reads : ReadsCsv (readCsv []) where
  done := rfl
  line line row rest h := by
    obtain ⟨cells, hcells, -⟩ := Option.map_eq_some_iff.mp h
    rw [readCsv_line (fields_no_break hcells), List.nil_append, readLine, h]
    rfl

end Nfsdump.Pathtree
