/-
  Nfsdump.Pathtree.Operations — operations.js: the rows of a dump in, the operations of a
  client out, with a path looked up for each (`ExtractOperations`), and the reading of the
  rows that a lookup pauses (`Parser` of nfsdump.func.js).

  The stream tells that it has rows (`readable`) and that it has them all (`finish`); the
  querier calls back with a path or without one, and what resumes the reading runs behind
  that callback. Each of these runs to its end before the next.

  Proved, for any dump and any order of these events:
  - `readCsv_inv`: what one call of `readCsv` leaves behind;
  - `sequential_written`: in `sequential` an answer stands behind the lookup of the row that is
    processed, and behind a path the row of the output with that path;
  - `orderly`: what has happened is a beginning of `sequential`, in which each lookup is
    answered and its row written before the next row is processed, and with the stream at
    its end and nothing outstanding it is all of it.
-/

import Nfsdump.Pathtree.Pairing
import Nfsdump.Pathtree.PathTable

namespace Nfsdump.Pathtree

/-! ## Operations -/

def getKV : List Cell → Cell → Option Cell
  | k :: v :: arr, key => if k = key then some v else getKV arr key
  | _, _ => none

/-- A column of the output. -/
inductive Column where
  | undefined
  | text (c : Cell)
  | number (n : Num)
  deriving DecidableEq, Repr

/-- What `record` is called with. -/
structure OpFields where
  name_fh : Option Cell
  name_append : Option Cell
  version : Option Cell
  start : Column
  count : Column
  deriving DecidableEq, Repr

/-- A row of the output. -/
structure OutputRow where
  t : Cell
  op : Cell
  name : Cell
  version : Option Cell
  start : Column
  count : Column
  deriving DecidableEq, Repr

/-- `parseInt ('0x' + s)` -/
def parseHex (s : Option Cell) : Num := parseInt ("0x".toList ++ shown s)

/-- The keys that begin with `name-`. -/
def fileEntryCount : List Cell → Nat
  | k :: _ :: arr => (if k.take 5 = "name-".toList then 1 else 0) + fileEntryCount arr
  | _ => 0

/-- The fields of an operation, for the ones that are recorded. -/
def opFields (m : Matched) : Option OpFields :=
  let callp := m.call.drop OFFSET.PARAM_START
  let replyp := m.reply.drop OFFSET.RET_START
  let mtime := getKV replyp "mtime".toList
  let pre_mtime := getKV replyp "pre-mtime".toList
  if m.op = "getattr".toList then some ⟨callp[1]?, none, mtime, .undefined, .undefined⟩
  else if m.op = "lookup".toList then some ⟨callp[1]?, callp[3]?, mtime, .undefined, .undefined⟩
  else if m.op = "access".toList ∨ m.op = "readlink".toList then some ⟨callp[1]?, none, none, .undefined, .undefined⟩
  else if m.op = "read".toList ∨ m.op = "write".toList then
    some ⟨callp[1]?, none, mtime, .number (parseHex callp[3]?), .number (parseHex (getKV replyp "count".toList))⟩
  else if m.op = "readdirp".toList then
    some ⟨callp[1]?, none, mtime, (callp[3]?).elim .undefined .text, .number (some (fileEntryCount replyp : Int))⟩
  else if m.op = "setattr".toList then some ⟨callp[1]?, none, pre_mtime, .undefined, .undefined⟩
  else if m.op = "create".toList ∨ m.op = "mkdir".toList ∨ m.op = "symlink".toList then
    some ⟨replyp[1]?, none, mtime, .undefined, .undefined⟩
  else if m.op = "remove".toList ∨ m.op = "rmdir".toList then some ⟨callp[1]?, callp[3]?, pre_mtime, .undefined, .undefined⟩
  else if m.op = "rename".toList then some ⟨callp[1]?, callp[3]?, none, .undefined, .undefined⟩
  else none

/-- A lookup, with what its callback has at hand. -/
structure Lookup where
  fh : Cell
  t : Cell
  op : Cell
  fields : OpFields
  deriving DecidableEq, Repr

/-- Fields without a name are recorded when that is looked up, if there is a handle. -/
def lookupOf (m : Matched) : Option Lookup :=
  (opFields m).bind fun fields => (truthy fields.name_fh).map fun fh => ⟨fh, cell m.call OFFSET.TIME, m.op, fields⟩

/-- The row that the callback records. -/
def Lookup.output (l : Lookup) (p : Option Cell) : Option OutputRow :=
  (truthy p).map fun name =>
    let name := match truthy l.fields.name_append with
      | some append => name ++ '/' :: append
      | none => name
    ⟨l.t, l.op, name, l.fields.version, l.fields.start, l.fields.count⟩

/-! ## Reading -/

/-- What the outside sees. -/
inductive Effect where
  /-- `processRow` is called. -/
  | row (row : Row)
  | lookup (fh : Cell)
  /-- The callback is called. -/
  | answer (p : Option Cell)
  | write (row : OutputRow)
  | finishCb
  deriving DecidableEq, Repr

structure Reader where
  parser : Parser
  /-- The stream's rows that `csvParser.read` has not returned. -/
  buffer : List Row
  paused : Bool
  finished : Bool
  /-- Lookups that are not answered. -/
  lookups : List Lookup
  /-- Resumes that `nextTick` has not run. -/
  ticks : Nat
  log : List Effect

def Reader.init : Reader := ⟨.init, [], false, false, [], 0, []⟩

variable (o : Options)

def Reader.processRow (s : Reader) (row : Row) : Reader :=
  let r := o.processRow s.parser row
  let s := { s with parser := r.1, log := s.log ++ [.row row] }
  match r.2.bind lookupOf with
  | none => s
  | some l => { s with paused := true, lookups := s.lookups ++ [l], log := s.log ++ [.lookup l.fh] }

/-- The loop, over what is in the buffer. -/
def Reader.readRows : List Row → Reader → Reader
  | [], s => { s with buffer := [] }
  | row :: rows, s => if s.paused then { s with buffer := row :: rows } else Reader.readRows rows (s.processRow o row)

def Reader.readCsv (s : Reader) : Reader :=
  let s := Reader.readRows o s.buffer s
  if s.finished && !s.paused then { s with finished := false, log := s.log ++ [.finishCb] } else s

inductive ReaderEvent where
  /-- The stream has more rows. -/
  | rows (rows : List Row)
  | readable
  | finish
  | answer (p : Option Cell)
  /-- The next resume is run. -/
  | tick

def Reader.step (s : Reader) : ReaderEvent → Reader
  | .rows rows => { s with buffer := s.buffer ++ rows }
  | .readable => s.readCsv o
  | .finish => { s with finished := true }.readCsv o
  | .answer p =>
    match s.lookups with
    | [] => s
    | l :: rest =>
      { s with lookups := rest, ticks := s.ticks + 1, log := s.log ++ .answer p :: ((l.output p).map Effect.write).toList }
  | .tick => if s.ticks = 0 then s else { s with ticks := s.ticks - 1, paused := false }.readCsv o

def Reader.run (es : List ReaderEvent) : Reader := es.foldl (Reader.step o) .init

/-! ## Without pauses -/

/-- The rows one by one, with the answers to their lookups, as far as there are answers. -/
def sequential : Parser → List Row → List (Option Cell) → List Effect
  | _, [], _ => [.finishCb]
  | s, row :: rows, answers =>
    .row row ::
      match (o.processRow s row).2.bind lookupOf with
      | none => sequential (o.processRow s row).1 rows answers
      | some l =>
        .lookup l.fh ::
          match answers with
          | [] => []
          | p :: answers => .answer p :: (((l.output p).map Effect.write).toList ++ sequential (o.processRow s row).1 rows answers)

def processed (log : List Effect) : List Row :=
  log.filterMap fun | .row row => some row | _ => none

def answered (log : List Effect) : List (Option Cell) :=
  log.filterMap fun | .answer p => some p | _ => none

/-- The rows the stream has had. -/
def ReaderEvent.parsed : ReaderEvent → List Row
  | .rows more => more
  | .readable | .finish | .answer _ | .tick => []

/-- The stream finishes once, and has no more rows then. -/
def IsStream (es : List ReaderEvent) : Prop :=
  ∀ before after, es = before ++ .finish :: after → .finish ∉ after ∧ after.flatMap ReaderEvent.parsed = []

/-- The parser behind some rows. -/
def parserAfter (s : Parser) (rows : List Row) : Parser := rows.foldl (fun s row => (o.processRow s row).1) s

/-- The output's row for a pair with these fields, whose handle has the path `path`. -/
structure Records (m : Matched) (fields : OpFields) (path : Cell) (r : OutputRow) : Prop where
  t : r.t = cell m.call OFFSET.TIME
  op : r.op = m.op
  name : r.name = (truthy fields.name_append).elim path fun append => path ++ '/' :: append
  version : r.version = fields.version
  start : r.start = fields.start
  count : r.count = fields.count

/-- An answer is to the lookup of the row in front of it, and at once its output is written, if it is a path. -/
structure AnswerWritten (parser : Parser) (before : List Effect) (p : Option Cell) (after : List Effect) : Prop where
  asked : ∃ seen row m fields fh, processed before = seen ++ [row] ∧ (o.processRow (parserAfter o parser seen) row).2 = some m ∧
    opFields m = some fields ∧ truthy fields.name_fh = some fh ∧ before.getLast? = some (.lookup fh) ∧
      ∀ path, truthy p = some path → ∃ r rest, after = .write r :: rest ∧ Records m fields path r
  nothing : truthy p = none → ∀ r rest, after ≠ .write r :: rest

/-- After the rows `rows` of the stream, and with `ended` its end. -/
structure Orderly (rows : List Row) (ended : Prop) (s : Reader) : Prop where
  order : processed s.log ++ s.buffer = rows
  single : s.lookups.length ≤ 1
  sequential : s.log <+: Pathtree.sequential o .init rows (answered s.log)
  written : ∀ before p after, s.log = before ++ .answer p :: after → AnswerWritten o .init before p after
  finish_once : s.log.countP (· = .finishCb) ≤ 1
  finish_last : .finishCb ∈ s.log → ended ∧ s.buffer = [] ∧ s.lookups = []
  complete : ended → s.lookups = [] → s.ticks = 0 → s.log = Pathtree.sequential o .init rows (answered s.log) ∧ .finishCb ∈ s.log

theorem processed_append (log more : List Effect) : processed (log ++ more) = processed log ++ processed more := List.filterMap_append

/-- A lookup, and what it is made from. -/
theorem lookupOf_eq_some {r : Option Matched} {l : Lookup} (h : r.bind lookupOf = some l) : ∃ m fields fh,
    r = some m ∧ opFields m = some fields ∧ truthy fields.name_fh = some fh ∧ l = ⟨fh, cell m.call OFFSET.TIME, m.op, fields⟩ := by
  obtain ⟨m, hm, hl⟩ := Option.bind_eq_some_iff.mp h
  obtain ⟨fields, hfields, hl⟩ := Option.bind_eq_some_iff.mp hl
  obtain ⟨fh, hfh, hl⟩ := Option.map_eq_some_iff.mp hl
  exact ⟨m, fields, fh, hm, hfields, hfh, hl.symm⟩

theorem output_records (m : Matched) (fields : OpFields) (fh : Cell) {p : Option Cell} {path : Cell} (h : truthy p = some path) :
    ∃ r, Lookup.output ⟨fh, cell m.call OFFSET.TIME, m.op, fields⟩ p = some r ∧ Records m fields path r := by
  rw [Lookup.output, h]
  refine ⟨_, rfl, rfl, rfl, ?_, rfl, rfl, rfl⟩
  dsimp only
  cases truthy fields.name_append <;> rfl

theorem sequential_head (s : Parser) (rows : List Row) (answers : List (Option Cell)) (r : OutputRow) (rest : List Effect) :
    sequential o s rows answers ≠ .write r :: rest := by
  cases rows with
  | nil => simp [sequential]
  | cons row rows => simp [sequential]

variable {o} in
/-- What is true of the rest is true behind a row and what is done about it. -/
theorem AnswerWritten.behind {s : Parser} {row : Row} {p : Option Cell} {middle after : List Effect} (front : List Effect)
    (hfront : processed front = []) (h : AnswerWritten o (o.processRow s row).1 middle p after) :
    AnswerWritten o s (.row row :: (front ++ middle)) p after := by
  obtain ⟨seen, row', m, fields, fh, hseen, hm, hfields, hfh, hlast, hwrite⟩ := h.asked
  refine ⟨⟨row :: seen, row', m, fields, fh, ?_, hm, hfields, hfh, ?_, hwrite⟩, h.nothing⟩
  · show row :: processed (front ++ middle) = _
    rw [processed_append, hfront, hseen]
    rfl
  · rw [← List.cons_append, List.getLast?_append, hlast]
    rfl

variable {o} in
/-- An answer's row is not the end. -/
theorem AnswerWritten.before_finish {s : Parser} {p : Option Cell} {before after : List Effect}
    (h : AnswerWritten o s before p (after ++ [.finishCb])) : AnswerWritten o s before p after := by
  obtain ⟨seen, row, m, fields, fh, hseen, hm, hfields, hfh, hlast, hwrite⟩ := h.asked
  refine ⟨⟨seen, row, m, fields, fh, hseen, hm, hfields, hfh, hlast, fun path hpath => ?_⟩, fun hnone r rest hr => ?_⟩
  · obtain ⟨r, rest, hr, hrecords⟩ := hwrite path hpath
    rcases after with _ | ⟨e, after⟩
    · cases hr
    · exact ⟨r, after, congrArg (· :: after) (List.cons.inj hr).1, hrecords⟩
  · exact h.nothing hnone r (rest ++ [.finishCb]) (by rw [hr]; rfl)

/-- Answers stand behind their lookups, and what is recorded behind them. -/
theorem sequential_written {p : Option Cell} {after : List Effect} (rows : List Row) : ∀ (s : Parser) (answers : List (Option Cell))
    (before : List Effect), sequential o s rows answers = before ++ .answer p :: after → AnswerWritten o s before p after := by
  induction rows with
  | nil =>
    intro s answers before h
    rw [sequential] at h
    rcases before with _ | ⟨e, before⟩
    · cases h
    · exact absurd (List.cons.inj h).2.symm (by simp)
  | cons row rows ih =>
    intro s answers before h
    rw [sequential] at h
    rcases before with _ | ⟨e, before⟩
    · cases h
    obtain ⟨hrow, h⟩ := List.cons.inj h
    rw [← hrow]
    cases hl : (o.processRow s row).2.bind lookupOf with
    | none =>
      rw [hl] at h
      exact AnswerWritten.behind [] rfl (ih _ _ _ h)
    | some l =>
      rw [hl] at h
      rcases before with _ | ⟨e, before⟩
      · cases h
      obtain ⟨hlookup, h⟩ := List.cons.inj h
      rw [← hlookup]
      rcases answers with _ | ⟨p', answers⟩
      · exact absurd h.symm (by simp)
      rcases before with _ | ⟨e, before⟩
      · obtain ⟨hp, hafter⟩ := List.cons.inj h
        obtain rfl := Effect.answer.inj hp
        obtain ⟨m, fields, fh, hm, hfields, hfh, rfl⟩ := lookupOf_eq_some hl
        refine ⟨⟨[], row, m, fields, fh, rfl, hm, hfields, hfh, rfl, fun path hpath => ?_⟩, fun hnone r rest => ?_⟩
        · obtain ⟨r, hr, hrecords⟩ := output_records m fields fh hpath
          rw [hr] at hafter
          exact ⟨r, _, hafter.symm, hrecords⟩
        · rw [Lookup.output, hnone] at hafter
          rw [← hafter]
          exact sequential_head o _ _ _ r rest
      · obtain ⟨hanswer, h⟩ := List.cons.inj h
        rw [← hanswer]
        cases ho : l.output p' with
        | none =>
          rw [ho] at h
          exact AnswerWritten.behind [.lookup l.fh, .answer p'] rfl (ih _ _ _ h)
        | some r =>
          rw [ho] at h
          rcases before with _ | ⟨e, before⟩
          · cases h
          obtain ⟨hwrite, h⟩ := List.cons.inj h
          rw [← hwrite]
          exact AnswerWritten.behind [.lookup l.fh, .answer p', .write r] rfl (ih _ _ _ h)

/-! ## The invariant -/

variable {o} {s : Reader} {seen rows : List Row} {answers : List (Option Cell)} {log : List Effect} {parser : Parser} {row : Row}
  {l : Lookup} {ended : Prop}

/-- The log holds the rows and answers, and no end. -/
structure Trail (log : List Effect) (seen : List Row) (answers : List (Option Cell)) : Prop where
  rows : processed log = seen
  answers : answered log = answers
  unended : .finishCb ∉ log

/-- Whatever follows, the sequence goes on behind the log. -/
def Reaches (o : Options) (log : List Effect) (parser : Parser) (seen : List Row) (answers : List (Option Cell)) : Prop :=
  ∀ more as, sequential o .init (seen ++ more) (answers ++ as) = log ++ sequential o parser more as

/-- The next answer goes to the lookup `l`. -/
def Waits (o : Options) (log : List Effect) (parser : Parser) (l : Lookup) (seen : List Row) (answers : List (Option Cell)) : Prop :=
  ∀ more as, sequential o .init (seen ++ more) (answers ++ as) = log ++
    match as with
    | [] => []
    | p :: as => .answer p :: (((l.output p).map Effect.write).toList ++ sequential o parser more as)

theorem Reaches.next (h : Reaches o log parser seen answers) (hnone : (o.processRow parser row).2.bind lookupOf = none) :
    Reaches o (log ++ [.row row]) (o.processRow parser row).1 (seen ++ [row]) answers := by
  intro more as
  rw [List.append_assoc, h, List.singleton_append, sequential, hnone, List.append_assoc]
  rfl

theorem Reaches.asks (h : Reaches o log parser seen answers) (hsome : (o.processRow parser row).2.bind lookupOf = some l) :
    Waits o (log ++ [.row row] ++ [.lookup l.fh]) (o.processRow parser row).1 l (seen ++ [row]) answers := by
  intro more as
  rw [List.append_assoc, h, List.singleton_append, sequential, hsome, List.append_assoc, List.append_assoc]
  rfl

theorem Waits.answer (h : Waits o log parser l seen answers) (p : Option Cell) :
    Reaches o (log ++ .answer p :: ((l.output p).map Effect.write).toList) parser seen (answers ++ [p]) := by
  intro more as
  rw [List.append_assoc, h, List.append_assoc]
  rfl

theorem Trail.next (h : Trail log seen answers) (row : Row) : Trail (log ++ [.row row]) (seen ++ [row]) answers := by
  refine ⟨?_, ?_, ?_⟩
  · rw [processed_append, h.rows]
    rfl
  · rw [answered, List.filterMap_append, ← answered, h.answers]
    exact List.append_nil _
  · simpa using h.unended

theorem Trail.asks (h : Trail log seen answers) (fh : Cell) : Trail (log ++ [.lookup fh]) seen answers := by
  refine ⟨?_, ?_, ?_⟩
  · rw [processed_append, h.rows]
    exact List.append_nil _
  · rw [answered, List.filterMap_append, ← answered, h.answers]
    exact List.append_nil _
  · simpa using h.unended

theorem Trail.answer (h : Trail log seen answers) (p : Option Cell) (row : Option OutputRow) :
    Trail (log ++ .answer p :: (row.map Effect.write).toList) seen (answers ++ [p]) := by
  refine ⟨?_, ?_, ?_⟩
  · rw [processed_append, h.rows]
    cases row <;> exact List.append_nil _
  · rw [answered, List.filterMap_append, ← answered, h.answers]
    cases row <;> rfl
  · cases row <;> simpa using h.unended

/-- Rows are read, as far as there are any. -/
structure Ready (o : Options) (seen : List Row) (answers : List (Option Cell)) (s : Reader) : Prop where
  paused : s.paused = false
  lookups : s.lookups = []
  trail : Trail s.log seen answers
  reaches : Reaches o s.log s.parser seen answers

/-- A lookup is outstanding. -/
structure Asking (o : Options) (seen : List Row) (answers : List (Option Cell)) (s : Reader) : Prop where
  paused : s.paused = true
  lookups : ∃ l, s.lookups = [l] ∧ Waits o s.log s.parser l seen answers
  trail : Trail s.log seen answers

/-- The lookup is answered, and its resume is to run. -/
structure Resuming (o : Options) (seen : List Row) (answers : List (Option Cell)) (s : Reader) : Prop where
  paused : s.paused = true
  lookups : s.lookups = []
  trail : Trail s.log seen answers
  reaches : Reaches o s.log s.parser seen answers

/-- `finishCb` is called. -/
structure Over (o : Options) (seen : List Row) (answers : List (Option Cell)) (s : Reader) : Prop where
  paused : s.paused = false
  lookups : s.lookups = []
  buffer : s.buffer = []
  ended : ∃ log, s.log = log ++ [.finishCb] ∧ Trail log seen answers ∧ Reaches o log s.parser seen answers

def Reader.Inv (o : Options) (rows : List Row) (ended : Prop) (s : Reader) : Prop :=
  ∃ seen answers, seen ++ s.buffer = rows ∧
    (Ready o seen answers s ∧ s.ticks = 0 ∧ s.finished = false ∧ ¬ ended ∨
      Asking o seen answers s ∧ s.ticks = 0 ∧ (s.finished = true ↔ ended) ∨
      Resuming o seen answers s ∧ s.ticks = 1 ∧ (s.finished = true ↔ ended) ∨
      Over o seen answers s ∧ s.ticks = 0 ∧ s.finished = false ∧ ended)

/-! ## One event -/

/-- Reading goes on until a lookup pauses it or the buffer is empty. -/
theorem readRows_spec (rows : List Row) : ∀ {seen : List Row} {s : Reader}, Ready o seen answers s → ∃ seen',
    seen' ++ (Reader.readRows o rows s).buffer = seen ++ rows ∧ (Reader.readRows o rows s).finished = s.finished ∧
      (Reader.readRows o rows s).ticks = s.ticks ∧
      (Ready o seen' answers (Reader.readRows o rows s) ∧ (Reader.readRows o rows s).buffer = [] ∨
        Asking o seen' answers (Reader.readRows o rows s)) := by
  induction rows with
  | nil => exact fun {seen s} h => ⟨seen, rfl, rfl, rfl, Or.inl ⟨⟨h.paused, h.lookups, h.trail, h.reaches⟩, rfl⟩⟩
  | cons row rows ih =>
    intro seen s h
    have hnotPaused : ¬ s.paused = true := by rw [h.paused]; decide
    rw [Reader.readRows, if_neg hnotPaused]
    cases hl : (o.processRow s.parser row).2.bind lookupOf with
    | none =>
      have hstep : s.processRow o row = { s with parser := (o.processRow s.parser row).1, log := s.log ++ [.row row] } := by
        rw [Reader.processRow, hl]
      have hready : Ready o (seen ++ [row]) answers (s.processRow o row) := by
        rw [hstep]
        exact ⟨h.paused, h.lookups, h.trail.next row, h.reaches.next hl⟩
      obtain ⟨seen', hseen, hfinished, hticks, hcase⟩ := ih hready
      refine ⟨seen', by rw [hseen, List.append_assoc]; rfl, ?_, ?_, hcase⟩
      · rw [hfinished, hstep]
      · rw [hticks, hstep]
    | some l =>
      have hstep : s.processRow o row = { s with
          parser := (o.processRow s.parser row).1, paused := true, lookups := [l],
          log := s.log ++ [.row row] ++ [.lookup l.fh] } := by
        rw [Reader.processRow, hl, h.lookups]
        rfl
      have hasking : ∀ buffer, Asking o (seen ++ [row]) answers { s.processRow o row with buffer := buffer } := by
        intro buffer
        rw [hstep]
        exact ⟨rfl, ⟨l, rfl, h.reaches.asks hl⟩, (h.trail.next row).asks l.fh⟩
      have hrest : Reader.readRows o rows (s.processRow o row) = { s.processRow o row with buffer := rows } := by
        cases rows with
        | nil => rfl
        | cons row' rows =>
          rw [Reader.readRows, if_pos (by rw [hstep])]
      rw [hrest]
      refine ⟨seen ++ [row], by rw [List.append_assoc]; rfl, ?_, ?_, Or.inr (hasking rows)⟩
      · rw [hstep]
      · rw [hstep]

/-- `readCsv`, where nothing is outstanding. -/
theorem readCsv_inv (hready : Ready o seen answers s) (hrows : seen ++ s.buffer = rows) (hticks : s.ticks = 0)
    (hended : s.finished = true ↔ ended) : (s.readCsv o).Inv o rows ended := by
  obtain ⟨seen', hseen, hfinished, hticks', hcase⟩ := readRows_spec s.buffer hready
  rw [hrows] at hseen
  rw [hticks] at hticks'
  rw [Reader.readCsv]
  rcases hcase with ⟨hready', hempty⟩ | hasking
  · cases hf : s.finished with
    | true =>
      rw [hfinished, hf, hready'.paused, Bool.not_false, Bool.and_self, if_pos rfl]
      exact ⟨seen', answers, hseen, Or.inr (Or.inr (Or.inr ⟨⟨rfl, hready'.lookups, hempty, _, rfl, hready'.trail, hready'.reaches⟩,
        hticks', rfl, hended.mp hf⟩))⟩
    | false =>
      rw [hfinished, hf]
      refine ⟨seen', answers, hseen, Or.inl ⟨hready', hticks', hfinished.trans hf, fun hend => ?_⟩⟩
      rw [hended.mpr hend] at hf
      cases hf
  · rw [hasking.paused, Bool.not_true, Bool.and_false]
    exact ⟨seen', answers, hseen, Or.inr (Or.inl ⟨hasking, hticks', by rw [if_neg Bool.false_ne_true, hfinished]; exact hended⟩)⟩

/-- While reading is paused, `readCsv` does nothing. -/
theorem readCsv_paused (hpaused : s.paused = true) : s.readCsv o = s := by
  have hrows : Reader.readRows o s.buffer s = s := by
    cases hb : s.buffer with
    | nil => rw [Reader.readRows, ← hb]
    | cons row rows => rw [Reader.readRows, if_pos hpaused, ← hb]
  rw [Reader.readCsv, hrows, hpaused, Bool.not_true, Bool.and_false]
  rfl

/-- Behind `finishCb` it does nothing either. -/
theorem readCsv_over (hbuffer : s.buffer = []) (hfinished : s.finished = false) : s.readCsv o = s := by
  have hrows : Reader.readRows o s.buffer s = s := by rw [hbuffer, Reader.readRows, ← hbuffer]
  rw [Reader.readCsv, hrows, hfinished]
  rfl

/-- What one event leaves of the invariant. -/
theorem Reader.Inv.step (h : s.Inv o rows ended) (e : ReaderEvent) (hstream : ended → e ≠ .finish ∧ e.parsed = []) :
    (s.step o e).Inv o (rows ++ e.parsed) (ended ∨ e = .finish) := by
  obtain ⟨seen, answers, hrows, hphase⟩ := h
  cases e with
  | rows more =>
    have hended : (ended ∨ ReaderEvent.rows more = .finish) = ended := by simp
    rw [hended]
    refine ⟨seen, answers, by rw [← hrows, List.append_assoc]; rfl, ?_⟩
    rcases hphase with ⟨h, hrest⟩ | ⟨h, hrest⟩ | ⟨h, hrest⟩ | ⟨h, hticks, hfinished, hend⟩
    · exact Or.inl ⟨⟨h.paused, h.lookups, h.trail, h.reaches⟩, hrest⟩
    · exact Or.inr (Or.inl ⟨⟨h.paused, h.lookups, h.trail⟩, hrest⟩)
    · exact Or.inr (Or.inr (Or.inl ⟨⟨h.paused, h.lookups, h.trail, h.reaches⟩, hrest⟩))
    · have hbuffer : s.buffer ++ more = [] := by rw [h.buffer]; exact (hstream hend).2
      exact Or.inr (Or.inr (Or.inr ⟨⟨h.paused, h.lookups, hbuffer, h.ended⟩, hticks, hfinished, hend⟩))
  | readable =>
    have hended : (ended ∨ ReaderEvent.readable = .finish) = ended := by simp
    rw [hended, ReaderEvent.parsed, List.append_nil, Reader.step]
    rcases hphase with ⟨h, hticks, hfinished, hend⟩ | ⟨h, hrest⟩ | ⟨h, hrest⟩ | ⟨h, hticks, hfinished, hend⟩
    · exact readCsv_inv h hrows hticks (iff_of_false (by rw [hfinished]; decide) hend)
    · rw [readCsv_paused h.paused]
      exact ⟨seen, answers, hrows, Or.inr (Or.inl ⟨h, hrest⟩)⟩
    · rw [readCsv_paused h.paused]
      exact ⟨seen, answers, hrows, Or.inr (Or.inr (Or.inl ⟨h, hrest⟩))⟩
    · rw [readCsv_over h.buffer hfinished]
      exact ⟨seen, answers, hrows, Or.inr (Or.inr (Or.inr ⟨h, hticks, hfinished, hend⟩))⟩
  | finish =>
    rw [ReaderEvent.parsed, List.append_nil, Reader.step]
    rcases hphase with ⟨h, hticks, hfinished, hend⟩ | ⟨h, hticks, -⟩ | ⟨h, hticks, -⟩ | ⟨h, hticks, hfinished, hend⟩
    · exact readCsv_inv ⟨h.paused, h.lookups, h.trail, h.reaches⟩ hrows hticks (iff_of_true rfl (Or.inr rfl))
    · rw [readCsv_paused (by exact h.paused)]
      exact ⟨seen, answers, hrows, Or.inr (Or.inl ⟨⟨h.paused, h.lookups, h.trail⟩, hticks, iff_of_true rfl (Or.inr rfl)⟩)⟩
    · rw [readCsv_paused (by exact h.paused)]
      exact ⟨seen, answers, hrows, Or.inr (Or.inr (Or.inl ⟨⟨h.paused, h.lookups, h.trail, h.reaches⟩, hticks,
        iff_of_true rfl (Or.inr rfl)⟩))⟩
    · exact absurd rfl (hstream hend).1
  | answer p =>
    have hended : (ended ∨ ReaderEvent.answer p = .finish) = ended := by simp
    rw [hended, ReaderEvent.parsed, List.append_nil, Reader.step]
    rcases hphase with ⟨h, hrest⟩ | ⟨h, hticks, hrest⟩ | ⟨h, hrest⟩ | ⟨h, hrest⟩
    · rw [h.lookups]
      exact ⟨seen, answers, hrows, Or.inl ⟨h, hrest⟩⟩
    · obtain ⟨l, hl, hwaits⟩ := h.lookups
      rw [hl]
      refine ⟨seen, answers ++ [p], hrows, Or.inr (Or.inr (Or.inl ⟨⟨h.paused, rfl, h.trail.answer p _, hwaits.answer p⟩, ?_, hrest⟩))⟩
      exact congrArg (· + 1) hticks
    · rw [h.lookups]
      exact ⟨seen, answers, hrows, Or.inr (Or.inr (Or.inl ⟨h, hrest⟩))⟩
    · rw [h.lookups]
      exact ⟨seen, answers, hrows, Or.inr (Or.inr (Or.inr ⟨h, hrest⟩))⟩
  | tick =>
    have hended : (ended ∨ ReaderEvent.tick = .finish) = ended := by simp
    rw [hended, ReaderEvent.parsed, List.append_nil, Reader.step]
    rcases hphase with ⟨h, hticks, hrest⟩ | ⟨h, hticks, hrest⟩ | ⟨h, hticks, hfinished⟩ | ⟨h, hticks, hrest⟩
    · rw [if_pos hticks]
      exact ⟨seen, answers, hrows, Or.inl ⟨h, hticks, hrest⟩⟩
    · rw [if_pos hticks]
      exact ⟨seen, answers, hrows, Or.inr (Or.inl ⟨h, hticks, hrest⟩)⟩
    · rw [if_neg (by rw [hticks]; decide)]
      exact readCsv_inv ⟨rfl, h.lookups, h.trail, h.reaches⟩ hrows (by rw [hticks]) hfinished
    · rw [if_pos hticks]
      exact ⟨seen, answers, hrows, Or.inr (Or.inr (Or.inr ⟨h, hticks, hrest⟩))⟩

/-! ## Runs -/

theorem inv_readerInit : Reader.init.Inv o [] False := by
  have hreaches : Reaches o [] .init [] [] := fun _ _ => rfl
  exact ⟨[], [], rfl, Or.inl ⟨⟨rfl, rfl, ⟨rfl, rfl, List.not_mem_nil⟩, hreaches⟩, rfl, rfl, not_false⟩⟩

theorem isStream_of_concat {es : List ReaderEvent} {e : ReaderEvent} (h : IsStream (es ++ [e])) :
    IsStream es ∧ (.finish ∈ es → e ≠ .finish ∧ e.parsed = []) := by
  constructor
  · intro before after hes
    obtain ⟨hfinish, hparsed⟩ := h before (after ++ [e]) (by rw [hes, List.append_assoc]; rfl)
    rw [List.flatMap_append, List.append_eq_nil_iff] at hparsed
    exact ⟨fun hmem => hfinish (List.mem_append_left _ hmem), hparsed.1⟩
  · intro hmem
    obtain ⟨before, after, rfl⟩ := List.append_of_mem hmem
    obtain ⟨hfinish, hparsed⟩ := h before (after ++ [e]) (by rw [List.append_assoc]; rfl)
    rw [List.flatMap_append, List.append_eq_nil_iff] at hparsed
    refine ⟨?_, by simpa using hparsed.2⟩
    intro he
    exact hfinish (List.mem_append_right _ (List.mem_singleton.mpr he.symm))

theorem inv_readerRun (o : Options) (es : List ReaderEvent) (hes : IsStream es) :
    (Reader.run o es).Inv o (es.flatMap ReaderEvent.parsed) (.finish ∈ es) := by
  induction es using List.reverseRecOn with
  | nil =>
    have hnone : (ReaderEvent.finish ∈ ([] : List ReaderEvent)) = False := by simp
    rw [hnone]
    exact inv_readerInit
  | append_singleton es e ih =>
    obtain ⟨hbegins, hlast⟩ := isStream_of_concat hes
    have hended : (ReaderEvent.finish ∈ es ++ [e]) = (ReaderEvent.finish ∈ es ∨ e = .finish) := by
      rw [List.mem_append, List.mem_singleton, eq_comm (b := e)]
    rw [hended, List.flatMap_append, Reader.run, List.foldl_concat, ← Reader.run]
    have hstep := (ih hbegins).step e hlast
    simpa using hstep

theorem Trail.countP (h : Trail log seen answers) : log.countP (· = .finishCb) = 0 := by
  rw [List.countP_eq_zero]
  intro e he hfinish
  exact h.unended (of_decide_eq_true hfinish ▸ he)

/-- Nothing but the end is missing of the sequence. -/
theorem written_of_missing {missing : List Effect} (hseq : sequential o .init seen answers = log ++ missing)
    (hmissing : missing = [] ∨ missing = [.finishCb]) :
    ∀ before p after, log = before ++ .answer p :: after → AnswerWritten o .init before p after := by
  intro before p after hlog
  rw [hlog, List.append_assoc, List.cons_append] at hseq
  have hafter := sequential_written o seen .init answers before hseq
  rcases hmissing with rfl | rfl
  · rwa [List.append_nil] at hafter
  · exact hafter.before_finish

/-- Before the end the log is the trail, and the sequence goes on behind it. -/
theorem Trail.toOrderly (htrail : Trail s.log seen answers) (hrows : seen ++ s.buffer = rows) (hsingle : s.lookups.length ≤ 1)
    (hbegins : s.log <+: sequential o .init rows answers)
    (hall : ∀ before p after, s.log = before ++ .answer p :: after → AnswerWritten o .init before p after)
    (hnot : ended → s.lookups = [] → s.ticks = 0 → False) : Orderly o rows ended s := by
  refine ⟨?_, hsingle, ?_, hall, ?_, fun hmem => absurd hmem htrail.unended, fun hend hlookups hticks =>
    (hnot hend hlookups hticks).elim⟩
  · rw [htrail.rows, hrows]
  · rw [htrail.answers]
    exact hbegins
  · rw [htrail.countP]
    exact Nat.zero_le 1

theorem Reader.Inv.toOrderly (h : s.Inv o rows ended) : Orderly o rows ended s := by
  obtain ⟨seen, answers, hrows, hphase⟩ := h
  have hreached : Reaches o s.log s.parser seen answers → sequential o .init seen answers = s.log ++ [.finishCb] := by
    intro hreaches
    have hseq := hreaches [] []
    rwa [List.append_nil, List.append_nil, sequential] at hseq
  have hgoesOn : Reaches o s.log s.parser seen answers → s.log <+: sequential o .init rows answers := by
    intro hreaches
    have hseq := hreaches s.buffer []
    rw [hrows, List.append_nil] at hseq
    exact ⟨_, hseq.symm⟩
  rcases hphase with ⟨h, -, -, hend⟩ | ⟨h, -, -⟩ | ⟨h, hticks, -⟩ | ⟨h, -, -, hend⟩
  · exact h.trail.toOrderly hrows (by rw [h.lookups]; exact Nat.zero_le 1) (hgoesOn h.reaches)
      (written_of_missing (hreached h.reaches) (Or.inr rfl)) fun hx => absurd hx hend
  · obtain ⟨l, hl, hwaits⟩ := h.lookups
    have hseq := hwaits s.buffer []
    rw [hrows, List.append_nil] at hseq
    have hseen := hwaits [] []
    rw [List.append_nil, List.append_nil] at hseen
    exact h.trail.toOrderly hrows (by rw [hl]; exact Nat.le_refl 1) ⟨_, hseq.symm⟩ (written_of_missing hseen (Or.inl rfl))
      fun _ hx => by rw [hl] at hx; cases hx
  · exact h.trail.toOrderly hrows (by rw [h.lookups]; exact Nat.zero_le 1) (hgoesOn h.reaches)
      (written_of_missing (hreached h.reaches) (Or.inr rfl)) fun _ _ hx => by rw [hticks] at hx; cases hx
  · obtain ⟨log, hlog, htrail, hreaches⟩ := h.ended
    have hprocessed : processed s.log = seen := by
      rw [hlog, processed_append, htrail.rows]
      exact List.append_nil _
    have hanswered : answered s.log = answers := by
      rw [hlog, answered, List.filterMap_append, ← answered, htrail.answers]
      exact List.append_nil _
    have hmem : Effect.finishCb ∈ s.log := by
      rw [hlog]
      exact List.mem_append_right _ (List.mem_singleton_self _)
    rw [h.buffer, List.append_nil] at hrows
    have hseq := hreaches [] []
    rw [List.append_nil, List.append_nil, sequential, ← hlog, hrows] at hseq
    have hwhole : sequential o .init seen answers = s.log ++ [] := by rw [hrows, hseq, List.append_nil]
    refine ⟨?_, by rw [h.lookups]; exact Nat.zero_le 1, ?_, written_of_missing hwhole (Or.inl rfl), ?_,
      fun _ => ⟨hend, h.buffer, h.lookups⟩, fun _ _ _ => ⟨?_, hmem⟩⟩
    · rw [hprocessed, h.buffer, List.append_nil, hrows]
    · rw [hanswered, hseq]
    · rw [hlog, List.countP_append, htrail.countP]
      decide
    · rw [hanswered, hseq]

/-- In any order of the stream's events, answers and resumes. -/
theorem orderly (o : Options) (es : List ReaderEvent) (hes : IsStream es) :
    Orderly o (es.flatMap ReaderEvent.parsed) (.finish ∈ es) (Reader.run o es) :=
  (inv_readerRun o es hes).toOrderly

/-- A GETATTR with its reply, whose path is looked up while the stream ends. -/
def getattrDump : List Row :=
  [["1000.000000", "0a000001.03ff", "0a000002.0801", "U", "C3", "00000001", "01", "getattr", "fh", "cf46"],
    ["1000.000100", "0a000002.0801", "0a000001.03ff", "U", "R3", "00000001", "01", "getattr", "OK", "mtime", "999.5"]].map
    (·.map String.toList)

def getattrEvents : List ReaderEvent := [.rows getattrDump, .readable, .finish, .answer (some "/a".toList), .readable, .tick]

theorem isStream_of_split {before after : List ReaderEvent} (hbefore : .finish ∉ before) (hafter : .finish ∉ after)
    (hparsed : after.flatMap ReaderEvent.parsed = []) : IsStream (before ++ .finish :: after) := by
  intro xs ys h
  have hys : ys = after := by
    rcases List.append_eq_append_iff.mp h with ⟨as, rfl, has⟩ | ⟨as, rfl, has⟩
    · cases as with
      | nil => exact (List.cons.inj has).2.symm
      | cons a as =>
        rw [List.cons_append] at has
        exact absurd (List.mem_append_right as List.mem_cons_self) ((List.cons.inj has).2 ▸ hafter)
    · cases as with
      | nil => exact (List.cons.inj has).2
      | cons a as =>
        rw [List.cons_append] at has
        rw [← (List.cons.inj has).1] at hbefore
        exact absurd (List.mem_append_right _ List.mem_cons_self) hbefore
  rw [hys]
  exact ⟨hafter, hparsed⟩

theorem getattrEvents_stream : IsStream getattrEvents := by
  have hsplit : getattrEvents = [.rows getattrDump, .readable] ++ .finish :: [.answer (some "/a".toList), .readable, .tick] := rfl
  rw [hsplit]
  exact isStream_of_split (by simp) (by simp) rfl

/-- The rows are processed, the path is looked up and the row with it written, and the end is told. -/
theorem orderly_getattr : Orderly Options.default getattrDump True (Reader.run Options.default getattrEvents) ∧
    (Reader.run Options.default getattrEvents).log = getattrDump.map Effect.row ++ [.lookup "cf46".toList, .answer (some "/a".toList),
      .write ⟨"1000.000000".toList, "getattr".toList, "/a".toList, some "999.5".toList, .undefined, .undefined⟩, .finishCb] := by
  have h := orderly Options.default getattrEvents getattrEvents_stream
  have hrows : getattrEvents.flatMap ReaderEvent.parsed = getattrDump := by simp [getattrEvents, ReaderEvent.parsed]
  have hended : (ReaderEvent.finish ∈ getattrEvents) = True := by simp [getattrEvents]
  rw [hrows, hended] at h
  exact ⟨h, by decide +kernel⟩

end Nfsdump.Pathtree
