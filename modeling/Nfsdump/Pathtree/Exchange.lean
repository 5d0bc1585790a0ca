/-
  Nfsdump.Pathtree.Exchange — the rows of a call and its reply that nfsdump prints and the
  Parser matches.

  A handle is recorded by its hex digits and a name as it is printed, without its quotes.
  nfsdump prints a decoded string up to its first NUL, and what it prints is read as UTF-8.

  Proved:
  - `nameShown_iff`: when what is recorded of a name is written as the text of the whole name;
  - `reply_handle_iff`: when the handle in a reply is printed as it is;
  - `Pair.call_row`, `Pair.reply_row`: what `process` takes the parameters and results from.
-/

import Mathlib.Data.List.TakeWhile
import Nfsdump.Decode.Cuts
import Nfsdump.Pathtree.FhParent
import Nfsdump.Pathtree.RawNames

namespace Nfsdump.Pathtree

open Wire Decode Xdr Record

/-! ## Names and handles -/

/-- The name is printed whole and, with RAWNAMES, it is UTF-8; or what is printed of it is hashed to the same text. -/
def NameShown (o : Opts) (name : List UInt8) : Prop :=
  if o.RAWNAMES then 0 ∉ name ∧ Utf8.WellFormed name else nameCell o (cut name) = nameCell o name

theorem cut_of_notMem {name : List UInt8} (h : 0 ∉ name) : cut name = name := by
  refine List.takeWhile_eq_self_iff.mpr fun c hc => ?_
  rw [decide_eq_true_eq]
  intro h0
  exact h (h0 ▸ hc)

theorem notMem_of_cut {name : List UInt8} (h : cut name = name) : 0 ∉ name := by
  intro hmem
  have h0 := List.takeWhile_eq_self_iff.mp h 0 hmem
  exact absurd h0 (by decide)

theorem nameShown_of_plain {o : Opts} {name : List UInt8} (h : 0 ∉ name) (hascii : ∀ c ∈ name, c < 128) : NameShown o name := by
  unfold NameShown
  split
  · exact ⟨h, Utf8.wellFormed_ascii hascii⟩
  · rw [cut_of_notMem h]

/-- What is in front of a NUL. -/
theorem wellFormed_cut {name : List UInt8} (h : Utf8.WellFormed name) : Utf8.WellFormed (cut name) := by
  rcases hrest : name.dropWhile (· ≠ 0) with _ | ⟨c, rest⟩
  · have hall : cut name = name := by
      have hsplit := List.takeWhile_append_dropWhile (p := (· ≠ 0)) (l := name)
      rwa [hrest, List.append_nil] at hsplit
    rwa [hall]
  · have hsplit := List.takeWhile_append_dropWhile (p := (· ≠ 0)) (l := name)
    have hzero : c = 0 := by
      have hc := List.head?_dropWhile_not (· ≠ 0) name
      rw [hrest] at hc
      simpa using hc
    rw [hrest, hzero] at hsplit
    rw [← hsplit, Utf8.wellFormed_around (by decide)] at h
    exact h.1

/-- What is recorded of a name is written as the whole name is printed. -/
theorem nameShown_iff {o : Opts} {name : List UInt8} :
    encoded (decoded (nameCell o (cut name))) = nameCell o name ↔ NameShown o name := by
  unfold NameShown
  cases hraw : o.RAWNAMES with
  | false =>
    rw [if_neg Bool.false_ne_true, decoded_hashed hraw, encoded_hashed hraw]
  | true =>
    rw [if_pos rfl, nameCell_raw hraw, nameCell_raw hraw]
    constructor
    · intro h
      have hname : Utf8.WellFormed name := wellFormed_of_encoded h
      have hcut := (encoded_raw_iff (cut name)).mpr (wellFormed_cut hname)
      rw [hcut, ← nameCell_raw hraw, ← nameCell_raw hraw] at h
      exact ⟨notMem_of_cut (nameCell_injective hraw h), hname⟩
    · intro h
      rw [cut_of_notMem h.1]
      exact (encoded_raw_iff name).mpr h.2

/-- A handle as a reply prints it. -/
def paddedCell (f : NfsFh3) : Cell := hexBytes (f.data ++ padding f.data.length)

theorem reply_handle_iff (f : NfsFh3) : paddedCell f = handleCell f ↔ f.data.length % 4 = 0 := by
  rw [← padding_eq_nil, paddedCell, handleCell]
  constructor
  · intro h
    exact List.append_cancel_left ((hexBytes_injective h).trans (List.append_nil _).symm)
  · intro h
    rw [h, List.append_nil]

theorem decoded_handle (f : NfsFh3) : decoded (handleCell f) = handleCell f := (printed_hexBytes _).decoded

theorem encoded_handle (f : NfsFh3) : encoded (handleCell f) = handleCell f := (printed_hexBytes _).encoded

theorem cells_handleText (f : NfsFh3) : Cells (handleText f) [paddedCell f] := cells_printed (printed_hexBytes _)

/-! ## Attributes -/

theorem printed_value (v : Value) : Printed v.text := by
  cases v with
  | word w => exact printed_toDigits (by decide) (by decide)
  | hyper v => exact printed_toDigits (by decide) (by decide)
  | time t => exact (printed_dec _).append (printed_point.append (printed_padLeft (by decide) (by decide) (printed_dec _) 6))
  | stable how =>
    show Printed [Char.ofNat (stableLetter how).toNat]
    unfold stableLetter
    split
    · exact ⟨by decide, by decide⟩
    split
    · exact ⟨by decide, by decide⟩
    split <;> exact ⟨by decide, by decide⟩

/-- Labels, without their blanks, and values. -/
def labelledCells (fs : List (String × Value)) : List Cell := fs.flatMap fun f => [f.1.toList.dropLast, f.2.text]

theorem cells_labelled {fs : List (String × Value)} (h : ∀ s ∈ fs.map Prod.fst, s.toList = s.toList.dropLast ++ [' '] ∧
    bareText s.toList.dropLast = true ∧ Nonblank s.toList.dropLast) : Cells (labelledText fs) (labelledCells fs) := by
  induction fs with
  | nil => exact cells_nil
  | cons f fs ih =>
    rw [List.map_cons, List.forall_mem_cons] at h
    obtain ⟨hlabel, hbare, hblank⟩ := h.1
    have hfirst : Cells (f.1.toList ++ f.2.text ++ [' ']) [f.1.toList.dropLast, f.2.text] := by
      have hword := (cells_printed ⟨hbare, hblank⟩).append (cells_printed (printed_value f.2))
      rwa [← hlabel, ← List.append_assoc] at hword
    exact hfirst.append (ih h.2)

def attrLabels : List String :=
  ["ftype ", "mode ", "nlink ", "uid ", "gid ", "size ", "used ", "rdev ", "rdev2 ", "fsid ", "fileid ", "atime ", "mtime ", "ctime "]

theorem mem_attrLabels {a : Option Fattr3} {s : String} (h : s ∈ (attrFields a).map Prod.fst) : s ∈ attrLabels := by
  cases a with
  | none => cases h
  | some a => exact h

theorem cells_attrs (a : Option Fattr3) : Cells (attrText a) (labelledCells (attrFields a)) := by
  have labels : ∀ s ∈ attrLabels, s.toList = s.toList.dropLast ++ [' '] ∧ bareText s.toList.dropLast = true ∧
      Nonblank s.toList.dropLast := by decide
  exact cells_labelled fun s hs => labels s (mem_attrLabels hs)

theorem printed_labelled {fs : List (String × Value)} (h : ∀ s ∈ fs.map Prod.fst, Printed s.toList.dropLast) :
    ∀ w ∈ labelledCells fs, Printed w := by
  intro w hw
  obtain ⟨f, hf, hw⟩ := List.mem_flatMap.mp hw
  simp only [List.mem_cons, List.not_mem_nil, or_false] at hw
  rcases hw with rfl | rfl
  · exact h _ (List.mem_map_of_mem hf)
  · exact printed_value f.2

theorem printed_attrs (a : Option Fattr3) : ∀ w ∈ labelledCells (attrFields a), Printed w := by
  have labels : ∀ s ∈ attrLabels, bareText s.toList.dropLast = true ∧ Nonblank s.toList.dropLast := by decide
  apply printed_labelled
  intro s hs
  obtain ⟨hbare, hblank⟩ := labels s (mem_attrLabels hs)
  exact ⟨hbare, hblank⟩

/-! ## Lines -/

/-- The line of a call of a procedure. -/
structure CallLine (q : Proc3) (l : DumpLine) : Prop where
  call : l.record.rpcCall = CALL
  version : l.record.nfsVersion = 3
  proc : l.record.nfsProc = q.number

/-- The line of a successful reply, which is captured whole. -/
structure ReplyLine (r : Reply3) (l : DumpLine) : Prop where
  reply : l.record.rpcCall ≠ CALL
  version : l.record.nfsVersion = 3
  proc : l.record.nfsProc = r.proc.number
  status : l.record.rpcStatus = NFS3_OK
  mapped : Mapped l.xdr (l.actual_len.toNat / 4)
  holds : l.xdr.Holds (wire r.body)
  whole : 4 * r.body.length ≤ l.actual_len.toNat

/-- A call and a reply that `process` is called with, from their lines in the dump. -/
structure Pair (csv : List Char → List Row) (o : Opts) (b : Args) (lib : XdrLib) (count : UInt32) (call reply : DumpLine)
    (m : Matched) : Prop where
  matched : ∃ rows, m ∈ Parser.init.run rows
  call : csv (text (out (call.print o b lib count)) ++ ['\n']) = [m.call]
  reply : csv (text (out (reply.print o b lib count)) ++ ['\n']) = [m.reply]

theorem op_of_run {s : Parser} {rows : List Row} {m : Matched} (h : m ∈ s.run rows) : m.op = cell m.reply OFFSET.OP := by
  induction rows generalizing s with
  | nil => cases h
  | cons row rows ih =>
    rw [Parser.run, List.mem_append] at h
    rcases h with h | h
    · rw [Option.mem_toList] at h
      unfold Parser.processRow at h
      split at h
      · cases h
      split at h
      · cases h
      split at h
      · simp only [Parser.processReply] at h
        split at h
        · cases h
        · obtain rfl := Option.some_inj.mp h
          rfl
      · cases h
    · exact ih h

theorem row_of_csv {csv : List Char → List Row} (hcsv : ReadsCsv csv) {line : List Char} {row row' : Row}
    (h : csv (line ++ ['\n']) = [row]) (hfields : fields line = some row') : row = row'.map decoded := by
  rw [hcsv.row hfields [], hcsv.done] at h
  exact (List.cons.inj h).1.symm

section Rows

variable {csv : List Char → List Row} {o : Opts} {b : Args} {lib : XdrLib} {count : UInt32} {c r : DumpLine} {m : Matched}
  {q : Proc3} {ws : List Cell}

/-- The parameters of a call begin with its arguments. -/
theorem Pair.call_row (h : Pair csv o b lib count c r m) (hcsv : ReadsCsv csv) (hc : CallLine q c)
    (hargs : Begins (printCallArgs o b lib ⟨c.xdr, c.actual_len⟩ q) ws) :
    ∃ more, m.call.drop OFFSET.PARAM_START = ws.map decoded ++ more := by
  have hcall := begins_v3_call c.record.rpcXID q hargs
  rw [← hc.proc] at hcall
  obtain ⟨more, hmore⟩ := fields_callLine hc.call hc.version hcall
  refine ⟨more.map decoded, ?_⟩
  rw [row_of_csv hcsv h.call hmore]
  simp [front, header, OFFSET.PARAM_START]

/-- The results of a reply, from what is printed of them. -/
theorem Pair.reply_row (h : Pair csv o b lib count c r m) (hcsv : ReadsCsv csv) {reply : Reply3} (hr : ReplyLine reply r)
    (hnull : reply.proc ≠ .null) {k : Nat} (hk : k ≤ r.actual_len.toNat / 4)
    (hresult : Puts (printResult o b lib r.xdr (cur r.xdr (r.actual_len.toNat / 4)) r.actual_len NFS3_OK count reply.proc) ws
      (cur r.xdr k)) :
    m.op = reply.proc.name.toList ∧ m.reply[OFFSET.STATUS]? = some "OK".toList ∧
      m.reply.drop OFFSET.RET_START = ws.map decoded ++ replyEnd r := by
  have hreply := puts_v3_resp hr.mapped r.record.rpcXID hnull hk hresult
  rw [← hr.proc, ← hr.status] at hreply
  have hrow := row_of_csv hcsv h.reply (fields_replyLine hr.reply hr.version hreply)
  obtain ⟨rows, hm⟩ := h.matched
  have hok : decoded ['O', 'K'] = ['O', 'K'] := Printed.decoded ⟨by decide, by decide⟩
  have hname := (printed_name reply.proc).decoded
  have hend := map_decoded (printed_replyEnd r)
  rw [op_of_run hm, hrow]
  simp [front, header, cell, OFFSET.OP, OFFSET.STATUS, OFFSET.RET_START, hok, hname, hend]

/-- What a line is read as, if it is in the format. -/
def lineRow (o : Opts) (b : Args) (lib : XdrLib) (l : DumpLine) : Row := readLine (text (out (l.print o b lib 0)))

/-- Two lines of a dump that is read without quirks. -/
theorem pair_of_run (hcall : (fields (text (out (c.print o b lib 0)))).isSome = true)
    (hreply : (fields (text (out (r.print o b lib 0)))).isSome = true) {op : Cell}
    (hrun : Parser.init.run [lineRow o b lib c, lineRow o b lib r] = [⟨op, lineRow o b lib c, lineRow o b lib r⟩]) :
    Pair (readCsv []) o b lib 0 c r ⟨op, lineRow o b lib c, lineRow o b lib r⟩ := by
  have line : ∀ l : DumpLine, (fields (text (out (l.print o b lib 0)))).isSome = true →
      readCsv [] (text (out (l.print o b lib 0)) ++ ['\n']) = [lineRow o b lib l] := by
    intro l h
    obtain ⟨row, hrow⟩ := Option.isSome_iff_exists.mp h
    rw [readCsv_reads.row hrow [], readCsv_reads.done, lineRow, readLine, csvRow_fields hrow]
    rfl
  exact ⟨⟨_, hrun ▸ List.mem_singleton_self _⟩, line c hcall, line r hreply⟩

end Rows

end Nfsdump.Pathtree
