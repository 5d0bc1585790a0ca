/-
  Nfsdump.Driver.AnonymizedLog — from packets through nfsdump, the anonymizer and csv to
  pathtree's pairs.

  A record's line splits into the head that nfsdump prints and words that are one cell each,
  so every line of a log is `Tabular`; a line of an unknown version is called funny, and
  `Parser` passes over that too.

  Proved:
  - `tabular_log`: the lines of any log with hexadecimal addresses are `Tabular`;
  - `anonymized_pairs`: from the anonymized logs, each the only one of its process, `Parser`
    makes the pairs that `Held` makes of the version 3 records, under other names for the hosts.
-/

import Nfsdump.Anonymize.SamePairs
import Nfsdump.Driver.LogPairs
import Nfsdump.Pathtree.CellWords

namespace Nfsdump.Driver

open Record Decode Wire Pathtree Words
open Anonymize (Text Split Word Tabular IsAddress splitLimit splitLine splitLine_eq_some cutAt hostOf portOf
  funnyLine funnyLine_concat readLines readLines_line renameIADDR)

variable {o : Opts} {b : Args} {lib : XdrLib} {count : UInt32} {l : DumpLine} {t : Text} {p : Split} {row : Row}

/-! ## Words behind a head -/

theorem splitLimit_ne_nil (n : Nat) (t : Text) : splitLimit (n + 1) t ≠ [] := by
  cases n with
  | zero => exact List.cons_ne_nil _ _
  | succ n =>
    unfold splitLimit
    dsimp only
    split
    · exact List.cons_ne_nil _ _
    · exact List.cons_ne_nil _ _

/-- A text is split at its first words. -/
theorem words_splitLimit (n : Nat) {t rest : Text} {ws : List Text} (ht : t.dropWhile isBlank = t)
    (hs : splitLimit (n + 1) t = ws ++ [rest]) : words isBlank t = ws ++ words isBlank rest := by
  have whole : ∀ {u : Text} {vs : List Text}, [u] = vs ++ [rest] → words isBlank u = vs ++ words isBlank rest := by
    intro u vs h
    obtain ⟨rfl, h⟩ := List.append_eq_singleton_iff.mp h.symm |>.resolve_right fun h => absurd h.2 (List.cons_ne_nil _ _)
    rw [List.cons.inj h |>.1]
    rfl
  induction n generalizing t ws with
  | zero => exact whole hs
  | succ n ih =>
    unfold splitLimit at hs
    dsimp only at hs
    split at hs
    · exact whole hs
    · next hne =>
      rcases ws with _ | ⟨w, ws⟩
      · exact absurd (List.cons.inj hs).2 (splitLimit_ne_nil n _)
      · obtain ⟨rfl, hws⟩ := List.cons.inj hs
        have hmore := ih (Anonymize.dropWhile_idem _) hws
        have hword : Word (t.takeWhile (!isBlank ·)) := by
          refine Anonymize.takeWhile_word ht ?_
          rintro rfl
          exact hne rfl
        obtain ⟨c, cs, hc⟩ := List.exists_cons_of_ne_nil hne
        have hblank : isBlank c = true := by
          have hhead := List.head_dropWhile_not (fun c => !isBlank c) hne
          simp only [hc, List.head_cons] at hhead
          simpa using hhead
        rw [Anonymize.words_dropWhile, hc, words_blank hblank] at hmore
        conv_lhs => rw [← List.takeWhile_append_dropWhile (p := fun c => !isBlank c) (l := t)]
        rw [hc, words_append hblank, words_word hword.2 hword.1, hmore]
        rfl

theorem words_line (h : splitLine t = some p) : words isBlank t = p.fields ++ words isBlank p.rest := by
  rw [← Anonymize.words_dropWhile t]
  exact words_splitLimit 8 (Anonymize.dropWhile_idem t) (splitLine_eq_some.mp h)

theorem cutAt_split (pat t : Text) : cutAt pat t = t ∨ ∃ v, t = cutAt pat t ++ (pat ++ v) := by
  induction t with
  | nil => exact Or.inl rfl
  | cons c cs ih =>
    unfold cutAt
    split
    · next h =>
      obtain ⟨v, hv⟩ := List.isPrefixOf_iff_prefix.mp h
      exact Or.inr ⟨v, hv.symm⟩
    · rcases ih with h | ⟨v, hv⟩
      · exact Or.inl (by rw [h])
      · refine Or.inr ⟨v, ?_⟩
        rw [List.cons_append, ← hv]

/-- Nothing is cut within a word. -/
theorem kept_words (p : Split) : ∀ w ∈ p.kept, w ∈ words isBlank p.rest := by
  have hpat : ∃ pat, (if p.isCall then " con = " else " status=").toList = ' ' :: pat := by
    split
    · exact ⟨_, rfl⟩
    · exact ⟨_, rfl⟩
  obtain ⟨pat, hpat⟩ := hpat
  intro w hw
  unfold Split.kept at hw
  rw [hpat] at hw
  rcases cutAt_split (' ' :: pat) p.rest with h | ⟨v, hv⟩
  · rw [h] at hw
    exact hw
  · rw [hv, List.cons_append, words_append rfl]
    exact List.mem_append_left _ hw

/-! ## Addresses -/

theorem isAddress_address (hv : o.vflag = false) (host port : UInt32) : IsAddress (address o host port) := by
  have hhost : hostText o host = padLeft 8 '0' (hex host.toNat) := by
    unfold hostText printHostIp
    rw [hv, if_neg Bool.false_ne_true, out_fprintf]
    simp [Piece.text]
  have hsplit : Anonymize.split '.' (address o host port) = [hostText o host, padLeft 4 '0' (hex (0xffff &&& port).toNat)] := by
    have hjoin : address o host port = ['.'].intercalate [hostText o host, padLeft 4 '0' (hex (0xffff &&& port).toNat)] := by
      simp [address]
    show Fields.fields '.' _ = _
    rw [hjoin, Fields.fields_intercalate]
    · simp only [List.forall_mem_cons]
      refine ⟨?_, point_notMem_padded _ _, by simp⟩
      rw [hhost]
      exact point_notMem_padded _ _
    · exact fun _ => List.append_ne_nil_of_right_ne_nil _ Nat.toDigits_ne_nil
  unfold IsAddress hostOf portOf
  rw [hsplit]
  rfl

/-! ## Lines with a head -/

theorem word_front (o : Opts) (l : DumpLine) : ∀ w ∈ front o l, Word w := by
  intro w hw
  refine ⟨?_, (printed_front o l w hw).nonblank⟩
  simp only [front, List.mem_cons, List.not_mem_nil, or_false] at hw
  rcases hw with rfl | rfl | rfl | rfl
  · exact List.append_ne_nil_of_right_ne_nil _ (List.cons_ne_nil _ _)
  · exact List.append_ne_nil_of_right_ne_nil _ (List.cons_ne_nil _ _)
  · exact List.append_ne_nil_of_right_ne_nil _ (List.cons_ne_nil _ _)
  · exact List.cons_ne_nil _ _

theorem yields_spelled {ws : List Text} (h : ∀ w ∈ ws, Word w) : Line (ws.flatMap (· ++ [' '])) ws := by
  induction ws with
  | nil => exact yields_nil
  | cons w ws ih =>
    rw [List.forall_mem_cons] at h
    exact (line_word h.1.2 h.1.1).append (ih h.2)

/-- The time is first. -/
theorem head_front (t : Text) : ((front o l).flatMap (· ++ [' ']) ++ t).head?.any Char.isDigit := by
  obtain ⟨c, cs, hc⟩ := List.exists_cons_of_ne_nil (Nat.toDigits_ne_nil (b := 10) (n := l.record.secs.toNat))
  have hdigit : c.isDigit := Digits.isDigit_toDigits (hc ▸ List.mem_cons_self)
  simp only [front, stamp, dec, hc, List.flatMap_cons, List.cons_append, List.head?_cons, Option.any_some]
  exact hdigit

/-- A record whose first words are the head that is printed. -/
theorem tabular_split (hv : o.vflag = false) (hval : (l.print o b lib count).val ≠ none) {ws : List Text}
    (hsplit : splitLine (text (out (l.print o b lib count))) = some p) (hfields : p.fields = front o l ++ ws) (hws : ∀ w ∈ ws, Printed w)
    (hseamless : Seamless (text (out (l.print o b lib count)))) (hrow : fields (text (out (l.print o b lib count))) = some row)
    (hfront : row.take 5 = p.fields.take 5) (hback : ¬ PassedOver (row.map Pathtree.decoded) → row.take 8 = p.fields) :
    Tabular (text (out (l.print o b lib count)) ++ ['\n']) := by
  have hprinted : ∀ w ∈ p.fields, Printed w := by
    rw [hfields]
    exact List.forall_mem_append.mpr ⟨printed_front o l, hws⟩
  have hhead : Anonymize.recordOf (text (out (l.print o b lib count)) ++ ['\n']) = some p := by
    rw [Anonymize.recordOf_eq_some, List.dropLast_concat]
    refine ⟨?_, hsplit⟩
    rw [text_dumpLine hval, List.append_assoc]
    exact head_front _
  have hlong : 8 ≤ row.length := by
    have hle := words_le_fields hseamless hrow
    rw [words_line hsplit, List.length_append] at hle
    exact le_trans (Nat.le_add_right _ _) hle
  have hkept : ∀ w ∈ p.kept, OneCell w := by
    intro w hw
    apply cells_of_words hseamless hrow
    rw [words_line hsplit]
    exact List.mem_append_right _ (kept_words p w hw)
  have haddr : p.src_addr = address o l.record.srcHost l.record.srcPort ∧ p.des_addr = address o l.record.dstHost l.record.dstPort := by
    simp only [Split.fields, front, List.cons_append, List.nil_append, List.cons.injEq] at hfields
    exact ⟨hfields.2.1, hfields.2.2.1⟩
  have hfront' : (row.map Pathtree.decoded).take 5 = p.fields.take 5 := by
    rw [← List.map_take, hfront]
    exact map_decoded fun w hw => hprinted w (List.mem_of_mem_take hw)
  have hback' : ¬ PassedOver (row.map Pathtree.decoded) → (row.map Pathtree.decoded).take 8 = p.fields := by
    intro h
    rw [← List.map_take, hback h, map_decoded hprinted]
  refine .record p (row.map Pathtree.decoded) hhead (by rw [List.dropLast_concat])
    (by rw [List.dropLast_concat]; exact csvRow_fields hrow)
    (by rwa [List.length_map]) hfront' hback' hprinted hkept ?_ ?_
  · rw [haddr.1]
    exact isAddress_address hv _ _
  · rw [haddr.2]
    exact isAddress_address hv _ _

theorem starts_v3 (hversion : l.record.nfsVersion = 3) :
    Starts (printBody o b lib count l.record l.xdr l.payload_len l.actual_len)
      ((labels (if l.record.rpcCall = CALL then "C3" else "R3") l.record.rpcXID l.record.nfsProc).flatMap (· ++ [' '])) := by
  unfold printBody
  split
  · unfold printCall
    rw [if_pos hversion]
    exact (starts_v3_call _ _ _ _).bind
  · unfold printReplyBody
    rw [if_pos hversion]
    exact (starts_v3_resp _ _ _ _ _).bind.bind

variable {dir : String}

theorem printed_labels (hdir : Printed dir.toList) (xid op : UInt32) : ∀ w ∈ labels dir xid op, Printed w := by
  simp only [labels, List.forall_mem_cons]
  exact ⟨hdir, printed_zeros, printed_zeros, printed_opName op, by simp⟩

theorem opName_ne_nil (op : UInt32) : opName op ≠ [] := by
  unfold opName
  split
  · next q _ => cases q <;> decide
  · decide

theorem word_labels (hdir : Word dir.toList) (hprinted : Printed dir.toList) (xid op : UInt32) : ∀ w ∈ labels dir xid op, Word w := by
  intro w hw
  refine ⟨?_, (printed_labels hprinted xid op w hw).nonblank⟩
  simp only [labels, List.mem_cons, List.not_mem_nil, or_false] at hw
  rcases hw with rfl | rfl | rfl | rfl
  · exact hdir.1
  · exact List.append_ne_nil_of_right_ne_nil _ Nat.toDigits_ne_nil
  · exact List.append_ne_nil_of_right_ne_nil _ Nat.toDigits_ne_nil
  · exact opName_ne_nil op

theorem tabular_v3 (hv : o.vflag = false) (hversion : l.record.nfsVersion = 3) (hval : (l.print o b lib count).val ≠ none) :
    Tabular (text (out (l.print o b lib count)) ++ ['\n']) := by
  obtain ⟨more, hrow⟩ := fields_begins (begins_v3 hversion hval)
  have hstarts : Starts (printBody o b lib count l.record l.xdr l.payload_len l.actual_len) _ := starts_v3 hversion
  obtain ⟨tail, htail⟩ := hstarts
  have hdir : Printed (if l.record.rpcCall = CALL then "C3" else "R3").toList ∧
    Word (if l.record.rpcCall = CALL then "C3" else "R3").toList := by
    split
    · exact ⟨⟨by decide, by decide⟩, by decide, by decide⟩
    · exact ⟨⟨by decide, by decide⟩, by decide, by decide⟩
  generalize (if l.record.rpcCall = CALL then "C3" else "R3") = dir at hrow htail hdir
  have hprinted := printed_labels hdir.1 l.record.rpcXID l.record.nfsProc
  have hword : ∀ w ∈ front o l ++ labels dir l.record.rpcXID l.record.nfsProc, Word w :=
    List.forall_mem_append.mpr ⟨word_front o l, word_labels hdir.2 hdir.1 _ _⟩
  have htext : text (out (l.print o b lib count)) = (front o l ++ labels dir l.record.rpcXID l.record.nfsProc).flatMap (· ++ [' ']) ++
      (tail ++ text (out (printTrailer l.ids l.con l.len l.longpkt))) := by
    rw [text_dumpLine hval, htail, List.flatMap_append]
    simp only [List.append_assoc]
  have hsplit := Anonymize.splitLimit_spelled _ hword (tail ++ text (out (printTrailer l.ids l.con l.len l.longpkt)))
  rw [← htext] at hsplit
  refine tabular_split (p := ⟨stamp l.record.secs l.record.usecs, address o l.record.srcHost l.record.srcPort,
    address o l.record.dstHost l.record.dstPort, protoText l.proto, dir.toList, Piece.text (.x0 8 l.record.rpcXID),
    Piece.text (.x0 2 l.record.nfsProc), opName l.record.nfsProc,
    (tail ++ text (out (printTrailer l.ids l.con l.len l.longpkt))).dropWhile isBlank⟩) hv hval
      (splitLine_eq_some.mpr hsplit) rfl hprinted
    (seamless_line (Or.inl hversion) hval) hrow rfl fun _ => rfl

/-! ### Version 2 -/

/-- The procedure as a version 2 line names it. -/
def procName2 (name : Proc2 → String) (op : UInt32) : Cell :=
  match Proc2.ofNumber op with
  | some q => (name q).toList
  | none => "??".toList

def procText2 (name : Proc2 → String) (op : UInt32) : List Char :=
  match Proc2.ofNumber op with
  | some q => padRight 8 (name q).toList ++ [' ']
  | none => "?? ".toList

def labels2 (dir : String) (name : Proc2 → String) (xid op : UInt32) : List Cell :=
  [dir.toList, hex xid.toNat, hex op.toNat, procName2 name op]

def head2 (dir : String) (name : Proc2 → String) (xid op : UInt32) : List Char :=
  (dir.toList ++ [' ']) ++ ((padRight 8 (hex xid.toNat) ++ [' ']) ++ ((padLeft 2 ' ' (hex op.toNat) ++ [' ']) ++ procText2 name op))

theorem starts_call2 (op xid : UInt32) (p : Ptr) (n : UInt32) :
    Starts (nfs_v2_print_call o op xid p n count) (head2 "C2" Proc2.callName xid op) := by
  have htext : head2 "C2" Proc2.callName xid op =
      [] ++ (text [.lit "C2 ", .xLeft 8 xid, .lit " ", .xRight 2 op, .lit " "] ++ procText2 Proc2.callName op) := by
    simp [head2, Piece.text]
  rw [htext, nfs_v2_print_call]
  refine Starts.after (x := bump2 .call .total) (a := ()) rfl (Starts.after (a := ()) rfl ?_)
  unfold procText2
  cases Proc2.ofNumber op with
  | none =>
    have hname : Starts (fprintf [.lit "?? "]) "?? ".toList := ⟨[], rfl⟩
    exact Starts.after (x := bump2 .call .unknown) (a := ()) rfl hname.bind
  | some q =>
    have hname : Starts (fprintf [.sLeft 8 q.callName, .lit " "]) (padRight 8 q.callName.toList ++ [' ']) := ⟨[], by simp [Piece.text]⟩
    exact Starts.after (x := bump2 .call (.proc q)) (a := ()) rfl hname.bind

theorem starts_resp2 (op xid : UInt32) (p : Ptr) (n status : UInt32) :
    Starts (nfs_v2_print_resp o op xid p n status count) (head2 "R2" Proc2.replyName xid op) := by
  have htext : head2 "R2" Proc2.replyName xid op =
      text [.lit "R2 ", .xLeft 8 xid, .lit " ", .xRight 2 op, .lit " "] ++ ([] ++ procText2 Proc2.replyName op) := by
    simp [head2, Piece.text]
  rw [htext, nfs_v2_print_resp]
  refine Starts.after (a := ()) rfl (Starts.after (x := bump2 .reply .total) (a := ()) rfl ?_)
  unfold procText2
  cases Proc2.ofNumber op with
  | none =>
    have hname : Starts (fprintf [.lit "?? "]) "?? ".toList := ⟨[], rfl⟩
    exact Starts.after (x := bump2 .reply .unknown) (a := ()) rfl hname.bind
  | some q =>
    have hname : Starts (fprintf [.sLeft 8 q.replyName, .lit " "]) (padRight 8 q.replyName.toList ++ [' ']) := ⟨[], by simp [Piece.text]⟩
    exact Starts.after (x := bump2 .reply (.proc q)) (a := ()) rfl hname.bind

/-- Names that are printed as one word. -/
def PlainNames (name : Proc2 → String) : Prop := ∀ q, Printed (name q).toList ∧ (name q).toList ≠ []

theorem plain_callName : PlainNames Proc2.callName := by
  intro q
  refine ⟨⟨bare_callName q, ?_⟩, ?_⟩
  · cases q <;> decide
  · cases q <;> decide

theorem plain_replyName : PlainNames Proc2.replyName := by
  intro q
  refine ⟨⟨bare_replyName q, ?_⟩, ?_⟩
  · cases q <;> decide
  · cases q <;> decide

variable {name : Proc2 → String}

theorem printed_labels2 (hdir : Printed dir.toList) (hname : PlainNames name) (xid op : UInt32) :
    ∀ w ∈ labels2 dir name xid op, Printed w := by
  have hproc : Printed (procName2 name op) := by
    unfold procName2
    split
    · next q _ => exact (hname q).1
    · exact ⟨by decide, by decide⟩
  simp only [labels2, List.forall_mem_cons]
  exact ⟨hdir, printed_toDigits (by decide) (by decide), printed_toDigits (by decide) (by decide), hproc, by simp⟩

theorem line_head2 (hdir : Word dir.toList) (hname : PlainNames name) (xid op : UInt32) :
    Line (head2 dir name xid op) (labels2 dir name xid op) := by
  have hproc : Line (procText2 name op) [procName2 name op] := by
    unfold procText2 procName2
    split
    · next q _ => exact line_padRight (hname q).1.nonblank (hname q).2 8
    · exact line_word (w := "??".toList) (by decide) (by decide)
  have hxid := line_padRight (nonblank_hex xid.toNat) Nat.toDigits_ne_nil 8
  have hop := line_padLeft (nonblank_hex op.toNat) Nat.toDigits_ne_nil 2
  exact (line_word hdir.2 hdir.1).append (hxid.append (hop.append hproc))

/-- What the body of a version 2 record begins with. -/
theorem starts_v2 (hversion : l.record.nfsVersion = 2) : ∃ name, PlainNames name ∧
    Starts (printBody o b lib count l.record l.xdr l.payload_len l.actual_len)
      (head2 (if l.record.rpcCall = CALL then "C2" else "R2") name l.record.rpcXID l.record.nfsProc) := by
  have h23 : ¬ l.record.nfsVersion = 3 := by rw [hversion]; decide
  unfold printBody
  split
  · refine ⟨Proc2.callName, plain_callName, ?_⟩
    unfold printCall
    rw [if_neg h23, if_pos hversion]
    exact (starts_call2 _ _ _ _).bind
  · refine ⟨Proc2.replyName, plain_replyName, ?_⟩
    unfold printReplyBody
    rw [if_neg h23, if_pos hversion]
    exact (starts_resp2 _ _ _ _ _).bind.bind

/-! ### Lines that are called funny -/

/-- Behind the words that call it funny a head is out of its columns. -/
theorem funny_front {m : Mode} {done : List Cell} (hrun : run .start t = some (m, done)) (hm : m.Open) :
    ∃ row', csvRow (funnyLine ((front o l).flatMap (· ++ [' ']) ++ t)).dropLast = some row' ∧ PassedOver row' := by
  have htext : (funnyLine ((front o l).flatMap (· ++ [' ']) ++ t)).dropLast =
      (["XX".toList, "Funny".toList, "line".toList,
        '(' :: stamp l.record.secs l.record.usecs, address o l.record.srcHost l.record.srcPort,
        address o l.record.dstHost l.record.dstPort, protoText l.proto].flatMap (· ++ [' '])) ++ (t ++ [')']) := by
    rw [funnyLine_concat, List.dropLast_concat]
    simp [front]
  have hfront := printed_front o l
  simp only [front, List.forall_mem_cons] at hfront
  have hprinted : ∀ w ∈ ["XX".toList, "Funny".toList, "line".toList, '(' :: stamp l.record.secs l.record.usecs,
      address o l.record.srcHost l.record.srcPort, address o l.record.dstHost l.record.dstPort, protoText l.proto], Printed w := by
    simp only [List.forall_mem_cons]
    have hopen : Printed ['('] := ⟨by decide, by decide⟩
    exact ⟨⟨by decide, by decide⟩, ⟨by decide, by decide⟩, ⟨by decide, by decide⟩, hopen.append hfront.1, hfront.2.1, hfront.2.2.1,
      hfront.2.2.2.1, by simp⟩
  have hlast : ∃ more, fields (t ++ [')']) = some more := by
    rw [fields, run_append_some hrun]
    rcases hm with rfl | ⟨w, rfl⟩
    · exact ⟨_, rfl⟩
    · exact ⟨_, rfl⟩
  obtain ⟨more, hmore⟩ := hlast
  have hpoint : '.' ∈ address o l.record.srcHost l.record.srcPort := List.mem_append_right _ List.mem_cons_self
  refine ⟨_, csvRow_fields (by rw [htext, fields_cells (cells_words hprinted), hmore]; rfl), ?_⟩
  refine PassedOver.decoded (Or.inr ⟨?_, ?_⟩) ?_
  · show address o l.record.srcHost l.record.srcPort ≠ "C3".toList
    intro h
    rw [h] at hpoint
    exact absurd hpoint (by decide)
  · show address o l.record.srcHost l.record.srcPort ≠ "R3".toList
    intro h
    rw [h] at hpoint
    exact absurd hpoint (by decide)
  · exact printed_address o l.record.srcHost l.record.srcPort

theorem recordOf_eq_none (h : splitLine t = none) : Anonymize.recordOf (t ++ ['\n']) = none := by
  unfold Anonymize.recordOf
  rw [List.dropLast_concat, h]
  split <;> rfl

theorem tabular_v2 (hv : o.vflag = false) (hversion : l.record.nfsVersion = 2) (hval : (l.print o b lib count).val ≠ none) :
    Tabular (text (out (l.print o b lib count)) ++ ['\n']) := by
  have hbegins := begins_v2 hversion hval
  obtain ⟨more, hrow⟩ := fields_begins hbegins
  have hstarts : ∃ name, PlainNames name ∧ Starts (printBody o b lib count l.record l.xdr l.payload_len l.actual_len) _ :=
    starts_v2 hversion
  obtain ⟨name, hname, tail, htail⟩ := hstarts
  obtain ⟨m, done, hrun, hm⟩ := hbegins.cells
  obtain ⟨m', done', hrun', hm'⟩ := keeps_trailer l m hm
  have hbody : ∃ cells, run .start (text (out (printBody o b lib count l.record l.xdr l.payload_len l.actual_len)) ++
      text (out (printTrailer l.ids l.con l.len l.longpkt))) = some (m', cells) := by
    rw [run_append_some hrun, hrun']
    exact ⟨_, rfl⟩
  obtain ⟨cells, hbody⟩ := hbody
  have hdir : Printed (if l.record.rpcCall = CALL then "C2" else "R2").toList ∧
    (if l.record.rpcCall = CALL then "C2" else "R2").toList ≠ [] ∧
      (if l.record.rpcCall = CALL then "C2" else "R2").toList ≠ "C3".toList ∧
      (if l.record.rpcCall = CALL then "C2" else "R2").toList ≠ "R3".toList := by
    split
    · exact ⟨⟨by decide, by decide⟩, by decide, by decide, by decide⟩
    · exact ⟨⟨by decide, by decide⟩, by decide, by decide, by decide⟩
  generalize (if l.record.rpcCall = CALL then "C2" else "R2") = dir at hrow htail hdir
  obtain ⟨hplain, hne, hcall, hreply⟩ := hdir
  have hover : PassedOver ((front o l ++ ([dir.toList] ++ more)).map Pathtree.decoded) :=
    PassedOver.decoded (Or.inr ⟨hcall, hreply⟩) hplain
  have htext := text_dumpLine hval
  have hwords : words isBlank (text (out (l.print o b lib count))) = (front o l ++ labels2 dir name l.record.rpcXID l.record.nfsProc) ++
      words isBlank (tail ++ text (out (printTrailer l.ids l.con l.len l.longpkt))) := by
    rw [htext, htail, List.append_assoc, yields_spelled (word_front o l), line_head2 ⟨hne, hplain.nonblank⟩ hname, List.append_assoc]
  cases hp : splitLine (text (out (l.print o b lib count))) with
  | some p =>
    have hfields : p.fields = front o l ++ labels2 dir name l.record.rpcXID l.record.nfsProc :=
      List.append_inj_left ((words_line hp).symm.trans hwords) rfl
    refine tabular_split hv hval hp hfields (printed_labels2 hplain hname _ _) (seamless_line (Or.inr hversion) hval) hrow ?_
      fun h => absurd hover h
    rw [hfields]
    rfl
  | none =>
    refine .other _ (recordOf_eq_none hp) (by rw [List.dropLast_concat]) (by rw [List.dropLast_concat]; exact csvRow_fields hrow)
      hover fun _ => ?_
    rw [List.dropLast_concat, htext]
    exact funny_front hbody hm'

/-! ### Other versions -/

/-- The two lines of a record of another version. -/
theorem lines_other (h3 : l.record.nfsVersion ≠ 3) (h2 : l.record.nfsVersion ≠ 2) (hval : (l.print o b lib count).val ≠ none) :
    ∃ w t row, (Printed w ∧ w ≠ []) ∧ text (out (l.print o b lib count)) = ((front o l).flatMap (· ++ [' ']) ++ w) ++ '\n' :: t ∧
      (fields t = some row ∧ ∀ c ∈ row, Printed c) ∧ PassedOver row ∧ ¬ (t ++ ['\n']).head?.any Char.isDigit := by
  have htext := text_dumpLine hval
  have htrailer : ¬ (text (out (printTrailer l.ids l.con l.len l.longpkt)) ++ ['\n']).head?.any Char.isDigit := by
    unfold printTrailer printIds
    cases l.ids with
    | none => exact Bool.false_ne_true
    | some ids => exact Bool.false_ne_true
  by_cases hcall : l.record.rpcCall = CALL
  · refine ⟨"CU".toList ++ decInt l.record.nfsVersion.toInt32, _, trailerCells l, ⟨printed_version ⟨by decide, by decide⟩ _, by simp⟩, ?_,
      ⟨(fields_trailer l).2, printed_trailer l⟩, passedOver_trailer, htrailer⟩
    rw [htext, printBody, if_pos hcall, printCall, if_neg h3, if_neg h2, out_fprintf]
    simp [Piece.text]
  · refine ⟨"RU".toList ++ decInt l.record.nfsVersion.toInt32, text [.lit "status=", .x l.record.rpcStatus, .lit " "] ++
      text [.lit "pl=", .d l.payload_len.toInt32, .lit " "] ++ text (out (printTrailer l.ids l.con l.len l.longpkt)), replyEnd l,
      ⟨printed_version ⟨by decide, by decide⟩ _, by simp⟩, ?_, ⟨?_, printed_replyEnd l⟩, passedOver_replyEnd, Bool.false_ne_true⟩
    · rw [htext, printBody, if_neg hcall, printReplyBody, if_neg h3, if_neg h2, out_fprintf_bind, out_fprintf_bind, out_fprintf]
      simp [Piece.text]
    · rw [List.append_assoc, fields_cells (cells_status _), fields_cells (cells_pl _), (fields_trailer l).2]
      rfl

theorem tabular_front {w : Cell} (hw : Printed w) (hne : w ≠ []) : Tabular ((front o l).flatMap (· ++ [' ']) ++ w ++ ['\n']) := by
  have hrow : csvRow ((front o l).flatMap (· ++ [' ']) ++ w) = some (front o l ++ [w]) := by
    have hcells : ∀ c ∈ front o l ++ [w], Printed c := by
      rw [List.forall_mem_append, List.forall_mem_singleton]
      exact ⟨printed_front o l, hw⟩
    rw [csvRow, fields_cells (cells_words (printed_front o l)), fields_printed hw hne]
    exact congrArg some (map_decoded hcells)
  have hrun : run .start w = some (.plain w, []) := run_plain (ordinary_of_bare hw.bare hw.nonblank) hne
  have hnone : splitLine ((front o l).flatMap (· ++ [' ']) ++ w) = none := by
    cases hp : splitLine ((front o l).flatMap (· ++ [' ']) ++ w) with
    | none => rfl
    | some p =>
      -- there are five words, and eight in a head
      have hwords := words_line hp
      rw [yields_spelled (word_front o l), words_word hw.nonblank hne] at hwords
      have hlen := congrArg List.length hwords
      simp [front, Split.fields] at hlen
  refine .other (front o l ++ [w]) (recordOf_eq_none hnone) (by rw [List.dropLast_concat]) (by rw [List.dropLast_concat]; exact hrow)
    (Or.inl (show 5 < 8 by decide)) fun _ => ?_
  rw [List.dropLast_concat]
  exact funny_front hrun (open_plain w)

theorem tabular_headless (hrow : csvRow t = some row) (hover : PassedOver row) (hhead : ¬ (t ++ ['\n']).head?.any Char.isDigit) :
    Tabular (t ++ ['\n']) := by
  have hnone : Anonymize.recordOf (t ++ ['\n']) = none := by
    unfold Anonymize.recordOf
    rw [if_neg hhead]
  exact .other row hnone (by rw [List.dropLast_concat]) (by rw [List.dropLast_concat]; exact hrow) hover fun h => absurd h hhead

/-! ## Logs -/

/-- What the events write is such lines, in front of any others. -/
def WritesTabular (o : Opts) (b : Args) (lib : XdrLib) (count : UInt32) (es : List Event) : Prop :=
  ∃ ls, (∀ l ∈ ls, Tabular l) ∧ ∀ rest, readLines (text (out (writeEvents o b lib count es)) ++ rest) = ls ++ readLines rest

theorem WritesTabular.append {es es' : List Event} (hval : (writeEvents o b lib count es).val ≠ none) (h : WritesTabular o b lib count es)
    (h' : WritesTabular o b lib count es') : WritesTabular o b lib count (es ++ es') := by
  obtain ⟨ls, hls, hreads⟩ := h
  obtain ⟨ls', hls', hreads'⟩ := h'
  refine ⟨ls ++ ls', List.forall_mem_append.mpr ⟨hls, hls'⟩, fun rest => ?_⟩
  rw [out_writeEvents_append hval, List.append_assoc, hreads, hreads', List.append_assoc]

theorem writesTabular_line (hrow : fields t = some row) (htab : Tabular (t ++ ['\n'])) :
    ∃ ls, (∀ l ∈ ls, Tabular l) ∧ ∀ rest, readLines (t ++ ['\n'] ++ rest) = ls ++ readLines rest := by
  refine ⟨[t ++ ['\n']], List.forall_mem_singleton.mpr htab, fun rest => ?_⟩
  rw [List.append_assoc]
  exact readLines_line (fields_no_break hrow) rest

theorem writesTabular_record (hv : o.vflag = false) (d : DumpLine) (hval : (d.print o b lib count).val ≠ none) :
    WritesTabular o b lib count d.events := by
  unfold WritesTabular
  rw [text_line d hval]
  by_cases h3 : d.record.nfsVersion = 3
  · obtain ⟨more, hrow⟩ := fields_begins (begins_v3 h3 hval)
    exact writesTabular_line hrow (tabular_v3 hv h3 hval)
  by_cases h2 : d.record.nfsVersion = 2
  · obtain ⟨more, hrow⟩ := fields_begins (begins_v2 h2 hval)
    exact writesTabular_line hrow (tabular_v2 hv h2 hval)
  obtain ⟨w, t, row, ⟨hw, hne⟩, htext, ⟨hrow, hcells⟩, hover, hhead⟩ := lines_other h3 h2 hval
  have hread : csvRow t = some row := by rw [csvRow_fields hrow, map_decoded hcells]
  have hfirst : fields ((front o d).flatMap (· ++ [' ']) ++ w) = some (front o d ++ [w]) := by
    rw [fields_cells (cells_words (printed_front o d)), fields_printed hw hne]
    rfl
  refine ⟨[(front o d).flatMap (· ++ [' ']) ++ w ++ ['\n'], t ++ ['\n']], ?_, fun rest => ?_⟩
  · rw [List.forall_mem_cons, List.forall_mem_singleton]
    exact ⟨tabular_front hw hne, tabular_headless hread hover hhead⟩
  · rw [htext, List.append_assoc, List.append_assoc, List.cons_append, readLines_line (fields_no_break hfirst), List.singleton_append,
      readLines_line (fields_no_break hrow)]
    rfl

theorem writesTabular_zero (cnt : UInt32) : WritesTabular o b lib count [.rhLenZero cnt] := by
  unfold WritesTabular
  rw [text_zero]
  exact writesTabular_line (fields_zero cnt) (tabular_headless (csvRow_zero cnt) (passedOver_zero cnt) Bool.false_ne_true)

theorem writesTabular_entries (hv : o.vflag = false) (entries : List LogEntry)
    (hval : (writeEvents o b lib count (entries.flatMap LogEntry.events)).val ≠ none) :
    WritesTabular o b lib count (entries.flatMap LogEntry.events) := by
  induction entries with
  | nil => exact ⟨[], fun _ hl => absurd hl List.not_mem_nil, fun _ => rfl⟩
  | cons x entries ih =>
    rw [List.flatMap_cons, writeEvents_bind_val] at hval
    obtain ⟨v, hv'⟩ := Option.ne_none_iff_exists'.mp hval
    obtain ⟨u, hu, hrest⟩ := Option.bind_eq_some_iff.mp hv'
    have hx : (writeEvents o b lib count x.events).val ≠ none := by rw [hu]; exact Option.some_ne_none u
    rw [List.flatMap_cons]
    refine WritesTabular.append hx ?_ (ih (by rw [hrest]; exact Option.some_ne_none v))
    cases x with
    | record d =>
      refine writesTabular_record hv d fun hd => hx ?_
      show (writeEvents o b lib count d.events).val = none
      rw [writeEvents_line, Trace.bind_none _ hd]
    | zero cnt => exact writesTabular_zero cnt

/-- Any log of a run that followed no NULL, unless its addresses are in dots. -/
theorem tabular_log (hv : o.vflag = false) {w : World} {ks : List Capture}
    (hrun : (writeEvents o b lib count (eventsOf w ks)).val ≠ none) :
    ∀ l ∈ readLines (logOf o b lib count w ks), Tabular l := by
  obtain ⟨entries, hentries⟩ := events_written w ks
  rw [← writeEvents_writes, hentries] at hrun
  obtain ⟨ls, hls, hreads⟩ := writesTabular_entries hv entries hrun
  have hlog : readLines (logOf o b lib count w ks) = ls := by
    have hall := hreads []
    rw [← hentries, writeEvents_writes, List.append_nil] at hall
    rw [logOf, hall]
    exact List.append_nil ls
  rw [hlog]
  exact hls

/-! ## Pairs -/

/-- A log of nfsdump: where its tables stand, the packets, and in which process the next log is
    anonymized. -/
structure DumpLog where
  world : World
  packets : List Capture
  next : Anonymize.Restart

def DumpLog.text (o : Opts) (b : Args) (lib : XdrLib) (count : UInt32) (g : DumpLog) : Text := logOf o b lib count g.world g.packets

def DumpLog.records (g : DumpLog) : List NfsPkt := taken (eventsOf g.world g.packets)

def DumpLog.file (o : Opts) (b : Args) (lib : XdrLib) (count : UInt32) (g : DumpLog) : Text × Anonymize.Restart :=
  (g.text o b lib count, g.next)

/-- The row of a record, with other names for its hosts. -/
structure RenamedRow (o : Opts) (ν : Anonymize.Kind → Text → Text) (r : NfsPkt) (row : Row) : Prop where
  time : cell row OFFSET.TIME = stamp r.secs r.usecs
  src : cell row OFFSET.SRC = renameIADDR ν (address o r.srcHost r.srcPort)
  dst : cell row OFFSET.DST = renameIADDR ν (address o r.dstHost r.dstPort)
  dir : cell row OFFSET.DIRECTION = (if r.rpcCall = CALL then "C3" else "R3").toList
  xid : cell row OFFSET.XID = Piece.text (.x0 8 r.rpcXID)
  op : cell row OFFSET.OP = opName r.nfsProc

structure RenamedPair (o : Opts) (ν : Anonymize.Kind → Text → Text) (m : Matched) (p : NfsPkt × NfsPkt) : Prop where
  op : m.op = opName p.2.nfsProc
  call : RenamedRow o ν p.1 m.call
  reply : RenamedRow o ν p.2 m.reply

theorem RecordRow.renamed {ν : Anonymize.Kind → Text → Text} {A : Set Cell} {r : NfsPkt} {row row' : Row} (h : RecordRow o r row)
    (hr : OtherClients A (renameIADDR ν) row row') : RenamedRow o ν r row' where
  time := hr.time.trans h.time
  src := by rw [hr.src', h.src]
  dst := by rw [hr.dst', h.dst]
  dir := hr.dir.trans h.dir
  xid := hr.xid.trans h.xid
  op := hr.op.trans h.op

theorem rows_logs {csv : List Char → List Row} (hcsv : ReadsCsv csv) (logs : List DumpLog)
    (hrun : ∀ g ∈ logs, (writeEvents o b lib count (eventsOf g.world g.packets)).val ≠ none) :
    List.Forall₂ (RecordRow o) (logs.flatMap DumpLog.records)
      ((csv (logs.flatMap (DumpLog.text o b lib count))).filter fun row => ¬ PassedOver row) := by
  induction logs with
  | nil =>
    rw [List.flatMap_nil, List.flatMap_nil, hcsv.done]
    exact .nil
  | cons g logs ih =>
    rw [List.forall_mem_cons] at hrun
    obtain ⟨rows, h⟩ := readAs_events hcsv hrun.1
    rw [List.flatMap_cons, List.flatMap_cons]
    show List.Forall₂ _ _ ((csv (text (out (writeEvents o b lib count (eventsOf g.world g.packets))) ++ _)).filter _)
    rw [h.reads, List.filter_append]
    exact List.rel_append h.rows (ih hrun.2)

theorem renamed_pairs {ν : Anonymize.Kind → Text → Text} {A : Set Cell} {R : Row → Row → Prop}
    (hR : ∀ row row', R row row' → OtherClients A (renameIADDR ν) row row') {ms ms' : List Matched} {ps : List (NfsPkt × NfsPkt)}
    (h : List.Forall₂ (PairRows o) ms ps) (hsame : List.Forall₂ (SamePair R) ms ms') : List.Forall₂ (RenamedPair o ν) ms' ps := by
  induction h generalizing ms' with
  | nil =>
    rw [List.forall₂_nil_left_iff.mp hsame]
    exact .nil
  | cons hp _ ih =>
    obtain ⟨m', ms'', hm, hms, rfl⟩ := List.forall₂_cons_left_iff.mp hsame
    refine .cons ⟨hm.op.trans hp.op, hp.call.renamed (hR _ _ hm.call), hp.reply.renamed (hR _ _ hm.reply)⟩ (ih hms)

/-- The pairs of the anonymized logs are those of the records. -/
theorem anonymized_pairs {csv : List Char → List Row} (hcsv : ReadsCsv csv) (o : Opts) (hv : o.vflag = false) (b : Args) (lib : XdrLib)
    (count : UInt32) (base : Text) (logs : List DumpLog)
    (hrun : ∀ g ∈ logs, (writeEvents o b lib count (eventsOf g.world g.packets)).val ≠ none)
    (hown : ∀ g ∈ logs.dropLast, g.next.exit = true) :
    List.Forall₂ (RenamedPair o (Anonymize.namingOf (logs.map (DumpLog.file o b lib count))))
      (Parser.init.run (csv (Anonymize.anonymizeFiles base (Anonymize.Session.first base)
        (logs.map (DumpLog.file o b lib count))).flatten))
      (Held.init.run (logs.flatMap DumpLog.records)) := by
  have htab : ∀ f ∈ logs.map (DumpLog.file o b lib count), ∀ l ∈ readLines f.1, Tabular l := by
    intro f hf
    obtain ⟨g, hg, rfl⟩ := List.mem_map.mp hf
    exact tabular_log hv (hrun g hg)
  have hpairs := (sees_init o).run (rows_logs hcsv logs hrun)
  rw [run_filter] at hpairs
  have hfiles : Anonymize.OwnProcesses (logs.map (DumpLog.file o b lib count)) := by
    intro f hf
    rw [← List.map_dropLast] at hf
    obtain ⟨g, hg, rfl⟩ := List.mem_map.mp hf
    exact hown g hg
  have hlines := Anonymize.tabular_files htab
  have hsame := Anonymize.pairs_lines hcsv hlines
  have htext : (logs.map (DumpLog.file o b lib count)).flatMap Prod.fst = logs.flatMap (DumpLog.text o b lib count) := List.flatMap_map ..
  rw [Anonymize.keys_files, ← Anonymize.files_lines, htext] at hsame
  rw [Anonymize.flatten_own base hfiles]
  exact renamed_pairs (fun row row' h => h.otherClients hlines (Anonymize.keys_files _ ▸ List.Subset.refl _)) hpairs hsame

/-- The exchange in two logs, the second anonymized by a new process. -/
def exchangeLogs : List DumpLog := [⟨World.init, oneExchange, .empty true⟩, ⟨World.init, oneExchange, .empty false⟩]

theorem anonymized_pairs_one_exchange : (Held.init.run (exchangeLogs.flatMap DumpLog.records)).length = 2 ∧
    List.Forall₂ (RenamedPair ⟨true, false, false, fun _ => []⟩ (Anonymize.namingOf
        (exchangeLogs.map (DumpLog.file ⟨true, false, false, fun _ => []⟩ args handleLib 0))))
      (Parser.init.run (readCsv [] (Anonymize.anonymizeFiles [] (Anonymize.Session.first [])
        (exchangeLogs.map (DumpLog.file ⟨true, false, false, fun _ => []⟩ args handleLib 0))).flatten))
      (Held.init.run (exchangeLogs.flatMap DumpLog.records)) := by
  have hrun : (writeEvents ⟨true, false, false, fun _ => []⟩ args handleLib 0 (eventsOf World.init oneExchange)).val ≠ none := by
    decide +kernel
  refine ⟨by decide +kernel, anonymized_pairs readCsv_reads _ rfl args handleLib 0 [] _ ?_ (List.forall_mem_singleton.mpr rfl)⟩
  exact List.forall_mem_cons.mpr ⟨hrun, List.forall_mem_singleton.mpr hrun⟩

end Nfsdump.Driver
