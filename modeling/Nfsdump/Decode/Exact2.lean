/-
  Nfsdump.Decode.Exact2 — whether NFSv2 messages are decoded exactly.

  `Message2.Exact` is what exactness asks of a whole message in memory, with `actual_len`
  its length: that only the message is read, that no truncation is reported, that each
  label stands in front of its field's value, and that each decoder moves its cursor over
  its type.

  Three things stand against it. `print_sattr2` leaves the cursor where it was. A reply
  with a status alone has the word behind the status printed as a second one. And times
  are printed signed, the microseconds without the zeros in front, so that 5.000003 reads
  5.3. An empty name also has the byte behind it looked at, and is hashed if that is a slash.

  Proved, for every call, every successful reply and every memory:
  - `exact_call_iff`, `exact_reply_iff`: a message is decoded exactly iff it is plain;
  - `exact2_iff`: both.
-/

import Nfsdump.Decode.Render2

namespace Nfsdump.Decode

open Wire Xdr Words

/-! ## Fields -/

inductive Value2 where
  | word (w : UInt32)
  | bytes (bs : List UInt8)
  | name (bs : List UInt8)
  | time (t : Nfstime2)

/-- The text reads as the value: words and bytes in hex, a time in seconds. -/
def Value2.Shown (o : Opts) : Value2 → List Char → Prop
  | .word w, cs => cs = hex w.toNat
  | .bytes bs, cs => cs = hexBytes bs
  | .name bs, cs => cs = nameToken o bs
  | .time t, cs => Digits.Reads 6 (t.seconds.toNat * 10 ^ 6 + t.useconds.toNat) cs

/-- The words are the fields' labels, each in front of its value. -/
def Shows (o : Opts) : List (String × Value2) → List (List Char) → Prop
  | [], ws => ws = []
  | (label, v) :: fs, ws => ∃ cs rest, ws = label.toList :: cs :: rest ∧ v.Shown o cs ∧ Shows o fs rest

def wordFields (xs : List (String × UInt32)) : List (String × Value2) := xs.map fun x => (x.1, .word x.2)

def Fattr2.fields (a : Fattr2) : List (String × Value2) :=
  wordFields a.labelled ++ [("atime", .time a.atime), ("mtime", .time a.mtime), ("ctime", .time a.ctime)]

/-- The attributes a `sattr` sets. -/
def Sattr2.fields (s : Sattr2) : List (String × Value2) :=
  wordFields ([("mode", s.mode), ("uid", s.uid), ("gid", s.gid), ("size", s.size)].filter fun x => x.2 ≠ 0xffffffff) ++
    ([("atime", s.atime), ("mtime", s.mtime)].filter fun x => x.2.seconds ≠ 0xffffffff).map fun x => (x.1, .time x.2)

def Diropargs2.fields (d : Diropargs2) (fh_str fn_str : String) : List (String × Value2) :=
  [(fh_str, .bytes d.dir.data), (fn_str, .name d.name.chars)]

/-- What the labels of a call stand for; the data of a WRITE have none. -/
def Call2.fields : Call2 → List (String × Value2)
  | .null | .root | .writecache => []
  | .getattr file | .readlink file | .statfs file => [("fh", .bytes file.data)]
  | .setattr a => ("fh", .bytes a.file.data) :: a.attributes.fields
  | .lookup a | .remove a | .rmdir a => a.fields "fh" "fn"
  | .read a => ("fh", .bytes a.file.data) :: wordFields [("offset", a.offset), ("count", a.count), ("tcount", a.totalcount)]
  | .write a => ("fh", .bytes a.file.data) :: wordFields [("begoff", a.beginoffset), ("offset", a.offset), ("tcount", a.totalcount)]
  | .create a | .mkdir a => a.where_.fields "fh" "fn" ++ a.attributes.fields
  | .rename a => a.from_.fields "fh" "fn" ++ a.to_.fields "fh2" "fn2"
  | .link a => ("fh", .bytes a.from_.data) :: a.to_.fields "fh2" "fn"
  | .symlink a => a.from_.fields "fh" "fn" ++ ("fn2", .name a.to_.chars) :: a.attributes.fields
  | .readdir a => [("fh", .bytes a.dir.data), ("cookie", .bytes a.cookie.data), ("count", .word a.count)]

/-- Of a reply; a listing is not looked at. -/
def Reply2.fields : Reply2 → List (String × Value2)
  | .getattr a | .setattr a | .write a => a.fields
  | .lookup r | .create r | .mkdir r => ("fh", .bytes r.file.data) :: r.attributes.fields
  | .readlink data => [("fn", .name data.chars)]
  | .read r => r.attributes.fields ++ [("count", .word (UInt32.ofNat r.data.length))]
  | .statfs reply => wordFields reply.labelled
  | _ => []

section Shows

variable {o : Opts} {fs gs : List (String × Value2)} {ws vs : List (List Char)}

@[simp] theorem shows_nil : Shows o [] ws ↔ ws = [] := Iff.rfl

@[simp] theorem shows_cons {label : String} {v : Value2} {cs : List Char} :
    Shows o ((label, v) :: fs) (label.toList :: cs :: ws) ↔ v.Shown o cs ∧ Shows o fs ws := by
  constructor
  · rintro ⟨cs', rest, heq, hv, hrest⟩
    simp only [List.cons.injEq, true_and] at heq
    obtain ⟨rfl, rfl⟩ := heq
    exact ⟨hv, hrest⟩
  · rintro ⟨hv, hrest⟩
    exact ⟨cs, ws, rfl, hv, hrest⟩

theorem shows_words (xs : List (String × UInt32)) : Shows o (wordFields xs ++ fs) (labelledWords xs ++ ws) ↔ Shows o fs ws := by
  induction xs with
  | nil => rfl
  | cons x xs ih => exact shows_cons.trans ((and_iff_right rfl).trans ih)

def Fattr2.Plain (a : Fattr2) : Prop := a.atime.Plain ∧ a.mtime.Plain ∧ a.ctime.Plain

theorem shows_fattr2 (a : Fattr2) : Shows o (a.fields ++ fs) (a.printed ++ ws) ↔ a.Plain ∧ Shows o fs ws := by
  rw [Fattr2.fields, Fattr2.printed, List.append_assoc, List.append_assoc, shows_words]
  simp only [List.cons_append, List.nil_append, shows_cons, Value2.Shown, reads_timeToken, Fattr2.Plain, and_assoc]

end Shows

/-! ## Parts -/

/-- What a message consists of: the types that have decoders, and the rest. -/
inductive Part2 where
  | fh (str : String) (f : NfsFh2)
  | cookie (c : Nfscookie)
  | fn (str : String) (name : List UInt8)
  | diropargs (fh_str fn_str : String) (d : Diropargs2)
  | sattr (s : Sattr2)
  | fattr (a : Fattr2)
  | diropokres (r : Diropokres2)
  | statfsokres (s : Statfsokres)
  | other (us : List UInt32)

def Part2.xdr : Part2 → List UInt32
  | .fh _ f => f.xdr
  | .cookie c => c.xdr
  | .fn _ name => counted name
  | .diropargs _ _ d => d.xdr
  | .sattr s => s.xdr
  | .fattr a => a.xdr
  | .diropokres r => r.xdr
  | .statfsokres s => s.xdr
  | .other us => us

def Call2.parts : Call2 → List Part2
  | .null | .root | .writecache => []
  | .getattr file | .readlink file | .statfs file => [.fh "fh" file]
  | .setattr a => [.fh "fh" a.file, .sattr a.attributes]
  | .lookup a | .remove a | .rmdir a => [.diropargs "fh" "fn" a]
  | .read a => [.fh "fh" a.file, .other [a.offset, a.count, a.totalcount]]
  | .write a => [.fh "fh" a.file, .other ([a.beginoffset, a.offset, a.totalcount] ++ counted a.data)]
  | .create a | .mkdir a => [.diropargs "fh" "fn" a.where_, .sattr a.attributes]
  | .rename a => [.diropargs "fh" "fn" a.from_, .diropargs "fh2" "fn2" a.to_]
  | .link a => [.fh "fh" a.from_, .diropargs "fh2" "fn" a.to_]
  | .symlink a => [.diropargs "fh" "fn" a.from_, .fn "fn2" a.to_.chars, .sattr a.attributes]
  | .readdir a => [.fh "fh" a.dir, .cookie a.cookie, .other [a.count]]

def Reply2.parts : Reply2 → List Part2
  | .getattr a | .setattr a | .write a => [.fattr a]
  | .lookup r | .create r | .mkdir r => [.diropokres r]
  | .readlink data => [.fn "fn" data.chars]
  | .read r => [.fattr r.attributes, .other (counted r.data)]
  | .statfs reply => [.statfsokres reply]
  | .readdir reply => [.other reply.xdr]
  | _ => []

theorem Call2.parts_xdr (c : Call2) : c.parts.flatMap Part2.xdr = c.xdr := by
  cases c <;> simp [Call2.parts, Call2.xdr, Part2.xdr, Nfspath.xdr]

theorem Reply2.parts_xdr (r : Reply2) : r.parts.flatMap Part2.xdr = r.xdr := by
  cases r <;> simp [Reply2.parts, Reply2.xdr, Part2.xdr, Nfspath.xdr]

/-- A decoder returns the cursor behind the `k` words it decodes. -/
def Moves (p : Ptr) (i k : Nat) (x : Dec Ptr) : Prop := x.val = some (cur p (i + k))

/-- The decoders of a part at word `i` move over it. -/
def Part2.Decoded (o : Opts) (p : Ptr) (n i : Nat) : Part2 → Prop
  | .fh str f => Moves p i f.xdr.length (print_fh2 (cur p i) (cur p n) true str)
  | .cookie c => Moves p i c.xdr.length (print_cookie2 (cur p i) (cur p n) true)
  | .fn str name => Moves p i (counted name).length (print_fn2 o (cur p i) (cur p n) true str)
  | .diropargs fh_str fn_str d =>
    Moves p i d.dir.xdr.length (print_fh2 (cur p i) (cur p n) true fh_str) ∧
    Moves p (i + d.dir.xdr.length) d.name.xdr.length (print_fn2 o (cur p (i + d.dir.xdr.length)) (cur p n) true fn_str) ∧
    Moves p i d.xdr.length (print_diropargs2 o (cur p i) (cur p n) true fh_str fn_str)
  | .sattr s => Moves p i s.xdr.length (print_sattr2 (cur p i) (cur p n) true)
  | .fattr a => Moves p i a.xdr.length (print_fattr2 (cur p i) (cur p n) true)
  | .diropokres r =>
    Moves p i r.file.xdr.length (print_fh2 (cur p i) (cur p n) true "fh") ∧
    Moves p (i + r.file.xdr.length) r.attributes.xdr.length (print_fattr2 (cur p (i + r.file.xdr.length)) (cur p n) true) ∧
    Moves p i r.xdr.length (print_diropokres2 (cur p i) (cur p n) true)
  | .statfsokres s => Moves p i s.xdr.length (print_statfsokres2 (cur p i) (cur p n) true)
  | .other _ => True

/-- Parts one behind the other, from word `i` on. -/
def PartsDecoded (o : Opts) (p : Ptr) (n : Nat) : Nat → List Part2 → Prop
  | _, [] => True
  | i, t :: ts => t.Decoded o p n i ∧ PartsDecoded o p n (i + t.xdr.length) ts

/-! ## Messages -/

/-- A call, or a reply with a status of NFS_OK if it has one. -/
inductive Message2 where
  | call (c : Call2)
  | reply (r : Reply2)

def Message2.xdr : Message2 → List UInt32
  | .call c => c.xdr
  | .reply r => r.xdr

def Message2.fields : Message2 → List (String × Value2)
  | .call c => c.fields
  | .reply r => r.fields

def Message2.parts : Message2 → List Part2
  | .call c => c.parts
  | .reply r => r.parts

def Message2.print (o : Opts) (xid : UInt32) (p : Ptr) (actual_len count : UInt32) : Message2 → Dec Int32
  | .call c => nfs_v2_print_call o c.proc.number xid p actual_len count
  | .reply r => nfs_v2_print_resp o r.proc.number xid p actual_len NFS_OK count

/-- The words in front of the fields. -/
def Message2.header (xid : UInt32) : Message2 → List (List Char)
  | .call c => ["C2".toList, hex xid.toNat, hex c.proc.number.toNat, c.proc.callName.toList]
  | .reply r => ["R2".toList, hex xid.toNat, hex r.proc.number.toNat, r.proc.replyName.toList] ++
      if r.proc.hasStatus then ["OK".toList] else []

/-- A message of `n` words at `p` is decoded exactly. -/
structure Message2.Exact (o : Opts) (xid : UInt32) (p : Ptr) (actual_len count : UInt32) (n : Nat) (m : Message2) : Prop where
  reads : Trace.Only (InPayload p n) (m.print o xid p actual_len count)
  whole : ∀ c ∈ out (m.print o xid p actual_len count), Unmarked c
  shows : ∃ ws, words isBlank (text (out (m.print o xid p actual_len count))) = m.header xid ++ ws ∧ Shows o m.fields ws
  moves : PartsDecoded o p n 0 m.parts

/-- No `sattr`; and no empty name that is to be hashed and has a slash or the end behind it. -/
def Call2.Plain (o : Opts) : Call2 → Prop
  | .setattr _ | .create _ | .mkdir _ | .symlink _ => False
  | .lookup a | .remove a | .rmdir a => a.name.chars ≠ [] ∨ o.RAWNAMES = true
  | .link a => a.to_.name.chars ≠ [] ∨ o.RAWNAMES = true
  | .rename a => (a.to_.name.chars ≠ [] ∨ o.RAWNAMES = true) ∧
      (a.from_.name.chars ≠ [] ∨ o.RAWNAMES = true ∨ a.to_.dir.data.head? ≠ some SLASH)
  | _ => True

/-- A result behind the status where there is one to be decoded, of plain times; and no empty
    path that is to be hashed. -/
def Reply2.Plain (o : Opts) : Reply2 → Prop
  | .remove | .rename | .link | .symlink | .rmdir => False
  | .getattr a | .setattr a | .write a => a.Plain
  | .lookup r | .create r | .mkdir r => r.attributes.Plain
  | .read r => r.attributes.Plain
  | .readlink data => data.chars ≠ [] ∨ o.RAWNAMES = true
  | _ => True

def Message2.Plain (o : Opts) : Message2 → Prop
  | .call c => c.Plain o
  | .reply r => r.Plain o

section Messages

variable {o : Opts} {xid : UInt32} {p : Ptr} {n i k : Nat} {actual_len count : UInt32} {ws : List (List Char)}

theorem runs_bump2 (dir : Direction) (t : Tally Proc2) : Runs p n (bump2 dir t) [] () :=
  ⟨rfl, Trace.only_emit.mpr fun _ ha => List.mem_singleton.mp ha ▸ trivial, fun _ hc => absurd hc List.not_mem_nil, yields_nil⟩

theorem runs_volume2 (dir : Direction) (w : UInt32) : Runs p n (volume2 dir w) [] () :=
  ⟨rfl, Trace.only_emit.mpr fun _ ha => List.mem_singleton.mp ha ▸ trivial, fun _ hc => absurd hc List.not_mem_nil, yields_nil⟩

/-- The front of a line. -/
theorem runs_front {s w : String} (hs : Labels s w) (op : UInt32) :
    Runs p n (fprintf [.lit s, .xLeft 8 xid, .lit " ", .xRight 2 op, .lit " "]) [w.toList, hex xid.toNat, hex op.toNat] () := by
  have hxid : Runs p n (fprintf [.xLeft 8 xid, .lit " "]) [hex xid.toNat] () := by
    refine runs_fprintf ?_ (line_padRight (nonblank_hex _) Nat.toDigits_ne_nil 8)
    simp only [List.forall_mem_cons, List.not_mem_nil, false_implies, implies_true, and_true]
    exact ⟨⟨nofun, nofun⟩, by decide⟩
  have hop : Runs p n (fprintf [.xRight 2 op, .lit " "]) [hex op.toNat] () := by
    refine runs_fprintf ?_ (line_padLeft (nonblank_hex _) Nat.toDigits_ne_nil 2)
    simp only [List.forall_mem_cons, List.not_mem_nil, false_implies, implies_true, and_true]
    exact ⟨⟨nofun, nofun⟩, by decide⟩
  have hfront : Runs p n (do fprintf [.lit s]; fprintf [.xLeft 8 xid, .lit " "]; fprintf [.xRight 2 op, .lit " "]) _ () :=
    (runs_label hs).bind (hxid.bind hop)
  rw [← fprintf_append, ← fprintf_append] at hfront
  exact hfront

theorem runs_procName {s : String} (hs : IsLabel s) : Runs p n (fprintf [.sLeft 8 s, .lit " "]) [s.toList] () := by
  refine runs_fprintf ?_ (line_padRight hs.1 hs.2.1 8)
  simp only [List.forall_mem_cons, List.not_mem_nil, false_implies, implies_true, and_true]
  exact ⟨⟨nofun, nofun⟩, by decide⟩

theorem isLabel_callName (q : Proc2) : IsLabel q.callName := by cases q <;> decide

theorem isLabel_replyName (q : Proc2) : IsLabel q.replyName := by cases q <;> decide

/-- No mark behind a cursor that is not NULL. -/
theorem runs_unmarked (h : Mapped p n) (hk : k ≤ n) (s : String) :
    Runs p n (do Trace.when ((cur p k).addr = 0) (fprintf [.lit s]); return 0) [] (0 : Int32) := by
  rw [decide_eq_false (cur_ne_null h (by omega)), Trace.when_false]
  exact runs_pure 0

theorem runs_print_call (h : Mapped p n) (hlen : actual_len.toNat = 4 * n) (q : Proc2) (hk : k ≤ n)
    (hargs : Runs p n (printArgs2 o (cur p 0) (cur p n) count q) ws (cur p k)) :
    Runs p n (nfs_v2_print_call o q.number xid p actual_len count)
      (["C2".toList, hex xid.toNat, hex q.number.toNat, q.callName.toList] ++ ws) 0 := by
  have hn : actual_len.toNat / 4 = n := by omega
  rw [cur_zero] at hargs
  rw [nfs_v2_print_call, cur_end, hn, Proc2.ofNumber_number]
  refine ((runs_bump2 _ _).bind ((runs_front (by decide : Labels "C2 " "C2") _).bind ((runs_bump2 _ _).bind
    ((runs_procName (isLabel_callName q)).bind (hargs.bind (runs_unmarked h hk _)))))).words ?_
  simp

theorem runs_print_resp (h : Mapped p n) (hlen : actual_len.toNat = 4 * n) (q : Proc2) (hk : k ≤ n)
    (hres : Runs p n (printBody2 o (cur p 0) (cur p n) NFS_OK count q) ws (cur p k)) :
    Runs p n (nfs_v2_print_resp o q.number xid p actual_len NFS_OK count)
      (["R2".toList, hex xid.toNat, hex q.number.toNat, q.replyName.toList] ++
        (if q.hasStatus then ["OK".toList] else []) ++ ws) 0 := by
  have hn : actual_len.toNat / 4 = n := by omega
  have hstatus : Runs p n (Trace.when q.hasStatus (printStatus2 NFS_OK)) (if q.hasStatus then ["OK".toList] else []) () := by
    cases q.hasStatus with
    | true => exact runs_label (by decide : Labels "OK " "OK")
    | false => exact runs_pure ()
  rw [cur_zero] at hres
  rw [nfs_v2_print_resp, cur_end, hn, Proc2.ofNumber_number]
  refine ((runs_front (by decide : Labels "R2 " "R2") _).bind ((runs_bump2 _ _).bind ((runs_bump2 _ _).bind
    ((runs_procName (isLabel_replyName q)).bind (hstatus.bind (hres.bind (runs_unmarked h hk _))))))).words ?_
  simp

/-- What a call's line reads is read for its arguments too. -/
theorem args_inside (hlen : actual_len.toNat = 4 * n) (q : Proc2)
    (hreads : Trace.Only (InPayload p n) (nfs_v2_print_call o q.number xid p actual_len count)) :
    Trace.Only (InPayload p n) (printArgs2 o (cur p 0) (cur p n) count q) := by
  have hn : actual_len.toNat / 4 = n := by omega
  rw [nfs_v2_print_call, cur_end, hn, Proc2.ofNumber_number] at hreads
  have hrest := ((Trace.only_bind_some (runs_bump2 (p := p) (n := n) _ _).val).mp hreads).2
  have hrest := ((Trace.only_bind_some (fprintf_val _)).mp hrest).2
  have hrest := ((Trace.only_bind_some (runs_bump2 (p := p) (n := n) _ _).val).mp hrest).2
  have hrest := ((Trace.only_bind_some (fprintf_val _)).mp hrest).2
  rw [cur_zero]
  exact (Trace.only_bind.mp hrest).1

theorem body_inside (hlen : actual_len.toNat = 4 * n) (q : Proc2)
    (hreads : Trace.Only (InPayload p n) (nfs_v2_print_resp o q.number xid p actual_len NFS_OK count)) :
    Trace.Only (InPayload p n) (printBody2 o (cur p 0) (cur p n) NFS_OK count q) := by
  have hn : actual_len.toNat / 4 = n := by omega
  have hstatus : (Trace.when q.hasStatus (printStatus2 NFS_OK)).val = some () := by cases q.hasStatus <;> rfl
  rw [nfs_v2_print_resp, cur_end, hn, Proc2.ofNumber_number] at hreads
  have hrest := ((Trace.only_bind_some (fprintf_val _)).mp hreads).2
  have hrest := ((Trace.only_bind_some (runs_bump2 (p := p) (n := n) _ _).val).mp hrest).2
  have hrest := ((Trace.only_bind_some (runs_bump2 (p := p) (n := n) _ _).val).mp hrest).2
  have hrest := ((Trace.only_bind_some (fprintf_val _)).mp hrest).2
  have hrest := ((Trace.only_bind_some hstatus).mp hrest).2
  rw [cur_zero]
  exact (Trace.only_bind.mp hrest).1

theorem Message2.exact_of_runs {m : Message2} (hrun : Runs p n (m.print o xid p actual_len count) (m.header xid ++ ws) 0)
    (hshows : Shows o m.fields ws) (hmoves : PartsDecoded o p n 0 m.parts) : m.Exact o xid p actual_len count n :=
  ⟨hrun.reads, hrun.whole, ⟨ws, hrun.line.words_eq, hshows⟩, hmoves⟩

theorem Message2.Exact.shows_run {m : Message2} (hexact : m.Exact o xid p actual_len count n)
    (hrun : Runs p n (m.print o xid p actual_len count) (m.header xid ++ ws) 0) : Shows o m.fields ws := by
  obtain ⟨vs, hvs, hshows⟩ := hexact.shows
  rw [hrun.line.words_eq] at hvs
  rwa [List.append_cancel_left hvs]

/-! ## Names -/

theorem namePlain_of {bs : List UInt8} (hne : bs ≠ [] ∨ o.RAWNAMES = true) : NamePlain o p n i bs :=
  hne.imp id Or.inl

/-- Nothing is behind the last name. -/
theorem NamePlain.last {bs : List UInt8} (hplain : NamePlain o p n i bs) (hn : n = i + (counted bs).length) :
    bs ≠ [] ∨ o.RAWNAMES = true := by
  rcases hplain with hp | hp | hp
  · exact Or.inl hp
  · exact Or.inr hp
  · refine Or.inl fun h0 => ?_
    subst h0
    have hlen : (counted []).length = 1 := rfl
    omega

theorem decoded_diropargs (h : Mapped p n) {d : Diropargs2} (hlies : (cur p i).Holds (wire d.xdr)) (hi : i + d.xdr.length ≤ n)
    (hplain : NamePlain o p n (i + 8) d.name.chars) {s t : String} (hs : IsLabel s) (ht : IsLabel t) :
    (Part2.diropargs s t d).Decoded o p n i := by
  have hat := at_of_holds hlies
  have hname := holds_behind _ hlies
  have hrun := runs_diropargs2 h hlies hi hplain hs ht
  rw [Diropargs2.xdr_length, Filename.xdr] at hi
  rw [Diropargs2.xdr, at_append] at hat
  have hfh := runs_fh2 h hat.1 (by omega) hs
  rw [NfsFh2.xdr_length] at hname
  have hfn := runs_fn2 h hname (by omega) hplain ht
  refine ⟨?_, ?_, hrun.val⟩
  · rw [Moves, NfsFh2.xdr_length, hfh.val]
  · rw [Moves, NfsFh2.xdr_length, hfn.val, Filename.xdr]

theorem diropargs_plain (h : Mapped p n) {d : Diropargs2} (hlies : (cur p i).Holds (wire d.xdr)) (hi : i + d.xdr.length ≤ n)
    {s t : String} (hs : IsLabel s) (hreads : Trace.Only (InPayload p n) (print_diropargs2 o (cur p i) (cur p n) true s t))
    (hmoves : (Part2.diropargs s t d).Decoded o p n i) : NamePlain o p n (i + 8) d.name.chars := by
  have hat := at_of_holds hlies
  have hname := holds_behind _ hlies
  rw [Diropargs2.xdr_length, Filename.xdr] at hi
  rw [Diropargs2.xdr, at_append] at hat
  have hfh := runs_fh2 h hat.1 (by omega) hs
  rw [NfsFh2.xdr_length] at hname
  obtain ⟨-, hfn, -⟩ := hmoves
  rw [NfsFh2.xdr_length] at hfn
  exact fn2_plain h hname (by omega) ((Trace.only_bind_some hfh.val).mp hreads).2 (by rw [hfn]; exact Option.some_ne_none _)

/-- Behind an empty name lies the next handle's first byte. -/
theorem byte_behind {d e : Diropargs2} (hlies : p.Holds (wire (d.xdr ++ e.xdr))) (hempty : d.name.chars = []) :
    some ((cur p 9).byte 0) = e.dir.data.head? := by
  have hlen : d.xdr.length = 9 := by rw [Diropargs2.xdr_length, Filename.xdr, hempty]; rfl
  rw [← cur_zero p] at hlies
  have hnext := holds_behind _ hlies
  rw [hlen, Diropargs2.xdr, wire_append, NfsFh2.xdr, wire_pack, Nat.zero_add] at hnext
  have hdata := Ptr.holds_left (Ptr.holds_left hnext)
  have h32 := e.dir.length_eq
  cases hd : e.dir.data with
  | nil => rw [hd] at h32; cases h32
  | cons b rest =>
    rw [hd] at hdata
    rw [List.head?_cons, show (cur p 9).byte 0 = b from Ptr.byte_at [] hdata]

/-! ## Calls -/

/-- A call's arguments are decoded. -/
structure ArgsDecoded (o : Opts) (p : Ptr) (n : Nat) (count : UInt32) (c : Call2) : Prop where
  run : ∃ ws k, k ≤ n ∧ Runs p n (printArgs2 o (cur p 0) (cur p n) count c.proc) ws (cur p k) ∧ Shows o c.fields ws
  moves : PartsDecoded o p n 0 c.parts

theorem runs_readArgs2 (h : Mapped p n) (count : UInt32) {a : Readargs} (hat : At (wordAt p) i [a.offset, a.count, a.totalcount])
    (hi : i + 3 ≤ n) :
    Runs p n (printReadArgs2 (cur p i) (cur p n) count)
      (labelledWords [("offset", a.offset), ("count", a.count), ("tcount", a.totalcount)]) (cur p (i + 3)) := by
  simp only [at_cons, at_nil, and_true, Nat.add_assoc, Nat.reduceAdd] at hat
  have hoffset := runs_uint32 h (show i < n by omega)
  have hcount := runs_uint32_val h (show i + 1 < n by omega) count
  have htotal := runs_uint32 h (show i + 2 < n by omega)
  rw [hat.1] at hoffset
  rw [hat.2.1] at hcount
  rw [hat.2.2] at htotal
  exact (runs_label (by decide : Labels "offset " "offset")).bind (hoffset.bind
    ((runs_label (by decide : Labels "count " "count")).bind (hcount.bind
      ((runs_label (by decide : Labels "tcount " "tcount")).bind htotal))))

theorem runs_writeArgs2 (h : Mapped p n) (count : UInt32) {a : Writeargs} (hat : At (wordAt p) i [a.beginoffset, a.offset, a.totalcount])
    (hi : i + 3 ≤ n) :
    Runs p n (printWriteArgs2 (cur p i) (cur p n) count)
      (labelledWords [("begoff", a.beginoffset), ("offset", a.offset), ("tcount", a.totalcount)]) (cur p (i + 3)) := by
  simp only [at_cons, at_nil, and_true, Nat.add_assoc, Nat.reduceAdd] at hat
  have hbegin := runs_uint32 h (show i < n by omega)
  have hoffset := runs_uint32 h (show i + 1 < n by omega)
  have htotal := runs_uint32_val h (show i + 2 < n by omega) count
  rw [hat.1] at hbegin
  rw [hat.2.1] at hoffset
  rw [hat.2.2] at htotal
  exact ((runs_label (by decide : Labels "begoff " "begoff")).bind (hbegin.bind
    ((runs_label (by decide : Labels "offset " "offset")).bind (hoffset.bind
      ((runs_label (by decide : Labels "tcount " "tcount")).bind (htotal.bind ((runs_volume2 _ _).returns _))))))).words rfl

theorem shows_diropargs (d : Diropargs2) (s t : String) :
    Shows o (d.fields s t) [s.toList, hexBytes d.dir.data, t.toList, nameToken o d.name.chars] := by
  simp only [Diropargs2.fields, shows_cons, Value2.Shown, shows_nil, and_self]

theorem args_decoded (h : Mapped p n) {c : Call2} (hlies : p.Holds (wire c.xdr)) (hn : n = c.xdr.length) (count : UInt32)
    (hplain : c.Plain o) : ArgsDecoded o p n count c := by
  rw [← cur_zero p] at hlies
  have hat := at_of_holds hlies
  have fh : ∀ {f : NfsFh2} {us : List UInt32}, At (wordAt p) 0 (f.xdr ++ us) → 8 ≤ n →
      Runs p n (print_fh2 (cur p 0) (cur p n) true "fh") ["fh".toList, hexBytes f.data] (cur p 8) := fun hf hle =>
    runs_fh2 h (at_append.mp hf).1 (by omega) (by decide)
  cases c with
  | null | root | writecache => exact ⟨⟨[], 0, Nat.zero_le _, runs_pure _, rfl⟩, trivial⟩
  | getattr file | readlink file | statfs file =>
    rw [Call2.xdr, NfsFh2.xdr_length] at hn
    have hfh := fh (show At (wordAt p) 0 (file.xdr ++ []) by rwa [List.append_nil]) (by omega)
    refine ⟨⟨_, 8, by omega, hfh, ?_⟩, ?_, trivial⟩
    · simp only [Call2.fields, shows_cons, Value2.Shown, shows_nil, and_self]
    · rw [Part2.Decoded, Moves, NfsFh2.xdr_length, hfh.val]
  | setattr a | create a | mkdir a | symlink a => exact hplain.elim
  | lookup a | remove a | rmdir a =>
    have hi : 0 + a.xdr.length ≤ n := by rw [hn, Nat.zero_add]; rfl
    have hrun := runs_diropargs2 h hlies hi (namePlain_of hplain) (by decide : IsLabel "fh") (by decide : IsLabel "fn")
    exact ⟨⟨_, _, by omega, hrun, shows_diropargs a _ _⟩, decoded_diropargs h hlies hi (namePlain_of hplain) (by decide) (by decide),
      trivial⟩
  | read a =>
    rw [Call2.xdr, List.length_append, NfsFh2.xdr_length] at hn
    have hn : n = 8 + 3 := hn
    have hfh := fh hat (by omega)
    have hrest := (at_append.mp hat).2
    rw [NfsFh2.xdr_length] at hrest
    have hargs := runs_readArgs2 h count hrest (by omega)
    refine ⟨⟨_, 11, by omega, hfh.bind hargs, ?_⟩, ?_, trivial, trivial⟩
    · exact shows_cons.mpr ⟨rfl, shows_words [_, _, _] |>.mpr rfl⟩
    · rw [Part2.Decoded, Moves, NfsFh2.xdr_length, hfh.val]
  | write a =>
    rw [Call2.xdr, List.length_append, NfsFh2.xdr_length, List.length_append] at hn
    have hn : n = 8 + (3 + (counted a.data).length) := hn
    have hfh := fh hat (by omega)
    have hrest := (at_append.mp (at_append.mp hat).2).1
    rw [NfsFh2.xdr_length] at hrest
    have hargs := runs_writeArgs2 h count hrest (by omega)
    refine ⟨⟨_, 11, by omega, hfh.bind hargs, ?_⟩, ?_, trivial, trivial⟩
    · exact shows_cons.mpr ⟨rfl, shows_words [_, _, _] |>.mpr rfl⟩
    · rw [Part2.Decoded, Moves, NfsFh2.xdr_length, hfh.val]
  | rename a =>
    obtain ⟨hto, hfrom⟩ := hplain
    rw [Call2.xdr, List.length_append] at hn
    have hlast : 1 + 8 ≤ a.to_.xdr.length := by rw [Diropargs2.xdr_length, Filename.xdr, counted_length]; omega
    have hplain1 : NamePlain o p n (0 + 8) a.from_.name.chars := by
      rcases hfrom with hf | hf | hf
      · exact Or.inl hf
      · exact Or.inr (Or.inl hf)
      · by_cases hempty : a.from_.name.chars = []
        · have hbyte := byte_behind (show p.Holds (wire (a.from_.xdr ++ a.to_.xdr)) by rwa [cur_zero] at hlies) hempty
          have hlen : a.from_.xdr.length = 9 := by rw [Diropargs2.xdr_length, Filename.xdr, hempty]; rfl
          refine Or.inr (Or.inr ⟨by omega, fun hslash => hf ?_⟩)
          rw [← hbyte, show cur p 9 = cur p (0 + 8 + 1) from rfl, hslash]
        · exact Or.inl hempty
    have hlies1 : (cur p 0).Holds (wire a.from_.xdr) := by
      have hboth : (cur p 0).Holds (wire (a.from_.xdr ++ a.to_.xdr)) := hlies
      rw [wire_append] at hboth
      exact Ptr.holds_left hboth
    have hlies2 := holds_behind a.from_.xdr (show (cur p 0).Holds (wire (a.from_.xdr ++ a.to_.xdr)) from hlies)
    have hfirst := runs_diropargs2 h hlies1 (by omega) hplain1 (by decide : IsLabel "fh") (by decide : IsLabel "fn")
    have hsecond := runs_diropargs2 h hlies2 (by omega) (namePlain_of hto) (by decide : IsLabel "fh2") (by decide : IsLabel "fn2")
    refine ⟨⟨_, _, by omega, hfirst.bind hsecond, ?_⟩, decoded_diropargs h hlies1 (by omega) hplain1 (by decide) (by decide),
      decoded_diropargs h hlies2 (by omega) (namePlain_of hto) (by decide) (by decide), trivial⟩
    simp only [Call2.fields, Diropargs2.fields, List.cons_append, List.nil_append, shows_cons, Value2.Shown, shows_nil, and_self]
  | link a =>
    rw [Call2.xdr, List.length_append, NfsFh2.xdr_length] at hn
    have hfh := fh hat (by omega)
    have hlies2 := holds_behind a.from_.xdr hlies
    rw [NfsFh2.xdr_length] at hlies2
    have hargs := runs_diropargs2 h hlies2 (by omega) (namePlain_of hplain) (by decide : IsLabel "fh2") (by decide : IsLabel "fn")
    refine ⟨⟨_, _, by omega, hfh.bind hargs, shows_cons.mpr ⟨rfl, shows_diropargs a.to_ _ _⟩⟩, ?_, ?_, trivial⟩
    · rw [Part2.Decoded, Moves, NfsFh2.xdr_length, hfh.val]
    · rw [Part2.xdr, NfsFh2.xdr_length]
      exact decoded_diropargs h hlies2 (by omega) (namePlain_of hplain) (by decide) (by decide)
  | readdir a =>
    rw [Call2.xdr, List.length_append, NfsFh2.xdr_length, List.length_append, Nfscookie.xdr_length] at hn
    have hn : n = 8 + (1 + 1) := hn
    have hfh := fh hat (by omega)
    have hrest := (at_append.mp hat).2
    rw [NfsFh2.xdr_length] at hrest
    obtain ⟨hcookie, hword⟩ := at_append.mp hrest
    rw [Nfscookie.xdr_length, at_cons] at hword
    have hcookie := runs_cookie2 h hcookie (by omega)
    have hcount := runs_uint32 h (show 0 + 8 + 1 < n by omega)
    rw [hword.1] at hcount
    refine ⟨⟨_, 10, by omega, hfh.bind (hcookie.bind ((runs_label (by decide : Labels "count " "count")).bind hcount)), ?_⟩,
      ?_, ?_, trivial, trivial⟩
    · simp only [Call2.fields, List.cons_append, List.nil_append, shows_cons, Value2.Shown, shows_nil, and_self]
    · rw [Part2.Decoded, Moves, NfsFh2.xdr_length, hfh.val]
    · rw [Part2.xdr, NfsFh2.xdr_length, Part2.Decoded, Moves, Nfscookie.xdr_length, hcookie.val]

/-- A `sattr` part is never decoded. -/
theorem sattr_not_decoded (h : Mapped p n) {s : Sattr2} (hi : i + 8 ≤ n) : ¬ (Part2.sattr s).Decoded o p n i :=
  sattr2_stays h hi

theorem call_plain (h : Mapped p n) {c : Call2} (hlies : p.Holds (wire c.xdr)) (hn : n = c.xdr.length)
    (hreads : Trace.Only (InPayload p n) (printArgs2 o (cur p 0) (cur p n) count c.proc)) (hmoves : PartsDecoded o p n 0 c.parts) :
    c.Plain o := by
  rw [← cur_zero p] at hlies
  cases c with
  | null | root | writecache | getattr | readlink | statfs | read | write | readdir => trivial
  | setattr a =>
    rw [Call2.xdr, List.length_append, Sattr2.xdr_length] at hn
    exact sattr_not_decoded h (by rw [Part2.xdr]; omega) hmoves.2.1
  | create a | mkdir a =>
    rw [Call2.xdr, List.length_append, Sattr2.xdr_length] at hn
    exact sattr_not_decoded h (by rw [Part2.xdr]; omega) hmoves.2.1
  | symlink a =>
    rw [Call2.xdr, List.length_append, List.length_append, Sattr2.xdr_length, Nfspath.xdr] at hn
    exact sattr_not_decoded h (by rw [Part2.xdr, Part2.xdr]; omega) hmoves.2.2.1
  | lookup a | remove a | rmdir a =>
    have hi : 0 + a.xdr.length ≤ n := by rw [hn, Nat.zero_add]; rfl
    have hlen : a.xdr.length = 8 + (counted a.name.chars).length := Diropargs2.xdr_length a
    refine (diropargs_plain h hlies hi (by decide) hreads hmoves.1).last ?_
    rw [hn, Call2.xdr, hlen]
  | rename a =>
    rw [Call2.xdr, List.length_append] at hn
    have hlies1 : (cur p 0).Holds (wire a.from_.xdr) := by
      have hboth : (cur p 0).Holds (wire (a.from_.xdr ++ a.to_.xdr)) := hlies
      rw [wire_append] at hboth
      exact Ptr.holds_left hboth
    have hlies2 := holds_behind a.from_.xdr (show (cur p 0).Holds (wire (a.from_.xdr ++ a.to_.xdr)) from hlies)
    have hlen : a.to_.xdr.length = 8 + (counted a.to_.name.chars).length := Diropargs2.xdr_length a.to_
    obtain ⟨hreads1, hreads2⟩ := (Trace.only_bind_some hmoves.1.2.2).mp hreads
    have hplain1 := diropargs_plain h hlies1 (by omega) (by decide) hreads1 hmoves.1
    have hplain2 := diropargs_plain h hlies2 (by omega) (by decide) hreads2 hmoves.2.1
    refine ⟨hplain2.last (by omega), ?_⟩
    rcases hplain1 with hp | hp | hp
    · exact Or.inl hp
    · exact Or.inr (Or.inl hp)
    · by_cases hempty : a.from_.name.chars = []
      · have hbyte := byte_behind (show p.Holds (wire (a.from_.xdr ++ a.to_.xdr)) by rwa [cur_zero] at hlies) hempty
        refine Or.inr (Or.inr fun hslash => hp.2 ?_)
        rw [← hbyte] at hslash
        exact Option.some.inj hslash
      · exact Or.inl hempty
  | link a =>
    rw [Call2.xdr, List.length_append, NfsFh2.xdr_length] at hn
    have hlies2 := holds_behind a.from_.xdr hlies
    rw [NfsFh2.xdr_length] at hlies2
    have hlen : a.to_.xdr.length = 8 + (counted a.to_.name.chars).length := Diropargs2.xdr_length a.to_
    obtain ⟨hfh, hargs, -⟩ := hmoves
    rw [Part2.Decoded, Moves, NfsFh2.xdr_length] at hfh
    rw [Part2.xdr, NfsFh2.xdr_length] at hargs
    exact (diropargs_plain h hlies2 (by omega) (by decide) ((Trace.only_bind_some hfh).mp hreads).2 hargs).last (by omega)

theorem exact_call_iff (h : Mapped p n) {c : Call2} (hlies : p.Holds (wire c.xdr)) (hn : n = c.xdr.length)
    (hlen : actual_len.toNat = 4 * n) :
    (Message2.call c).Exact o xid p actual_len count n ↔ c.Plain o := by
  constructor
  · intro hexact
    exact call_plain h hlies hn (args_inside hlen c.proc hexact.reads) hexact.moves
  · intro hplain
    obtain ⟨⟨ws, k, hk, hrun, hshows⟩, hmoves⟩ := args_decoded h hlies hn count hplain
    exact Message2.exact_of_runs (runs_print_call h hlen c.proc hk hrun) hshows hmoves

/-! ## Replies -/

/-- The times of a reply's attributes are all that may be misread. -/
def Reply2.Timely : Reply2 → Prop
  | .getattr a | .setattr a | .write a => a.Plain
  | .lookup r | .create r | .mkdir r => r.attributes.Plain
  | .read r => r.attributes.Plain
  | _ => True

/-- What a reply has behind its status is decoded. -/
structure BodyDecoded (o : Opts) (p : Ptr) (n : Nat) (count : UInt32) (r : Reply2) : Prop where
  run : ∃ ws k, k ≤ n ∧ Runs p n (printBody2 o (cur p 0) (cur p n) NFS_OK count r.proc) ws (cur p k) ∧
    (Shows o r.fields ws ↔ r.Timely)
  moves : PartsDecoded o p n 0 r.parts

/-- A reply with nothing behind its status. -/
def Reply2.Bare : Reply2 → Prop
  | .remove | .rename | .link | .symlink | .rmdir => True
  | _ => False

/-- Its second status lies behind the end. -/
theorem bare_outside (h : Mapped p 0) {r : Reply2} (hbare : r.Bare) :
    ¬ Trace.Only (InPayload p 0) (printBody2 o (cur p 0) (cur p 0) NFS_OK count r.proc) := by
  intro hreads
  have hresult : printBody2 o (cur p 0) (cur p 0) NFS_OK count r.proc =
      (do fprintf [.lit "nfsstat "]; print_uint32 (cur p 0) (cur p 0) true) := by
    cases r <;> first | exact hbare.elim | rfl
  rw [hresult, print_uint32, uint32_val_pass h (Nat.le_refl 0)] at hreads
  have hword := ((Trace.only_bind_some (fprintf_val _)).mp hreads).2
  have hout : InPayload p 0 (.word (cur p 0).addr) := (Trace.only_bind.mp hword).1 _ (by simp [reads_one])
  exact absurd ((inBounds_cur h (by omega)).mp hout) (Nat.not_lt_zero _)

theorem body_decoded (h : Mapped p n) {r : Reply2} (hlies : p.Holds (wire r.xdr)) (hn : n = r.xdr.length) (count : UInt32)
    (hbare : ¬ r.Bare) (hname : ∀ data, r = .readlink data → NamePlain o p n 0 data.chars) : BodyDecoded o p n count r := by
  rw [← cur_zero p] at hlies
  have hat := at_of_holds hlies
  have attrs : ∀ {a : Fattr2} {us : List UInt32}, At (wordAt p) 0 (a.xdr ++ us) → 17 ≤ n →
      Runs p n (print_fattr2 (cur p 0) (cur p n) true) a.printed (cur p 17) := fun ha hle =>
    runs_fattr2 h (at_append.mp ha).1 (by omega)
  have times : ∀ a : Fattr2, Shows o a.fields a.printed ↔ a.Plain := fun a => by
    have hshows : Shows o (a.fields ++ []) (a.printed ++ []) ↔ a.Plain ∧ Shows o [] [] := shows_fattr2 a
    rwa [List.append_nil, List.append_nil, shows_nil, and_iff_left rfl] at hshows
  cases r with
  | null | root | writecache | readdir => exact ⟨⟨[], 0, Nat.zero_le _, runs_pure _, iff_of_true rfl trivial⟩, by constructor <;> trivial⟩
  | remove | rename | link | symlink | rmdir => exact absurd trivial hbare
  | getattr a | setattr a | write a =>
    rw [Reply2.xdr, Fattr2.xdr_length] at hn
    have hrun := attrs (show At (wordAt p) 0 (a.xdr ++ []) by rwa [List.append_nil]) (by omega)
    exact ⟨⟨_, 17, by omega, hrun, times a⟩, hrun.val, trivial⟩
  | lookup r | create r | mkdir r =>
    rw [Reply2.xdr, Diropokres2.xdr_length] at hn
    obtain ⟨hfile, hattr⟩ := at_append.mp (show At (wordAt p) 0 (r.file.xdr ++ r.attributes.xdr) from hat)
    rw [NfsFh2.xdr_length] at hattr
    have hfh := runs_fh2 h hfile (by omega) (by decide : IsLabel "fh")
    have hattrs := runs_fattr2 h hattr (by omega)
    have hrun := runs_diropokres2 h (show At (wordAt p) 0 r.xdr from hat) (by omega)
    refine ⟨⟨_, 25, by omega, hrun, shows_cons.trans ((and_iff_right rfl).trans (times r.attributes))⟩, ⟨?_, ?_, ?_⟩, trivial⟩
    · rw [Moves, NfsFh2.xdr_length, hfh.val]
    · rw [Moves, NfsFh2.xdr_length, hattrs.val, Fattr2.xdr_length]
    · rw [Moves, Diropokres2.xdr_length, hrun.val]
  | readlink data =>
    have hi : 0 + (counted data.chars).length ≤ n := by rw [hn, Nat.zero_add]; rfl
    have hrun := runs_fn2 h hlies hi (hname data rfl) (by decide : IsLabel "fn")
    refine ⟨⟨_, _, hi, hrun, iff_of_true ?_ trivial⟩, hrun.val, trivial⟩
    simp only [Reply2.fields, shows_cons, Value2.Shown, shows_nil, and_self]
  | read r =>
    rw [Reply2.xdr, List.length_append, Fattr2.xdr_length, counted_length] at hn
    have hrun := attrs hat (by omega)
    have hword := (at_append.mp hat).2
    rw [Fattr2.xdr_length] at hword
    have hcount := runs_uint32_val h (show 0 + 17 < n by omega) count
    rw [(at_cons.mp hword).1] at hcount
    have hvolume := (runs_volume2 (p := p) (n := n) .reply (UInt32.ofNat r.data.length)).returns (cur p 18)
    have hlabel : Runs p n (fprintf [.lit "count "]) ["count".toList] () := runs_label (by decide)
    refine ⟨⟨_, 18, by omega, hrun.bind (hlabel.bind (hcount.bind hvolume)), ?_⟩, hrun.val, trivial, trivial⟩
    refine (shows_fattr2 _).trans ((and_iff_left ?_).trans Iff.rfl)
    exact shows_cons.mpr ⟨rfl, rfl⟩
  | statfs reply =>
    rw [Reply2.xdr] at hn
    have hn : n = 5 := hn
    have hrun := runs_statfsokres2 h (show At (wordAt p) 0 reply.xdr from hat) (by omega)
    refine ⟨⟨_, 5, by omega, hrun, iff_of_true ?_ trivial⟩, hrun.val, trivial⟩
    have hshows : Shows o (wordFields reply.labelled ++ []) (labelledWords reply.labelled ++ []) := (shows_words _).mpr rfl
    rwa [List.append_nil, List.append_nil] at hshows

theorem exact_reply_iff (h : Mapped p n) {r : Reply2} (hlies : p.Holds (wire r.xdr)) (hn : n = r.xdr.length)
    (hlen : actual_len.toNat = 4 * n) :
    (Message2.reply r).Exact o xid p actual_len count n ↔ r.Plain o := by
  by_cases hbare : r.Bare
  · have hzero : n = 0 := by rw [hn]; cases r <;> first | exact hbare.elim | rfl
    subst hzero
    refine iff_of_false (fun hexact => bare_outside h hbare (body_inside hlen r.proc hexact.reads)) ?_
    cases r <;> first | exact hbare.elim | exact id
  · constructor
    · intro hexact
      have hname : ∀ data, r = .readlink data → NamePlain o p n 0 data.chars := by
        rintro data rfl
        have hi : 0 + (counted data.chars).length ≤ n := by rw [hn, Nat.zero_add]; rfl
        have hreads := body_inside hlen _ hexact.reads
        exact fn2_plain h (by rwa [cur_zero]) hi (show Trace.Only _ (print_fn2 o _ _ true "fn") from hreads)
          (by rw [hexact.moves.1]; exact nofun)
      obtain ⟨⟨ws, k, hk, hrun, hshows⟩, -⟩ := body_decoded h hlies hn count hbare hname
      have htimes := hshows.mp (hexact.shows_run (runs_print_resp h hlen r.proc hk hrun))
      cases r with
      | readlink data => exact (hname data rfl).last (by rw [hn, Nat.zero_add]; rfl)
      | remove | rename | link | symlink | rmdir => exact absurd trivial hbare
      | null | root | writecache | readdir | statfs => trivial
      | getattr | setattr | write | lookup | create | mkdir | read => exact htimes
    · intro hplain
      have hname : ∀ data, r = .readlink data → NamePlain o p n 0 data.chars := by
        rintro data rfl
        exact namePlain_of hplain
      obtain ⟨⟨ws, k, hk, hrun, hshows⟩, hmoves⟩ := body_decoded h hlies hn count hbare hname
      refine Message2.exact_of_runs (runs_print_resp h hlen r.proc hk hrun) (hshows.mpr ?_) hmoves
      cases r with
      | getattr | setattr | write | lookup | create | mkdir | read => exact hplain
      | _ => trivial

/-! ## Messages -/

/-- A message is decoded exactly iff it has no `sattr`, something behind its status if there
    is one, plain times, and names that are not empty where that shows. -/
theorem exact2_iff (o : Opts) (m : Message2) (xid : UInt32) (p : Ptr) (actual_len count : UInt32) (h : Mapped p m.xdr.length)
    (hlies : p.Holds (wire m.xdr)) (hlen : actual_len.toNat = 4 * m.xdr.length) :
    m.Exact o xid p actual_len count m.xdr.length ↔ m.Plain o := by
  cases m with
  | call c => exact exact_call_iff h hlies rfl hlen
  | reply r => exact exact_reply_iff h hlies rfl hlen

/-- A REMOVE reply is a status alone. -/
theorem remove_reads_on :
    ¬ (Message2.reply .remove).Exact ⟨true, false, false, fun _ => []⟩ 7 (Ptr.placed 0x8050000 []) 0 0 0 :=
  fun hexact => bare_outside ⟨by decide, by decide⟩ (show Reply2.remove.Bare from trivial)
    (body_inside rfl Proc2.remove hexact.reads)

/-- A STATFS reply. -/
theorem statfs_exact :
    (Message2.reply (.statfs ⟨8192, 512, 10, 5, 4⟩)).Exact ⟨true, false, false, fun _ => []⟩ 7
      (Ptr.placed 0x8050000 [0, 0, 32, 0, 0, 0, 2, 0, 0, 0, 0, 10, 0, 0, 0, 5, 0, 0, 0, 4]) 20 0 5 :=
  (exact2_iff ⟨true, false, false, fun _ => []⟩ (.reply (.statfs ⟨8192, 512, 10, 5, 4⟩)) 7
    (Ptr.placed 0x8050000 [0, 0, 32, 0, 0, 0, 2, 0, 0, 0, 0, 10, 0, 0, 0, 5, 0, 0, 0, 4]) 20 0 ⟨by decide, by decide⟩
    (Ptr.placed_holds (by decide) _) rfl).mpr trivial

end Messages

end Nfsdump.Decode
