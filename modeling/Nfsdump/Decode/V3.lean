/-
  Nfsdump.Decode.V3 — `nfs_v3_print_call` and `nfs_v3_print_resp` of nfs_v3.c.

  Calls are decoded by the generated XDR routines and printed from their structures,
  replies by the cursor decoders. The statistics block is updated by the events of a
  printer (`tally3`), also where it crashes.
-/

import Nfsdump.Decode.Cursor
import Nfsdump.Decode.Xdr

namespace Nfsdump.Decode

open Wire

def bump3 (dir : Direction) (t : Tally Proc3) : Dec Unit := Trace.emit [.count3 (.bump dir t)]
def volume3 (dir : Direction) (count : UInt32) : Dec Unit := Trace.emit [.count3 (.volume dir count)]

/-- The statistics block after a printer's run. -/
def tally3 {α : Type} (s : NfsV3Stat) (x : Dec α) : NfsV3Stat := (Trace.seen Act.counts3 x).foldl Count.apply s

/-! ## Printing decoded structures -/

/-- Where the decoded strings lie: the static `BigBuf`s, or memory of the decoder's. -/
structure Args where
  addr : UInt32
  addr_ne : addr ≠ 0

/-- A decoded string in memory, its NUL behind it. -/
def Args.cstr (b : Args) (s : List UInt8) : Ptr := ⟨b.addr, fun i => s.getD i.toNat 0⟩

def strlen (s : List UInt8) : Nat := (s.takeWhile (· ≠ 0)).length

/-- `print_string (s, strlen (s))`. -/
def printCstr (o : Opts) (b : Args) (s : List UInt8) : Dec Unit :=
  print_string o (b.cstr s) (UInt32.ofNat (strlen s))

def print_fh3_x (f : NfsFh3) (fh_str : String) : Dec Unit := do
  fprintf [.lit fh_str, .lit " "]
  fprintf (f.data.map fun b => .x0 2 b.toUInt32)
  fprintf [.lit " "]

def print_diropargs3_x (o : Opts) (b : Args) (d : Diropargs3) (fh_str fn_str : String) : Dec Unit := do
  print_fh3_x d.dir fh_str
  fprintf [.lit fn_str, .lit " "]
  printCstr o b d.name

def print_nfstime3_x (t : Nfstime3) : Dec Unit := fprintfTime3 t.seconds t.nseconds

def printLabel : Option String → Dec Unit
  | some s => fprintf [.lit s, .lit " "]
  | none => pure ()

def print_uint64_x (v : UInt64) (label : Option String) : Dec Unit := do
  printLabel label
  fprintfUint64 (UInt32.ofNat (v.toNat / 2 ^ 32)) (UInt32.ofNat v.toNat)

/-- A labelled word, when there is one. -/
def printSet (label : String) : Option UInt32 → Dec Unit
  | some w => fprintf [.lit label, .x w, .lit " "]
  | none => pure ()

def printSetTime (label : String) : SetTime3 → Dec Unit
  | .SET_TO_CLIENT_TIME t => do
    fprintf [.lit label]
    print_nfstime3_x t
  | .SET_TO_SERVER_TIME => fprintf [.lit label, .lit "SERVER "]
  | .DONT_CHANGE => pure ()

def printSetSize : Option UInt64 → Dec Unit
  | some v => print_uint64_x v (some "size")
  | none => pure ()

def print_sattr3_x (s : Sattr3) : Dec Unit := do
  printSet "mode " s.mode
  printSet "uid " s.uid
  printSet "gid " s.gid
  printSetSize s.size
  printSetTime "atime " s.atime
  printSetTime "mtime " s.mtime

def print_sattrguard3_x : Option Nfstime3 → Dec Unit
  | some t => do
    fprintf [.lit "ctime "]
    print_nfstime3_x t
  | none => pure ()

def print_access3_x (a : UInt32) : Dec Unit := fprintf [.lit "acc ", .x a, .lit " "]

def print_stable_how_x (how : UInt32) : Dec Unit := fprintf [.lit "stable ", .c (stableLetter how), .lit " "]

def print_createhow3_x : Createhow3 → Dec Unit
  | .UNCHECKED s => do
    fprintf [.lit "how U "]
    print_sattr3_x s
  | .GUARDED s => do
    fprintf [.lit "how G "]
    print_sattr3_x s
  | .EXCLUSIVE => fprintf [.lit "how X "]

/-! ## Calls -/

/-- `if ((got_all = xdr_...) != 0) { ... }`; the result is `got_all`. -/
def ifGot {α : Type} (r : Option α) (k : α → Dec Unit) : Dec Bool :=
  match r with
  | some a => do
    k a
    return true
  | none => return false

/-- WRITE's arguments are taken one at a time, for the data behind them. -/
def printWriteArgs (lib : XdrLib) (xdr : XDR) : Dec Bool := do
  let (file, xdr) := lib.nfs_fh3 xdr
  let _ ← ifGot file fun f => print_fh3_x f "fh"
  let (offset, xdr) := lib.offset3 xdr
  let _ ← ifGot offset fun v => print_uint64_x v (some "off")
  let (count, xdr) := lib.count3 xdr
  let _ ← ifGot count fun n => do
    fprintf [.lit "count ", .x n, .lit " "]
    volume3 .call n
  let (how, _) := lib.stable_how xdr
  ifGot how print_stable_how_x

/-- The arguments of a procedure's call; the result is `got_all`. -/
def printCallArgs (o : Opts) (b : Args) (lib : XdrLib) (xdr : XDR) : Proc3 → Dec Bool
  | .null => return true
  | .getattr => ifGot (lib.GETATTR3args xdr).1 fun f => print_fh3_x f "fh"
  | .setattr => ifGot (lib.SETATTR3args xdr).1 fun (f, s, g) => do
      print_fh3_x f "fh"
      print_sattr3_x s
      print_sattrguard3_x g
  | .lookup => ifGot (lib.LOOKUP3args xdr).1 fun d => print_diropargs3_x o b d "fh" "name"
  | .access => ifGot (lib.ACCESS3args xdr).1 fun (f, a) => do
      print_fh3_x f "fh"
      print_access3_x a
  | .readlink => ifGot (lib.READLINK3args xdr).1 fun f => print_fh3_x f "fh"
  | .read => ifGot (lib.READ3args xdr).1 fun (f, off, n) => do
      print_fh3_x f "fh"
      print_uint64_x off (some "off")
      fprintf [.lit "count ", .x n, .lit " "]
  | .write => printWriteArgs lib xdr
  | .create => ifGot (lib.CREATE3args xdr).1 fun (d, how) => do
      print_diropargs3_x o b d "fh" "name"
      print_createhow3_x how
  | .mkdir => ifGot (lib.MKDIR3args xdr).1 fun (d, s) => do
      print_diropargs3_x o b d "fh" "name"
      print_sattr3_x s
  | .symlink => ifGot (lib.SYMLINK3args xdr).1 fun (d, s, data) => do
      print_diropargs3_x o b d "fh" "name"
      print_sattr3_x s
      fprintf [.lit "sdata", .lit " "]
      printCstr o b data
  | .mknod => ifGot (lib.MKNOD3args xdr).1 fun d => print_diropargs3_x o b d "fh" "name"
  | .remove => ifGot (lib.REMOVE3args xdr).1 fun d => print_diropargs3_x o b d "fh" "name"
  | .rmdir => ifGot (lib.RMDIR3args xdr).1 fun d => print_diropargs3_x o b d "fh" "name"
  | .rename => ifGot (lib.RENAME3args xdr).1 fun (d, d') => do
      print_diropargs3_x o b d "fh" "name"
      print_diropargs3_x o b d' "fh2" "name2"
  | .link => ifGot (lib.LINK3args xdr).1 fun (f, d) => do
      print_fh3_x f "fh"
      print_diropargs3_x o b d "fh2" "name"
  | .readdir => ifGot (lib.READDIR3args xdr).1 fun (f, cookie, n) => do
      print_fh3_x f "fh"
      print_uint64_x cookie (some "cookie")
      fprintf [.lit "count ", .x n, .lit " "]
  | .readdirp => ifGot (lib.READDIRPLUS3args xdr).1 fun (f, cookie, n, m) => do
      print_fh3_x f "fh"
      print_uint64_x cookie (some "cookie")
      fprintf [.lit "count ", .x n, .lit " "]
      fprintf [.lit "maxcnt ", .x m, .lit " "]
  | .fsstat => ifGot (lib.FSSTAT3args xdr).1 fun f => print_fh3_x f "fh"
  | .fsinfo => ifGot (lib.FSINFO3args xdr).1 fun f => print_fh3_x f "fh"
  | .pathconf => ifGot (lib.PATHCONF3args xdr).1 fun f => print_fh3_x f "fh"
  | .commit => ifGot (lib.COMMIT3args xdr).1 fun (f, off, n) => do
      print_fh3_x f "file"
      print_uint64_x off (some "off")
      fprintf [.lit "count ", .x n, .lit " "]
  | .mnt => ifGot (lib.dirpath xdr).1 fun path => printCstr o b path

def nfs_v3_print_call (o : Opts) (b : Args) (lib : XdrLib) (op xid : UInt32) (p : Ptr)
    (actual_len : UInt32) : Dec Int32 := do
  let xdr : XDR := ⟨p, actual_len⟩
  bump3 .call .total
  fprintf [.lit "C3 ", .x0 8 xid, .lit " ", .x0 2 op, .lit " "]
  match Proc3.ofNumber op with
  | some q => do
    bump3 .call (.proc q)
    fprintf [.lit q.name, .lit " "]
    let got_all ← printCallArgs o b lib xdr q
    Trace.when (!got_all) (fprintf [.lit "SHORT PACKET"])
    return 0
  | none => do
    fprintf [.lit "unknown "]
    return -1

/-! ## Replies -/

def NFS3_OK : UInt32 := 0

/-- `PRINT_STATUS (status, 1)`. -/
def printStatus (status : UInt32) : Dec Unit :=
  fprintf (if status = NFS3_OK then [.lit "OK "] else [.x status, .lit " "])

def printNumbered (label : String) (num : Nat) : Dec Unit := fprintf [.lit label, .u (UInt32.ofNat num), .lit " "]

/-- The loop over the entries, from entry `name_cnt` on. -/
def printEntries (o : Opts) (b : Args) : List Entry3 → Nat → Dec Unit
  | [], _ => pure ()
  | entry :: rest, name_cnt => do
    printNumbered "fileid-" name_cnt
    print_uint64_x entry.fileid none
    printNumbered "name-" name_cnt
    printCstr o b entry.name
    printNumbered "cookie-" name_cnt
    print_uint64_x entry.cookie none
    printEntries o b rest (name_cnt + 1)

def printNameHandle (name_cnt : Nat) : Option NfsFh3 → Dec Unit
  | some f => print_fh3_x f (String.ofList (text [.lit "fh-", .u (UInt32.ofNat name_cnt)]))
  | none => pure ()

def printEntriesplus (o : Opts) (b : Args) : List Entryplus3 → Nat → Dec Unit
  | [], _ => pure ()
  | entry :: rest, name_cnt => do
    printNumbered "fileid-" name_cnt
    print_uint64_x entry.fileid none
    printNumbered "name-" name_cnt
    printCstr o b entry.name
    printNumbered "cookie-" name_cnt
    print_uint64_x entry.cookie none
    printNameHandle name_cnt entry.name_handle
    printEntriesplus o b rest (name_cnt + 1)

/-- The listing a READDIR or READDIRPLUS routine decoded, if it did. -/
def printListing {ε : Type} (entries : List ε → Nat → Dec Unit) : Option (Dirlist3 ε) → Dec Unit
  | some res => do
    fprintf [.lit "eof ", .d res.eof, .lit " "]
    entries res.entries 0
  | none => pure ()

/-- READ's count goes into the statistics whether it was decoded or not; `count` is what
    the variable holds before. -/
def printReadOk (p e : Ptr) (count : UInt32) : Dec Ptr := do
  fprintf [.lit "count "]
  let (new_p, count) ← print_uint32_val p e true (some count)
  volume3 .reply (count.getD 0)
  fprintf [.lit "eof "]
  print_uint32 new_p e true

/-- CREATE, MKDIR, SYMLINK and MKNOD; the directory's attributes are skipped. -/
def printCreated (status : UInt32) (p e : Ptr) : Dec Ptr :=
  if status = NFS3_OK then do
    fprintf [.lit "fh "]
    let new_p ← print_post_op_fh3 p e true
    print_post_op_attr3 new_p e true
  else return p

/-- The result of a procedure's reply behind its status; the result is `new_p`. -/
def printResult (o : Opts) (b : Args) (lib : XdrLib) (p e : Ptr) (actual_len status count : UInt32) : Proc3 → Dec Ptr
  | .null => return p
  | .getattr => if status = NFS3_OK then print_fattr3 p e true else return p
  | .setattr => if status = NFS3_OK then print_wcc_data3 p e true else return p
  | .lookup =>
    if status = NFS3_OK then do
      fprintf [.lit "fh "]
      let new_p ← print_fh3 p e true
      let new_p ← print_post_op_attr3 new_p e true
      print_post_op_attr3 new_p e false
    else return p
  | .access => do
    let new_p ← print_post_op_attr3 p e false
    if status = NFS3_OK then
      fprintf [.lit "acc "]
      print_uint32 new_p e true
    else return new_p
  | .readlink => do
    let new_p ← print_post_op_attr3 p e false
    if status = NFS3_OK then
      fprintf [.lit "name "]
      print_fn3 o new_p e true
    else return new_p
  | .read => do
    let new_p ← print_post_op_attr3 p e true
    if status = NFS3_OK then printReadOk new_p e count else return new_p
  | .write => do
    let new_p ← print_wcc_data3 p e true
    if status = NFS3_OK then
      fprintf [.lit "count "]
      let new_p ← print_uint32 new_p e true
      fprintf [.lit "stable "]
      print_stable3 new_p e true
    else return new_p
  | .create | .mkdir | .symlink | .mknod => printCreated status p e
  | .remove | .rmdir | .commit => print_wcc_data3 p e true
  | .rename | .link | .fsstat | .fsinfo | .pathconf => return p
  | .readdir =>
    if !o.omitReaddirContents ∧ status = NFS3_OK then do
      let new_p ← print_post_op_attr3 p e true
      printListing (printEntries o b) (lib.READDIR3resok ⟨p, actual_len / 4 * 4⟩).1
      return new_p
    else print_post_op_attr3 p e true
  | .readdirp =>
    if !o.omitReaddirContents ∧ status = NFS3_OK then do
      let new_p ← print_post_op_attr3 p e true
      printListing (printEntriesplus o b) (lib.READDIRPLUS3resok ⟨p, actual_len / 4 * 4⟩).1
      return new_p
    else print_post_op_attr3 p e true
  | .mnt =>
    if status = NFS3_OK then do
      fprintf [.lit "fh "]
      print_fh3 p e true
    else return p

/-- `switch (op)`; the result is `new_p`. -/
def printReply (o : Opts) (b : Args) (lib : XdrLib) (p e : Ptr) (actual_len status count : UInt32) :
    Option Proc3 → Dec Ptr
  | some q => do
    bump3 .reply (.proc q)
    fprintf [.lit q.name, .lit " "]
    Trace.when (q ≠ .null) (printStatus status)
    printResult o b lib p e actual_len status count q
  | none => do
    fprintf [.lit "unknown "]
    return p

/-- `count` is the initial value of the local of that name, which nothing sets. -/
def nfs_v3_print_resp (o : Opts) (b : Args) (lib : XdrLib) (op xid : UInt32) (p : Ptr)
    (actual_len status count : UInt32) : Dec Int32 := do
  let e := p.skip (actual_len / 4)
  fprintf [.lit "R3 ", .x0 8 xid, .lit " ", .x0 2 op, .lit " "]
  bump3 .reply .total
  let new_p ← printReply o b lib p e actual_len status count (Proc3.ofNumber op)
  if new_p.addr = 0 then
    fprintf [.lit "SHORT PACKET"]
    return -1
  else return 0

end Nfsdump.Decode
