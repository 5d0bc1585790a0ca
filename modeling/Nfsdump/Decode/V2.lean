/-
  Nfsdump.Decode.V2 — `nfs_v2_print_call` and `nfs_v2_print_resp` of nfs_v2.c and their
  cursor decoders. Names and single words are decoded by those of nfs_v3.c.
-/

import Nfsdump.Decode.Cursor

namespace Nfsdump.Decode

open Wire

def NFS_FHSIZE : UInt32 := 32
def NFS_COOKIESIZE : UInt32 := 4
def NFS_OK : UInt32 := 0

def bump2 (dir : Direction) (t : Tally Proc2) : Dec Unit := Trace.emit [.count2 (.bump dir t)]
def volume2 (dir : Direction) (count : UInt32) : Dec Unit := Trace.emit [.count2 (.volume dir count)]

/-- The statistics block after a printer's run. -/
def tally2 {α : Type} (s : NfsV2Stat) (x : Dec α) : NfsV2Stat := (Trace.seen Act.counts2 x).foldl Count.apply s

/-! ## Decoders -/

def print_opaque (p e : Ptr) (print : Bool) (n_words : UInt32) : Dec Ptr :=
  if p.addr = 0 then return .null
  else if e < p.skip n_words then return .null
  else do
    Trace.when print do
      printWords p n_words.toNat 0
      fprintf [.lit " "]
    return p.skip n_words

def print_fh2 (p e : Ptr) (print : Bool) (str : String) : Dec Ptr := do
  fprintfIf print [.lit str, .lit " "]
  print_opaque p e print (NFS_FHSIZE / 4)

def print_cookie2 (p e : Ptr) (print : Bool) : Dec Ptr := do
  fprintfIf print [.lit "cookie "]
  print_opaque p e print (NFS_COOKIESIZE / 4)

def print_fn2 (o : Opts) (p e : Ptr) (print : Bool) (str : String) : Dec Ptr := do
  fprintfIf print [.lit str, .lit " "]
  print_fn3 o p e print

def print_diropargs2 (o : Opts) (p e : Ptr) (print : Bool) (fh_str fn_str : String) : Dec Ptr := do
  let new_p ← print_fh2 p e print fh_str
  print_fn2 o new_p e print fn_str

/-- `%d.%-6d`: the words print as signed. -/
def fprintfTime2 (seconds useconds : UInt32) : Dec Unit :=
  fprintf [.d seconds.toInt32, .lit ".", .dLeft 6 useconds.toInt32, .lit " "]

def print_nfstime2 (p e : Ptr) (print : Bool) : Dec Ptr :=
  if p.addr = 0 ∨ e < p.skip 2 then return .null
  else do
    Trace.when print do
      let secs ← deref p 0
      let usecs ← deref p 1
      fprintfTime2 secs usecs
    return p.skip 2

/-- A word of a `sattr` that is set, labelled. -/
def printSet2 (p : Ptr) (label : String) (i : UInt32) : Dec Unit := do
  let w ← deref p i
  Trace.when (w ≠ 0xffffffff) do
    let w ← deref p i
    fprintf [.lit label, .x w, .lit " "]

/-- A time of a `sattr`, when its first word is not -1. -/
def printSetTime2 (p e : Ptr) (print : Bool) (label : String) (i : UInt32) : Dec Unit := do
  let w ← deref p i
  Trace.when (w ≠ 0xffffffff) do
    fprintf [.lit label]
    let _ ← print_nfstime2 (p.skip i) e print

/-- The cursor it returns is the one it got. -/
def print_sattr2 (p e : Ptr) (print : Bool) : Dec Ptr :=
  if p.addr = 0 then return .null
  else if e < p.skip 8 then return .null
  else do
    Trace.when print do
      printSet2 p "mode " 0
      printSet2 p "uid " 1
      printSet2 p "gid " 2
      printSet2 p "size " 3
      printSetTime2 p e print "atime " 4
      printSetTime2 p e print "mtime " 6
    return p

/-- Labelled words, from word `i` on. -/
def printLabelled (p : Ptr) : List String → UInt32 → Dec Unit
  | [], _ => pure ()
  | label :: rest, i => do
    let w ← deref p i
    fprintf [.lit label, .x w, .lit " "]
    printLabelled p rest (i + 1)

def fattr2Labels : List String :=
  ["ftype ", "mode ", "nlink ", "uid ", "gid ", "size ", "blksize ", "rdev ", "blocks ", "fsid ", "fileid "]

def print_fattr2 (p e : Ptr) (print : Bool) : Dec Ptr :=
  if p.addr = 0 then return .null
  else if e < p.skip 17 then return .null
  else do
    Trace.when print do
      printLabelled p fattr2Labels 0
      fprintf [.lit "atime "]
      let _ ← print_nfstime2 (p.skip 11) e print
      fprintf [.lit " mtime "]
      let _ ← print_nfstime2 (p.skip 13) e print
      fprintf [.lit " ctime "]
      let _ ← print_nfstime2 (p.skip 15) e print
      fprintf [.lit " "]
    return p.skip 17

def print_diropokres2 (p e : Ptr) (print : Bool) : Dec Ptr :=
  if p.addr = 0 then return .null
  else if e < p then return .null
  else do
    let new_p ← print_fh2 p e print "fh"
    print_fattr2 new_p e print

def statfs2Labels : List String := ["tsize ", "bsize ", "blocks ", "bfree ", "bavail "]

def print_statfsokres2 (p e : Ptr) (print : Bool) : Dec Ptr :=
  if p.addr = 0 then return .null
  else if e < p.skip 5 then return .null
  else do
    Trace.when print (printLabelled p statfs2Labels 0)
    return p.skip 5

/-! ## Calls -/

/-- The name of a procedure as a call's line has it. -/
def Proc2.callName : Proc2 → String
  | .null => "null" | .getattr => "getattr" | .setattr => "setattr" | .root => "root" | .lookup => "lookup"
  | .readlink => "readlink" | .read => "read" | .writecache => "writecach" | .write => "write"
  | .create => "create" | .remove => "remove" | .rename => "rename" | .link => "link" | .symlink => "symlink"
  | .mkdir => "mkdir" | .rmdir => "rmdir" | .readdir => "readdir" | .statfs => "statfs"

/-- READ's tail behind the handle; `count` is what the local of that name holds before. -/
def printReadArgs2 (p e : Ptr) (count : UInt32) : Dec Ptr := do
  fprintf [.lit "offset "]
  let new_p ← print_uint32 p e true
  fprintf [.lit "count "]
  let (new_p, _) ← print_uint32_val new_p e true (some count)
  fprintf [.lit "tcount "]
  print_uint32 new_p e true

/-- WRITE's tail. -/
def printWriteArgs2 (p e : Ptr) (count : UInt32) : Dec Ptr := do
  fprintf [.lit "begoff "]
  let new_p ← print_uint32 p e true
  fprintf [.lit "offset "]
  let new_p ← print_uint32 new_p e true
  fprintf [.lit "tcount "]
  let (new_p, count) ← print_uint32_val new_p e true (some count)
  volume2 .call (count.getD 0)
  return new_p

/-- The arguments of a procedure's call; the result is `new_p`. -/
def printArgs2 (o : Opts) (p e : Ptr) (count : UInt32) : Proc2 → Dec Ptr
  | .null | .root | .writecache => return p
  | .getattr | .readlink | .statfs => print_fh2 p e true "fh"
  | .setattr => do
    let new_p ← print_fh2 p e true "fh"
    print_sattr2 new_p e true
  | .lookup | .remove | .rmdir => print_diropargs2 o p e true "fh" "fn"
  | .read => do
    let new_p ← print_fh2 p e true "fh"
    printReadArgs2 new_p e count
  | .write => do
    let new_p ← print_fh2 p e true "fh"
    printWriteArgs2 new_p e count
  | .create | .mkdir => do
    let new_p ← print_diropargs2 o p e true "fh" "fn"
    print_sattr2 new_p e true
  | .rename => do
    let new_p ← print_diropargs2 o p e true "fh" "fn"
    print_diropargs2 o new_p e true "fh2" "fn2"
  | .link => do
    let new_p ← print_fh2 p e true "fh"
    print_diropargs2 o new_p e true "fh2" "fn"
  | .symlink => do
    let new_p ← print_diropargs2 o p e true "fh" "fn"
    let new_p ← print_fn2 o new_p e true "fn2"
    print_sattr2 new_p e true
  | .readdir => do
    let new_p ← print_fh2 p e true "fh"
    let new_p ← print_cookie2 new_p e true
    fprintf [.lit "count "]
    print_uint32 new_p e true

def nfs_v2_print_call (o : Opts) (op xid : UInt32) (p : Ptr) (actual_len count : UInt32) : Dec Int32 := do
  let e := p.skip (actual_len / 4)
  bump2 .call .total
  fprintf [.lit "C2 ", .xLeft 8 xid, .lit " ", .xRight 2 op, .lit " "]
  match Proc2.ofNumber op with
  | some q => do
    bump2 .call (.proc q)
    fprintf [.sLeft 8 q.callName, .lit " "]
    let new_p ← printArgs2 o p e count q
    Trace.when (new_p.addr = 0) (fprintf [.lit "+|+"])
    return 0
  | none => do
    bump2 .call .unknown
    fprintf [.lit "?? "]
    return -1

/-! ## Replies -/

/-- The name of a procedure as a reply's line has it. -/
def Proc2.replyName : Proc2 → String
  | .writecache => "writecac"
  | q => q.callName

def printStatus2 (status : UInt32) : Dec Unit :=
  fprintf (if status = NFS_OK then [.lit "OK "] else [.x status, .lit " "])

def printReadOk2 (p e : Ptr) (count : UInt32) : Dec Ptr := do
  let new_p ← print_fattr2 p e true
  fprintf [.lit "count "]
  let (new_p, count) ← print_uint32_val new_p e true (some count)
  volume2 .reply (count.getD 0)
  return new_p

/-- The result behind a status of `NFS_OK`; the result is `new_p`. -/
def printResult2 (o : Opts) (p e : Ptr) (count : UInt32) : Proc2 → Dec Ptr
  | .null | .root | .writecache | .readdir => return p
  | .getattr | .setattr | .write => print_fattr2 p e true
  | .lookup | .create | .mkdir => print_diropokres2 p e true
  | .readlink => print_fn2 o p e true "fn"
  | .read => printReadOk2 p e count
  | .remove | .rename | .link | .symlink | .rmdir => do
    fprintf [.lit "nfsstat "]
    print_uint32 p e true
  | .statfs => print_statfsokres2 p e true

def printBody2 (o : Opts) (p e : Ptr) (status count : UInt32) (q : Proc2) : Dec Ptr :=
  if status = NFS_OK then printResult2 o p e count q else return p

/-- The procedures whose results have a status. -/
def Proc2.hasStatus : Proc2 → Bool
  | .null | .root | .writecache => false
  | _ => true

def nfs_v2_print_resp (o : Opts) (op xid : UInt32) (p : Ptr) (actual_len status count : UInt32) : Dec Int32 := do
  let e := p.skip (actual_len / 4)
  fprintf [.lit "R2 ", .xLeft 8 xid, .lit " ", .xRight 2 op, .lit " "]
  bump2 .reply .total
  match Proc2.ofNumber op with
  | some q => do
    bump2 .reply (.proc q)
    fprintf [.sLeft 8 q.replyName, .lit " "]
    Trace.when q.hasStatus (printStatus2 status)
    let new_p ← printBody2 o p e status count q
    Trace.when (new_p.addr = 0) (fprintf [.lit "+/+"])
    return 0
  | none => do
    bump2 .reply .unknown
    fprintf [.lit "?? "]
    return -1

end Nfsdump.Decode
