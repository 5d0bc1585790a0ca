/-
  Nfsdump.Decode.Cursor — the cursor decoders of nfs_v3.c.

  A decoder takes a cursor `p`, the end `e` of the captured words and whether to print,
  and returns the cursor behind what it decoded, or NULL. Each has its own bound test;
  they pass NULL on to each other. Cursors are compared as addresses.
-/

import Nfsdump.Decode.Output

namespace Nfsdump.Wire.Ptr

def null : Ptr := ⟨0, fun _ => 0⟩

/-- `p + n` on a `u_int32_t *`. -/
def skip (p : Ptr) (n : UInt32) : Ptr := p.add (4 * n)

instance : LT Ptr := ⟨fun p q => p.addr < q.addr⟩

instance (p q : Ptr) : Decidable (p < q) := inferInstanceAs (Decidable (p.addr < q.addr))

theorem lt_def (p q : Ptr) : p < q ↔ p.addr < q.addr := Iff.rfl

@[simp] theorem null_addr : null.addr = 0 := rfl

@[simp] theorem skip_addr (p : Ptr) (n : UInt32) : (p.skip n).addr = p.addr + 4 * n := rfl

end Nfsdump.Wire.Ptr

namespace Nfsdump.Decode

open Wire

/-- What the printers take from outside: the environment, the command line, and libgcrypt's
    SHA-1. -/
structure Opts where
  RAWNAMES : Bool
  omitReaddirContents : Bool
  vflag : Bool
  sha1 : List UInt8 → List UInt8

/-! ## Names -/

/-- `isspace` in the C locale. -/
def isspace (c : UInt8) : Bool := c = 32 || (9 ≤ c && c ≤ 13)

def SLASH : UInt8 := 47
def DOT : UInt8 := 46

/-- The SHA-1 of `len` bytes, in upper-case hex. A range that leaves the address space has
    NULL in it. -/
def printDigest (o : Opts) (str : Ptr) (len : UInt32) : Dec Unit := do
  Trace.emit ((List.range len.toNat).map fun i => .byte (str.addr + UInt32.ofNat i))
  if 2 ^ 32 ≤ str.addr.toNat + len.toNat then Trace.crash
  else fprintf ((o.sha1 (str.bytes len)).map Piece.X02)

/-- `switch (len)`: what stands behind a segment's slash. -/
def printComponent (o : Opts) (str : Ptr) (len : UInt32) : Dec Unit :=
  if len = 0 then return ()
  else if len = 1 then do
    let c0 ← derefByte str 0
    if c0 = DOT then fprintf [.lit "."] else printDigest o str len
  else if len = 2 then do
    let c0 ← derefByte str 0
    if c0 = DOT then
      let c1 ← derefByte str 1
      if c1 = DOT then fprintf [.lit ".."] else printDigest o str len
    else printDigest o str len
  else printDigest o str len

def print_path_segment (o : Opts) (str : Ptr) (len : UInt32) : Dec Unit := do
  let c0 ← derefByte str 0
  if c0 = SLASH then
    fprintf [.lit "/"]
    printComponent o (str.add 1) (len - 1)
  else printComponent o str len

/-- `k` more bytes from `i` on, with what would not be one token escaped. -/
def printRaw (str : Ptr) : Nat → UInt32 → Dec Unit
  | 0, _ => pure ()
  | k + 1, i => do
    let c ← derefByte str i
    fprintf (if c = 34 ∨ c = 92 ∨ isspace c then [.lit "\\", .x0 2 c.toUInt32] else [.c c])
    printRaw str k (i + 1)

/-- The loop over the segments, `k` more bytes from `i` on; returns `seg`. -/
def printSegments (o : Opts) (str : Ptr) : Nat → UInt32 → UInt32 → Dec UInt32
  | 0, _, seg => pure seg
  | k + 1, i, seg => do
    let c ← derefByte str i
    if c = SLASH then
      Trace.when (i > 0) (print_path_segment o (str.add seg) (i - seg))
      printSegments o str k (i + 1) i
    else printSegments o str k (i + 1) seg

/-- What stands between the quotes. -/
def printQuoted (o : Opts) (str : Ptr) (len : UInt32) : Dec Unit :=
  if o.RAWNAMES then printRaw str len.toNat 0
  else do
    let seg ← printSegments o str len.toNat 0 0
    print_path_segment o (str.add seg) (len - seg)

def print_string (o : Opts) (str : Ptr) (len : UInt32) : Dec Unit := do
  fprintf [.lit "\""]
  printQuoted o str len
  fprintf [.lit "\" "]

/-! ## Scalars -/

/-- `val` is what `*val` holds, `none` for a NULL `val`; the second result is what it holds
    after. -/
def print_uint32_val (p e : Ptr) (print : Bool) (val : Option UInt32) : Dec (Ptr × Option UInt32) :=
  if p.addr = 0 ∨ e < p then return (.null, val)
  else do
    Trace.when print do
      let w ← deref p 0
      fprintf [.x w, .lit " "]
    match val with
    | none => return (p.skip 1, none)
    | some _ =>
      let w ← deref p 0
      return (p.skip 1, some w)

/-- `print_uint32 (p, e, print, NULL)`. -/
def print_uint32 (p e : Ptr) (print : Bool) : Dec Ptr := do
  let (new_p, _) ← print_uint32_val p e print none
  return new_p

def uint64Pieces (hi lo : UInt32) : List Piece :=
  if hi ≠ 0 then [.x hi, .x0 8 lo, .lit " "] else [.x lo, .lit " "]

def fprintfUint64 (hi lo : UInt32) : Dec Unit := fprintf (uint64Pieces hi lo)

def print_uint64 (p e : Ptr) (print : Bool) : Dec Ptr :=
  if p.addr = 0 ∨ e < p.skip 1 then return .null
  else do
    Trace.when print do
      let hi ← deref p 0
      let lo ← deref p 1
      fprintfUint64 hi lo
    return p.skip 2

/-- Nanoseconds are rounded down to microseconds. -/
def time3Pieces (seconds nseconds : UInt32) : List Piece :=
  [.u seconds, .lit ".", .u0 6 (nseconds / 1000), .lit " "]

def fprintfTime3 (seconds nseconds : UInt32) : Dec Unit := fprintf (time3Pieces seconds nseconds)

def print_nfstime3 (p e : Ptr) (print : Bool) : Dec Ptr :=
  if p.addr = 0 then return .null
  else if e < p.skip 2 then return .null
  else do
    Trace.when print do
      let secs ← deref p 0
      let nsecs ← deref p 1
      fprintfTime3 secs nsecs
    return p.skip 2

/-- The letter of a `stable_how`. -/
def stableLetter (how : UInt32) : UInt8 :=
  if how = 0 then 85 else if how = 1 then 68 else if how = 2 then 70 else 63

def print_stable3 (p e : Ptr) (print : Bool) : Dec Ptr :=
  if p.addr = 0 then return .null
  else if p < e then do
    Trace.when print do
      let how ← deref p 0
      fprintf [.c (stableLetter how), .lit " "]
    return p.skip 1
  else return .null

/-! ## Handles and names -/

/-- `for (i = 0; i < n_words; i++) fprintf (OutFile, "%.8x", ntohl (p [i]))`, `k` more words
    from `i` on. -/
def printWords (p : Ptr) : Nat → UInt32 → Dec Unit
  | 0, _ => pure ()
  | k + 1, i => do
    let w ← deref p i
    fprintf [.x0 8 w]
    printWords p k (i + 1)

def print_fh3 (p e : Ptr) (print : Bool) : Dec Ptr :=
  if p.addr = 0 then return .null
  else if e < p.skip 2 then return .null
  else do
    let fh_len ← deref p 0
    let p := p.skip 1
    let n_words := if fh_len &&& 3 ≠ 0 then fh_len / 4 + 1 else fh_len / 4
    if e < p.skip n_words then return .null
    else
      Trace.when print do
        printWords p n_words.toNat 0
        fprintf [.lit " "]
      return p.skip n_words

def print_fn3 (o : Opts) (p e : Ptr) (print : Bool) : Dec Ptr :=
  if p.addr = 0 ∨ e < p.skip 1 then return .null
  else do
    let s_len ← deref p 0
    let str := p.skip 1
    let tot_len := if s_len &&& 3 ≠ 0 then (s_len &&& ~~~3) + 4 else s_len
    if e < str.add tot_len then
      fprintf [.lit " ... "]
      return .null
    else
      Trace.when print (print_string o str s_len)
      return str.add tot_len

/-! ## Attributes -/

inductive Scalar where
  | uint32 | uint64 | nfstime3
  deriving DecidableEq, Repr

def Scalar.print : Scalar → Ptr → Ptr → Bool → Dec Ptr
  | .uint32 => print_uint32
  | .uint64 => print_uint64
  | .nfstime3 => print_nfstime3

/-- Labelled fields, one behind the other. -/
def printFields : List (String × Scalar) → Ptr → Ptr → Bool → Dec Ptr
  | [], p, _, _ => return p
  | (label, s) :: rest, p, e, print => do
    fprintfIf print [.lit label]
    let new_p ← s.print p e print
    printFields rest new_p e print

def fattr3Fields : List (String × Scalar) :=
  [("ftype ", .uint32), ("mode ", .uint32), ("nlink ", .uint32), ("uid ", .uint32), ("gid ", .uint32),
   ("size ", .uint64), ("used ", .uint64), ("rdev ", .uint32), ("rdev2 ", .uint32),
   ("fsid ", .uint64), ("fileid ", .uint64), ("atime ", .nfstime3), ("mtime ", .nfstime3), ("ctime ", .nfstime3)]

def print_fattr3 (p e : Ptr) (print : Bool) : Dec Ptr :=
  if p.addr = 0 then return .null
  else if e < p then return .null
  else printFields fattr3Fields p e print

def print_post_op_attr3 (p e : Ptr) (print : Bool) : Dec Ptr :=
  if p.addr = 0 then return .null
  else if e < p then return .null
  else do
    let attributes_follow ← deref p 0
    if attributes_follow ≠ 0 then print_fattr3 (p.skip 1) e print else return p.skip 1

def print_post_op_fh3 (p e : Ptr) (print : Bool) : Dec Ptr :=
  if p.addr = 0 then return .null
  else if e < p then return .null
  else do
    let handle_follows ← deref p 0
    if handle_follows ≠ 0 then print_fh3 (p.skip 1) e print else return p.skip 1

def preOpAttr3Fields : List (String × Scalar) :=
  [("pre-size ", .uint64), ("pre-mtime ", .nfstime3), ("pre-ctime ", .nfstime3)]

def print_pre_op_attr3 (p e : Ptr) (print : Bool) : Dec Ptr :=
  if p.addr = 0 then return .null
  else if e < p then return .null
  else printFields preOpAttr3Fields p e print

/-- The attributes before the operation, when their flag is set. -/
def printBefore (before : UInt32) (p e : Ptr) (print : Bool) : Dec Ptr :=
  if before ≠ 0 then print_pre_op_attr3 p e print else return p

/-- The second flag is read through whatever the first part left, NULL too. -/
def print_wcc_data3 (p e : Ptr) (print : Bool) : Dec Ptr :=
  if p.addr = 0 then return .null
  else if e < p then return .null
  else do
    let before ← deref p 0
    let new_p ← printBefore before (p.skip 1) e print
    let after ← deref new_p 0
    if after ≠ 0 then print_fattr3 (new_p.skip 1) e print else return new_p.skip 1

end Nfsdump.Decode
