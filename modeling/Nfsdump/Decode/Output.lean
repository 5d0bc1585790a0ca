/-
  Nfsdump.Decode.Output — what the printers of nfs_v3.c and nfs_v2.c do: the words and
  bytes they read, the conversions they hand to `fprintf`, and the counters they bump.

  A `fprintf` is a list of `Piece`s, the literal parts of its format and its conversions
  with their arguments; `Piece.text` is what C writes for one, a character standing for a
  byte. A printer is a `Trace` of these, and crashes where it dereferences NULL.
-/

import Nfsdump.Lib.Trace
import Nfsdump.Wire.Ptr

namespace Nfsdump.Decode

open Wire

/-! ## Conversions -/

def padLeft (n : Nat) (c : Char) (cs : List Char) : List Char := List.replicate (n - cs.length) c ++ cs
def padRight (n : Nat) (cs : List Char) : List Char := cs ++ List.replicate (n - cs.length) ' '

def hex (n : Nat) : List Char := Nat.toDigits 16 n
def dec (n : Nat) : List Char := Nat.toDigits 10 n

def decInt (i : Int32) : List Char := if i.toInt < 0 then '-' :: dec i.toInt.natAbs else dec i.toInt.natAbs

inductive Piece where
  | lit (s : String)
  /-- `%x`; with a precision or a zero flag, at least `n` digits. -/
  | x (w : UInt32)
  | x0 (n : Nat) (w : UInt32)
  /-- `%02X`. -/
  | X02 (b : UInt8)
  /-- `%-8x` and `%2x`. -/
  | xLeft (n : Nat) (w : UInt32)
  | xRight (n : Nat) (w : UInt32)
  | u (w : UInt32)
  | u0 (n : Nat) (w : UInt32)
  | d (i : Int32)
  | dLeft (n : Nat) (i : Int32)
  /-- `%-8s`. -/
  | sLeft (n : Nat) (s : String)
  | c (b : UInt8)
  deriving DecidableEq, Repr

def Piece.text : Piece → List Char
  | .lit s => s.toList
  | .x w => hex w.toNat
  | .x0 n w => padLeft n '0' (hex w.toNat)
  | .X02 b => (padLeft 2 '0' (hex b.toNat)).map Char.toUpper
  | .xLeft n w => padRight n (hex w.toNat)
  | .xRight n w => padLeft n ' ' (hex w.toNat)
  | .u w => dec w.toNat
  | .u0 n w => padLeft n '0' (dec w.toNat)
  | .d i => decInt i
  | .dLeft n i => padRight n (decInt i)
  | .sLeft n s => padRight n s.toList
  | .c b => [Char.ofNat b.toNat]

def text (ps : List Piece) : List Char := ps.flatMap Piece.text

@[simp] theorem text_nil : text [] = [] := rfl
@[simp] theorem text_cons (p : Piece) (ps : List Piece) : text (p :: ps) = p.text ++ text ps := rfl
@[simp] theorem text_append (ps qs : List Piece) : text (ps ++ qs) = text ps ++ text qs := List.flatMap_append

/-! ## Procedures -/

/-- The NFSv3 procedures and MOUNT's MNT, which passes for one. -/
inductive Proc3 where
  | null | getattr | setattr | lookup | access | readlink | read | write | create | mkdir | symlink | mknod
  | remove | rmdir | rename | link | readdir | readdirp | fsstat | fsinfo | pathconf | commit | mnt
  deriving DecidableEq, Repr

def Proc3.number : Proc3 → UInt32
  | .null => 0 | .getattr => 1 | .setattr => 2 | .lookup => 3 | .access => 4 | .readlink => 5 | .read => 6
  | .write => 7 | .create => 8 | .mkdir => 9 | .symlink => 10 | .mknod => 11 | .remove => 12 | .rmdir => 13
  | .rename => 14 | .link => 15 | .readdir => 16 | .readdirp => 17 | .fsstat => 18 | .fsinfo => 19
  | .pathconf => 20 | .commit => 21 | .mnt => 101

def Proc3.name : Proc3 → String
  | .null => "null" | .getattr => "getattr" | .setattr => "setattr" | .lookup => "lookup" | .access => "access"
  | .readlink => "readlink" | .read => "read" | .write => "write" | .create => "create" | .mkdir => "mkdir"
  | .symlink => "symlink" | .mknod => "mknod" | .remove => "remove" | .rmdir => "rmdir" | .rename => "rename"
  | .link => "link" | .readdir => "readdir" | .readdirp => "readdirp" | .fsstat => "fsstat" | .fsinfo => "fsinfo"
  | .pathconf => "pathconf" | .commit => "commit" | .mnt => "mnt"

def Proc3.all : List Proc3 :=
  [.null, .getattr, .setattr, .lookup, .access, .readlink, .read, .write, .create, .mkdir, .symlink, .mknod,
   .remove, .rmdir, .rename, .link, .readdir, .readdirp, .fsstat, .fsinfo, .pathconf, .commit, .mnt]

/-- `switch (op)`: the case of a procedure number, `none` for the default. -/
def Proc3.ofNumber (op : UInt32) : Option Proc3 := Proc3.all.find? fun q => q.number = op

theorem Proc3.mem_all (q : Proc3) : q ∈ Proc3.all := by cases q <;> decide

theorem Proc3.ofNumber_number (q : Proc3) : Proc3.ofNumber q.number = some q := by cases q <;> decide

theorem Proc3.number_of_ofNumber {op : UInt32} {q : Proc3} (h : Proc3.ofNumber op = some q) : q.number = op := by
  simpa using List.find?_some h

/-- The NFSv2 procedures. -/
inductive Proc2 where
  | null | getattr | setattr | root | lookup | readlink | read | writecache | write | create | remove | rename
  | link | symlink | mkdir | rmdir | readdir | statfs
  deriving DecidableEq, Repr

def Proc2.number : Proc2 → UInt32
  | .null => 0 | .getattr => 1 | .setattr => 2 | .root => 3 | .lookup => 4 | .readlink => 5 | .read => 6
  | .writecache => 7 | .write => 8 | .create => 9 | .remove => 10 | .rename => 11 | .link => 12 | .symlink => 13
  | .mkdir => 14 | .rmdir => 15 | .readdir => 16 | .statfs => 17

def Proc2.all : List Proc2 :=
  [.null, .getattr, .setattr, .root, .lookup, .readlink, .read, .writecache, .write, .create, .remove, .rename,
   .link, .symlink, .mkdir, .rmdir, .readdir, .statfs]

def Proc2.ofNumber (op : UInt32) : Option Proc2 := Proc2.all.find? fun q => q.number = op

theorem Proc2.mem_all (q : Proc2) : q ∈ Proc2.all := by cases q <;> decide

theorem Proc2.ofNumber_number (q : Proc2) : Proc2.ofNumber q.number = some q := by cases q <;> decide

/-! ## Counters -/

inductive Direction where
  | call
  | reply
  deriving DecidableEq, Repr

/-- A message counter of a statistics block whose procedures are `π`. -/
inductive Tally (π : Type) where
  | total
  | proc (q : π)
  | unknown
  deriving DecidableEq, Repr

/-- `nfs_v3_stat_t` and `nfs_v2_stat_t`: the message counters of each direction, and the
    bytes read and written with the megabytes carried out of them. Counters are 32 bits. -/
@[ext] structure NfsStat (π : Type) where
  calls : Tally π → UInt32
  replies : Tally π → UInt32
  read_b : UInt32
  read_m : UInt32
  write_b : UInt32
  write_m : UInt32

abbrev NfsV3Stat := NfsStat Proc3
abbrev NfsV2Stat := NfsStat Proc2

/-- `nfs_v3_stat_init`, `nfs_v2_stat_init`: `memset` to 0. -/
def NfsStat.init {π : Type} : NfsStat π := ⟨fun _ => 0, fun _ => 0, 0, 0, 0, 0⟩

/-- An update of a statistics block. -/
inductive Count (π : Type) where
  | bump (dir : Direction) (t : Tally π)
  /-- `read_b` (replies) or `write_b` (calls) grows by `count`; whole megabytes are carried. -/
  | volume (dir : Direction) (count : UInt32)
  deriving DecidableEq, Repr

def bumped {π : Type} [DecidableEq π] (f : Tally π → UInt32) (t : Tally π) : Tally π → UInt32 :=
  fun t' => if t' = t then f t' + 1 else f t'

/-- `b += count; if (b >= MB) { m += b / MB; b %= MB; }`. -/
def carry (b m count : UInt32) : UInt32 × UInt32 :=
  let b := b + count
  if b ≥ 1024 * 1024 then (b % (1024 * 1024), m + b / (1024 * 1024)) else (b, m)

def Count.apply {π : Type} [DecidableEq π] (s : NfsStat π) : Count π → NfsStat π
  | .bump .call t => { s with calls := bumped s.calls t }
  | .bump .reply t => { s with replies := bumped s.replies t }
  | .volume .call n => let r := carry s.write_b s.write_m n; { s with write_b := r.1, write_m := r.2 }
  | .volume .reply n => let r := carry s.read_b s.read_m n; { s with read_b := r.1, read_m := r.2 }

/-- The message counter an update bumps. -/
def Count.message {π : Type} : Count π → Option (Direction × Tally π)
  | .bump dir t => some (dir, t)
  | .volume _ _ => none

/-! ## Printers -/

inductive Act where
  /-- The word at an address is read. -/
  | word (a : UInt32)
  | byte (a : UInt32)
  | put (c : Piece)
  | count3 (c : Count Proc3)
  | count2 (c : Count Proc2)
  deriving DecidableEq, Repr

abbrev Dec (α : Type) := Trace Act α

def fprintf (ps : List Piece) : Dec Unit := Trace.emit (ps.map Act.put)

/-- `if (print) fprintf (OutFile, ...)`. -/
def fprintfIf (print : Bool) (ps : List Piece) : Dec Unit := fprintf (if print then ps else [])

/-- `p [i]` in host order. Reading through NULL is the last thing a printer does. -/
def deref (p : Ptr) (i : UInt32) : Dec UInt32 :=
  ⟨[.word (p.addr + 4 * i)], if p.addr = 0 then none else some (p.word (4 * i))⟩

/-- `str [i]`. -/
def derefByte (str : Ptr) (i : UInt32) : Dec UInt8 :=
  ⟨[.byte (str.addr + i)], if str.addr = 0 then none else some (str.byte i)⟩

@[simp] theorem only_fprintf {P : Act → Prop} {ps : List Piece} : Trace.Only P (fprintf ps) ↔ ∀ c ∈ ps, P (.put c) := by
  simp [fprintf]

@[simp] theorem only_fprintfIf {P : Act → Prop} {b : Bool} {ps : List Piece} :
    Trace.Only P (fprintfIf b ps) ↔ (b = true → ∀ c ∈ ps, P (.put c)) := by
  cases b <;> simp [fprintfIf]

@[simp] theorem only_deref {P : Act → Prop} {p : Ptr} {i : UInt32} :
    Trace.Only P (deref p i) ↔ P (.word (p.addr + 4 * i)) := by
  simp [Trace.Only, deref]

@[simp] theorem only_derefByte {P : Act → Prop} {p : Ptr} {i : UInt32} :
    Trace.Only P (derefByte p i) ↔ P (.byte (p.addr + i)) := by
  simp [Trace.Only, derefByte]

def Act.piece : Act → Option Piece
  | .put c => some c
  | _ => none

def Act.counts3 : Act → Option (Count Proc3)
  | .count3 c => some c
  | _ => none

def Act.counts2 : Act → Option (Count Proc2)
  | .count2 c => some c
  | _ => none

/-- What is written to `OutFile`. -/
def out {α : Type} (x : Dec α) : List Piece := Trace.seen Act.piece x

theorem filterMap_put (ps : List Piece) : (ps.map Act.put).filterMap Act.piece = ps := by
  simp [List.filterMap_map, Function.comp_def, Act.piece]

@[simp] theorem out_pure {α : Type} (a : α) : out (pure a : Dec α) = [] := rfl

@[simp] theorem out_read (a : UInt32) (v : Option UInt32) : out (⟨[.word a], v⟩ : Dec UInt32) = [] := rfl

@[simp] theorem out_fprintf (ps : List Piece) : out (fprintf ps) = ps := filterMap_put ps

@[simp] theorem fprintf_val (ps : List Piece) : (fprintf ps).val = some () := rfl

@[simp] theorem val_fprintf_bind {α : Type} (ps : List Piece) (f : Unit → Dec α) : (fprintf ps >>= f).val = (f ()).val := rfl

@[simp] theorem val_fprintfIf_bind {α : Type} (c : Bool) (ps : List Piece) (f : Unit → Dec α) :
    (fprintfIf c ps >>= f).val = (f ()).val := rfl

@[simp] theorem out_fprintf_bind {α : Type} (ps : List Piece) (f : Unit → Dec α) :
    out (fprintf ps >>= f) = ps ++ out (f ()) := by
  rw [out, fprintf, Trace.seen_emit_bind, filterMap_put]; rfl

theorem out_bind {α β : Type} {x : Dec α} {a : α} (f : α → Dec β) (h : x.val = some a) :
    out (x >>= f) = out x ++ out (f a) := Trace.seen_bind_some _ f h

/-- A printer ends with `a`, having written `ps`. -/
def Says {α : Type} (x : Dec α) (ps : List Piece) (a : α) : Prop := x.val = some a ∧ out x = ps

theorem says_pure {α : Type} (a : α) : Says (pure a) [] a := ⟨rfl, rfl⟩

theorem says_fprintf (ps : List Piece) : Says (fprintf ps) ps () := ⟨rfl, out_fprintf ps⟩

theorem says_read (w : UInt32) (a : UInt32) : Says ⟨[.word a], some w⟩ [] w := ⟨rfl, rfl⟩

theorem Says.bind {α β : Type} {x : Dec α} {f : α → Dec β} {ps qs : List Piece} {a : α} {b : β} (hx : Says x ps a)
    (hf : Says (f a) qs b) : Says (x >>= f) (ps ++ qs) b := by
  constructor
  · rw [Trace.val_bind f hx.1, hf.1]
  · rw [out_bind f hx.1, hx.2, hf.2]

/-- Behind a printer that writes nothing. -/
theorem Says.silent {α β : Type} {x : Dec α} {f : α → Dec β} {qs : List Piece} {a : α} {b : β} (hx : Says x [] a)
    (hf : Says (f a) qs b) : Says (x >>= f) qs b := hx.bind hf

end Nfsdump.Decode
