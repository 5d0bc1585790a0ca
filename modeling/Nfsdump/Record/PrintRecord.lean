/-
  Nfsdump.Record.PrintRecord — what a run writes to `OutFile`: `printRecord` and
  `printHostIp` of nfsrecord.c, and the end of a line.

  Proved:
  - `text_printRecord`: a record's line starts with its time and its two addresses;
  - `val_printRecord`: printing it ends where printing its body does.
-/

import Nfsdump.Decode.Tokens
import Nfsdump.Decode.V2
import Nfsdump.Record.Capture

namespace Nfsdump.Record

open Wire Decode

/-! ## Printing -/

/-- `0xff & (ipa >> n)`. -/
def octet (ipa n : UInt32) : UInt32 := 0xff &&& ipa >>> n

def printHostIp (o : Opts) (ipa : UInt32) : Dec Unit :=
  if o.vflag then
    fprintf [.u (octet ipa 24), .lit ".", .u (octet ipa 16), .lit ".", .u (octet ipa 8), .lit ".", .u (octet ipa 0)]
  else fprintf [.x0 8 ipa]

/-- The rest of a call's line; `count` is what locals of that name hold that nothing sets. -/
def printCall (o : Opts) (b : Args) (lib : XdrLib) (count : UInt32) (record : NfsPkt) (dp : Ptr) (actual_len : UInt32) : Dec Unit :=
  if record.nfsVersion = 3 then do
    let _ ← nfs_v3_print_call o b lib record.nfsProc record.rpcXID dp actual_len
  else if record.nfsVersion = 2 then do
    let _ ← nfs_v2_print_call o record.nfsProc record.rpcXID dp actual_len count
  else fprintf [.lit "CU", .d record.nfsVersion.toInt32, .lit "\n"]

def printReplyBody (o : Opts) (b : Args) (lib : XdrLib) (count : UInt32) (record : NfsPkt) (dp : Ptr) (actual_len : UInt32) :
    Dec Unit :=
  if record.nfsVersion = 3 then do
    let _ ← nfs_v3_print_resp o b lib record.nfsProc record.rpcXID dp actual_len record.rpcStatus count
  else if record.nfsVersion = 2 then do
    let _ ← nfs_v2_print_resp o record.nfsProc record.rpcXID dp actual_len record.rpcStatus count
  else fprintf [.lit "RU", .d record.nfsVersion.toInt32, .lit "\n"]

def printBody (o : Opts) (b : Args) (lib : XdrLib) (count : UInt32) (record : NfsPkt) (dp : Ptr) (payload_len actual_len : UInt32) :
    Dec Unit :=
  if record.rpcCall = CALL then printCall o b lib count record dp actual_len
  else do
    printReplyBody o b lib count record dp actual_len
    fprintf [.lit "status=", .x record.rpcStatus, .lit " "]
    fprintf [.lit "pl=", .d payload_len.toInt32, .lit " "]

def printRecord (o : Opts) (b : Args) (lib : XdrLib) (count : UInt32) (record : NfsPkt) (xdr : Ptr)
    (payload_len proto actual_len : UInt32) : Dec Unit := do
  fprintf [.u record.secs, .lit ".", .u0 6 record.usecs, .lit " "]
  printHostIp o record.srcHost
  fprintf [.lit ".", .x0 4 (0xffff &&& record.srcPort), .lit " "]
  printHostIp o record.dstHost
  fprintf [.lit ".", .x0 4 (0xffff &&& record.dstPort), .lit " "]
  fprintf [.c (if proto = IPPROTO_TCP then 84 else 85), .lit " "]
  printBody o b lib count record xdr payload_len actual_len

def printIds : Option (Int32 × Int32) → Dec Unit
  | some (euid, egid) => fprintf [.lit "euid ", .x euid.toUInt32, .lit " egid ", .x egid.toUInt32, .lit " "]
  | none => pure ()

def printLongpkt : Option UInt32 → Dec Unit
  | some n => fprintf [.lit " LONGPKT-", .d n.toInt32, .lit " "]
  | none => pure ()

/-- What `processPacket` writes behind a record, up to the end of the line. -/
def printTrailer (ids : Option (Int32 × Int32)) (con len : UInt32) (longpkt : Option UInt32) : Dec Unit := do
  printIds ids
  fprintf [.lit "con=", .d con.toInt32, .lit " len=", .d len.toInt32]
  printLongpkt longpkt

/-- A record's line: what `printRecord` is called with, and the trailer. -/
structure DumpLine where
  record : NfsPkt
  xdr : Ptr
  payload_len : UInt32
  proto : UInt32
  actual_len : UInt32
  ids : Option (Int32 × Int32)
  con : UInt32
  len : UInt32
  longpkt : Option UInt32

def DumpLine.print (o : Opts) (b : Args) (lib : XdrLib) (count : UInt32) (l : DumpLine) : Dec Unit := do
  printRecord o b lib count l.record l.xdr l.payload_len l.proto l.actual_len
  printTrailer l.ids l.con l.len l.longpkt

def Event.write (o : Opts) (b : Args) (lib : XdrLib) (count : UInt32) : Event → Dec Unit
  | .printRecord record xdr payload_len proto actual_len => Record.printRecord o b lib count record xdr payload_len proto actual_len
  | .trailer ids con len longpkt => do
    printTrailer ids con len longpkt
    fprintf [.lit "\n"]
  | .rhLenZero cnt => fprintf [.lit "XX rh_len == 0, cnt = ", .d cnt.toInt32, .lit "\n"]
  | _ => pure ()

def writeEvents (o : Opts) (b : Args) (lib : XdrLib) (count : UInt32) : List Event → Dec Unit
  | [] => pure ()
  | e :: es => do
    e.write o b lib count
    writeEvents o b lib count es

/-- What nfsdump writes for the packets. -/
def nfsdump (o : Opts) (b : Args) (lib : XdrLib) (count : UInt32) (ks : List Capture) : Dec Unit :=
  writeEvents o b lib count ((processAll World.init ks).flatMap Result.events)

variable {o : Opts} {b : Args} {lib : XdrLib} {count : UInt32}

theorem writeEvents_append (xs ys : List Event) : writeEvents o b lib count (xs ++ ys) =
    (writeEvents o b lib count xs >>= fun _ => writeEvents o b lib count ys) := by
  induction xs with
  | nil => rfl
  | cons e xs ih =>
    rw [List.cons_append, writeEvents, writeEvents, bind_assoc, ih]

/-! ## The front of a line -/

/-- A time. -/
def stamp (secs usecs : UInt32) : List Char := dec secs.toNat ++ '.' :: padLeft 6 '0' (dec usecs.toNat)

def hostText (o : Opts) (ipa : UInt32) : List Char := text (out (printHostIp o ipa))

/-- A host and a port. -/
def address (o : Opts) (host port : UInt32) : List Char := hostText o host ++ '.' :: padLeft 4 '0' (hex (0xffff &&& port).toNat)

theorem printHostIp_val (ipa : UInt32) : (printHostIp o ipa).val = some () := by
  unfold printHostIp
  split <;> rfl

theorem out_hostIp_bind {α : Type} (ipa : UInt32) (f : Unit → Dec α) :
    text (out (printHostIp o ipa >>= f)) = hostText o ipa ++ text (out (f ())) := by
  rw [out_bind f (printHostIp_val ipa), text_append]
  rfl

theorem val_hostIp_bind {α : Type} (ipa : UInt32) (f : Unit → Dec α) : (printHostIp o ipa >>= f).val = (f ()).val :=
  Trace.val_bind f (printHostIp_val ipa)

def protoText (proto : UInt32) : List Char := [if proto = IPPROTO_TCP then 'T' else 'U']

theorem text_printRecord (record : NfsPkt) (xdr : Ptr) (payload_len proto actual_len : UInt32) :
    text (out (printRecord o b lib count record xdr payload_len proto actual_len)) =
      stamp record.secs record.usecs ++ ' ' :: (address o record.srcHost record.srcPort ++ ' ' ::
        (address o record.dstHost record.dstPort ++ ' ' :: (protoText proto ++ ' ' ::
          text (out (printBody o b lib count record xdr payload_len actual_len))))) := by
  unfold printRecord
  simp only [out_fprintf_bind, text_append, out_hostIp_bind]
  have letter : text [.c (if proto = IPPROTO_TCP then 84 else 85), .lit " "] = protoText proto ++ [' '] := by
    unfold protoText
    split <;> rfl
  rw [letter]
  simp only [text_cons, text_nil, Piece.text, stamp, address, List.append_assoc, List.append_nil]
  rfl

theorem val_printRecord (record : NfsPkt) (xdr : Ptr) (payload_len proto actual_len : UInt32) :
    (printRecord o b lib count record xdr payload_len proto actual_len).val =
      (printBody o b lib count record xdr payload_len actual_len).val := by
  unfold printRecord
  simp only [val_fprintf_bind, val_hostIp_bind]

end Nfsdump.Record
