/-
  Nfsdump.Decode.Xdr — the types of nfs_prot.x and mount_prot.x that the printers handle,
  and the routines rpcgen makes of them.

  The routines are generated by the build and are an argument here (`XdrLib`): each takes
  a memory stream and returns what it decoded, if it did, and the stream behind it.
-/

import Nfsdump.Decode.Output

namespace Nfsdump.Decode

open Wire

/-! ## NFSv3 -/

/-- `nfs_fh3`. -/
structure NfsFh3 where
  data : List UInt8
  le : data.length ≤ 64
  deriving DecidableEq

structure Nfstime3 where
  seconds : UInt32
  nseconds : UInt32
  deriving DecidableEq, Repr

structure Specdata3 where
  specdata1 : UInt32
  specdata2 : UInt32
  deriving DecidableEq, Repr

structure Fattr3 where
  type : UInt32
  mode : UInt32
  nlink : UInt32
  uid : UInt32
  gid : UInt32
  size : UInt64
  used : UInt64
  rdev : Specdata3
  fsid : UInt64
  fileid : UInt64
  atime : Nfstime3
  mtime : Nfstime3
  ctime : Nfstime3
  deriving DecidableEq, Repr

structure WccAttr where
  size : UInt64
  mtime : Nfstime3
  ctime : Nfstime3
  deriving DecidableEq, Repr

structure WccData where
  before : Option WccAttr
  after : Option Fattr3
  deriving DecidableEq, Repr

/-- `set_atime` and `set_mtime`. -/
inductive SetTime3 where
  | DONT_CHANGE
  | SET_TO_SERVER_TIME
  | SET_TO_CLIENT_TIME (t : Nfstime3)
  deriving DecidableEq, Repr

structure Sattr3 where
  mode : Option UInt32
  uid : Option UInt32
  gid : Option UInt32
  size : Option UInt64
  atime : SetTime3
  mtime : SetTime3
  deriving DecidableEq, Repr

structure Diropargs3 where
  dir : NfsFh3
  name : List UInt8
  deriving DecidableEq

/-- `createhow3`. -/
inductive Createhow3 where
  | UNCHECKED (obj_attributes : Sattr3)
  | GUARDED (obj_attributes : Sattr3)
  | EXCLUSIVE
  deriving DecidableEq, Repr

structure Entry3 where
  fileid : UInt64
  name : List UInt8
  cookie : UInt64
  deriving DecidableEq

structure Entryplus3 extends Entry3 where
  name_handle : Option NfsFh3
  deriving DecidableEq

/-- `dirlist3` and `dirlistplus3`. -/
structure Dirlist3 (ε : Type) where
  entries : List ε
  eof : Int32

/-! ## Generated routines -/

/-- A memory stream: its position and the bytes left. -/
structure XDR where
  ptr : Ptr
  handy : UInt32

abbrev XdrProc (α : Type) := XDR → Option α × XDR

/-- The routines the printers call. -/
structure XdrLib where
  GETATTR3args : XdrProc NfsFh3
  SETATTR3args : XdrProc (NfsFh3 × Sattr3 × Option Nfstime3)
  LOOKUP3args : XdrProc Diropargs3
  ACCESS3args : XdrProc (NfsFh3 × UInt32)
  READLINK3args : XdrProc NfsFh3
  READ3args : XdrProc (NfsFh3 × UInt64 × UInt32)
  nfs_fh3 : XdrProc NfsFh3
  offset3 : XdrProc UInt64
  count3 : XdrProc UInt32
  stable_how : XdrProc UInt32
  CREATE3args : XdrProc (Diropargs3 × Createhow3)
  MKDIR3args : XdrProc (Diropargs3 × Sattr3)
  SYMLINK3args : XdrProc (Diropargs3 × Sattr3 × List UInt8)
  MKNOD3args : XdrProc Diropargs3
  REMOVE3args : XdrProc Diropargs3
  RMDIR3args : XdrProc Diropargs3
  RENAME3args : XdrProc (Diropargs3 × Diropargs3)
  LINK3args : XdrProc (NfsFh3 × Diropargs3)
  READDIR3args : XdrProc (NfsFh3 × UInt64 × UInt32)
  READDIRPLUS3args : XdrProc (NfsFh3 × UInt64 × UInt32 × UInt32)
  FSSTAT3args : XdrProc NfsFh3
  FSINFO3args : XdrProc NfsFh3
  PATHCONF3args : XdrProc NfsFh3
  COMMIT3args : XdrProc (NfsFh3 × UInt64 × UInt32)
  dirpath : XdrProc (List UInt8)
  READDIR3resok : XdrProc (Dirlist3 Entry3)
  READDIRPLUS3resok : XdrProc (Dirlist3 Entryplus3)

/-- The routines on a stream too short for any of them. -/
def XdrLib.short : XdrLib :=
  let fail {α : Type} : XdrProc α := fun xdr => (none, xdr)
  ⟨fail, fail, fail, fail, fail, fail, fail, fail, fail, fail, fail, fail, fail, fail, fail, fail, fail, fail, fail,
   fail, fail, fail, fail, fail, fail, fail, fail⟩

end Nfsdump.Decode
