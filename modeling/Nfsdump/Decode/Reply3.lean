/-
  Nfsdump.Decode.Reply3 — the results of the NFSv3 procedures and of MNT, from nfs_prot.x
  and mount_prot.x, and how they are encoded.

  A result is a union over its status; `Reply3.body` is what stands behind the status
  word of the reply, from `p` on for `nfs_v3_print_resp`.
-/

import Nfsdump.Lib.Xdr
import Nfsdump.Decode.V3

namespace Nfsdump.Decode

open Xdr

/-! ## Shared types -/

def NfsFh3.xdr (f : NfsFh3) : List UInt32 := counted f.data

def Nfstime3.xdr (t : Nfstime3) : List UInt32 := [t.seconds, t.nseconds]

def Specdata3.xdr (s : Specdata3) : List UInt32 := [s.specdata1, s.specdata2]

def Fattr3.xdr (a : Fattr3) : List UInt32 :=
  [a.type, a.mode, a.nlink, a.uid, a.gid] ++ hyper a.size ++ hyper a.used ++ a.rdev.xdr ++ hyper a.fsid ++
    hyper a.fileid ++ a.atime.xdr ++ a.mtime.xdr ++ a.ctime.xdr

/-- `post_op_attr`. -/
def post_op_attr : Option Fattr3 → List UInt32 := optionally Fattr3.xdr

def WccAttr.xdr (a : WccAttr) : List UInt32 := hyper a.size ++ a.mtime.xdr ++ a.ctime.xdr

def WccData.xdr (d : WccData) : List UInt32 := optionally WccAttr.xdr d.before ++ post_op_attr d.after

def post_op_fh3 : Option NfsFh3 → List UInt32 := optionally NfsFh3.xdr

@[simp] theorem Fattr3.xdr_length (a : Fattr3) : a.xdr.length = 21 := rfl

@[simp] theorem WccAttr.xdr_length (a : WccAttr) : a.xdr.length = 6 := rfl

/-! ## Results -/

/-- A union switched by the status. -/
inductive Result (α β : Type) where
  | resok (a : α)
  | resfail (status : UInt32) (ne : status ≠ NFS3_OK) (b : β)

def Result.status {α β : Type} : Result α β → UInt32
  | .resok _ => NFS3_OK
  | .resfail s _ _ => s

def Result.xdr {α β : Type} (ok : α → List UInt32) (fail : β → List UInt32) : Result α β → List UInt32
  | .resok a => ok a
  | .resfail _ _ b => fail b

/-- `void`. -/
def void : Unit → List UInt32 := fun _ => []

structure LOOKUP3resok where
  object : NfsFh3
  obj_attributes : Option Fattr3
  dir_attributes : Option Fattr3

structure ACCESS3resok where
  obj_attributes : Option Fattr3
  access : UInt32

structure READLINK3resok where
  symlink_attributes : Option Fattr3
  data : List UInt8
  lt : data.length < 2 ^ 32

structure READ3resok where
  file_attributes : Option Fattr3
  count : UInt32
  eof : UInt32
  data : List UInt8

structure WRITE3resok where
  file_wcc : WccData
  count : UInt32
  committed : UInt32
  verf : UInt64

/-- CREATE's, MKDIR's, SYMLINK's and MKNOD's. -/
structure CREATE3resok where
  obj : Option NfsFh3
  obj_attributes : Option Fattr3
  dir_wcc : WccData

structure RENAME3res where
  fromdir_wcc : WccData
  todir_wcc : WccData

structure LINK3res where
  file_attributes : Option Fattr3
  linkdir_wcc : WccData

/-- An entry of a listing, with the attributes the printer does not look at. -/
structure Entryplus where
  entry : Entryplus3
  name_attributes : Option Fattr3

structure READDIR3resok (ε : Type) where
  dir_attributes : Option Fattr3
  cookieverf : UInt64
  entries : List ε
  eof : Bool

structure FSSTAT3resok where
  obj_attributes : Option Fattr3
  tbytes : UInt64
  fbytes : UInt64
  abytes : UInt64
  tfiles : UInt64
  ffiles : UInt64
  afiles : UInt64
  invarsec : UInt32

structure FSINFO3resok where
  obj_attributes : Option Fattr3
  rtmax : UInt32
  rtpref : UInt32
  rtmult : UInt32
  wtmax : UInt32
  wtpref : UInt32
  wtmult : UInt32
  dtpref : UInt32
  maxfilesize : UInt64
  time_delta : Nfstime3
  properties : UInt32

structure PATHCONF3resok where
  obj_attributes : Option Fattr3
  linkmax : UInt32
  name_max : UInt32
  no_trunc : UInt32
  chown_restricted : UInt32
  case_insensitive : UInt32
  case_preserving : UInt32

structure COMMIT3resok where
  file_wcc : WccData
  verf : UInt64

structure Mountres3_ok where
  fhandle : NfsFh3
  auth_flavors : List UInt32

def LOOKUP3resok.xdr (r : LOOKUP3resok) : List UInt32 :=
  r.object.xdr ++ post_op_attr r.obj_attributes ++ post_op_attr r.dir_attributes

def ACCESS3resok.xdr (r : ACCESS3resok) : List UInt32 := post_op_attr r.obj_attributes ++ [r.access]

def READLINK3resok.xdr (r : READLINK3resok) : List UInt32 := post_op_attr r.symlink_attributes ++ counted r.data

def READ3resok.xdr (r : READ3resok) : List UInt32 := post_op_attr r.file_attributes ++ [r.count, r.eof] ++ counted r.data

def WRITE3resok.xdr (r : WRITE3resok) : List UInt32 := r.file_wcc.xdr ++ [r.count, r.committed] ++ hyper r.verf

def CREATE3resok.xdr (r : CREATE3resok) : List UInt32 :=
  post_op_fh3 r.obj ++ post_op_attr r.obj_attributes ++ r.dir_wcc.xdr

def RENAME3res.xdr (r : RENAME3res) : List UInt32 := r.fromdir_wcc.xdr ++ r.todir_wcc.xdr

def LINK3res.xdr (r : LINK3res) : List UInt32 := post_op_attr r.file_attributes ++ r.linkdir_wcc.xdr

def Entry3.xdr (e : Entry3) : List UInt32 := hyper e.fileid ++ counted e.name ++ hyper e.cookie

def Entryplus.xdr (e : Entryplus) : List UInt32 :=
  e.entry.toEntry3.xdr ++ post_op_attr e.name_attributes ++ post_op_fh3 e.entry.name_handle

def READDIR3resok.xdr {ε : Type} (enc : ε → List UInt32) (r : READDIR3resok ε) : List UInt32 :=
  post_op_attr r.dir_attributes ++ hyper r.cookieverf ++ linked enc r.entries ++ [if r.eof then 1 else 0]

def FSSTAT3resok.xdr (r : FSSTAT3resok) : List UInt32 :=
  post_op_attr r.obj_attributes ++ hyper r.tbytes ++ hyper r.fbytes ++ hyper r.abytes ++ hyper r.tfiles ++
    hyper r.ffiles ++ hyper r.afiles ++ [r.invarsec]

def FSINFO3resok.xdr (r : FSINFO3resok) : List UInt32 :=
  post_op_attr r.obj_attributes ++ [r.rtmax, r.rtpref, r.rtmult, r.wtmax, r.wtpref, r.wtmult, r.dtpref] ++
    hyper r.maxfilesize ++ r.time_delta.xdr ++ [r.properties]

def PATHCONF3resok.xdr (r : PATHCONF3resok) : List UInt32 :=
  post_op_attr r.obj_attributes ++
    [r.linkmax, r.name_max, r.no_trunc, r.chown_restricted, r.case_insensitive, r.case_preserving]

def COMMIT3resok.xdr (r : COMMIT3resok) : List UInt32 := r.file_wcc.xdr ++ hyper r.verf

def Mountres3_ok.xdr (r : Mountres3_ok) : List UInt32 := r.fhandle.xdr ++ array (fun f => [f]) r.auth_flavors

/-! ## Replies -/

inductive Reply3 where
  | null
  | getattr (res : Result Fattr3 Unit)
  | setattr (res : Result WccData WccData)
  | lookup (res : Result LOOKUP3resok (Option Fattr3))
  | access (res : Result ACCESS3resok (Option Fattr3))
  | readlink (res : Result READLINK3resok (Option Fattr3))
  | read (res : Result READ3resok (Option Fattr3))
  | write (res : Result WRITE3resok WccData)
  | create (res : Result CREATE3resok WccData)
  | mkdir (res : Result CREATE3resok WccData)
  | symlink (res : Result CREATE3resok WccData)
  | mknod (res : Result CREATE3resok WccData)
  | remove (res : Result WccData WccData)
  | rmdir (res : Result WccData WccData)
  | rename (res : Result RENAME3res RENAME3res)
  | link (res : Result LINK3res LINK3res)
  | readdir (res : Result (READDIR3resok Entry3) (Option Fattr3))
  | readdirp (res : Result (READDIR3resok Entryplus) (Option Fattr3))
  | fsstat (res : Result FSSTAT3resok (Option Fattr3))
  | fsinfo (res : Result FSINFO3resok (Option Fattr3))
  | pathconf (res : Result PATHCONF3resok (Option Fattr3))
  | commit (res : Result COMMIT3resok WccData)
  | mnt (res : Result Mountres3_ok Unit)

def Reply3.proc : Reply3 → Proc3
  | .null => .null | .getattr _ => .getattr | .setattr _ => .setattr | .lookup _ => .lookup | .access _ => .access
  | .readlink _ => .readlink | .read _ => .read | .write _ => .write | .create _ => .create | .mkdir _ => .mkdir
  | .symlink _ => .symlink | .mknod _ => .mknod | .remove _ => .remove | .rmdir _ => .rmdir | .rename _ => .rename
  | .link _ => .link | .readdir _ => .readdir | .readdirp _ => .readdirp | .fsstat _ => .fsstat | .fsinfo _ => .fsinfo
  | .pathconf _ => .pathconf | .commit _ => .commit | .mnt _ => .mnt

/-- NULL has no status; what the caller passes for one is `status`. -/
def Reply3.status : Reply3 → UInt32
  | .null => NFS3_OK
  | .getattr res => res.status | .setattr res => res.status | .lookup res => res.status | .access res => res.status
  | .readlink res => res.status | .read res => res.status | .write res => res.status | .create res => res.status
  | .mkdir res => res.status | .symlink res => res.status | .mknod res => res.status | .remove res => res.status
  | .rmdir res => res.status | .rename res => res.status | .link res => res.status | .readdir res => res.status
  | .readdirp res => res.status | .fsstat res => res.status | .fsinfo res => res.status | .pathconf res => res.status
  | .commit res => res.status | .mnt res => res.status

/-- What stands behind the status. -/
def Reply3.body : Reply3 → List UInt32
  | .null => []
  | .getattr res => res.xdr Fattr3.xdr void
  | .setattr res | .remove res | .rmdir res => res.xdr WccData.xdr WccData.xdr
  | .lookup res => res.xdr LOOKUP3resok.xdr post_op_attr
  | .access res => res.xdr ACCESS3resok.xdr post_op_attr
  | .readlink res => res.xdr READLINK3resok.xdr post_op_attr
  | .read res => res.xdr READ3resok.xdr post_op_attr
  | .write res => res.xdr WRITE3resok.xdr WccData.xdr
  | .create res | .mkdir res | .symlink res | .mknod res => res.xdr CREATE3resok.xdr WccData.xdr
  | .rename res => res.xdr RENAME3res.xdr RENAME3res.xdr
  | .link res => res.xdr LINK3res.xdr LINK3res.xdr
  | .readdir res => res.xdr (READDIR3resok.xdr Entry3.xdr) post_op_attr
  | .readdirp res => res.xdr (READDIR3resok.xdr Entryplus.xdr) post_op_attr
  | .fsstat res => res.xdr FSSTAT3resok.xdr post_op_attr
  | .fsinfo res => res.xdr FSINFO3resok.xdr post_op_attr
  | .pathconf res => res.xdr PATHCONF3resok.xdr post_op_attr
  | .commit res => res.xdr COMMIT3resok.xdr WccData.xdr
  | .mnt res => res.xdr Mountres3_ok.xdr void

end Nfsdump.Decode
