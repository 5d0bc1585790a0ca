/-
  Nfsdump.Decode.Args2 — the arguments and results of the NFSv2 procedures, from
  nfs_prot.x, and how they are encoded.

  A call's arguments stand from `p` on for `nfs_v2_print_call`. So does for
  `nfs_v2_print_resp` what a reply has behind a status of NFS_OK.
-/

import Nfsdump.Lib.Xdr
import Nfsdump.Decode.V2

namespace Nfsdump.Decode

open Xdr

def NFS_MAXDATA : Nat := 8192
def NFS_MAXPATHLEN : Nat := 1024
def NFS_MAXNAMLEN : Nat := 255

/-! ## Shared types -/

/-- `nfs_fh`. -/
structure NfsFh2 where
  data : List UInt8
  length_eq : data.length = NFS_FHSIZE.toNat

structure Nfscookie where
  data : List UInt8
  length_eq : data.length = NFS_COOKIESIZE.toNat

structure Filename where
  chars : List UInt8
  le : chars.length ≤ NFS_MAXNAMLEN

structure Nfspath where
  chars : List UInt8
  le : chars.length ≤ NFS_MAXPATHLEN

structure Nfstime2 where
  seconds : UInt32
  useconds : UInt32

structure Fattr2 where
  type : UInt32
  mode : UInt32
  nlink : UInt32
  uid : UInt32
  gid : UInt32
  size : UInt32
  blocksize : UInt32
  rdev : UInt32
  blocks : UInt32
  fsid : UInt32
  fileid : UInt32
  atime : Nfstime2
  mtime : Nfstime2
  ctime : Nfstime2

structure Sattr2 where
  mode : UInt32
  uid : UInt32
  gid : UInt32
  size : UInt32
  atime : Nfstime2
  mtime : Nfstime2

structure Diropargs2 where
  dir : NfsFh2
  name : Filename

structure Diropokres2 where
  file : NfsFh2
  attributes : Fattr2

def NfsFh2.xdr (f : NfsFh2) : List UInt32 := pack f.data

def Nfscookie.xdr (c : Nfscookie) : List UInt32 := pack c.data

def Filename.xdr (s : Filename) : List UInt32 := counted s.chars

def Nfspath.xdr (s : Nfspath) : List UInt32 := counted s.chars

def Nfstime2.xdr (t : Nfstime2) : List UInt32 := [t.seconds, t.useconds]

def Fattr2.words (a : Fattr2) : List UInt32 :=
  [a.type, a.mode, a.nlink, a.uid, a.gid, a.size, a.blocksize, a.rdev, a.blocks, a.fsid, a.fileid]

def Fattr2.xdr (a : Fattr2) : List UInt32 := a.words ++ (a.atime.xdr ++ a.mtime.xdr ++ a.ctime.xdr)

def Sattr2.xdr (s : Sattr2) : List UInt32 := [s.mode, s.uid, s.gid, s.size] ++ s.atime.xdr ++ s.mtime.xdr

def Diropargs2.xdr (d : Diropargs2) : List UInt32 := d.dir.xdr ++ d.name.xdr

def Diropokres2.xdr (r : Diropokres2) : List UInt32 := r.file.xdr ++ r.attributes.xdr

@[simp] theorem NfsFh2.xdr_length (f : NfsFh2) : f.xdr.length = 8 := by
  rw [NfsFh2.xdr, pack_length, f.length_eq]
  rfl

@[simp] theorem Nfscookie.xdr_length (c : Nfscookie) : c.xdr.length = 1 := by
  rw [Nfscookie.xdr, pack_length, c.length_eq]
  rfl

@[simp] theorem Fattr2.xdr_length (a : Fattr2) : a.xdr.length = 17 := rfl

@[simp] theorem Sattr2.xdr_length (s : Sattr2) : s.xdr.length = 8 := rfl

@[simp] theorem Diropargs2.xdr_length (d : Diropargs2) : d.xdr.length = 8 + d.name.xdr.length := by
  rw [Diropargs2.xdr, List.length_append, NfsFh2.xdr_length]

@[simp] theorem Diropokres2.xdr_length (r : Diropokres2) : r.xdr.length = 25 := by
  rw [Diropokres2.xdr, List.length_append, NfsFh2.xdr_length, Fattr2.xdr_length]

/-! ## Calls -/

structure Sattrargs where
  file : NfsFh2
  attributes : Sattr2

structure Readargs where
  file : NfsFh2
  offset : UInt32
  count : UInt32
  totalcount : UInt32

structure Writeargs where
  file : NfsFh2
  beginoffset : UInt32
  offset : UInt32
  totalcount : UInt32
  data : List UInt8
  le : data.length ≤ NFS_MAXDATA

structure Createargs where
  where_ : Diropargs2
  attributes : Sattr2

structure Renameargs where
  from_ : Diropargs2
  to_ : Diropargs2

structure Linkargs where
  from_ : NfsFh2
  to_ : Diropargs2

structure Symlinkargs where
  from_ : Diropargs2
  to_ : Nfspath
  attributes : Sattr2

structure Readdirargs where
  dir : NfsFh2
  cookie : Nfscookie
  count : UInt32

/-- A procedure and its arguments. -/
inductive Call2 where
  | null | root | writecache
  | getattr (file : NfsFh2)
  | setattr (a : Sattrargs)
  | lookup (a : Diropargs2)
  | readlink (file : NfsFh2)
  | read (a : Readargs)
  | write (a : Writeargs)
  | create (a : Createargs)
  | remove (a : Diropargs2)
  | rename (a : Renameargs)
  | link (a : Linkargs)
  | symlink (a : Symlinkargs)
  | mkdir (a : Createargs)
  | rmdir (a : Diropargs2)
  | readdir (a : Readdirargs)
  | statfs (file : NfsFh2)

def Call2.proc : Call2 → Proc2
  | .null => .null | .root => .root | .writecache => .writecache | .getattr _ => .getattr | .setattr _ => .setattr
  | .lookup _ => .lookup | .readlink _ => .readlink | .read _ => .read | .write _ => .write | .create _ => .create
  | .remove _ => .remove | .rename _ => .rename | .link _ => .link | .symlink _ => .symlink | .mkdir _ => .mkdir
  | .rmdir _ => .rmdir | .readdir _ => .readdir | .statfs _ => .statfs

def Call2.xdr : Call2 → List UInt32
  | .null | .root | .writecache => []
  | .getattr file | .readlink file | .statfs file => file.xdr
  | .setattr a => a.file.xdr ++ a.attributes.xdr
  | .lookup a | .remove a | .rmdir a => a.xdr
  | .read a => a.file.xdr ++ [a.offset, a.count, a.totalcount]
  | .write a => a.file.xdr ++ ([a.beginoffset, a.offset, a.totalcount] ++ counted a.data)
  | .create a | .mkdir a => a.where_.xdr ++ a.attributes.xdr
  | .rename a => a.from_.xdr ++ a.to_.xdr
  | .link a => a.from_.xdr ++ a.to_.xdr
  | .symlink a => a.from_.xdr ++ (a.to_.xdr ++ a.attributes.xdr)
  | .readdir a => a.dir.xdr ++ (a.cookie.xdr ++ [a.count])

/-! ## Replies -/

structure Readokres where
  attributes : Fattr2
  data : List UInt8
  le : data.length ≤ NFS_MAXDATA

structure DirEntry where
  fileid : UInt32
  name : Filename
  cookie : Nfscookie

structure Dirlist2 where
  entries : List DirEntry
  eof : Bool

structure Statfsokres where
  tsize : UInt32
  bsize : UInt32
  blocks : UInt32
  bfree : UInt32
  bavail : UInt32

def DirEntry.xdr (e : DirEntry) : List UInt32 := e.fileid :: (e.name.xdr ++ e.cookie.xdr)

def Dirlist2.xdr (d : Dirlist2) : List UInt32 := linked DirEntry.xdr d.entries ++ [if d.eof then 1 else 0]

def Statfsokres.xdr (s : Statfsokres) : List UInt32 := [s.tsize, s.bsize, s.blocks, s.bfree, s.bavail]

/-- A procedure and its result, behind the status if there is one. -/
inductive Reply2 where
  | null | root | writecache
  | getattr (attributes : Fattr2)
  | setattr (attributes : Fattr2)
  | lookup (r : Diropokres2)
  | readlink (data : Nfspath)
  | read (r : Readokres)
  | write (attributes : Fattr2)
  | create (r : Diropokres2)
  | remove | rename | link | symlink
  | mkdir (r : Diropokres2)
  | rmdir
  | readdir (reply : Dirlist2)
  | statfs (reply : Statfsokres)

def Reply2.proc : Reply2 → Proc2
  | .null => .null | .root => .root | .writecache => .writecache | .getattr _ => .getattr | .setattr _ => .setattr
  | .lookup _ => .lookup | .readlink _ => .readlink | .read _ => .read | .write _ => .write | .create _ => .create
  | .remove => .remove | .rename => .rename | .link => .link | .symlink => .symlink | .mkdir _ => .mkdir
  | .rmdir => .rmdir | .readdir _ => .readdir | .statfs _ => .statfs

def Reply2.xdr : Reply2 → List UInt32
  | .null | .root | .writecache => []
  | .remove | .rename | .link | .symlink | .rmdir => []
  | .getattr a | .setattr a | .write a => a.xdr
  | .lookup r | .create r | .mkdir r => r.xdr
  | .readlink data => data.xdr
  | .read r => r.attributes.xdr ++ counted r.data
  | .readdir reply => reply.xdr
  | .statfs reply => reply.xdr

end Nfsdump.Decode
