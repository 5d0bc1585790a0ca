/-
  Nfsdump.Wire.RpcHeader — `getRpcHeader` and `get_auth` of nfsrecord.c.

  The header is walked with a pointer `ui` that moves by lengths found in the message,
  rounded up to words; it is kept here as its offset from the message. Sums are 32-bit and
  the bound tests compare addresses, so a length near 2^32 moves the pointer backwards.
-/

import Nfsdump.Wire.Ptr

namespace Nfsdump.Wire

def CALL : UInt32 := 0
def REPLY : UInt32 := 1
def AUTH_UNIX : UInt32 := 1
def NFS_PROGRAM : UInt32 := 100003
def MOUNT_PROGRAM : UInt32 := 100005
def RPC_VERSION : UInt32 := 2

/-- `(len + (2 * sizeof (*ui) + 3)) / sizeof (*ui)` words, in bytes: the flavor and length
    words of an `opaque_auth` and its body. -/
def authBytes (len : UInt32) : UInt32 := 4 * ((len + 11) / 4)

structure Auth where
  rc : Int32
  euid : Int32
  egid : Int32
  /-- The flavor in the line printed about a credential that is not AUTH_UNIX. -/
  notUnix : Option UInt32

def get_auth (ui : Ptr) (euid egid : Int32) : Auth :=
  if ui.word 0 ≠ AUTH_UNIX then ⟨-1, euid, egid, some (ui.word 0)⟩
  else
    let len := ui.word 12
    let len := if len % 4 ≠ 0 then len / 4 + 1 else len / 4
    let pi := 16 + 4 * len
    ⟨0, (ui.word pi).toInt32, (ui.word (pi + 4)).toInt32, none⟩

structure RpcHeader where
  rc : Int32
  dir : UInt32
  euid : Int32
  egid : Int32
  notUnix : Option UInt32

def getRpcHeader (bp : Ptr) (maxlen : UInt32) (euid egid : Int32) : RpcHeader :=
  let max_ptr := bp.addr + 4 * (maxlen / 4)
  let dir := bp.word 4
  if dir = CALL then
    let rpc_program := bp.word 12
    if bp.word 8 ≠ RPC_VERSION ∨ (rpc_program ≠ NFS_PROGRAM ∧ rpc_program ≠ MOUNT_PROGRAM) then
      ⟨-1, dir, euid, egid, none⟩
    else
      let ui : UInt32 := 24
      let auth_base := bp.add ui
      if bp.addr + (ui + 4) ≥ max_ptr then ⟨-1, dir, euid, egid, none⟩
      else
        let cred_len := bp.word (ui + 4)
        let ui := ui + authBytes cred_len
        if bp.addr + (ui + 4) ≥ max_ptr then ⟨-1, dir, euid, egid, none⟩
        else
          let auth := get_auth auth_base euid egid
          if auth.rc ≠ 0 then ⟨-1, dir, auth.euid, auth.egid, auth.notUnix⟩
          else
            let verf_len := bp.word (ui + 4)
            let rh_len := ui + authBytes verf_len
            ⟨rh_len.toInt32, dir, auth.euid, auth.egid, auth.notUnix⟩
  else if dir = REPLY then
    let ui : UInt32 := 12
    if bp.addr + (ui + 4) ≥ max_ptr then ⟨-1, dir, euid, egid, none⟩
    else
      let verf_len := bp.word (ui + 4)
      let rh_len := ui + authBytes verf_len
      ⟨rh_len.toInt32, dir, euid, egid, none⟩
  else ⟨-1, dir, euid, egid, none⟩

end Nfsdump.Wire
