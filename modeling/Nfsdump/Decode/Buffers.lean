/-
  Nfsdump.Decode.Buffers — where `nfs_v3_print_call` has the fields of a call's arguments
  stored.

  Handles, names, link texts and mount paths go through the pointers of `args`: to one of
  the `BigBuf`s, or, where a pointer was left NULL, to memory that the decoder allocates. The
  types are those of nfs_prot.x and mount_prot.x. The routines are made by rpcgen and are not
  part of the repository: `Rpcgen` is what is used of them. One reads a field's length, puts
  a string's NUL behind the place of its bytes, and only then looks for the bytes.

  Proved, for every procedure and payload, and such routines:
  - `stores_apart`: no two fields of a call are stored in one buffer;
  - `buffers_fit_iff`: every field is stored within its buffer iff no name or link text that
    has one is announced with more than 2047 bytes, be they there or not;
  - `fill_rpcgen`: routines over `xdrmem_getint32` and `xdr_opaque` are such;
  - `long_name_overruns`: a LOOKUP of a name of 2048 bytes stores its NUL behind the buffer.
-/

import Nfsdump.Decode.MemStream
import Nfsdump.Lib.XdrTypes

namespace Nfsdump.Decode

open Wire Xdr

/-! ## The arguments -/

/-- The variable-length fields of the calls' arguments, by their places in `args`. -/
inductive Field where
  | object
  | what_dir
  | what_name
  | symlink
  | file
  | where_dir
  | where_name
  | symlink_data
  | object_dir
  | object_name
  | from_dir
  | from_name
  | to_dir
  | to_name
  | link_dir
  | link_name
  | dir
  | fsroot
  | dirpath
  deriving DecidableEq

/-- `BigBuf0` to `BigBuf3`. -/
abbrev BigBuf := Fin 4

def BigBuf.size : Nat := 2 * 1024

/-- The assignments of a procedure's case to the pointers of its `args`. -/
def Proc3.assignments : Proc3 → List (Field × BigBuf)
  | .null => []
  | .getattr | .setattr | .access | .pathconf => [(.object, 0)]
  | .lookup => [(.what_dir, 0), (.what_name, 1)]
  | .readlink => [(.symlink, 0)]
  | .read | .write | .commit => [(.file, 0)]
  | .create | .mkdir | .mknod => [(.where_dir, 0), (.where_name, 1)]
  | .symlink => [(.where_dir, 0), (.where_name, 1), (.symlink_data, 2)]
  | .remove | .rmdir => [(.object_dir, 0), (.object_name, 1)]
  | .rename => [(.from_dir, 0), (.from_name, 1), (.to_dir, 2), (.from_name, 3)]
  | .link => [(.file, 0), (.link_dir, 1), (.link_name, 2)]
  | .readdir | .readdirp => [(.dir, 0)]
  | .fsstat | .fsinfo => [(.fsroot, 0)]
  | .mnt => [(.dirpath, 0)]

/-- What a pointer was assigned last; `bzero` made it NULL. -/
def Proc3.pointer (q : Proc3) (f : Field) : Option BigBuf :=
  (q.assignments.reverse.find? fun a => a.1 = f).map Prod.snd

/-! ### nfs_prot.x and mount_prot.x -/

/-- `opaque data<NFS3_FHSIZE>`. -/
def fh3Ty (f : Field) : Ty Field := .counted f 64 0

/-- `string<>`; its length and NUL are counted in 32 bits. -/
def stringTy (f : Field) : Ty Field := .counted f (2 ^ 32 - 2) 1

def diropargs3Ty (fh name : Field) : Ty Field := .seq (fh3Ty fh) (stringTy name)

/-- A union over a `bool`. -/
def setTy (k : Nat) : Ty Field := .union fun set_it => if set_it = 0 then .void else .units k

/-- `set_atime` and `set_mtime`. -/
def setTimeTy : Ty Field := .union fun set_it => if set_it = 2 then .units 2 else .void

def sattr3Ty : Ty Field :=
  .seq (setTy 1) (.seq (setTy 1) (.seq (setTy 1) (.seq (setTy 2) (.seq setTimeTy setTimeTy))))

def createhow3Ty : Ty Field :=
  .union fun mode => if mode = 0 ∨ mode = 1 then sattr3Ty else if mode = 2 then .units 2 else .never

def mknoddata3Ty : Ty Field :=
  .union fun type =>
    if type = 3 ∨ type = 4 then .seq sattr3Ty (.units 2) else if type = 6 ∨ type = 7 then sattr3Ty else .void

/-- What a procedure's case decodes; WRITE's up to its data. -/
def Proc3.args : Proc3 → Ty Field
  | .null => .void
  | .getattr => fh3Ty .object
  | .setattr => .seq (fh3Ty .object) (.seq sattr3Ty (setTy 2))
  | .lookup => diropargs3Ty .what_dir .what_name
  | .access => .seq (fh3Ty .object) (.units 1)
  | .readlink => fh3Ty .symlink
  | .read => .seq (fh3Ty .file) (.units 3)
  | .write => .seq (fh3Ty .file) (.units 4)
  | .create => .seq (diropargs3Ty .where_dir .where_name) createhow3Ty
  | .mkdir => .seq (diropargs3Ty .where_dir .where_name) sattr3Ty
  | .symlink => .seq (diropargs3Ty .where_dir .where_name) (.seq sattr3Ty (stringTy .symlink_data))
  | .mknod => .seq (diropargs3Ty .where_dir .where_name) mknoddata3Ty
  | .remove | .rmdir => diropargs3Ty .object_dir .object_name
  | .rename => .seq (diropargs3Ty .from_dir .from_name) (diropargs3Ty .to_dir .to_name)
  | .link => .seq (fh3Ty .file) (diropargs3Ty .link_dir .link_name)
  | .readdir => .seq (fh3Ty .dir) (.units 5)
  | .readdirp => .seq (fh3Ty .dir) (.units 6)
  | .fsstat | .fsinfo => fh3Ty .fsroot
  | .pathconf => fh3Ty .object
  | .commit => .seq (fh3Ty .file) (.units 3)
  | .mnt => .counted .dirpath 1024 1

/-! ## Stores -/

/-- A store through a field's pointer, of the first `size` bytes or of some of them: in a
    buffer, or in memory that was allocated for the field. -/
structure Store where
  field : Field
  buffer : Option BigBuf
  size : Nat
  deriving DecidableEq

/-- What is used of the routines. Stored are only fields whose length has been read, and no
    further than that and a string's NUL; the NUL is stored when the length has been read. -/
structure Rpcgen (routine : (Field → Option BigBuf) → Ty Field → Ptr → UInt32 → List Store) : Prop where
  within : ∀ ptr t p len, ∀ s ∈ routine ptr t p len,
    s.buffer = ptr s.field ∧ ∃ n extra, t.Announces (wordAt p) len.toNat 0 s.field n extra ∧ s.size ≤ n + extra
  nul : ∀ ptr (t : Ty Field) p (len : UInt32) f n, t.Announces (wordAt p) len.toNat 0 f n 1 →
    (⟨f, ptr f, n + 1⟩ : Store) ∈ routine ptr t p len

/-- What `nfs_v3_print_call` has stored. -/
def callStores (routine : (Field → Option BigBuf) → Ty Field → Ptr → UInt32 → List Store) (op : UInt32) (p : Ptr)
    (actual_len : UInt32) : List Store :=
  match Proc3.ofNumber op with
  | some q => routine q.pointer q.args p actual_len
  | none => []

/-! ## Buffers -/

section Wiring

variable {q : Proc3} {f : Field} {max extra : Nat}

theorem pointer_mem {buffer : BigBuf} (h : q.pointer f = some buffer) : (f, buffer) ∈ q.assignments := by
  obtain ⟨a, ha, hb⟩ := Option.map_eq_some_iff.mp h
  have hf : a.1 = f := by simpa using List.find?_some ha
  have hmem := List.mem_reverse.mp (List.mem_of_find?_eq_some ha)
  rwa [← hf, ← hb]

theorem assignments_nodup (q : Proc3) : (q.assignments.map Prod.snd).Nodup := by cases q <;> decide

/-- Two pointers to one buffer are one field's. -/
theorem pointer_injective {f' : Field} {buffer : BigBuf} (h : q.pointer f = some buffer) (h' : q.pointer f' = some buffer) :
    f = f' :=
  congrArg Prod.fst (List.inj_on_of_nodup_map (assignments_nodup q) (pointer_mem h) (pointer_mem h') rfl)

/-- The names and link texts that have a buffer. -/
def Field.Named : Field → Bool
  | .what_name | .where_name | .symlink_data | .object_name | .from_name | .link_name => true
  | _ => false

/-! ### Attributes have no such field -/

theorem setTy_declares (k : Nat) : ¬ (setTy k).Declares f max extra := by
  intro ⟨d, hd⟩
  dsimp only at hd
  split at hd <;> exact hd

theorem setTimeTy_declares : ¬ setTimeTy.Declares f max extra := by
  intro ⟨d, hd⟩
  dsimp only at hd
  split at hd <;> exact hd

theorem sattr3Ty_declares : ¬ sattr3Ty.Declares f max extra := by
  simp [sattr3Ty, Ty.Declares, setTy_declares, setTimeTy_declares]

theorem createhow3Ty_declares : ¬ createhow3Ty.Declares f max extra := by
  intro ⟨d, hd⟩
  dsimp only at hd
  split at hd
  · exact sattr3Ty_declares hd
  · split at hd <;> exact hd

theorem mknoddata3Ty_declares : ¬ mknoddata3Ty.Declares f max extra := by
  intro ⟨d, hd⟩
  dsimp only at hd
  split at hd
  · exact hd.elim sattr3Ty_declares id
  · split at hd
    · exact sattr3Ty_declares hd
    · exact hd

/-! ### Procedures -/

/-- A field is a name or link text with a buffer, or it has none, or it has a bound. -/
theorem args_declares (q : Proc3) (h : q.args.Declares f max extra) :
    (f.Named = true ∧ (q.pointer f).isSome ∧ extra = 1) ∨ (f.Named = false ∧ (q.pointer f = none ∨ max + extra ≤ 1025)) := by
  cases q <;>
    simp only [Proc3.args, diropargs3Ty, fh3Ty, stringTy, Ty.Declares, sattr3Ty_declares, setTy_declares, createhow3Ty_declares,
      mknoddata3Ty_declares, or_false, false_or] at h
  all_goals
    casesm* _ ∨ _, _ ∧ _, False
    all_goals
      subst_vars
      decide

end Wiring

section Calls

variable {routine : (Field → Option BigBuf) → Ty Field → Ptr → UInt32 → List Store} {q : Proc3} {op : UInt32} {p : Ptr} {len : UInt32}

/-- Every field is stored, its NUL included, within its own buffer or in memory of its own. -/
structure FitBuffers (stores : List Store) : Prop where
  within : ∀ s ∈ stores, s.buffer.isSome → s.size ≤ BigBuf.size
  apart : ∀ s ∈ stores, ∀ s' ∈ stores, s.field ≠ s'.field → ∀ buffer, s.buffer = some buffer → s'.buffer ≠ some buffer

theorem callStores_eq (h : Proc3.ofNumber op = some q) : callStores routine op p len = routine q.pointer q.args p len := by
  rw [callStores, h]

theorem stores_apart (hroutine : Rpcgen routine) (op : UInt32) (p : Ptr) (len : UInt32) : ∀ s ∈ callStores routine op p len,
    ∀ s' ∈ callStores routine op p len, s.field ≠ s'.field → ∀ buffer, s.buffer = some buffer → s'.buffer ≠ some buffer := by
  cases hq : Proc3.ofNumber op with
  | none =>
    rw [callStores, hq]
    simp
  | some q =>
    rw [callStores_eq hq]
    intro s hs s' hs' hne buffer hb hb'
    obtain ⟨hptr, -⟩ := hroutine.within _ _ _ _ s hs
    obtain ⟨hptr', -⟩ := hroutine.within _ _ _ _ s' hs'
    exact hne (pointer_injective (hptr.symm.trans hb) (hptr'.symm.trans hb'))

/-- The fields of a call are stored within buffers of their own iff no name or link text, but
    RENAME's second name, is announced with more than 2047 bytes. -/
theorem buffers_fit_iff (hroutine : Rpcgen routine) (op : UInt32) (p : Ptr) (actual_len : UInt32) :
    FitBuffers (callStores routine op p actual_len) ↔
      ∀ q, Proc3.ofNumber op = some q →
        ∀ f n, q.args.Announces (wordAt p) actual_len.toNat 0 f n 1 → f.Named → n ≤ 2047 := by
  constructor
  · intro h q hq f n hn hnamed
    have hmem : (⟨f, q.pointer f, n + 1⟩ : Store) ∈ callStores routine op p actual_len := by
      rw [callStores_eq hq]
      exact hroutine.nul _ _ _ _ f n hn
    obtain ⟨max, hd, -⟩ := hn.declares
    rcases args_declares q hd with ⟨-, hbuffer, -⟩ | ⟨hunnamed, -⟩
    · exact Nat.le_of_succ_le_succ (h.within _ hmem hbuffer)
    · rw [hnamed] at hunnamed
      cases hunnamed
  · intro h
    refine ⟨fun s hs hbuffer => ?_, stores_apart hroutine op p actual_len⟩
    cases hq : Proc3.ofNumber op with
    | none =>
      rw [callStores, hq] at hs
      cases hs
    | some q =>
      rw [callStores_eq hq] at hs
      obtain ⟨hptr, n, extra, hn, hsize⟩ := hroutine.within _ _ _ _ s hs
      obtain ⟨max, hd, hle⟩ := hn.declares
      rcases args_declares q hd with ⟨hnamed, -, rfl⟩ | ⟨-, hnull | hmax⟩
      · have hshort := h q hq s.field n hn hnamed
        exact hsize.trans (Nat.succ_le_succ hshort)
      · rw [hptr, hnull] at hbuffer
        cases hbuffer
      · have hbound : n + extra ≤ 1025 := by omega
        exact hsize.trans (hbound.trans (by decide))

end Calls

/-! ## Routines -/

def getUnits : Nat → XDR → Option XDR
  | 0, xdr => some xdr
  | k + 1, xdr =>
    match xdrmem_getint32 xdr with
    | (some _, xdr) => getUnits k xdr
    | (none, _) => none

/-- The routine of a type over a stream in memory: what it stores through the pointers `ptr`,
    and the stream it leaves if it does not fail. -/
def fill (ptr : Field → Option BigBuf) : Ty Field → XDR → List Store × Option XDR
  | .void, xdr => ([], some xdr)
  | .never, _ => ([], none)
  | .units k, xdr => ([], getUnits k xdr)
  | .counted f max extra, xdr =>
    match xdrmem_getint32 xdr with
    | (none, _) => ([], none)
    | (some size, xdr) =>
      if size.toNat ≤ max then
        -- A string has its NUL stored even if its bytes are not there.
        (if extra = 0 ∧ xdr.handy < size then [] else [⟨f, ptr f, size.toNat + extra⟩],
          match xdr_opaque size xdr with
          | (some _, xdr) => some xdr
          | (none, _) => none)
      else ([], none)
  | .seq a b, xdr =>
    match fill ptr a xdr with
    | (ss, some xdr) => (ss ++ (fill ptr b xdr).1, (fill ptr b xdr).2)
    | (ss, none) => (ss, none)
  | .union arms, xdr =>
    match xdrmem_getint32 xdr with
    | (none, _) => ([], none)
    | (some d, xdr) => fill ptr (arms d) xdr

/-- The stream of a call. -/
def memRoutine (ptr : Field → Option BigBuf) (t : Ty Field) (p : Ptr) (len : UInt32) : List Store := (fill ptr t ⟨p, len⟩).1

/-- The stream of `len` bytes at unit `i`. -/
def streamAt (p : Ptr) (len : UInt32) (i : Nat) : XDR := ⟨cur p i, len - 4 * UInt32.ofNat i⟩

section Fill

variable {ptr : Field → Option BigBuf} {p : Ptr} {len : UInt32}

theorem streamAt_zero (p : Ptr) (len : UInt32) : streamAt p len 0 = ⟨p, len⟩ := by
  rw [streamAt, cur_zero]
  simp

theorem streamAt_handy {i : Nat} (hi : 4 * i ≤ len.toNat) : (streamAt p len i).handy.toNat = len.toNat - 4 * i := by
  have hlt := len.toNat_lt
  have hbytes : (4 * UInt32.ofNat i).toNat = 4 * i := by
    rw [UInt32.toNat_mul, toNat_ofNat_lt (by omega), show (4 : UInt32).toNat = 4 from rfl]
    omega
  rw [streamAt, left_toNat (hbytes.le.trans hi), hbytes]

theorem streamAt_add (p : Ptr) (len : UInt32) (i k : Nat) :
    (⟨(cur p i).add (4 * UInt32.ofNat k), len - 4 * UInt32.ofNat i - 4 * UInt32.ofNat k⟩ : XDR) = streamAt p len (i + k) := by
  have hleft : len - 4 * UInt32.ofNat i - 4 * UInt32.ofNat k = len - 4 * UInt32.ofNat (i + k) := by
    rw [UInt32.ofNat_add, UInt32.mul_add]
    grind
  rw [streamAt, hleft, ← cur_skip]
  rfl

theorem unit_pass {i : Nat} (hi : 4 * (i + 1) ≤ len.toNat) :
    xdrmem_getint32 (streamAt p len i) = (some (wordAt p i), streamAt p len (i + 1)) := by
  have hhandy : (len - 4 * UInt32.ofNat i).toNat = len.toNat - 4 * i := streamAt_handy (p := p) (show 4 * i ≤ len.toNat by omega)
  have hword : (cur p i).word 0 = wordAt p i := cur_word p i 0
  rw [← streamAt_add, ← hword]
  exact getint32_pass (by omega)

theorem unit_stop {i : Nat} (hi : 4 * i ≤ len.toNat) (hi' : len.toNat < 4 * (i + 1)) :
    xdrmem_getint32 (streamAt p len i) = (none, streamAt p len i) := by
  have hhandy : (len - 4 * UInt32.ofNat i).toNat = len.toNat - 4 * i := streamAt_handy (p := p) hi
  exact getint32_stop (by omega)

theorem units_fill (k : Nat) : ∀ {i}, 4 * i ≤ len.toNat →
    getUnits k (streamAt p len i) = if 4 * (i + k) ≤ len.toNat then some (streamAt p len (i + k)) else none := by
  induction k with
  | zero =>
    intro i hi
    rw [Nat.add_zero, if_pos hi]
    rfl
  | succ k ih =>
    intro i hi
    by_cases hone : 4 * (i + 1) ≤ len.toNat
    · rw [getUnits, unit_pass hone]
      have hnext := ih hone
      rw [show i + 1 + k = i + (k + 1) by omega] at hnext
      exact hnext
    · rw [getUnits, unit_stop hi (by omega), if_neg (by omega)]

theorem opaque_stop {cnt : UInt32} {xdr : XDR} (h : xdr.handy.toNat < cnt.toNat) : ∃ rest, xdr_opaque cnt xdr = (none, rest) := by
  have h0 : cnt ≠ 0 := by
    rintro rfl
    exact absurd h (Nat.not_lt_zero _)
  unfold xdr_opaque
  rw [dif_neg h0, andThen, xdrmem_getbytes, if_pos (UInt32.lt_iff_toNat_lt.mpr h)]
  exact ⟨_, rfl⟩

/-- The stream behind an opaque, if its bytes and what fills the last unit are there. -/
theorem opaque_fill {n : UInt32} {i : Nat} (hi : 4 * i ≤ len.toNat) :
    (match xdr_opaque n (streamAt p len i) with
      | (some _, xdr) => some xdr
      | (none, _) => none) =
      if 4 * (i + opaqueWords n) ≤ len.toNat then some (streamAt p len (i + opaqueWords n)) else none := by
  have hhandy : (len - 4 * UInt32.ofNat i).toNat = len.toNat - 4 * i := streamAt_handy (p := p) hi
  have hwords : n.toNat ≤ 4 * opaqueWords n := by
    unfold opaqueWords
    omega
  by_cases hfit : 4 * (i + opaqueWords n) ≤ len.toNat
  · obtain ⟨bs, hbs⟩ : ∃ bs, xdr_opaque n (streamAt p len i) = (some bs, _) := opaque_pass (by omega)
    rw [hbs, if_pos hfit, ← streamAt_add]
    rfl
  · rw [if_neg hfit]
    by_cases hthere : n.toNat ≤ (len - 4 * UInt32.ofNat i).toNat
    · obtain ⟨q, r, hbs, -⟩ : ∃ q r, xdr_opaque n (streamAt p len i) = (none, ⟨q, r⟩) ∧ r.toNat < 4 :=
        opaque_unfilled (by omega) (by omega)
      rw [hbs]
    · obtain ⟨rest, hbs⟩ : ∃ rest, xdr_opaque n (streamAt p len i) = (none, rest) := opaque_stop (Nat.lt_of_not_le hthere)
      rw [hbs]

theorem counted_fill {f : Field} {max extra i : Nat} (hi : 4 * i ≤ len.toNat) :
    (fill ptr (.counted f max extra) (streamAt p len i)).2 =
      if (wordAt p i).toNat ≤ max ∧ 4 * (i + 1 + opaqueWords (wordAt p i)) ≤ len.toNat
        then some (streamAt p len (i + 1 + opaqueWords (wordAt p i))) else none := by
  by_cases hone : 4 * (i + 1) ≤ len.toNat
  · rw [fill, unit_pass hone]
    dsimp only
    by_cases hmax : (wordAt p i).toNat ≤ max
    · rw [if_pos hmax]
      dsimp only
      rw [opaque_fill hone]
      simp only [hmax, true_and]
    · rw [if_neg hmax, if_neg fun h => hmax h.1]
  · rw [fill, unit_stop hi (by omega), if_neg]
    omega

/-- A routine ends where its type does. -/
theorem fill_ends (t : Ty Field) : ∀ {i}, 4 * i ≤ len.toNat → ∀ xdr,
    (fill ptr t (streamAt p len i)).2 = some xdr ↔ ∃ j, t.Ends (wordAt p) len.toNat i j ∧ xdr = streamAt p len j := by
  induction t with
  | void =>
    intro i hi xdr
    exact ⟨fun h => ⟨i, rfl, (Option.some.inj h).symm⟩, fun ⟨j, hj, hx⟩ => by rw [hx, show j = i from hj]; rfl⟩
  | never =>
    intro i hi xdr
    exact ⟨nofun, fun ⟨_, hj, _⟩ => hj.elim⟩
  | units k =>
    intro i hi xdr
    rw [fill, units_fill k hi]
    by_cases hk : 4 * (i + k) ≤ len.toNat
    · rw [if_pos hk]
      exact ⟨fun h => ⟨i + k, ⟨rfl, hk⟩, (Option.some.inj h).symm⟩, fun ⟨j, hj, hx⟩ => by rw [hx, hj.1]⟩
    · rw [if_neg hk]
      refine ⟨nofun, fun ⟨j, hj, _⟩ => absurd hj.2 ?_⟩
      rw [hj.1]
      exact hk
  | counted f max extra =>
    intro i hi xdr
    rw [counted_fill hi]
    by_cases hfit : (wordAt p i).toNat ≤ max ∧ 4 * (i + 1 + opaqueWords (wordAt p i)) ≤ len.toNat
    · rw [if_pos hfit]
      refine ⟨fun h => ⟨_, ⟨hfit.1, rfl, hfit.2⟩, (Option.some.inj h).symm⟩, fun ⟨j, hj, hx⟩ => ?_⟩
      rw [hx, hj.2.1]
      rfl
    · rw [if_neg hfit]
      exact ⟨nofun, fun ⟨j, hj, _⟩ => absurd ⟨hj.1, hj.2.1 ▸ hj.2.2⟩ hfit⟩
  | seq a b iha ihb =>
    intro i hi xdr
    have hends := iha hi
    rw [fill]
    rcases hfill : fill ptr a (streamAt p len i) with ⟨ss, _ | x⟩
    · rw [hfill] at hends
      refine ⟨nofun, fun ⟨j, ⟨k, ha, _⟩, _⟩ => ?_⟩
      exact nomatch (hends _).mpr ⟨k, ha, rfl⟩
    · rw [hfill] at hends
      obtain ⟨k, ha, rfl⟩ := (hends x).mp rfl
      show (fill ptr b (streamAt p len k)).2 = some xdr ↔ _
      constructor
      · intro h
        obtain ⟨j, hb, hx⟩ := (ihb (ha.le hi) xdr).mp h
        exact ⟨j, ⟨k, ha, hb⟩, hx⟩
      · intro ⟨j, ⟨k', ha', hb⟩, hx⟩
        have hsame : streamAt p len k = streamAt p len k' := Option.some.inj ((hends _).mpr ⟨k', ha', rfl⟩)
        rw [hsame]
        exact (ihb (ha'.le hi) xdr).mpr ⟨j, hb, hx⟩
  | union arms ih =>
    intro i hi xdr
    by_cases hone : 4 * (i + 1) ≤ len.toNat
    · rw [fill, unit_pass hone]
      refine (ih (wordAt p i) hone xdr).trans ?_
      exact ⟨fun ⟨j, hj, hx⟩ => ⟨j, ⟨hone, hj⟩, hx⟩, fun ⟨j, hj, hx⟩ => ⟨j, hj.2, hx⟩⟩
    · rw [fill, unit_stop hi (by omega)]
      exact ⟨nofun, fun ⟨j, hj, _⟩ => absurd hj.1 hone⟩

/-- What is stored is announced. -/
theorem fill_announces (t : Ty Field) : ∀ {i}, 4 * i ≤ len.toNat → ∀ s ∈ (fill ptr t (streamAt p len i)).1,
    s.buffer = ptr s.field ∧ ∃ n extra, t.Announces (wordAt p) len.toNat i s.field n extra ∧ s.size ≤ n + extra := by
  induction t with
  | void => intro i hi s hs; cases hs
  | never => intro i hi s hs; cases hs
  | units k => intro i hi s hs; cases hs
  | counted f max extra =>
    intro i hi s hs
    by_cases hone : 4 * (i + 1) ≤ len.toNat
    · rw [fill, unit_pass hone] at hs
      dsimp only at hs
      by_cases hmax : (wordAt p i).toNat ≤ max
      · rw [if_pos hmax] at hs
        dsimp only at hs
        split at hs
        · cases hs
        · rw [List.mem_singleton.mp hs]
          exact ⟨rfl, _, extra, ⟨rfl, rfl, rfl, hmax, hone⟩, le_rfl⟩
      · rw [if_neg hmax] at hs
        cases hs
    · rw [fill, unit_stop hi (by omega)] at hs
      cases hs
  | seq a b iha ihb =>
    intro i hi s hs
    have hends : ∀ xdr, (fill ptr a (streamAt p len i)).2 = some xdr ↔ _ := fill_ends a hi
    have hleft := iha hi s
    have here : s ∈ (fill ptr a (streamAt p len i)).1 → s.buffer = ptr s.field ∧
        ∃ n extra, (a.seq b).Announces (wordAt p) len.toNat i s.field n extra ∧ s.size ≤ n + extra := by
      intro hs
      obtain ⟨hptr, n, extra, hn, hle⟩ := hleft hs
      exact ⟨hptr, n, extra, .inl hn, hle⟩
    rw [fill] at hs
    rcases hfill : fill ptr a (streamAt p len i) with ⟨ss, _ | x⟩
    · rw [hfill] at hs here
      exact here hs
    · rw [hfill] at hs here hends
      rcases List.mem_append.mp hs with hs | hs
      · exact here hs
      · obtain ⟨k, ha, rfl⟩ := (hends x).mp rfl
        obtain ⟨hptr, n, extra, hn, hle⟩ := ihb (ha.le hi) s hs
        exact ⟨hptr, n, extra, .inr ⟨k, ha, hn⟩, hle⟩
  | union arms ih =>
    intro i hi s hs
    by_cases hone : 4 * (i + 1) ≤ len.toNat
    · rw [fill, unit_pass hone] at hs
      obtain ⟨hptr, n, extra, hn, hle⟩ := ih (wordAt p i) hone s hs
      exact ⟨hptr, n, extra, ⟨hone, hn⟩, hle⟩
    · rw [fill, unit_stop hi (by omega)] at hs
      cases hs

/-- A string that is announced is stored. -/
theorem mem_fill (t : Ty Field) {f : Field} {n : Nat} : ∀ {i}, 4 * i ≤ len.toNat → t.Announces (wordAt p) len.toNat i f n 1 →
    (⟨f, ptr f, n + 1⟩ : Store) ∈ (fill ptr t (streamAt p len i)).1 := by
  induction t with
  | void => intro i hi h; exact h.elim
  | never => intro i hi h; exact h.elim
  | units k => intro i hi h; exact h.elim
  | counted f' max extra =>
    intro i hi h
    obtain ⟨hf, hextra, hn, hmax, hone⟩ := h
    rw [fill, unit_pass hone]
    dsimp only
    rw [if_pos (hn ▸ hmax)]
    dsimp only
    rw [if_neg (by omega), hf, hn, hextra]
    exact List.mem_singleton_self _
  | seq a b iha ihb =>
    intro i hi h
    have hends : ∀ xdr, (fill ptr a (streamAt p len i)).2 = some xdr ↔ _ := fill_ends a hi
    rw [fill]
    rcases h with h | ⟨k, ha, h⟩
    · have hleft := iha hi h
      rcases hfill : fill ptr a (streamAt p len i) with ⟨ss, _ | x⟩
      · rw [hfill] at hleft
        exact hleft
      · rw [hfill] at hleft
        exact List.mem_append_left _ hleft
    · have hright := ihb (ha.le hi) h
      rcases hfill : fill ptr a (streamAt p len i) with ⟨ss, _ | x⟩
      · rw [hfill] at hends
        exact nomatch (hends _).mpr ⟨k, ha, rfl⟩
      · rw [hfill] at hends
        obtain rfl : x = streamAt p len k := Option.some.inj ((hends _).mpr ⟨k, ha, rfl⟩)
        exact List.mem_append_right _ hright
  | union arms ih =>
    intro i hi h
    rw [fill, unit_pass h.1]
    exact ih (wordAt p i) h.1 h.2

end Fill

theorem fill_rpcgen : Rpcgen memRoutine where
  within ptr t p len s hs := by
    rw [memRoutine, ← streamAt_zero] at hs
    exact fill_announces t (by omega) s hs
  nul ptr t p len f n h := by
    rw [memRoutine, ← streamAt_zero]
    exact mem_fill t (by omega) h

/-- A LOOKUP of a name of that many bytes in a directory whose handle has 4. -/
def lookupCall (hi lo : UInt8) : Ptr := ⟨4096, fun i => [0, 0, 0, 4, 1, 2, 3, 4, 0, 0, hi, lo].getD i.toNat 97⟩

/-- A name of 2047 bytes that the payload ends in front of. -/
theorem buffers_fit_cut : FitBuffers (callStores memRoutine Proc3.lookup.number (lookupCall 7 255) 12) := by
  refine (buffers_fit_iff fill_rpcgen _ _ _).mpr fun q hq f n hn hnamed => ?_
  rw [Proc3.ofNumber_number, Option.some_inj] at hq
  subst hq
  rcases hn with ⟨rfl, -⟩ | ⟨k, ⟨-, hk, -⟩, -, -, hn, -⟩
  · cases hnamed
  · have hword : (wordAt (lookupCall 7 255) 0).toNat = 4 := by decide
    rw [hword] at hk
    subst hk
    exact hn.le.trans (by decide)

/-- The NUL of a name of 2048 bytes is stored behind the buffer, be the bytes there or not. -/
theorem long_name_overruns : ¬ FitBuffers (callStores memRoutine Proc3.lookup.number (lookupCall 8 0) 2060) ∧
    ¬ FitBuffers (callStores memRoutine Proc3.lookup.number (lookupCall 8 0) 12) := by
  have hover : ∀ len : UInt32, 12 ≤ len.toNat → ¬ FitBuffers (callStores memRoutine Proc3.lookup.number (lookupCall 8 0) len) := by
    intro len hlen h
    have hends : (fh3Ty .what_dir).Ends (wordAt (lookupCall 8 0)) len.toNat 0 2 := ⟨by decide, by decide, by omega⟩
    have hname : (stringTy .what_name).Announces (wordAt (lookupCall 8 0)) len.toNat 2 .what_name 2048 1 :=
      ⟨rfl, rfl, by decide, by decide, by omega⟩
    have hmem : (⟨.what_name, some 1, 2049⟩ : Store) ∈ callStores memRoutine Proc3.lookup.number (lookupCall 8 0) len := by
      rw [callStores_eq (Proc3.ofNumber_number .lookup), memRoutine, ← streamAt_zero]
      exact mem_fill _ (by omega) (.inr ⟨2, hends, hname⟩)
    exact absurd (h.within _ hmem rfl) (by decide)
  exact ⟨hover 2060 (by decide), hover 12 (by decide)⟩

end Nfsdump.Decode
