/-
# The NFS server

The service routines of `nfs_server.c` and `rfs_dispatch`, over any vnode operations.  A routine's
result is an error status or the part of the reply that goes with `NFS_OK`.  Buffers are not
allocated and freed here; nothing is kept of `svstat`.
-/
import SunOS.Nfs.Vnode

namespace Nfs

open Nfsd

/-! ## Arguments and results -/

/-- `struct nfssattr`. -/
structure nfssattr where
  sa_mode : BitVec 32
  sa_uid : BitVec 32
  sa_gid : BitVec 32
  sa_size : BitVec 32
  sa_atime : timeval
  sa_mtime : timeval

/-- `struct nfsfattr`.  `na_type` is the cast of a `vtype`. -/
structure nfsfattr where
  na_type : Option vtype
  na_mode : BitVec 32
  na_nlink : BitVec 32
  na_uid : BitVec 32
  na_gid : BitVec 32
  na_size : BitVec 32
  na_blocksize : BitVec 32
  na_rdev : BitVec 32
  na_blocks : BitVec 32
  na_fsid : BitVec 32
  na_nodeid : BitVec 32
  na_atime : timeval
  na_mtime : timeval
  na_ctime : timeval

/-- `struct nfsdiropargs`. -/
structure nfsdiropargs where
  da_fhandle : fhandle_t
  da_name : name

/-- `struct nfssaargs`. -/
structure nfssaargs where
  saa_fh : fhandle_t
  saa_sa : nfssattr

/-- `struct nfsreadargs`. -/
structure nfsreadargs where
  ra_fhandle : fhandle_t
  ra_offset : BitVec 32
  ra_count : BitVec 32

/-- `struct nfswriteargs`. -/
structure nfswriteargs where
  wa_fhandle : fhandle_t
  wa_offset : BitVec 32
  wa_data : List UInt8

/-- `struct nfscreatargs`. -/
structure nfscreatargs where
  ca_da : nfsdiropargs
  ca_sa : nfssattr

/-- `struct nfsrnmargs`. -/
structure nfsrnmargs where
  rna_from : nfsdiropargs
  rna_to : nfsdiropargs

/-- `struct nfslinkargs`. -/
structure nfslinkargs where
  la_from : fhandle_t
  la_to : nfsdiropargs

/-- `struct nfsslargs`. -/
structure nfsslargs where
  sla_from : nfsdiropargs
  sla_tnm : name
  sla_sa : nfssattr

/-- `struct nfsrddirargs`. -/
structure nfsrddirargs where
  rda_fh : fhandle_t
  rda_offset : BitVec 32
  rda_count : BitVec 32

/-- `struct nfsrrok`, with whether a buffer and its vnode are left in it. -/
structure nfsrrok where
  rrok_attr : nfsfattr
  rrok_data : List UInt8
  rrok_bp : Bool

/-- `struct nfsrddirres`. -/
structure nfsrddirres where
  rd_bufsize : BitVec 32
  rd_offset : BitVec 32
  rd_size : BitVec 32
  rd_eof : Bool
  rd_entries : List direct

/-- `struct nfsstatfsok`. -/
structure nfsstatfsok where
  fsok_tsize : BitVec 32
  fsok_bsize : BitVec 32
  fsok_blocks : BitVec 32
  fsok_bfree : BitVec 32
  fsok_bavail : BitVec 32

/-- `vattr_to_nattr(vap, na)`.  A fifo goes over the wire as a character special file with the
device number `NFS_FIFO_DEV`. -/
def vattr_to_nattr (va : vattr) : nfsfattr :=
  let na : nfsfattr :=
    { na_type := va.va_type
      na_mode := va.va_mode.setWidth 32
      na_nlink := va.va_nlink.signExtend 32
      na_uid := va.va_uid.signExtend 32
      na_gid := va.va_gid.signExtend 32
      na_size := va.va_size
      na_blocksize := va.va_blocksize
      na_rdev := va.va_rdev.signExtend 32
      na_blocks := va.va_blocks
      na_fsid := va.va_fsid
      na_nodeid := va.va_nodeid
      na_atime := va.va_atime
      na_mtime := va.va_mtime
      na_ctime := va.va_ctime }
  if va.va_type = some .VFIFO then
    { na with
      na_type := some .VCHR
      na_rdev := -1
      na_mode := na.na_mode &&& ~~~0xF000 ||| 0x2000 }
  else na

/-- `sattr_to_vattr(sa, vap)`. -/
def sattr_to_vattr (sa : nfssattr) : vattr :=
  { vattr_null with
    va_mode := sa.sa_mode.setWidth 16
    va_uid := sa.sa_uid.setWidth 16
    va_gid := sa.sa_gid.setWidth 16
    va_size := sa.sa_size
    va_atime := sa.sa_atime
    va_mtime := sa.sa_mtime }

/-- The attributes for `rfs_create`: special files come as a mode and a size. -/
def creat_vattr (sa : nfssattr) : vattr :=
  let va := sattr_to_vattr sa
  let fmt := va.va_mode &&& 0xF000
  if fmt = 0x2000 then
    let va := if va.va_size = -1 then { va with va_type := some .VFIFO } else
      { va with va_type := some .VCHR, va_rdev := va.va_size.setWidth 16 }
    { va with va_size := 0, va_mode := va.va_mode &&& ~~~0xF000 }
  else if fmt = 0x6000 then
    { va with
      va_type := some .VBLK
      va_rdev := va.va_size.setWidth 16
      va_size := 0
      va_mode := va.va_mode &&& ~~~0xF000 }
  else if fmt = 0xC000 then { va with va_type := some .VSOCK }
  else { va with va_type := some .VREG }

/-! ## Vnode operations -/

section

variable {σ V α β : Type} (ops : Vnodeops σ V)

/-- Go on if there is no error. -/
def ifok (r : Except errno α) (k : α → Nfsd σ V (Except errno β)) : Nfsd σ V (Except errno β) :=
  match r with
  | .error e => return .error e
  | .ok a => k a

/-- `rdonly(vp)`. -/
def rdonly (vp : V) : Bool := (ops.v_vfsp vp).rdonly

def VOP_GETATTR (vp : V) : Nfsd σ V (Except errno vattr) :=
  call .getattr [vp] (ops.getattr vp)

def VOP_SETATTR (vp : V) (va : vattr) : Nfsd σ V (Except errno Unit) :=
  call .setattr [vp] (ops.setattr vp va)

def VOP_ACCESS (vp : V) (m : vmode) : Nfsd σ V (Except errno Unit) :=
  call .access [vp] (ops.access vp m)

def VOP_LOOKUP (dvp : V) (nm : name) : Nfsd σ V (Except errno V) :=
  callv .lookup [dvp] (ops.lookup dvp nm) id

def VOP_CREATE (dvp : V) (nm : name) (va : vattr) : Nfsd σ V (Except errno V) :=
  callv .create [dvp] (ops.create dvp nm va) id

def VOP_REMOVE (dvp : V) (nm : name) : Nfsd σ V (Except errno Unit) :=
  call .remove [dvp] (ops.remove dvp nm)

def VOP_LINK (vp tdvp : V) (nm : name) : Nfsd σ V (Except errno Unit) :=
  call .link [vp, tdvp] (ops.link vp tdvp nm)

def VOP_RENAME (dvp : V) (nm : name) (tdvp : V) (tnm : name) : Nfsd σ V (Except errno Unit) :=
  call .rename [dvp, tdvp] (ops.rename dvp nm tdvp tnm)

def VOP_MKDIR (dvp : V) (nm : name) (va : vattr) : Nfsd σ V (Except errno (V × vattr)) :=
  callv .mkdir [dvp] (ops.mkdir dvp nm va) Prod.fst

def VOP_RMDIR (dvp : V) (nm : name) : Nfsd σ V (Except errno Unit) :=
  call .rmdir [dvp] (ops.rmdir dvp nm)

def VOP_SYMLINK (dvp : V) (nm : name) (va : vattr) (tnm : name) :
    Nfsd σ V (Except errno Unit) :=
  call .symlink [dvp] (ops.symlink dvp nm va tnm)

def VOP_READLINK (vp : V) : Nfsd σ V (Except errno (List UInt8)) :=
  call .readlink [vp] (ops.readlink vp)

/-- `VOP_RDWR(vp, &uio, UIO_READ, IO_SYNC, u.u_cred)`. -/
def VOP_READ (vp : V) (offset count : BitVec 32) : Nfsd σ V (Except errno (List UInt8)) :=
  call .read [vp] (ops.read vp offset count)

/-- `VOP_RDWR(vp, &uio, UIO_WRITE, IO_SYNC, u.u_cred)`. -/
def VOP_WRITE (vp : V) (offset : BitVec 32) (data : List UInt8) : Nfsd σ V (Except errno Unit) :=
  call .write [vp] (ops.write vp offset data)

def VOP_BREAD (vp : V) (bn : BitVec 32) : Nfsd σ V (Except errno (List UInt8)) :=
  call .bread [vp] fun _ => ops.bread vp bn

def VOP_READDIR (vp : V) (offset count : BitVec 32) :
    Nfsd σ V (Except errno (List direct × BitVec 32)) :=
  call .readdir [vp] (ops.readdir vp offset count)

/-- `svckudp_dup(req)`. -/
def svckudp_dup (req : transaction) : Nfsd σ V Bool :=
  fun s => (s.dups.dup req).map fun b => (b, s)

/-- `svckudp_dupsave(req)`. -/
def svckudp_dupsave (req : transaction) : Nfsd σ V Unit :=
  fun s => (s.dups.dupsave req).map fun d => ((), { s with dups := d })

/-- `nobody`. -/
def nobody : BitVec 16 := -2

/-- The uid of root over the net, on a file system that is exported. -/
def maproot (vfsp : vfs) (cr : ucred) : ucred :=
  if cr.cr_uid = nobody ∧ vfsp.vfs_exported then { cr with cr_uid := vfsp.vfs_exroot } else cr

/-- `fhtovp(fh)`. -/
def fhtovp (fh : fhandle_t) : Nfsd σ V (Option V) := do
  match ops.getvfs fh.fh_fsid with
  | none => return none
  | some vfsp =>
    match ← onfs (ops.vget vfsp fh.fh_data) with
    | none => return none
    | some vp =>
      hold vp
      modify fun s => { s with u_cred := maproot vfsp s.u_cred }
      return some vp

/-- `NFS_FHMAXDATA`. -/
def NFS_FHMAXDATA : ℕ := 22

/-- `makefh(fh, vp)`. -/
def makefh (vp : V) : Nfsd σ V (Except errno fhandle_t) := do
  if ops.v_nfs vp then return .error .EREMOTE
  match ← call .fid [vp] fun _ => ops.fid vp with
  | none => return .error .EREMOTE
  | some fid =>
    if fid.length > NFS_FHMAXDATA then return .error .EREMOTE
    return .ok ⟨(ops.v_vfsp vp).vfs_fsid, fid⟩

/-! ## Service routines -/

/-- Get the vnode of a handle, do something with it and release it. -/
def withvp (fh : fhandle_t) (k : V → Nfsd σ V (Except errno α)) : Nfsd σ V (Except errno α) := do
  match ← fhtovp ops fh with
  | none => return .error .ESTALE
  | some vp =>
    let r ← k vp
    rele vp
    return r

/-- Get the vnode of a handle and do something that changes its file system, unless that is
exported read-only. -/
def withrw (fh : fhandle_t) (k : V → Nfsd σ V (Except errno α)) : Nfsd σ V (Except errno α) :=
  withvp ops fh fun vp => if rdonly ops vp then return .error .EROFS else k vp

def rfs_getattr (fh : fhandle_t) : Nfsd σ V (Except errno nfsfattr) :=
  withvp ops fh fun vp => do return (← VOP_GETATTR ops vp).map vattr_to_nattr

def rfs_setattr (args : nfssaargs) : Nfsd σ V (Except errno nfsfattr) :=
  withrw ops args.saa_fh fun vp => do
    ifok (← VOP_SETATTR ops vp (sattr_to_vattr args.saa_sa)) fun _ => do
      return (← VOP_GETATTR ops vp).map vattr_to_nattr

/-- The handle and the attributes of a vnode, which is released. -/
def diropres (vp : V) : Nfsd σ V (Except errno (fhandle_t × nfsfattr)) := do
  let dr ← ifok (← VOP_GETATTR ops vp) fun va => do
    return (← makefh ops vp).map fun fh => (fh, vattr_to_nattr va)
  rele vp
  return dr

def rfs_lookup (da : nfsdiropargs) : Nfsd σ V (Except errno (fhandle_t × nfsfattr)) :=
  withvp ops da.da_fhandle fun dvp => do
    ifok (← VOP_LOOKUP ops dvp da.da_name) fun vp => diropres ops vp

def rfs_readlink (fh : fhandle_t) : Nfsd σ V (Except errno (List UInt8)) :=
  withvp ops fh fun vp => VOP_READLINK ops vp

/-- `rfs_read`, by way of a `uio`. -/
def readuio (vp : V) (va : vattr) (ra : nfsreadargs) : Nfsd σ V (Except errno nfsrrok) := do
  return (← VOP_READ ops vp ra.ra_offset ra.ra_count).map fun data =>
    ⟨vattr_to_nattr va, data, false⟩

/-- `rfs_read`, once access is granted: "with bread, which would save the copy through the uio". -/
def readdata (vp : V) (va : vattr) (ra : nfsreadargs) : Nfsd σ V (Except errno nfsrrok) := do
  let fsbsize := (ops.v_vfsp vp).vfs_bsize
  let offset := ra.ra_offset % fsbsize
  if offset + ra.ra_count ≤ fsbsize then
    if ra.ra_offset ≥ va.va_size then return .ok ⟨vattr_to_nattr va, [], false⟩
    match ← VOP_BREAD ops vp (ra.ra_offset / fsbsize) with
    | .ok bp =>
      let count := min (va.va_size - ra.ra_offset).toNat ra.ra_count.toNat
      hold vp
      note (.replied vp)
      return .ok ⟨vattr_to_nattr va, (bp.drop offset.toNat).take count, true⟩
    | .error _ => readuio ops vp va ra
  else readuio ops vp va ra

/-- The attributes of a regular file. -/
def regattr (vp : V) : Nfsd σ V (Except errno vattr) := do
  let s ← get
  if ops.v_type vp s.fs ≠ .VREG then return .error .EISDIR else VOP_GETATTR ops vp

def rfs_read (ra : nfsreadargs) : Nfsd σ V (Except errno nfsrrok) :=
  withvp ops ra.ra_fhandle fun vp => do
    ifok (← regattr ops vp) fun va => do
      let s ← get
      let error ← if s.u_cred.cr_uid ≠ va.va_uid then do
          match ← VOP_ACCESS ops vp .VREAD with
          | .ok _ => pure (.ok ())
          | .error _ => VOP_ACCESS ops vp .VEXEC
        else pure (.ok ())
      ifok error fun _ => readdata ops vp va ra

/-- `rfs_write`.  The `error = EROFS` under `rdonly(vp)` has no `else`: the next test stores over
it in both its branches, so that it is as if it were not there. -/
def rfs_write (wa : nfswriteargs) : Nfsd σ V (Except errno nfsfattr) :=
  withvp ops wa.wa_fhandle fun vp => do
    ifok (← regattr ops vp) fun va => do
      let s ← get
      let error ← if s.u_cred.cr_uid ≠ va.va_uid then VOP_ACCESS ops vp .VWRITE
        else pure (.ok ())
      ifok error fun _ => do
        ifok (← VOP_WRITE ops vp wa.wa_offset wa.wa_data) fun _ => do
          return (← VOP_GETATTR ops vp).map vattr_to_nattr

/-- A request that went well is saved. -/
def savedup (req : transaction) (r : Except errno α) : Nfsd σ V (Except errno α) := do
  match r with
  | .ok _ => svckudp_dupsave req
  | .error _ => pure ()
  return r

/-- `VOP_CREATE`, or a lookup for a duplicate of a request that may not open what it made. -/
def createvp (dvp : V) (args : nfscreatargs) (req : transaction) : Nfsd σ V (Except errno V) := do
  match ← VOP_CREATE ops dvp args.ca_da.da_name (creat_vattr args.ca_sa) with
  | .error .EACCES =>
    if ← svckudp_dup req then VOP_LOOKUP ops dvp args.ca_da.da_name
    else return .error .EACCES
  | r => return r

def rfs_create (args : nfscreatargs) (req : transaction) :
    Nfsd σ V (Except errno (fhandle_t × nfsfattr)) := do
  let dr ← withrw ops args.ca_da.da_fhandle fun dvp => do
    ifok (← createvp ops dvp args req) fun vp => diropres ops vp
  savedup req dr

/-- An error `e` is no error in a duplicate request. -/
def unlessdup (e : errno) (req : transaction) (r : Except errno Unit) :
    Nfsd σ V (Except errno Unit) :=
  match r with
  | .ok () => return .ok ()
  | .error e' => do
    if e' = e then
      if ← svckudp_dup req then return .ok () else return .error e'
    else return .error e'

def rfs_remove (da : nfsdiropargs) (req : transaction) : Nfsd σ V (Except errno Unit) := do
  let status ← withrw ops da.da_fhandle fun vp => do
    unlessdup .ENOENT req (← VOP_REMOVE ops vp da.da_name)
  savedup req status

def rfs_rename (args : nfsrnmargs) : Nfsd σ V (Except errno Unit) :=
  withrw ops args.rna_from.da_fhandle fun fromvp =>
    withrw ops args.rna_to.da_fhandle fun tovp =>
      VOP_RENAME ops fromvp args.rna_from.da_name tovp args.rna_to.da_name

/-- `rfs_link`.  Only the directory is tested by `rdonly`. -/
def rfs_link (args : nfslinkargs) (req : transaction) : Nfsd σ V (Except errno Unit) := do
  match ← fhtovp ops args.la_from with
  | none => return .error .ESTALE
  | some fromvp =>
    match ← fhtovp ops args.la_to.da_fhandle with
    | none =>
      rele fromvp
      return .error .ESTALE
    | some tovp =>
      let status ← if rdonly ops tovp then pure (.error .EROFS) else do
        unlessdup .EEXIST req (← VOP_LINK ops fromvp tovp args.la_to.da_name)
      rele fromvp
      rele tovp
      savedup req status

def rfs_symlink (args : nfsslargs) : Nfsd σ V (Except errno Unit) :=
  withrw ops args.sla_from.da_fhandle fun vp =>
    VOP_SYMLINK ops vp args.sla_from.da_name
      { sattr_to_vattr args.sla_sa with va_type := some .VLNK } args.sla_tnm

/-- `VOP_MKDIR`, or a lookup for a duplicate of a request.  The attributes are then those of `vp`,
the parent; when they cannot be got the vnode that was looked up is forgotten. -/
def mkdirvp (vp : V) (args : nfscreatargs) (req : transaction) :
    Nfsd σ V (Except errno (V × vattr)) := do
  match ← VOP_MKDIR ops vp args.ca_da.da_name
      { sattr_to_vattr args.ca_sa with va_type := some .VDIR } with
  | .error .EEXIST =>
    if ← svckudp_dup req then
      ifok (← VOP_LOOKUP ops vp args.ca_da.da_name) fun dvp => do
        return (← VOP_GETATTR ops vp).map fun va => (dvp, va)
    else return .error .EEXIST
  | r => return r

def rfs_mkdir (args : nfscreatargs) (req : transaction) :
    Nfsd σ V (Except errno (fhandle_t × nfsfattr)) := do
  let dr ← withrw ops args.ca_da.da_fhandle fun vp => do
    ifok (← mkdirvp ops vp args req) fun (dvp, va) => do
      let fh ← makefh ops dvp
      rele dvp
      return fh.map fun fh => (fh, vattr_to_nattr va)
  savedup req dr

def rfs_rmdir (da : nfsdiropargs) (req : transaction) : Nfsd σ V (Except errno Unit) := do
  let status ← withrw ops da.da_fhandle fun vp => do
    unlessdup .ENOENT req (← VOP_RMDIR ops vp da.da_name)
  savedup req status

/-- Skip to a valid entry at or after the offset that the client asked for: the offset, the number
of bytes skipped and the entries left. -/
def skipentries (rda_offset : BitVec 32) :
    BitVec 32 → BitVec 32 → List direct → BitVec 32 × BitVec 32 × List direct
  | offset, skipped, [] => (offset, skipped, [])
  | offset, skipped, dp :: l =>
    let reclen := dp.d_reclen.setWidth 32
    if offset + reclen ≤ rda_offset ∨ dp.d_ino = 0 then
      skipentries rda_offset (offset + reclen) (skipped + reclen) l
    else (offset, skipped, dp :: l)

/-- `rfs_readdir` from `nxtblk` on. -/
def nxtblk (vp : V) (count : BitVec 32) : ℕ → BitVec 32 → Nfsd σ V (Except errno nfsrddirres)
  | 0, _ => fun _ => none
  | fuel + 1, rda_offset => do
    let start := rda_offset &&& ~~~511
    ifok (← VOP_READDIR ops vp start count) fun (entries, resid) => do
      let size := if resid ≠ 0 then count - resid else count
      let eof : Bool := resid ≠ 0
      let (offset, skipped, entries) := skipentries rda_offset start 0 entries
      if skipped ≠ 0 ∧ size - skipped = 0 ∧ !eof then nxtblk vp count fuel offset
      else return .ok ⟨count - skipped, offset, size - skipped, eof, entries⟩

def rfs_readdir (fuel : ℕ) (rda : nfsrddirargs) : Nfsd σ V (Except errno nfsrddirres) :=
  withvp ops rda.rda_fh fun vp => do
    ifok (← VOP_ACCESS ops vp .VEXEC) fun _ => nxtblk ops vp rda.rda_count fuel rda.rda_offset

/-- `rfs_statfs`, where `tsize` is what `nfstsize()` gives. -/
def rfs_statfs (tsize : BitVec 32) (fh : fhandle_t) : Nfsd σ V (Except errno nfsstatfsok) :=
  withvp ops fh fun vp => do
    return (← onfs (ops.statfs (ops.v_vfsp vp))).map fun sb =>
      ⟨tsize, sb.f_bsize, sb.f_blocks, sb.f_bfree, sb.f_bavail⟩

end

/-! ## rfs_dispatch -/

/-- A procedure with its arguments. -/
inductive rfscall
  | NULL
  | GETATTR (fh : fhandle_t)
  | SETATTR (args : nfssaargs)
  | ROOT
  | LOOKUP (args : nfsdiropargs)
  | READLINK (fh : fhandle_t)
  | READ (args : nfsreadargs)
  | WRITECACHE
  | WRITE (args : nfswriteargs)
  | CREATE (args : nfscreatargs)
  | REMOVE (args : nfsdiropargs)
  | RENAME (args : nfsrnmargs)
  | LINK (args : nfslinkargs)
  | SYMLINK (args : nfsslargs)
  | MKDIR (args : nfscreatargs)
  | RMDIR (args : nfsdiropargs)
  | READDIR (args : nfsrddirargs)
  | STATFS (fh : fhandle_t)

/-- `RFS_NPROC`. -/
def RFS_NPROC : ℕ := 18

/-- The index in `rfsdisptab`. -/
def rfscall.which : rfscall → ℕ
  | NULL => 0
  | GETATTR _ => 1
  | SETATTR _ => 2
  | ROOT => 3
  | LOOKUP _ => 4
  | READLINK _ => 5
  | READ _ => 6
  | WRITECACHE => 7
  | WRITE _ => 8
  | CREATE _ => 9
  | REMOVE _ => 10
  | RENAME _ => 11
  | LINK _ => 12
  | SYMLINK _ => 13
  | MKDIR _ => 14
  | RMDIR _ => 15
  | READDIR _ => 16
  | STATFS _ => 17

/-- A result, as the `dis_xdrres` of the procedure puts it. -/
inductive rfsres
  | void
  | attrstat (r : Except errno nfsfattr)
  | diropres (r : Except errno (fhandle_t × nfsfattr))
  | rdlnres (r : Except errno (List UInt8))
  | rdresult (r : Except errno nfsrrok)
  | status (r : Except errno Unit)
  | rddirres (r : Except errno nfsrddirres)
  | statfs (r : Except errno nfsstatfsok)

/-- `struct svc_req`: `args` is what the argument bytes decode to as the arguments of the procedure
`which`, if they do. -/
structure svc_req where
  rq_xid : BitVec 32
  rq_prog : BitVec 32
  rq_vers : BitVec 32
  rq_proc : BitVec 32
  xp_raddr : sockaddr_in
  /-- The credentials are `AUTH_UNIX`. -/
  auth_unix : Bool
  aup_uid : BitVec 32
  aup_gid : BitVec 32
  aup_gids : List (BitVec 32)
  args : Option rfscall
  args_which : ∀ c ∈ args, rq_proc.toInt = c.which

/-- What the duplicate cache knows the request by. -/
def svc_req.transaction (req : svc_req) : transaction :=
  ⟨req.rq_xid, req.xp_raddr, req.rq_proc, req.rq_vers, req.rq_prog⟩

/-- The parameters of the server: `nfs_portmon`, what `nfstsize()` gives, and how many blocks
`rfs_readdir` may skip before it is taken not to return. -/
structure nfsenv where
  nfs_portmon : Bool
  tsize : BitVec 32
  fuel : ℕ

/-- `VERSIONMIN` and `VERSIONMAX`. -/
def NFS_VERSION : BitVec 32 := 2

/-- `IPPORT_RESERVED`. -/
def IPPORT_RESERVED : ℕ := 1024

/-- The credentials of a request: root over the net becomes `nobody`. -/
def svc_req.cred (req : svc_req) : ucred where
  cr_uid := if req.aup_uid = 0 then nobody else req.aup_uid.setWidth 16
  cr_gid := req.aup_gid.setWidth 16
  cr_groups := req.aup_gids

section

variable {σ V : Type} (ops : Vnodeops σ V)

/-- `(*disp->dis_proc)(args, res, req)`, by `rfsdisptab`. -/
def dis_proc (env : nfsenv) (req : transaction) : rfscall → Nfsd σ V rfsres
  | .NULL => return .void
  | .GETATTR fh => return .attrstat (← rfs_getattr ops fh)
  | .SETATTR args => return .attrstat (← rfs_setattr ops args)
  | .ROOT => return .void
  | .LOOKUP da => return .diropres (← rfs_lookup ops da)
  | .READLINK fh => return .rdlnres (← rfs_readlink ops fh)
  | .READ ra => return .rdresult (← rfs_read ops ra)
  | .WRITECACHE => return .void
  | .WRITE wa => return .attrstat (← rfs_write ops wa)
  | .CREATE args => return .diropres (← rfs_create ops args req)
  | .REMOVE da => return .status (← rfs_remove ops da req)
  | .RENAME args => return .status (← rfs_rename ops args)
  | .LINK args => return .status (← rfs_link ops args req)
  | .SYMLINK args => return .status (← rfs_symlink ops args)
  | .MKDIR args => return .diropres (← rfs_mkdir ops args req)
  | .RMDIR da => return .status (← rfs_rmdir ops da req)
  | .READDIR rda => return .rddirres (← rfs_readdir ops env.fuel rda)
  | .STATFS fh => return .statfs (← rfs_statfs ops env.tsize fh)

/-- The call that `rfs_dispatch` makes, if the request passes its tests. -/
def svc_req.accepted (env : nfsenv) (req : svc_req) : Option rfscall :=
  if req.rq_proc.toInt < 0 ∨ req.rq_proc.toInt ≥ RFS_NPROC then none
  else if req.rq_vers ≠ NFS_VERSION then none
  else
    match req.args with
    | none => none
    | some c =>
      if !req.auth_unix ∧ c.which ≠ 0 then none
      else if env.nfs_portmon ∧ req.xp_raddr.sin_port.toNat ≥ IPPORT_RESERVED then none
      else some c

/-- `rfs_dispatch(req, xprt)`: the results, or none for an error of the transport. -/
def rfs_dispatch (env : nfsenv) (req : svc_req) : Nfsd σ V (Option rfsres) := do
  match req.accepted env with
  | none => return none
  | some c =>
    let tmpcr := (← get).u_cred
    if c.which ≠ 0 then modify fun s => { s with u_cred := req.cred }
    let res ← dis_proc ops env req.transaction c
    modify fun s => { s with u_cred := tmpcr }
    return some res

end

end Nfs
