/-
# The vnode interface

What the server sees of the file systems: the types of `vnode.h`, `vfs.h` and `nfs.h`, and the
vnode operations, which are a parameter.  The server runs over a state that holds the file systems,
the duplicate cache, the credentials of the process and a log of what was done to vnodes.
Sizes and offsets keep their 32 bits; the data of a request or a reply is a list of bytes.
-/
import SunOS.Nfs.Dupreq

namespace Nfs

/-- Error numbers.  No error is no value of this type. -/
inductive errno
  | EPERM | ENOENT | EIO | EACCES | EBUSY | EEXIST | EXDEV | ENOTDIR | EISDIR | EINVAL | EFBIG
  | ENOSPC | EROFS | EMLINK | ENOTEMPTY | ESTALE | EREMOTE
  /-- Any other error. -/
  | other (n : ℕ)
  deriving DecidableEq

/-- `enum vtype`. -/
inductive vtype
  | VNON | VREG | VDIR | VBLK | VCHR | VLNK | VSOCK | VBAD | VFIFO
  deriving DecidableEq

/-- `struct timeval`. -/
structure timeval where
  tv_sec : BitVec 32
  tv_usec : BitVec 32

/-- `struct vattr`.  A type of -1 is `none`. -/
structure vattr where
  va_type : Option vtype
  va_mode : BitVec 16
  va_uid : BitVec 16
  va_gid : BitVec 16
  va_fsid : BitVec 32
  va_nodeid : BitVec 32
  va_nlink : BitVec 16
  va_size : BitVec 32
  va_blocksize : BitVec 32
  va_atime : timeval
  va_mtime : timeval
  va_ctime : timeval
  va_rdev : BitVec 16
  va_blocks : BitVec 32

/-- `vattr_null(vap)`: all fields are -1. -/
def vattr_null : vattr where
  va_type := none
  va_mode := -1
  va_uid := -1
  va_gid := -1
  va_fsid := -1
  va_nodeid := -1
  va_nlink := -1
  va_size := -1
  va_blocksize := -1
  va_atime := ⟨-1, -1⟩
  va_mtime := ⟨-1, -1⟩
  va_ctime := ⟨-1, -1⟩
  va_rdev := -1
  va_blocks := -1

/-- `struct ucred`.  The groups are those before `NOGROUP`. -/
structure ucred where
  cr_uid : BitVec 16
  cr_gid : BitVec 16
  cr_groups : List (BitVec 32)

/-- `fsid_t`. -/
abbrev fsid_t := BitVec 32 × BitVec 32

/-- `struct vfs`: its id, and how it is exported. -/
structure vfs where
  vfs_fsid : fsid_t
  vfs_bsize : BitVec 32
  /-- `VFS_EXPORTED`: the file system is exported. -/
  vfs_exported : Bool
  /-- `EX_RDONLY`: exported read only. -/
  ex_rdonly : Bool
  vfs_exroot : BitVec 16

/-- `rdonly(vp)`, of the file system of `vp`. -/
def vfs.rdonly (f : vfs) : Bool := f.vfs_exported && f.ex_rdonly

/-- `struct svcfh`, an `fhandle_t`: `fh_len` is the length of the data. -/
structure fhandle_t where
  fh_fsid : fsid_t
  fh_data : List UInt8

/-- A name in a directory. -/
abbrev name := List UInt8

/-- `struct direct`. -/
structure direct where
  d_ino : BitVec 32
  d_reclen : BitVec 16
  d_name : name

/-- `struct statfs`: the fields that the server reads. -/
structure statfs where
  f_bsize : BitVec 32
  f_blocks : BitVec 32
  f_bfree : BitVec 32
  f_bavail : BitVec 32

/-- `VREAD`, `VWRITE` and `VEXEC`. -/
inductive vmode
  | VREAD | VWRITE | VEXEC

/-- **The vnode operations**, over file systems `σ` and vnodes `V`. -/
structure Vnodeops (σ V : Type) where
  getvfs : fsid_t → Option vfs
  v_vfsp : V → vfs
  v_type : V → σ → vtype
  /-- The vnode's operations are `nfs_vnodeops`. -/
  v_nfs : V → Bool
  /-- `VFS_VGET(vfsp, &vp, fidp)`; an error and a null pointer are alike. -/
  vget : vfs → List UInt8 → σ → Option V × σ
  statfs : vfs → σ → Except errno statfs × σ
  getattr : V → ucred → σ → Except errno vattr × σ
  setattr : V → vattr → ucred → σ → Except errno Unit × σ
  access : V → vmode → ucred → σ → Except errno Unit × σ
  lookup : V → name → ucred → σ → Except errno V × σ
  /-- `VOP_CREATE(dvp, nm, vap, NONEXCL, VWRITE, vpp, cred)`. -/
  create : V → name → vattr → ucred → σ → Except errno V × σ
  remove : V → name → ucred → σ → Except errno Unit × σ
  link : V → V → name → ucred → σ → Except errno Unit × σ
  rename : V → name → V → name → ucred → σ → Except errno Unit × σ
  /-- `VOP_MKDIR(dvp, nm, vap, vpp, cred)`, which may store in `vap`. -/
  mkdir : V → name → vattr → ucred → σ → Except errno (V × vattr) × σ
  rmdir : V → name → ucred → σ → Except errno Unit × σ
  symlink : V → name → vattr → name → ucred → σ → Except errno Unit × σ
  readlink : V → ucred → σ → Except errno (List UInt8) × σ
  /-- `VOP_RDWR` with `UIO_READ`, from an offset and at most so many bytes. -/
  read : V → BitVec 32 → BitVec 32 → ucred → σ → Except errno (List UInt8) × σ
  /-- `VOP_RDWR` with `UIO_WRITE`. -/
  write : V → BitVec 32 → List UInt8 → ucred → σ → Except errno Unit × σ
  bread : V → BitVec 32 → σ → Except errno (List UInt8) × σ
  /-- `VOP_READDIR`: the records read, and `uio_resid`. -/
  readdir : V → BitVec 32 → BitVec 32 → ucred → σ → Except errno (List direct × BitVec 32) × σ
  /-- `VOP_FID(vp, &fidp)`; an error and a null pointer are alike. -/
  fid : V → σ → Option (List UInt8) × σ

/-- The operations by name, with `read` and `write` for the two uses of `VOP_RDWR`. -/
inductive vop
  | getattr | setattr | access | lookup | create | remove | link | rename | mkdir | rmdir
  | symlink | readlink | read | write | bread | readdir | fid
  deriving DecidableEq

/-- The operations that modify a file system. -/
def vop.modifying : vop → Bool
  | setattr | create | remove | link | rename | mkdir | rmdir | symlink | write => true
  | getattr | access | lookup | readlink | read | bread | readdir | fid => false

/-- What is done to vnodes: a reference is obtained, released or left in the reply, and an
operation is called on a list of vnodes. -/
inductive event (V : Type)
  | obtained (v : V)
  | released (v : V)
  | replied (v : V)
  | called (o : vop) (vs : List V)

/-- What the server runs over. -/
structure server (σ V : Type) where
  fs : σ
  dups : DupCache
  u_cred : ucred
  log : List (event V)

/-- A piece of the server's code.  There is no result when it does not return. -/
abbrev Nfsd (σ V α : Type) := StateT (server σ V) Option α

namespace Nfsd

variable {σ V α : Type}

/-- Put an event in the log. -/
def note (e : event V) : Nfsd σ V Unit := fun s => some ((), { s with log := s.log ++ [e] })

/-- `VN_HOLD(vp)`. -/
def hold (v : V) : Nfsd σ V Unit := note (.obtained v)

/-- `VN_RELE(vp)`. -/
def rele (v : V) : Nfsd σ V Unit := note (.released v)

/-- Do something to the file systems. -/
def onfs (f : σ → α × σ) : Nfsd σ V α := fun s => some ((f s.fs).1, { s with fs := (f s.fs).2 })

/-- Call a vnode operation with the credentials `u.u_cred`. -/
def call (o : vop) (vs : List V) (f : ucred → σ → α × σ) : Nfsd σ V α := do
  note (.called o vs)
  let s ← get
  onfs (f s.u_cred)

/-- Call a vnode operation that gives a reference to a vnode when there is no error. -/
def callv (o : vop) (vs : List V) (f : ucred → σ → Except errno α × σ) (vp : α → V) :
    Nfsd σ V (Except errno α) := do
  let r ← call o vs f
  match r with
  | .error e => return .error e
  | .ok a => do hold (vp a); return .ok a

end Nfsd

end Nfs
