/-
# Access to IPC objects

The permission record that semaphore sets, message queues and shared memory
segments begin with, and the routines of `ipc_subr.c` over a table of them:
`ipcaccess` checks a user against a record, `ipcget` finds or allocates the entry
of a key.
-/
import Mathlib.Data.Nat.Bitwise
import Mathlib.Data.List.Basic

namespace Ipc

/-- The errors the IPC calls leave in `u.u_error`. -/
inductive Errno
  | EPERM | ENOENT | EINTR | E2BIG | EAGAIN | EACCES | EFAULT | EEXIST | EINVAL | EFBIG
  | ENOSPC | ERANGE | ENOMSG | EIDRM
  deriving DecidableEq, Repr

/-- Common access structure (`struct ipc_perm`). -/
structure ipc_perm where
  uid : ℕ
  gid : ℕ
  cuid : ℕ
  cgid : ℕ
  mode : ℕ
  seq : ℕ
  key : ℤ
  deriving DecidableEq, Repr

/-- Entry currently allocated. -/
def IPC_ALLOC : ℕ := 0o100000

/-- Create entry if key doesn't exist. -/
def IPC_CREAT : ℕ := 0o001000

/-- Fail if key exists. -/
def IPC_EXCL : ℕ := 0o002000

/-- Error if request must wait. -/
def IPC_NOWAIT : ℕ := 0o004000

/-- Private key. -/
def IPC_PRIVATE : ℤ := 0

/-- What the calls read of the user structure. -/
structure user where
  u_uid : ℕ
  u_gid : ℕ
  u_groups : List ℕ
  p_pid : ℤ
  deriving DecidableEq, Repr

/-- Is the user a member of group `gid`? -/
def groupmember (u : user) (gid : ℕ) : Bool := u.u_gid = gid || gid ∈ u.u_groups

/-- Is the current user the super user? -/
def suser (u : user) : Option Errno := if u.u_uid = 0 then none else some .EPERM

/-- The owner, the creator and the super user may change and remove an object. -/
def ipcowner (u : user) (p : ipc_perm) : Option Errno :=
  if u.u_uid ≠ p.uid ∧ u.u_uid ≠ p.cuid then suser u else none

/-- Check access permission: `mode` holds the owner's bit of the request. -/
def ipcaccess (u : user) (p : ipc_perm) (mode : ℕ) : Option Errno :=
  if u.u_uid = 0 then none
  else
    let mode :=
      if u.u_uid ≠ p.uid ∧ u.u_uid ≠ p.cuid then
        if !groupmember u p.gid && !groupmember u p.cgid then mode >>> 3 >>> 3 else mode >>> 3
      else mode
    if mode &&& p.mode ≠ 0 then none else some .EACCES

/-- Is the entry allocated? -/
def ipc_perm.alloc (p : ipc_perm) : Bool := p.mode &&& IPC_ALLOC ≠ 0

/-- Get the entry of `key` in a table of `cnt` entries, or allocate one: the slot, and for
a new entry its permission record (`*status = 1`). -/
def ipcget (u : user) (key : ℤ) (flag : ℕ) (perm : ℕ → ipc_perm) (cnt : ℕ) :
    Except Errno (ℕ × Option ipc_perm) :=
  let init (i : ℕ) : ℕ × Option ipc_perm :=
    (i, some { perm i with
      mode := IPC_ALLOC ||| (flag &&& 0o777)
      key := key
      cuid := u.u_uid
      uid := u.u_uid
      cgid := u.u_gid
      gid := u.u_gid })
  let free := (List.range cnt).find? fun i => !(perm i).alloc
  if key = IPC_PRIVATE then
    match free with
    | some i => .ok (init i)
    | none => .error .ENOSPC
  else
    match (List.range cnt).find? fun i => (perm i).alloc && (perm i).key = key with
    | some i =>
        if flag &&& (IPC_CREAT ||| IPC_EXCL) = IPC_CREAT ||| IPC_EXCL then .error .EEXIST
        -- a requested bit that the entry does not grant
        else if (flag &&& 0o777) &&& (perm i).mode ≠ flag &&& 0o777 then .error .EACCES
        else .ok (i, none)
    | none =>
        if flag &&& IPC_CREAT = 0 then .error .ENOENT
        else
          match free with
          | some i => .ok (init i)
          | none => .error .ENOSPC

end Ipc
