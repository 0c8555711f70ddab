/-
# Files in flight (`sys/uipc_usrreq.c`)

A message to a socket of the UNIX domain can have files in it.  A file that is only in such
messages, and only in messages to sockets that are themselves only there, is garbage;
`unp_gc` marks what can be reached and flushes the other sockets.

A socket belongs to one file.  The files of a message are places in the file table; `closef`
gets a `fuel` that bounds how deep it calls itself.
-/
import Mathlib.Data.Int.Order.Basic
import Mathlib.Algebra.Ring.Nat
import Mathlib.Logic.Function.Basic

namespace Unp

open Function (update)

/-- What keeps a call from returning. -/
inductive stop where
  | panic (text : String)
  | sleep (f : ℕ)
  | endless
  deriving DecidableEq

/-- The protocols of `unixsw`, and those of other domains. -/
inductive protosw where
  | stream
  | dgram
  | other
  deriving DecidableEq

/-- `pr_family == AF_UNIX` -/
def protosw.unix : protosw → Bool
  | stream => true
  | dgram => true
  | other => false

/-- `pr_flags & PR_ADDR`, in the UNIX domain -/
def protosw.PR_ADDR (pr : protosw) : Bool := pr = dgram

/-- `pr_flags & PR_RIGHTS` -/
def protosw.PR_RIGHTS (pr : protosw) : Bool := pr = dgram

/-- An mbuf of a receive buffer, with the files in it when it has rights. -/
structure mbuf where
  m_act : Bool
  fps : List ℕ
  deriving DecidableEq

/-- A socket; `locked` is `SB_LOCK` of its receive buffer. -/
structure socket where
  so_proto : protosw
  cantrcvmore : Bool
  locked : Bool
  sb_mb : List mbuf
  deriving DecidableEq

inductive ftype where
  | DTYPE_VNODE
  | DTYPE_SOCKET
  deriving DecidableEq

/-- `struct file`; `f_data` is the socket, if it has one. -/
structure file where
  f_count : ℤ
  f_msgcount : ℤ
  f_type : ftype
  f_data : Option socket
  FMARK : Bool
  FDEFER : Bool
  deriving DecidableEq

abbrev table := ℕ → file

/-! ## unp_scan -/

/-- Which mbuf of a message comes next. -/
inductive part where
  | address
  | rights
  | data

/-- The files that `unp_scan` comes upon, in their order; `none` is its panic. -/
def unp_scan : part → List mbuf → Option (List ℕ)
  | .address, [] => some []
  | .address, _ :: ms => unp_scan .rights ms
  | .rights, [] => none
  | .rights, m :: ms => (unp_scan .data ms).map (m.fps ++ ·)
  | .data, [] => none
  | .data, m :: ms => if m.m_act then unp_scan .address ms else unp_scan .data ms

/-- The files in a buffer. -/
def scan (ms : List mbuf) : Except stop (List ℕ) :=
  match unp_scan .address ms with
  | some fps => .ok fps
  | none => .error (.panic "unp_gcscan")

/-! ## Closing -/

/-- `unp_discard(fp)` -/
def unp_discard (closef : table → ℕ → Except stop table) (file : table) (fp : ℕ) :
    Except stop table :=
  closef (update file fp { file fp with f_msgcount := (file fp).f_msgcount - 1 }) fp

/-- `sorflush(so)` for the socket of `fp`. -/
def sorflush (closef : table → ℕ → Except stop table) (file : table) (fp : ℕ) :
    Except stop table :=
  match (file fp).f_data with
  | none => .ok file
  | some so =>
      if so.locked then .error (.sleep fp)
      else
        let file := update file fp
          { file fp with f_data := some { so with cantrcvmore := true, sb_mb := [] } }
        if so.so_proto.unix ∧ so.so_proto.PR_RIGHTS then
          match scan so.sb_mb with
          | .ok fps => fps.foldlM (unp_discard closef) file
          | .error e => .error e
        else .ok file

/-- `fo_close(fp)`: for a socket `soo_close`, with which it is gone. -/
def fo_close (closef : table → ℕ → Except stop table) (file : table) (fp : ℕ) :
    Except stop table :=
  match (file fp).f_type with
  | .DTYPE_VNODE => .ok file
  | .DTYPE_SOCKET => do
      let file ← sorflush closef file fp
      .ok (update file fp { file fp with f_data := none })

/-- `closef(fp)`; `gc` is what `unp_gc` does. -/
def closef (gc : table → Except stop table) : ℕ → table → ℕ → Except stop table
  | 0, _, _ => .error .endless
  | fuel + 1, file, fp =>
      if (file fp).f_count > 1 then
        let file := update file fp { file fp with f_count := (file fp).f_count - 1 }
        if (file fp).f_count = (file fp).f_msgcount then gc file else .ok file
      else if (file fp).f_count < 1 then .error (.panic "closef: count < 1")
      else do
        let file ← fo_close (closef gc fuel) file fp
        .ok (update file fp { file fp with f_count := 0 })

/-! ## unp_gc -/

/-- The file table and `unp_defer`. -/
structure marking where
  file : table
  unp_defer : ℤ

/-- `unp_mark(fp)` -/
def unp_mark (s : marking) (fp : ℕ) : marking :=
  if (s.file fp).FMARK then s
  else
    { file := update s.file fp { s.file fp with FMARK := true, FDEFER := true }
      unp_defer := s.unp_defer + 1 }

/-- The files in the receive buffer of `fp` are marked. -/
def markrights (s : marking) (fp : ℕ) : Except stop marking :=
  match (s.file fp).f_type, (s.file fp).f_data with
  | .DTYPE_SOCKET, some so =>
      if so.so_proto.unix = false ∨ so.so_proto.PR_ADDR = false then .ok s
      else if so.locked then .error (.sleep fp)
      else
        match scan so.sb_mb with
        | .ok fps => .ok (fps.foldl unp_mark s)
        | .error e => .error e
  | _, _ => .ok s

/-- A round of the inner loop of the mark phase. -/
def markfile (s : marking) (fp : ℕ) : Except stop marking :=
  let f := s.file fp
  if f.f_count = 0 then .ok s
  else if f.FDEFER then
    markrights
      { file := update s.file fp { f with FDEFER := false }
        unp_defer := s.unp_defer - 1 } fp
  else if f.FMARK then .ok s
  else if f.f_count = f.f_msgcount then .ok s
  else markrights { s with file := update s.file fp { f with FMARK := true } } fp

/-- The mark phase: the table is gone through until nothing is deferred. -/
def markloop (nfile : ℕ) : ℕ → marking → Except stop marking
  | 0, _ => .error .endless
  | fuel + 1, s => do
      let s ← (List.range nfile).foldlM markfile s
      if s.unp_defer ≠ 0 then markloop nfile fuel s else .ok s

/-- A round of the final scan, where `soshutdown` flushes a socket. -/
def sweepfile (closef : table → ℕ → Except stop table) (file : table) (fp : ℕ) :
    Except stop table :=
  let f := file fp
  if f.f_count = 0 then .ok file
  else if f.f_count = f.f_msgcount ∧ f.FMARK = false then
    if f.f_type ≠ .DTYPE_SOCKET then .error (.panic "unp_gc")
    else sorflush closef file fp
  else .ok file

/-- How many references to files there are in all buffers. -/
def inflight (nfile : ℕ) (file : table) : ℕ :=
  ((List.range nfile).map fun i =>
    match (file i).f_data with
    | none => 0
    | some so => (so.sb_mb.map fun m => m.fps.length).sum).sum

/-- `unp_gc()`, which does nothing while it is at work. -/
def unp_gc (nfile : ℕ) (unp_gcing : Bool) (file : table) : Except stop table :=
  if unp_gcing then .ok file
  else do
    let cleared : table := fun i => { file i with FMARK := false, FDEFER := false }
    let s ← markloop nfile (nfile + 1) ⟨cleared, 0⟩
    (List.range nfile).foldlM (sweepfile (closef .ok (inflight nfile file + 1))) s.file

end Unp
