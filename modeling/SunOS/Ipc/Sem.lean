/-
# Semaphores

The System V semaphore calls of `ipc_sem.c`.  A set is a run of the semaphore pool; a
process has at most one undo structure, a sorted table of the adjustments its exit will
make.  `semop` tries the operations of its array one by one and takes them back when one
has to wait or fails.  A process is switched out in `sleep` only, so everything between
two sleeps is one function from states to states.
-/
import SunOS.Ipc.Ipc
import SunOS.Lib.Word

namespace IpcSem

open Function (update)
open Ipc

/-! ## Data -/

/-- Set up adjust on exit entry. -/
def SEM_UNDO : ℕ := 0o10000

/-- Alter permission. -/
def SEM_A : ℕ := 0o200

/-- Read permission. -/
def SEM_R : ℕ := 0o400

/-- Semaphore maximum value. -/
def SEMVMX : ℕ := 32767

/-- Adjust on exit max value. -/
def SEMAEM : ℕ := 16384

/-- The configuration (`seminfo`), and the size of the process table. -/
structure seminfo where
  semmni : ℕ
  semmsl : ℕ
  semopm : ℕ
  semume : ℕ
  semvmx : ℕ
  semaem : ℕ
  nproc : ℕ
  semvmx_le : semvmx ≤ SEMVMX
  semaem_le : semaem ≤ SEMAEM
  /-- Process ids are shorts, and no two processes share one. -/
  nproc_le : nproc ≤ 32767

/-- A semaphore (`struct sem`). -/
structure sem where
  semval : ℕ
  sempid : ℤ
  semncnt : ℕ
  semzcnt : ℕ
  deriving DecidableEq, Repr

/-- A semaphore set (`struct semid_ds`); `sem_base` is an index into the pool. -/
structure semid_ds where
  sem_perm : ipc_perm
  sem_base : ℕ
  sem_nsems : ℕ
  deriving DecidableEq, Repr

/-- An operation (`struct sembuf`). -/
structure sembuf where
  sem_num : ℤ
  sem_op : ℤ
  sem_flg : ℕ
  op_short : -32768 ≤ sem_op ∧ sem_op ≤ 32767
  deriving DecidableEq, Repr

/-- An adjust-on-exit entry (`struct undo`). -/
structure undo where
  un_aoe : ℤ
  un_num : ℤ
  un_id : ℤ
  deriving DecidableEq, Repr

/-- The two counters of a semaphore, whose addresses are sleep channels. -/
inductive Chan
  | semncnt
  | semzcnt
  deriving DecidableEq, Repr

/-- The locals of a `semop` that is inside `sleep`: operation `i` of `uops` made it wait,
on counter `chan` of semaphore `semp`. -/
structure sleeper where
  p_pid : ℤ
  semid : ℤ
  uops : List sembuf
  i : ℕ
  semp : ℕ
  chan : Chan
  deriving DecidableEq, Repr

/-- Where a process stands: outside these calls; asleep in `semop`; or taken off the sleep
queue and not yet running again, `sig` if a signal is there for it. -/
inductive pstate
  | user
  | asleep (c : sleeper)
  | woken (c : sleeper) (sig : Bool)
  deriving DecidableEq, Repr

/-- The kernel data of `ipc_sem.c`.  `semu up` are the entries in use of undo structure
`up`; `semunp` and `semfup` are the lists of active and of free structures. -/
structure State where
  sema : ℕ → semid_ds
  sem : ℕ → sem
  semu : ℕ → List undo
  semunp : List ℕ
  semfup : List ℕ
  sem_undo : ℕ → Option ℕ
  proc : ℕ → pstate

/-- The value an unsigned short holds once `x` is stored in it. -/
def ushort (x : ℤ) : ℕ := (x % 65536).toNat

namespace State

/-- The semaphores, with the value of `x` replaced. -/
def setval (s : State) (x : ℕ) (v : ℤ) : State :=
  { s with sem := update s.sem x { s.sem x with semval := ushort v } }

def setpid (s : State) (x : ℕ) (pid : ℤ) : State :=
  { s with sem := update s.sem x { s.sem x with sempid := pid } }

/-- The number of waiting processes, on either counter. -/
def count (s : State) (x : ℕ) : Chan → ℕ
  | .semncnt => (s.sem x).semncnt
  | .semzcnt => (s.sem x).semzcnt

def setcount (s : State) (x : ℕ) (n : ℤ) : Chan → State
  | .semncnt => { s with sem := update s.sem x { s.sem x with semncnt := ushort n } }
  | .semzcnt => { s with sem := update s.sem x { s.sem x with semzcnt := ushort n } }

def setproc (s : State) (p : ℕ) (st : pstate) : State :=
  { s with proc := update s.proc p st }

/-- Wake up all processes sleeping on counter `ch` of semaphore `x`. -/
def wakeup (s : State) (x : ℕ) (ch : Chan) : State :=
  { s with proc := fun q =>
      match s.proc q with
      | .asleep c => if c.semp = x ∧ c.chan = ch then .woken c false else .asleep c
      | st => st }

/-- `if (semp->semncnt) { semp->semncnt = 0; wakeup(&semp->semncnt); }`, for either
counter. -/
def wake (s : State) (x : ℕ) (ch : Chan) : State :=
  if s.count x ch ≠ 0 then (s.setcount x 0 ch).wakeup x ch else s

end State

/-! ## Adjust on exit -/

/-- A new entry, between the entries below it and those above. -/
def aoenew (si : seminfo) (up : ℕ) (val id num : ℤ) (lo hi : List undo) (s : State) :
    Option Errno × State :=
  if si.semume ≤ (lo ++ hi).length then (some .EINVAL, s)
  else
    (none, { s with
      semu := update s.semu up (lo ++ ⟨int16 (-val), num, id⟩ :: hi)
      -- the first entry links the structure into the active list
      semunp := if (lo ++ hi).length = 0 then up :: s.semunp else s.semunp })

/-- An entry that is there is adjusted, and removed if that leaves zero. -/
def aoeold (si : seminfo) (up : ℕ) (val : ℤ) (lo : List undo) (uup : undo) (hi : List undo)
    (s : State) : Option Errno × State :=
  let aoe := int16 (uup.un_aoe - val)
  if aoe > si.semaem ∨ aoe < -si.semaem then
    (some .ERANGE, { s with
      semu := update s.semu up (lo ++ { uup with un_aoe := int16 (aoe + val) } :: hi) })
  else if aoe = 0 then
    (none, { s with
      semu := update s.semu up (lo ++ hi)
      semunp := if (lo ++ hi).length = 0 then s.semunp.erase up else s.semunp })
  else
    (none, { s with
      semu := update s.semu up (lo ++ { uup with un_aoe := aoe } :: hi) })

/-- The entry sorts before semaphore `num` of set `id`. -/
def undo.before (id num : ℤ) (e : undo) : Bool :=
  e.un_id < id || (e.un_id = id && e.un_num < num)

/-- The undo structure of process `p`, taken from the free list if it has none yet. -/
def getundo (p : ℕ) (s : State) : Option (ℕ × State) :=
  match s.sem_undo p with
  | some up => some (up, s)
  | none =>
      match s.semfup with
      | [] => none
      | up :: rest =>
          some (up, { s with semfup := rest, sem_undo := update s.sem_undo p (some up) })

/-- Create or update adjust on exit entry. -/
def semaoe (si : seminfo) (p : ℕ) (val id num : ℤ) (s : State) : Option Errno × State :=
  if val = 0 then (none, s)
  else if val > si.semaem ∨ val < -si.semaem then (some .ERANGE, s)
  else
    match getundo p s with
    | none => (some .ENOSPC, s)
    | some (up, s) =>
        let lo := (s.semu up).takeWhile (undo.before id num)
        match (s.semu up).dropWhile (undo.before id num) with
        | uup :: hi =>
            if uup.un_id = id ∧ uup.un_num = num then aoeold si up val lo uup hi s
            else aoenew si up val id num lo (uup :: hi) s
        | [] => aoenew si up val id num lo [] s

/-- `op->sem_flg & SEM_UNDO && semaoe(val, id, op->sem_num)`. -/
def semadj (si : seminfo) (p : ℕ) (val id : ℤ) (op : sembuf) (s : State) :
    Option Errno × State :=
  if op.sem_flg &&& SEM_UNDO ≠ 0 then semaoe si p val id op.sem_num s else (none, s)

/-- The entries of one undo structure without those of semaphores `low` to `high` of set
`id`. -/
def unrment (id low high : ℤ) : List undo → List undo
  | [] => []
  | up :: ents =>
      if id < up.un_id then up :: ents
      else if id > up.un_id ∨ low > up.un_num then up :: unrment id low high ents
      else if high < up.un_num then up :: ents
      else unrment id low high ents

/-- Undo entry remover, over the active list. -/
def semunrm (id low high : ℤ) (s : State) : State :=
  { s with
    semu := fun up => if up ∈ s.semunp then unrment id low high (s.semu up) else s.semu up
    semunp := s.semunp.filter fun up => unrment id low high (s.semu up) ≠ [] }

/-! ## Identifiers -/

/-- Convert user supplied semid into the index of the associated header. -/
def semconv (si : seminfo) (s : State) (semid : ℤ) : Option ℕ :=
  if semid < 0 then none
  else
    let sp := semid.toNat % si.semmni
    if !(s.sema sp).sem_perm.alloc ∨ semid.toNat / si.semmni ≠ (s.sema sp).sem_perm.seq then none
    else some sp

/-! ## Operations -/

/-- Undo work done up to finding an operation that can't be done; `done` are the
operations done, the last one first. -/
def semundo (si : seminfo) (p : ℕ) (id : ℤ) (base : ℕ) : List sembuf → State → State
  | [], s => s
  | op :: done, s =>
      if op.sem_op = 0 then semundo si p id base done s
      else
        let semp := base + op.sem_num.toNat
        let s := s.setval semp ((s.sem semp).semval - op.sem_op)
        let s := (semadj si p (int16 (-op.sem_op)) id op s).2
        semundo si p id base done s

/-- How a pass over the array ends: with every operation done, with an error, or with a
wait for counter `ch` of `semp` at operation `i`. -/
inductive Outcome
  | done
  | fail (e : Errno)
  | block (semp : ℕ) (ch : Chan) (i : ℕ)
  deriving DecidableEq, Repr

/-- An operation that has to wait, once the ones before it are taken back. -/
def semwait (op : sembuf) (semp : ℕ) (ch : Chan) (i : ℕ) (s : State) : Outcome × State :=
  if op.sem_flg &&& IPC_NOWAIT ≠ 0 then (.fail .EAGAIN, s)
  else (.block semp ch i, s.setcount semp (s.count semp ch + 1) ch)

/-- The loop over the array, with the operations `done` behind it. -/
def semops (si : seminfo) (p : ℕ) (id : ℤ) (base : ℕ) (done : List sembuf) :
    List sembuf → State → Outcome × State
  | [], s => (.done, s)
  | op :: ops, s =>
      let semp := base + op.sem_num.toNat
      if 0 < op.sem_op then
        if si.semvmx < op.sem_op + (s.sem semp).semval then
          (.fail .ERANGE, semundo si p id base done s)
        else
          match semadj si p op.sem_op id op s with
          | (some e, s) => (.fail e, semundo si p id base done s)
          | (none, s) =>
              let s := s.setval semp ((s.sem semp).semval + op.sem_op)
              let s := s.wake semp .semncnt
              let s := if (s.sem semp).semval = 0 then s.wake semp .semzcnt else s
              semops si p id base (op :: done) ops s
      else if op.sem_op < 0 then
        if -op.sem_op ≤ (s.sem semp).semval then
          match semadj si p op.sem_op id op s with
          | (some e, s) => (.fail e, semundo si p id base done s)
          | (none, s) =>
              let s := s.setval semp ((s.sem semp).semval + op.sem_op)
              let s := if (s.sem semp).semval = 0 then s.wake semp .semzcnt else s
              semops si p id base (op :: done) ops s
        else semwait op semp .semncnt done.length (semundo si p id base done s)
      else if (s.sem semp).semval ≠ 0 then
        semwait op semp .semzcnt done.length (semundo si p id base done s)
      else semops si p id base (op :: done) ops s

/-- What a step of a call comes to: it returns, with an error or with a value, or the
process goes to sleep. -/
inductive Result
  | error (e : Errno)
  | rval (n : ℤ)
  | vals (l : List ℕ)
  | stat (ds : semid_ds)
  | slept
  deriving DecidableEq, Repr

/-- `check:` one pass over the array of a call, up to its end or to its next `sleep`. -/
def check (si : seminfo) (p : ℕ) (pid semid : ℤ) (uops : List sembuf) (sp : ℕ) (s : State) :
    Result × State :=
  let base := (s.sema sp).sem_base
  match semops si p semid base [] uops s with
  | (.done, s) =>
      (.rval 0, (uops.foldl (fun s op => s.setpid (base + op.sem_num.toNat) pid) s).setproc p .user)
  | (.fail e, s) => (.error e, s.setproc p .user)
  | (.block semp ch i, s) => (.slept, s.setproc p (.asleep ⟨pid, semid, uops, i, semp, ch⟩))

/-- Verify that sem #s are in range and permissions are granted. -/
def verify (u : user) (ds : semid_ds) : List sembuf → Option Errno
  | [] => none
  | op :: ops =>
      match ipcaccess u ds.sem_perm (if op.sem_op ≠ 0 then SEM_A else SEM_R) with
      | some e => some e
      | none =>
          -- a negative number is a large unsigned one
          if op.sem_num < 0 ∨ ds.sem_nsems ≤ op.sem_num then some .EFBIG else verify u ds ops

/-- Semop system call, up to its end or to its first `sleep`; `copyin` says whether the
array could be copied in. -/
def semop (si : seminfo) (p : ℕ) (u : user) (semid : ℤ) (sops : List sembuf) (copyin : Bool)
    (s : State) : Result × State :=
  match semconv si s semid with
  | none => (.error .EINVAL, s)
  | some sp =>
      if si.semopm < sops.length then (.error .E2BIG, s)
      else if !copyin then (.error .EFAULT, s)
      else
        match verify u (s.sema sp) sops with
        | some e => (.error e, s)
        | none => check si p u.p_pid semid sops sp s

/-- `semop` once `sleep` has returned: with 1 after a signal, and else with 0. -/
def resume (si : seminfo) (p : ℕ) (c : sleeper) (sig : Bool) (s : State) : Result × State :=
  if sig then
    let n := s.count c.semp c.chan
    -- a counter that would fall to zero lets the others look again and count themselves
    let s :=
      if n ≤ 1 then (s.setcount c.semp 0 c.chan).wakeup c.semp c.chan
      else s.setcount c.semp (n - 1) c.chan
    (.error .EINTR, s.setproc p .user)
  else
    match semconv si s c.semid with
    | none => (.error .EIDRM, s.setproc p .user)
    | some sp => check si p c.p_pid c.semid c.uops sp s

/-! ## Control -/

/-- The commands of `semctl`, each with what it gets from the user. -/
inductive Cmd
  | IPC_RMID
  | IPC_SET (id : Option ipc_perm)
  | IPC_STAT
  | GETNCNT (semnum : ℕ)
  | GETPID (semnum : ℕ)
  | GETVAL (semnum : ℕ)
  | GETALL
  | GETZCNT (semnum : ℕ)
  | SETVAL (semnum : ℕ) (arg : ℕ)
  | SETALL (vals : Option (ℕ → ℕ))
  | other

/-- Read one field of semaphore `semnum`. -/
def semread (u : user) (ds : semid_ds) (semnum : ℕ) (f : sem → ℤ) (s : State) : Result :=
  match ipcaccess u ds.sem_perm SEM_R with
  | some e => .error e
  | none =>
      if ds.sem_nsems ≤ semnum then .error .EINVAL else .rval (f (s.sem (ds.sem_base + semnum)))

/-- Remove semaphores `p, p+1, …, p+n-1`. -/
def semrm (p : ℕ) : ℕ → State → State
  | 0, s => s
  | n + 1, s =>
      let s := s.setval p 0
      let s := s.setpid p 0
      let s := s.wake p .semncnt
      let s := s.wake p .semzcnt
      semrm (p + 1) n s

/-- A semaphore gets a value from `semctl`. -/
def semset (p : ℕ) (v : ℕ) (pid : ℤ) (s : State) : State :=
  let s := s.setval p v
  let s := if v ≠ 0 then s.wake p .semncnt else s.wake p .semzcnt
  s.setpid p pid

/-- Semaphores `p, p+1, …, p+n-1` get the values `vals i, vals (i+1), …`. -/
def semsetall (p i : ℕ) (vals : ℕ → ℕ) (pid : ℤ) : ℕ → State → State
  | 0, s => s
  | n + 1, s => semsetall (p + 1) (i + 1) vals pid n (semset p (vals i) pid s)

/-- Semctl system call. -/
def semctl (si : seminfo) (u : user) (semid : ℤ) (cmd : Cmd) (s : State) : Result × State :=
  match semconv si s semid with
  | none => (.error .EINVAL, s)
  | some sp =>
      let ds := s.sema sp
      match cmd with
      | .IPC_RMID =>
          match ipcowner u ds.sem_perm with
          | some e => (.error e, s)
          | none =>
              let s := semunrm semid 0 ds.sem_nsems s
              let s := semrm ds.sem_base ds.sem_nsems s
              let seq := if 2 ^ 31 ≤ semid + si.semmni then 0 else ushort (ds.sem_perm.seq + 1)
              (.rval 0, { s with
                sema := update s.sema sp
                  { ds with sem_perm := { ds.sem_perm with seq := seq, mode := 0 } } })
      | .IPC_SET id =>
          match ipcowner u ds.sem_perm with
          | some e => (.error e, s)
          | none =>
              match id with
              | none => (.error .EFAULT, s)
              | some id =>
                  (.rval 0, { s with
                    sema := update s.sema sp
                      { ds with sem_perm :=
                        { ds.sem_perm with
                          uid := id.uid
                          gid := id.gid
                          mode := (id.mode &&& 0o777) ||| IPC_ALLOC } } })
      | .IPC_STAT =>
          match ipcaccess u ds.sem_perm SEM_R with
          | some e => (.error e, s)
          | none => (.stat ds, s)
      | .GETNCNT semnum => (semread u ds semnum (fun x => x.semncnt) s, s)
      | .GETPID semnum => (semread u ds semnum sem.sempid s, s)
      | .GETVAL semnum => (semread u ds semnum (fun x => x.semval) s, s)
      | .GETALL =>
          match ipcaccess u ds.sem_perm SEM_R with
          | some e => (.error e, s)
          | none =>
              (.vals ((List.range ds.sem_nsems).map fun i => (s.sem (ds.sem_base + i)).semval), s)
      | .GETZCNT semnum => (semread u ds semnum (fun x => x.semzcnt) s, s)
      | .SETVAL semnum arg =>
          match ipcaccess u ds.sem_perm SEM_A with
          | some e => (.error e, s)
          | none =>
              if ds.sem_nsems ≤ semnum then (.error .EINVAL, s)
              else if si.semvmx < arg then (.error .ERANGE, s)
              else
                (.rval 0, semunrm semid semnum semnum
                  (semset (ds.sem_base + semnum) arg u.p_pid s))
      | .SETALL vals =>
          match ipcaccess u ds.sem_perm SEM_A with
          | some e => (.error e, s)
          | none =>
              match vals with
              | none => (.error .EFAULT, s)
              | some vals =>
                  if (List.range ds.sem_nsems).any fun i => si.semvmx < vals i then
                    (.error .ERANGE, s)
                  else
                    (.rval 0, semsetall ds.sem_base 0 vals u.p_pid ds.sem_nsems
                      (semunrm semid 0 ds.sem_nsems s))
      | .other => (.error .EINVAL, s)

/-- Semget system call; `i` is what `rmalloc` returns for the semaphores of a new set. -/
def semget (si : seminfo) (u : user) (key : ℤ) (nsems : ℤ) (semflg i : ℕ) (s : State) :
    Result × State :=
  match ipcget u key semflg (fun i => (s.sema i).sem_perm) si.semmni with
  | .error e => (.error e, s)
  | .ok (sp, some perm) =>
      let s := { s with sema := update s.sema sp { s.sema sp with sem_perm := perm } }
      let free := { s with
        sema := update s.sema sp
          { s.sema sp with sem_perm := { perm with mode := 0 } } }
      if nsems ≤ 0 ∨ si.semmsl < nsems then (.error .EINVAL, free)
      else if i = 0 then (.error .ENOSPC, free)
      else
        (.rval (perm.seq * si.semmni + sp), { s with
          sema := update s.sema sp
            { s.sema sp with sem_base := i - 1, sem_nsems := nsems.toNat } })
  | .ok (sp, none) =>
      if nsems ≠ 0 ∧ (s.sema sp).sem_nsems < nsems then (.error .EINVAL, s)
      else (.rval ((s.sema sp).sem_perm.seq * si.semmni + sp), s)

/-! ## Exit -/

/-- One adjustment of an exiting process. -/
def exitadj (si : seminfo) (e : undo) (s : State) : State :=
  match semconv si s e.un_id with
  | none => s
  | some sp =>
      let semp := (s.sema sp).sem_base + e.un_num.toNat
      let v : ℤ := (s.sem semp).semval + e.un_aoe
      if v < 0 ∨ si.semvmx < v then s
      else
        let s := s.setval semp v
        let s := if v = 0 then s.wake semp .semzcnt else s
        if 0 < e.un_aoe then s.wake semp .semncnt else s

/-- Clean up on process exit: the adjustments from the last entry to the first, then the
undo structure goes to the free list. -/
def semexit (si : seminfo) (p : ℕ) (s : State) : State :=
  match s.sem_undo p with
  | none => s
  | some up =>
      let t := (s.semu up).foldr (exitadj si) s
      { t with
        semu := update t.semu up []
        semunp := if (s.semu up).length = 0 then t.semunp else t.semunp.erase up
        sem_undo := update t.sem_undo p none
        semfup := up :: t.semfup }

/-! ## Steps -/

/-- What can happen next: process `p` makes a call or exits, a signal is sent to it, or it
runs again after a sleep. -/
inductive Event
  | semop (p : ℕ) (u : user) (semid : ℤ) (sops : List sembuf) (copyin : Bool)
  | semctl (p : ℕ) (u : user) (semid : ℤ) (cmd : Cmd)
  | semget (p : ℕ) (u : user) (key nsems : ℤ) (semflg i : ℕ)
  | semexit (p : ℕ)
  | psignal (p : ℕ)
  | resume (p : ℕ)

/-- The effect of an event; only a process of the table that is not in a call can make
one, and only a process off the sleep queue can run.  A signal takes a sleeper off the
queue; one that is already there when `sleep` is called does so at once. -/
def act (si : seminfo) (s : State) : Event → Option (Result × State)
  | .semop p u semid sops copyin =>
      if p < si.nproc ∧ s.proc p = .user then some (semop si p u semid sops copyin s) else none
  | .semctl p u semid cmd =>
      if p < si.nproc ∧ s.proc p = .user then some (semctl si u semid cmd s) else none
  | .semget p u key nsems semflg i =>
      if p < si.nproc ∧ s.proc p = .user then some (semget si u key nsems semflg i s) else none
  | .semexit p =>
      if p < si.nproc ∧ s.proc p = .user then some (.rval 0, semexit si p s) else none
  | .psignal p =>
      match s.proc p with
      | .user => none
      | .asleep c => some (.rval 0, s.setproc p (.woken c true))
      | .woken c _ => some (.rval 0, s.setproc p (.woken c true))
  | .resume p =>
      match s.proc p with
      | .woken c sig => some (resume si p c sig s)
      | _ => none

/-- One step of the system. -/
def step (si : seminfo) (s : State) (e : Event) (t : State) : Prop :=
  ∃ r, act si s e = some (r, t)

end IpcSem
