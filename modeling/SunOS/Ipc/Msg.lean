/-
# Message queues

The System V message calls of `ipc_msg.c`.  Headers are numbered from 1, with 0 for the
null pointer; a queue is a chain of headers, and so are the free ones.  Message texts lie
in segments of a pool that a resource map hands out.

A process can be switched out in `sleep` and inside `copyin` and `copyout`.  A call runs
from one such point to the next as one step; a copy is made when the process runs on from
it, and has found whatever is there by then.
-/
import SunOS.Ipc.Ipc
import SunOS.Kern.Rmap
import Mathlib.Data.Nat.Bitwise

namespace IpcMsg

open Function (update)
open Ipc

/-! ## Data -/

/-- No error if big message. -/
def MSG_NOERROR : ℕ := 0o10000

/-- Read permission. -/
def MSG_R : ℕ := 0o400

/-- Write permission. -/
def MSG_W : ℕ := 0o200

/-- A reader is waiting for a message. -/
def MSG_RWAIT : ℕ := 0o1000

/-- A writer is waiting to send. -/
def MSG_WWAIT : ℕ := 0o2000

/-- The configuration (`struct msginfo`); `msgmap` is the size of the resource map. -/
structure msginfo where
  msgmap : ℕ
  msgmax : ℕ
  msgmnb : ℕ
  msgmni : ℕ
  msgssz : ℕ
  msgtql : ℕ
  msgseg : ℕ
  msgmni_pos : 0 < msgmni
  msgssz_pos : 0 < msgssz
  /-- MUST BE < 32768. -/
  msgseg_lt : msgseg < 32768

/-- A message header (`struct msg`), less `msg_next`. -/
structure msg where
  msg_type : ℤ
  msg_ts : ℕ
  msg_spot : ℕ
  deriving DecidableEq, Repr

/-- A message queue (`struct msqid_ds`). -/
structure msqid_ds where
  msg_perm : ipc_perm
  msg_first : ℕ
  msg_last : ℕ
  msg_cbytes : ℕ
  msg_qnum : ℕ
  msg_qbytes : ℕ
  msg_lspid : ℤ
  msg_lrpid : ℤ
  deriving DecidableEq, Repr

/-- The channels that a process can sleep on: `&qp->msg_qnum`, `qp`, `&msgfp` and
`msgmap`. -/
inductive Chan
  | qnum (qp : ℕ)
  | que (qp : ℕ)
  | msgfp
  | msgmap
  deriving DecidableEq, Repr

/-- The arguments of `msgrcv`, with the id of the calling process. -/
structure rcvargs where
  pid : ℤ
  msqid : ℤ
  msgsz : ℤ
  msgtyp : ℤ
  msgflg : ℕ
  deriving DecidableEq, Repr

/-- The arguments of `msgsnd`. -/
structure sndargs where
  pid : ℤ
  msqid : ℤ
  msgsz : ℤ
  msgflg : ℕ
  deriving DecidableEq, Repr

/-- The locals of a call that is inside `sleep`. -/
inductive Sleep
  | rcv (a : rcvargs) (qp : ℕ)
  | snd (a : sndargs) (qp : ℕ) (type : ℤ) (chan : Chan)
  deriving DecidableEq, Repr

/-- The locals of a call that is inside `copyin` or `copyout`. -/
inductive Copy
  | sndtype (a : sndargs) (qp : ℕ)
  | sndtext (a : sndargs) (qp : ℕ) (type : ℤ) (mp spot : ℕ)
  | rcvtype (a : rcvargs) (qp smp spmp sz : ℕ)
  | rcvtext (a : rcvargs) (qp smp spmp sz : ℕ) (type : ℤ)
  | ctlset (u : user) (qp : ℕ)
  deriving DecidableEq, Repr

/-- Where a process stands; `woken` is off the sleep queue and not yet running again,
`sig` if a signal is there for it. -/
inductive pstate
  | user
  | asleep (w : Sleep) (chan : Chan)
  | woken (w : Sleep) (sig : Bool)
  | copying (c : Copy)
  deriving DecidableEq, Repr

/-- The kernel data of `ipc_msg.c`: `text` is the pool `msg`. -/
structure State where
  msgque : ℕ → msqid_ds
  next : ℕ → ℕ
  msgh : ℕ → msg
  msgfp : ℕ
  msgmap : Rmap.map
  text : ℕ → ℕ
  proc : ℕ → pstate

/-- The value an unsigned short holds once `x` is stored in it. -/
def ushort (x : ℤ) : ℕ := (x % 65536).toNat

namespace State

def setproc (s : State) (p : ℕ) (st : pstate) : State :=
  { s with proc := update s.proc p st }

def setque (s : State) (qp : ℕ) (ds : msqid_ds) : State :=
  { s with msgque := update s.msgque qp ds }

/-- Wake up all processes sleeping on a channel. -/
def wakeup (s : State) (chan : Chan) : State :=
  { s with proc := fun q =>
      match s.proc q with
      | .asleep w ch => if ch = chan then .woken w false else .asleep w ch
      | st => st }

/-- Set bits of the mode word of a queue. -/
def setmode (s : State) (qp : ℕ) (bits : ℕ) : State :=
  s.setque qp { s.msgque qp with
    msg_perm := { (s.msgque qp).msg_perm with mode := (s.msgque qp).msg_perm.mode ||| bits } }

/-- Clear bits of the mode word of a queue. -/
def clrmode (s : State) (qp : ℕ) (bits : ℕ) : State :=
  s.setque qp { s.msgque qp with
    msg_perm := { (s.msgque qp).msg_perm with mode := (s.msgque qp).msg_perm.mode.ldiff bits } }

/-- `if (mode & bit) { mode &= ~bit; wakeup(chan); }` -/
def wakewait (s : State) (qp : ℕ) (bit : ℕ) (chan : Chan) : State :=
  if (s.msgque qp).msg_perm.mode &&& bit ≠ 0 then (s.clrmode qp bit).wakeup chan else s

end State

/-- Convert bytes to msg segments. -/
def btoq (mi : msginfo) (x : ℕ) : ℕ := (x + mi.msgssz - 1) / mi.msgssz

/-! ## Identifiers and space -/

/-- Convert a user supplied message queue id into the index of the queue. -/
def msgconv (mi : msginfo) (s : State) (id : ℤ) : Option ℕ :=
  if id < 0 then none
  else
    let qp := id.toNat % mi.msgmni
    if !(s.msgque qp).msg_perm.alloc ∨ id.toNat / mi.msgmni ≠ (s.msgque qp).msg_perm.seq then none
    else some qp

/-- Give segments back; whoever wants some is woken. -/
def rmfree (size addr : ℕ) (s : State) : Option State :=
  (Rmap.rmfree size addr s.msgmap).map fun m =>
    let t := { s with msgmap := m }
    if s.msgmap.m_want ≠ 0 then t.wakeup .msgmap else t

/-- Push a header on the free list. -/
def freehdr (mp : ℕ) (s : State) : State :=
  let t := if s.msgfp = 0 then s.wakeup .msgfp else s
  { t with msgfp := mp }

/-- Free up space and message header `mp`, relink pointers on the queue, and wakeup anyone
waiting for resources; `pmp` is the predecessor of `mp`. -/
def msgfree (mi : msginfo) (qp pmp mp : ℕ) (s : State) : Option State :=
  let nxt := s.next mp
  let s :=
    if pmp = 0 then s.setque qp { s.msgque qp with msg_first := nxt }
    else { s with next := update s.next pmp nxt }
  let s := if s.next mp = 0 then s.setque qp { s.msgque qp with msg_last := pmp } else s
  let s := s.setque qp { s.msgque qp with msg_qnum := ushort ((s.msgque qp).msg_qnum - 1) }
  let s := s.wakewait qp MSG_WWAIT (.que qp)
  let freed :=
    if (s.msgh mp).msg_ts ≠ 0 then
      rmfree (btoq mi (s.msgh mp).msg_ts) ((s.msgh mp).msg_spot + 1) s
    else some s
  freed.map fun s => freehdr mp { s with next := update s.next mp s.msgfp }

/-! ## Results -/

/-- What a step of a call comes to. -/
inductive Result
  | error (e : Errno)
  | rval (n : ℤ)
  | stat (ds : msqid_ds)
  /-- The queue was removed. -/
  | removed (qp : ℕ)
  /-- The queue was made. -/
  | made (qp : ℕ) (id : ℤ)
  /-- A message was put on the queue. -/
  | sent (qp : ℕ) (type : ℤ) (bytes : List ℕ)
  /-- The user got a type and bytes of a message taken off the queue. -/
  | received (qp : ℕ) (a : rcvargs) (type : ℤ) (bytes : List ℕ)
  /-- The process is in `sleep`, `copyin` or `copyout`. -/
  | waits
  deriving DecidableEq, Repr

/-- What a copy meets on the user's side: whether it succeeds, and what is there to be
copied in. -/
structure io where
  ok : Bool
  mtype : ℤ
  mtext : ℕ → ℕ
  ds : msqid_ds

/-- The call returns. -/
def ret (p : ℕ) (r : Result) (s : State) : Option (Result × State) := some (r, s.setproc p .user)

/-- The process is switched out. -/
def wait (p : ℕ) (st : pstate) (s : State) :
    Option (Result × State) := some (.waits, s.setproc p st)

/-! ## Receiving -/

/-- The search loop of `msgrcv`, with the best message so far and its predecessor; `fuel`
bounds the walk, which goes on for ever on a ring. -/
def findloop (s : State) (msgtyp : ℤ) : ℕ → ℕ → ℕ → ℕ → ℕ → Option (ℕ × ℕ)
  | 0, _, _, _, _ => none
  | fuel + 1, pmp, mp, smp, spmp =>
      if mp = 0 then some (smp, spmp)
      else if 0 < msgtyp then
        if msgtyp ≠ (s.msgh mp).msg_type then findloop s msgtyp fuel mp (s.next mp) smp spmp
        else some (mp, pmp)
      else if (s.msgh mp).msg_type ≤ int32 (-msgtyp) then
        if smp ≠ 0 ∧ (s.msgh smp).msg_type ≤ (s.msgh mp).msg_type then
          findloop s msgtyp fuel mp (s.next mp) smp spmp
        else findloop s msgtyp fuel mp (s.next mp) mp pmp
      else findloop s msgtyp fuel mp (s.next mp) smp spmp

/-- Pick a message: it and its predecessor, or 0. -/
def find (mi : msginfo) (s : State) (qp : ℕ) (msgtyp : ℤ) : Option (ℕ × ℕ) :=
  if msgtyp = 0 then some ((s.msgque qp).msg_first, 0)
  else findloop s msgtyp (mi.msgtql + 1) 0 (s.msgque qp).msg_first 0 0

/-- `findmsg1:` up to the first copy or to `sleep`. -/
def findmsg1 (mi : msginfo) (p : ℕ) (a : rcvargs) (qp : ℕ) (s : State) : Option (Result × State) :=
  match find mi s qp a.msgtyp with
  | none => none
  | some (smp, spmp) =>
      if smp ≠ 0 then
        if a.msgsz < (s.msgh smp).msg_ts then
          if a.msgflg &&& MSG_NOERROR = 0 then ret p (.error .E2BIG) s
          else wait p (.copying (.rcvtype a qp smp spmp a.msgsz.toNat)) s
        else wait p (.copying (.rcvtype a qp smp spmp (s.msgh smp).msg_ts)) s
      else if a.msgflg &&& IPC_NOWAIT ≠ 0 then ret p (.error .ENOMSG) s
      else wait p (.asleep (.rcv a qp) (.qnum qp)) (s.setmode qp MSG_RWAIT)

/-- Msgrcv system call, up to where it is first switched out. -/
def msgrcv (mi : msginfo) (p : ℕ) (u : user) (a : rcvargs) (s : State) : Option (Result × State) :=
  match msgconv mi s a.msqid with
  | none => ret p (.error .EINVAL) s
  | some qp =>
      match ipcaccess u (s.msgque qp).msg_perm MSG_R with
      | some e => ret p (.error e) s
      | none => if a.msgsz < 0 then ret p (.error .EINVAL) s else findmsg1 mi p a qp s

/-- `sz` bytes of the text of message `mp`. -/
def State.bytes (mi : msginfo) (s : State) (mp sz : ℕ) : List ℕ :=
  (List.range sz).map fun i => s.text (mi.msgssz * (s.msgh mp).msg_spot + i)

/-- The message has been copied out, and is taken off the queue. -/
def takemsg (mi : msginfo) (p : ℕ) (a : rcvargs) (qp smp spmp : ℕ) (type : ℤ) (bytes : List ℕ)
    (s : State) : Option (Result × State) :=
  let s := s.setque qp { s.msgque qp with
    msg_cbytes := ushort ((s.msgque qp).msg_cbytes - (s.msgh smp).msg_ts)
    msg_lrpid := a.pid }
  match msgfree mi qp spmp smp s with
  | none => none
  | some s => ret p (.received qp a type bytes) s

/-! ## Sending -/

/-- Everything is there: put the message on the queue. -/
def putmsg (p : ℕ) (a : sndargs) (qp : ℕ) (type : ℤ) (mp spot : ℕ) (bytes : List ℕ) (s : State) :
    Option (Result × State) :=
  let ds := s.msgque qp
  let s := s.setque qp { ds with
    msg_qnum := ushort (ds.msg_qnum + 1)
    msg_cbytes := ushort (ds.msg_cbytes + a.msgsz)
    msg_lspid := a.pid }
  let s := { s with
    next := update s.next mp 0
    msgh := update s.msgh mp ⟨type, ushort a.msgsz, if a.msgsz ≠ 0 then spot else 65535⟩ }
  let s :=
    if (s.msgque qp).msg_last = 0 then
      s.setque qp { s.msgque qp with msg_first := mp, msg_last := mp }
    else
      { s with next := update s.next (s.msgque qp).msg_last mp }.setque qp
        { s.msgque qp with msg_last := mp }
  ret p (.sent qp type bytes) (s.wakewait qp MSG_RWAIT (.qnum qp))

/-- `getres1:` allocate space on the queue, message header, & buffer space. -/
def getres1 (mi : msginfo) (p : ℕ) (a : sndargs) (qp : ℕ) (type : ℤ) (s : State) :
    Option (Result × State) :=
  if a.msgsz + (s.msgque qp).msg_cbytes > (s.msgque qp).msg_qbytes then
    if a.msgflg &&& IPC_NOWAIT ≠ 0 then ret p (.error .EAGAIN) s
    else wait p (.asleep (.snd a qp type (.que qp)) (.que qp)) (s.setmode qp MSG_WWAIT)
  else if s.msgfp = 0 then
    if a.msgflg &&& IPC_NOWAIT ≠ 0 then ret p (.error .EAGAIN) s
    else wait p (.asleep (.snd a qp type .msgfp) .msgfp) s
  else if a.msgsz = 0 then
    putmsg p a qp type s.msgfp 0 [] { s with msgfp := s.next s.msgfp }
  else
    match Rmap.rmalloc none (btoq mi a.msgsz.toNat) s.msgmap with
    | none => none
    | some (m, spot) =>
        if spot = 0 then
          if a.msgflg &&& IPC_NOWAIT ≠ 0 then ret p (.error .EAGAIN) { s with msgmap := m }
          else
            wait p (.asleep (.snd a qp type .msgmap) .msgmap)
              { s with msgmap := { m with m_want := m.m_want + 1 } }
        else
          wait p (.copying (.sndtext a qp type s.msgfp (spot - 1).toNat))
            { s with msgmap := m, msgfp := s.next s.msgfp }

/-- Msgsnd system call, up to its first copy. -/
def msgsnd (mi : msginfo) (p : ℕ) (u : user) (a : sndargs) (s : State) : Option (Result × State) :=
  match msgconv mi s a.msqid with
  | none => ret p (.error .EINVAL) s
  | some qp =>
      match ipcaccess u (s.msgque qp).msg_perm MSG_W with
      | some e => ret p (.error e) s
      | none =>
          if a.msgsz < 0 ∨ mi.msgmax < a.msgsz then ret p (.error .EINVAL) s
          else wait p (.copying (.sndtype a qp)) s

/-- The pool with `cnt` bytes of user memory copied in from position `at` on. -/
def fill (text : ℕ → ℕ) (pos cnt : ℕ) (mtext : ℕ → ℕ) : ℕ → ℕ :=
  fun i => if pos ≤ i ∧ i < pos + cnt then mtext (i - pos) else text i

/-! ## Running on -/

/-- A call goes on from `sleep`. -/
def wakes (mi : msginfo) (p : ℕ) (w : Sleep) (sig : Bool) (s : State) : Option (Result × State) :=
  match w with
  | .rcv a qp =>
      if sig then ret p (.error .EINTR) s
      else
        match msgconv mi s a.msqid with
        | none => ret p (.error .EIDRM) s
        | some _ => findmsg1 mi p a qp s
  | .snd a qp type chan =>
      match msgconv mi s a.msqid with
      | none => ret p (.error (if sig then .EINTR else .EIDRM)) s
      | some _ =>
          if sig then
            match chan with
            | .que _ => ret p (.error .EINTR) ((s.clrmode qp MSG_WWAIT).wakeup (.que qp))
            | _ => ret p (.error .EINTR) s
          else getres1 mi p a qp type s

/-- A call goes on from `copyin` or `copyout`. -/
def copies (mi : msginfo) (p : ℕ) (c : Copy) (m : io) (s : State) : Option (Result × State) :=
  match c with
  | .sndtype a qp =>
      if !m.ok then ret p (.error .EFAULT) s
      else if m.mtype < 1 then ret p (.error .EINVAL) s
      else getres1 mi p a qp m.mtype s
  | .sndtext a qp type mp spot =>
      if !m.ok then
        match rmfree (btoq mi a.msgsz.toNat) (spot + 1) s with
        | none => none
        | some s => ret p (.error .EFAULT) (freehdr mp s)
      else
        putmsg p a qp type mp spot ((List.range a.msgsz.toNat).map m.mtext)
          { s with text := fill s.text (mi.msgssz * spot) a.msgsz.toNat m.mtext }
  | .rcvtype a qp smp spmp sz =>
      if !m.ok then ret p (.error .EFAULT) s
      else if sz ≠ 0 then
        wait p (.copying (.rcvtext a qp smp spmp sz (s.msgh smp).msg_type)) s
      else takemsg mi p a qp smp spmp (s.msgh smp).msg_type [] s
  | .rcvtext a qp smp spmp sz type =>
      if !m.ok then ret p (.error .EFAULT) s
      else takemsg mi p a qp smp spmp type (s.bytes mi smp sz) s
  | .ctlset u qp =>
      if !m.ok then ret p (.error .EFAULT) s
      else
        let ds := s.msgque qp
        if ds.msg_qbytes < ushort m.ds.msg_qbytes ∧ suser u ≠ none then ret p (.error .EPERM) s
        else
          ret p (.rval 0) (s.setque qp { ds with
            msg_perm := { ds.msg_perm with
              uid := m.ds.msg_perm.uid
              gid := m.ds.msg_perm.gid
              mode := ds.msg_perm.mode.ldiff 0o777 ||| (m.ds.msg_perm.mode &&& 0o777) }
            msg_qbytes := ushort m.ds.msg_qbytes })

/-! ## Control -/

/-- The commands of `msgctl`. -/
inductive Cmd
  | IPC_RMID
  | IPC_SET
  | IPC_STAT
  | other

/-- `while (qp->msg_first) msgfree(qp, NULL, qp->msg_first);` -/
def freeall (mi : msginfo) (qp : ℕ) : ℕ → State → Option State
  | 0, _ => none
  | fuel + 1, s =>
      if (s.msgque qp).msg_first = 0 then some s
      else
        match msgfree mi qp 0 (s.msgque qp).msg_first s with
        | none => none
        | some s => freeall mi qp fuel s

/-- Msgctl system call. -/
def msgctl (mi : msginfo) (p : ℕ) (u : user) (msqid : ℤ) (cmd : Cmd) (s : State) :
    Option (Result × State) :=
  match msgconv mi s msqid with
  | none => ret p (.error .EINVAL) s
  | some qp =>
      match cmd with
      | .IPC_RMID =>
          match ipcowner u (s.msgque qp).msg_perm with
          | some e => ret p (.error e) s
          | none =>
              match freeall mi qp (mi.msgtql + 1) s with
              | none => none
              | some s =>
                  let perm := (s.msgque qp).msg_perm
                  let seq := if 2 ^ 31 ≤ msqid + mi.msgmni then 0 else ushort (perm.seq + 1)
                  let t := if perm.mode &&& MSG_RWAIT ≠ 0 then s.wakeup (.qnum qp) else s
                  let t := if perm.mode &&& MSG_WWAIT ≠ 0 then t.wakeup (.que qp) else t
                  ret p (.removed qp) (t.setque qp { t.msgque qp with
                    msg_cbytes := 0
                    msg_perm := { perm with seq := seq, mode := 0 } })
      | .IPC_SET =>
          match ipcowner u (s.msgque qp).msg_perm with
          | some e => ret p (.error e) s
          | none => wait p (.copying (.ctlset u qp)) s
      | .IPC_STAT =>
          match ipcaccess u (s.msgque qp).msg_perm MSG_R with
          | some e => ret p (.error e) s
          | none => ret p (.stat (s.msgque qp)) s
      | .other => ret p (.error .EINVAL) s

/-- Msgget system call. -/
def msgget (mi : msginfo) (p : ℕ) (u : user) (key : ℤ) (msgflg : ℕ) (s : State) :
    Option (Result × State) :=
  match ipcget u key msgflg (fun i => (s.msgque i).msg_perm) mi.msgmni with
  | .error e => ret p (.error e) s
  | .ok (qp, some perm) =>
      ret p (.made qp (perm.seq * mi.msgmni + qp)) (s.setque qp { s.msgque qp with
        msg_perm := perm
        msg_first := 0
        msg_last := 0
        msg_qnum := 0
        msg_qbytes := ushort mi.msgmnb
        msg_lspid := 0
        msg_lrpid := 0 })
  | .ok (qp, none) => ret p (.rval ((s.msgque qp).msg_perm.seq * mi.msgmni + qp)) s

/-! ## Steps -/

/-- Called by `main` to initialize message queues; `name` is where the text "msgmap" is. -/
def msginit (mi : msginfo) (name : ℤ) (s : State) : State :=
  { s with
    msgmap := Rmap.rminit mi.msgseg 1 name s.msgmap
    msgfp := 1
    next := fun h => if 1 ≤ h ∧ h < mi.msgtql then h + 1 else s.next h }

/-- What can happen next: process `p` makes a call, a signal is sent to it, or it runs on
from where it was switched out. -/
inductive Event
  | msgsnd (p : ℕ) (u : user) (a : sndargs)
  | msgrcv (p : ℕ) (u : user) (a : rcvargs)
  | msgctl (p : ℕ) (u : user) (msqid : ℤ) (cmd : Cmd)
  | msgget (p : ℕ) (u : user) (key : ℤ) (msgflg : ℕ)
  | psignal (p : ℕ)
  | run (p : ℕ) (m : io)

/-- The process that makes a step. -/
def Event.proc : Event → ℕ
  | .msgsnd p _ _ | .msgrcv p _ _ | .msgctl p _ _ _ | .msgget p _ _ _ | .psignal p | .run p _ => p

/-- The effect of an event. -/
def act (mi : msginfo) (s : State) : Event → Option (Result × State)
  | .msgsnd p u a => if s.proc p = .user then msgsnd mi p u a s else none
  | .msgrcv p u a => if s.proc p = .user then msgrcv mi p u a s else none
  | .msgctl p u msqid cmd => if s.proc p = .user then msgctl mi p u msqid cmd s else none
  | .msgget p u key msgflg => if s.proc p = .user then msgget mi p u key msgflg s else none
  | .psignal p =>
      match s.proc p with
      | .asleep w _ => some (.rval 0, s.setproc p (.woken w true))
      | .woken w _ => some (.rval 0, s.setproc p (.woken w true))
      | _ => none
  | .run p m =>
      match s.proc p with
      | .woken w sig => wakes mi p w sig s
      | .copying c => copies mi p c m s
      | _ => none

/-- One step of the system, with what it comes to. -/
def step (mi : msginfo) (s : State) (e : Event × Result) (t : State) : Prop :=
  act mi s e.1 = some (e.2, t)

end IpcMsg
