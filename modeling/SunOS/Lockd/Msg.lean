/-
# The message queue of the lock manager (`rpc.lockd/prot_msg.c`, `prot_pklm.c`, `prot_pnlm.c`)

Requests that wait for an answer stand in `msg_q`, the latest first.  `klm_msg` points at the
message the kernel waits for now: it is answered as soon as its reply comes, the others when the
kernel asks again.  What the lock tables decide comes in as arguments.
-/
import SunOS.Lib.Doubly
import SunOS.Lockd.Lock

namespace Lockd

/-! ## Messages -/

def KLM_TEST : ℕ := 1

def KLM_LOCK : ℕ := 2

def KLM_CANCEL : ℕ := 3

def KLM_UNLOCK : ℕ := 4

def NLM_TEST_MSG : ℕ := 6

def NLM_LOCK_MSG : ℕ := 7

def NLM_CANCEL_MSG : ℕ := 8

def NLM_UNLOCK_MSG : ℕ := 9

def NLM_LOCK_RECLAIM : ℕ := 16

/-- `nlm_blocked`, which is also `klm_working`. -/
def blocking : ℕ := 3

def MAX_LM_TIMEOUT_COUNT : ℕ := 1

/-- "counter to throw away old msg". -/
def OLDMSG : ℕ := 30

/-- What other lock managers and the lock tables answer. -/
structure remote_result where
  cookie : List UInt8
  lstat : ℕ
  deriving DecidableEq, Repr

def res_working : remote_result := { cookie := [], lstat := blocking }

structure timer where
  exp : ℕ
  curr : ℕ
  deriving DecidableEq, Repr

/-- A message without its links. -/
structure msg_entry where
  req : reclock
  reply : Option remote_result
  t : timer
  proc : ℕ
  deriving DecidableEq, Repr

/-- An answer to the kernel: for which message, by which procedure, with which status. -/
structure Answer where
  msg : ℕ
  proc : ℕ
  lstat : ℕ
  deriving DecidableEq, Repr

/-- "non-blocking, non-working": the kernel does not wait any longer. -/
def Answer.final (a : Answer) : Bool := a.lstat ≠ blocking

/-- The queue.  Messages are numbered as they are queued, as an entry freed may be used again; the
numbers, and the record of what was answered, freed and sent, are not the program's. -/
structure Msgs where
  /-- `msg_q`, with the links `nxt` and `prev` of the entries. -/
  q : Doubly
  entry : ℕ → msg_entry
  klm_msg : ℕ
  grace_period : ℕ
  /-- The local variable of `nlm_res_routine` while the request is continued. -/
  msgp : ℕ
  live : List ℕ
  queued : ℕ
  serial : ℕ → ℕ
  answers : List Answer
  freed : List ℕ
  calls : List (ℕ × reclock)

namespace Msgs

variable (s : Msgs)

def set (msgp : ℕ) (e : msg_entry) : Msgs := { s with entry := Function.update s.entry msgp e }

/-- The request of `msgp` is a retransmission of `a`, or the other way round. -/
def sameRequest (a : reclock) (proc msgp : ℕ) : Bool :=
  let e := s.entry msgp
  (same_lock e.req a || simi_lock e.req a) &&
    ((e.proc = NLM_LOCK_RECLAIM ∧ (proc = KLM_LOCK ∨ proc = NLM_LOCK_MSG)) ∨
      e.proc = proc + 5 ∨ e.proc = proc)

/-- `retransmitted(a, proc)`: "if a is retransmission of a previously received msg". -/
def retransmitted (a : reclock) (proc : ℕ) : Option ℕ :=
  s.q.find (s.sameRequest a proc) (s.queued + 1) s.q.head

/-- `search_msg(resp)`: "match response's cookie with msg req". -/
def search_msg (resp : remote_result) : Option ℕ :=
  s.q.find (fun msgp => (s.entry msgp).req.cookie = resp.cookie) (s.queued + 1) s.q.head

/-- `queue(a, proc)`, where `xmalloc` returned `msgp`. -/
def queue (msgp : ℕ) (a : reclock) (proc : ℕ) : Msgs :=
  if msgp = 0 then s
  else
    { s.set msgp { req := a, reply := none, t := { exp := 1, curr := 0 }, proc := proc } with
      q := s.q.insert 0 msgp
      klm_msg := if proc ≠ NLM_GRANTED_MSG ∧ proc ≠ NLM_LOCK_RECLAIM then msgp else s.klm_msg
      live := msgp :: s.live
      queued := s.queued + 1
      serial := Function.update s.serial msgp s.queued }

/-- `dequeue(msgp)`. -/
def dequeue (msgp : ℕ) : Msgs :=
  { s with
    q := s.q.delete msgp
    live := s.live.erase msgp
    freed := s.serial msgp :: s.freed }

/-- `klm_reply(proc, reply)`, about the message of `msgp`. -/
def klm_reply (msgp proc lstat : ℕ) : Msgs :=
  { s with answers := { msg := s.serial msgp, proc := proc, lstat := lstat } :: s.answers }

/-- `add_reply(msgp, resp)`. -/
def add_reply (msgp : ℕ) : Option remote_result → Msgs
  | some resp =>
    let e := s.entry msgp
    let s := s.set msgp { e with reply := some resp, t := { e.t with curr := 0 } }
    if s.klm_msg = msgp then
      let s := { s.klm_reply msgp e.proc resp.lstat with klm_msg := 0 }
      if resp.lstat ≠ blocking then s.dequeue msgp else s
    else s
  | none =>
    if s.klm_msg = msgp then s.klm_reply msgp (s.entry msgp).proc res_working.lstat else s

/-! ## The timer -/

/-- What is sent for a message; "modify caller name" when a lock is granted. -/
def callArg (e : msg_entry) : reclock :=
  if e.proc = NLM_GRANTED_MSG then
    { e.req with lck := { e.req.lck with caller_name := e.req.lck.server_name } }
  else e.req

/-- `nlm_call(msgp->proc, msgp->req, 1)`; the other procedures are "not supported". -/
def nlm_call (msgp : ℕ) : Msgs :=
  let e := s.entry msgp
  if e.proc = NLM_TEST_MSG ∨ e.proc = NLM_LOCK_MSG ∨ e.proc = NLM_LOCK_RECLAIM ∨
      e.proc = NLM_CANCEL_MSG ∨ e.proc = NLM_UNLOCK_MSG ∨ e.proc = NLM_GRANTED_MSG then
    let func := if e.proc = NLM_LOCK_RECLAIM then NLM_LOCK_MSG else e.proc
    { s.set msgp { e with req := callArg e } with calls := (func, callArg e) :: s.calls }
  else s

/-- "remove proc == klm_xxx in msg queue". -/
def endGrace (msgp : ℕ) (s : Msgs) : Msgs :=
  let e := s.entry msgp
  if e.proc = KLM_LOCK ∨ e.proc = KLM_UNLOCK ∨ e.proc = KLM_TEST ∨ e.proc = KLM_CANCEL then
    s.dequeue msgp
  else s

/-- "check for retransimssion", and "if reply is sitting there too long". -/
def age (msgp : ℕ) (s : Msgs) : Msgs :=
  let e := s.entry msgp
  match e.reply with
  | none =>
    if e.proc ≠ KLM_LOCK then
      if e.t.exp = e.t.curr then
        let s := s.nlm_call msgp
        let exp := if 2 * e.t.exp > MAX_LM_TIMEOUT_COUNT then MAX_LM_TIMEOUT_COUNT else 2 * e.t.exp
        s.set msgp { s.entry msgp with t := { exp := exp, curr := 0 } }
      else s.set msgp { e with t := { e.t with curr := e.t.curr + 1 } }
    else s
  | some reply =>
    if reply.lstat ≠ blocking then
      if e.t.curr > OLDMSG then s.dequeue msgp
      else s.set msgp { e with t := { e.t with curr := e.t.curr + 1 } }
    else s

/-- The loops of `xtimer`: the next message is known before this one may go. -/
def sweep (body : ℕ → Msgs → Msgs) : ℕ → ℕ → Msgs → Option Msgs
  | 0, _, _ => none
  | fuel + 1, msgp, s =>
    if msgp = 0 then some s else sweep body fuel (s.q.nxt msgp) (body msgp s)

/-- "reduce the remaining grace period". -/
def tick : Option Msgs :=
  let s0 := { s with grace_period := s.grace_period - 1 }
  if s.grace_period = 1 then sweep endGrace (s0.queued + 1) s0.q.head s0 else some s0

/-- `xtimer()`. -/
def xtimer : Option Msgs := do
  let s1 ← s.tick
  let s2 ← sweep age (s1.queued + 1) s1.q.head s1
  some (if s2.klm_msg ≠ 0 then s2.add_reply s2.klm_msg none else s2)

/-! ## Calls of the kernel and of other lock managers -/

/-- `klm_msg_routine(a, proc)`, when `a` was received before. -/
def klm_msg_routine (a : reclock) (proc : ℕ) : Option Msgs := do
  let msgp ← s.retransmitted a proc
  if msgp = 0 then some s
  else
    match (s.entry msgp).reply with
    | none => some { s with klm_msg := msgp }
    | some reply =>
      if reply.lstat ≠ blocking then some ((s.klm_reply msgp proc reply.lstat).dequeue msgp)
      else some { s with klm_msg := msgp }

/-- `if((msgp = retransmitted(a, proc)) != NULL) dequeue(msgp);`. -/
def drop (a : reclock) (proc : ℕ) : Option Msgs := do
  let msgp ← s.retransmitted a proc
  some (if msgp ≠ 0 then s.dequeue msgp else s)

/-- `local_granted(a)`, when a reply can be made. -/
def local_granted (a : reclock) (resp : remote_result) : Option Msgs := do
  let msgp ← s.retransmitted a KLM_LOCK
  some (if msgp ≠ 0 then s.add_reply msgp (some resp) else s)

/-- `nlm_res_routine(reply, cont)`, up to the call of `cont`. -/
def nlm_res_routine (reply : remote_result) : Option Msgs := do
  let msgp ← s.search_msg reply
  some (if msgp ≠ 0 ∧ (s.entry msgp).reply = none then { s with msgp := msgp } else s)

/-- `nlm_res_routine(reply, cont)`, once `cont` has returned `resp`. -/
def continued (resp : Option remote_result) : Msgs :=
  if s.msgp ≠ 0 then { s.add_reply s.msgp resp with msgp := 0 } else s

/-- `proc_nlm_granted_res(reply)`. -/
def proc_nlm_granted_res (reply : remote_result) : Option Msgs := do
  let msgp ← s.search_msg reply
  some (if msgp ≠ 0 then s.dequeue msgp else s)

/-! ## Runs -/

/-- What happens to the queue.  Between the two halves of `nlm_res_routine` the lock tables may drop
messages, and change the requests they share with the queue.  An event is not interrupted:
`priv_prog` does not block `SIGALRM`, and `xtimer` is taken to come between its requests. -/
inductive Event
  | queue (msgp : ℕ) (a : reclock) (proc : ℕ)
  | klm_prog
  | klm_msg_routine (a : reclock) (proc : ℕ)
  | drop (a : reclock) (proc : ℕ)
  | local_granted (a : reclock) (resp : remote_result)
  | nlm_res_routine (reply : remote_result)
  | continued (resp : Option remote_result)
  | proc_nlm_granted_res (reply : remote_result)
  | changed (msgp : ℕ) (a : reclock)
  | xtimer

def step : Event → Option Msgs
  | .queue msgp a proc => some (s.queue msgp a proc)
  | .klm_prog => some { s with klm_msg := 0 }
  | .klm_msg_routine a proc => s.klm_msg_routine a proc
  | .drop a proc => s.drop a proc
  | .local_granted a resp => s.local_granted a resp
  | .nlm_res_routine reply => s.nlm_res_routine reply
  | .continued resp => some (s.continued resp)
  | .proc_nlm_granted_res reply => s.proc_nlm_granted_res reply
  | .changed msgp a => some (s.set msgp { s.entry msgp with req := a })
  | .xtimer => s.xtimer

def run : Msgs → List Event → Option Msgs
  | s, [] => some s
  | s, e :: es => (s.step e).bind fun s' => run s' es

/-- The queue when the lock manager starts, with the grace period `LM_GRACE`. -/
def start (LM_GRACE : ℕ) : Msgs where
  q := { head := 0, nxt := fun _ => 0, prev := fun _ => 0 }
  entry := fun _ =>
    { req :=
        { cookie := [], block := false, exclusive := false, reclaim := false, rel := false,
          w_flag := false,
          lck :=
            { server_name := [], fh := [], pid := 0, l_offset := 0, l_len := 0, caller_name := [],
              oh := [], svid := 0, clnt_name := [], ub := 0, op := 0 } }
      reply := none
      t := { exp := 0, curr := 0 }
      proc := 0 }
  klm_msg := 0
  grace_period := LM_GRACE
  msgp := 0
  live := []
  queued := 0
  serial := fun _ => 0
  answers := []
  freed := []
  calls := []

/-- `xmalloc` returns no entry that is in use. -/
def Fresh : Event → Prop
  | .queue msgp _ _ => msgp = 0 ∨ msgp ∉ s.live
  | _ => True

instance (e : Event) : Decidable (s.Fresh e) := by
  cases e <;> unfold Fresh <;> infer_instance

end Msgs

end Lockd
