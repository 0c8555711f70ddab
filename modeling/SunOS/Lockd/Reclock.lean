/-
# The granted locks of a file (`rpc.lockd/prot_lock.c`, `prot_proc.c`)

The locks of a file stand in a doubly linked list, "in increasing lb order".  A request brings two
entries with it: its own, which goes into the list when the lock is granted, and `pre_le`, a copy of
it for the second half when a lock is broken into two.  Monitors and the wait queue are left out:
what waits belongs to another owner.
-/
import SunOS.Lib.Doubly
import SunOS.Lib.RangeMap
import SunOS.Lockd.Msg

namespace Lockd

/-- `nlm_granted`, `nlm_denied`. -/
def nlm_granted : ℕ := 0

def nlm_denied : ℕ := 1

/-- The locks of a file.  `fe` says whether the file has its `struct fs_rlck`, `q` is its `rlckp`
with the links `nxt` and `prev`; `live` are the entries in the list, as the allocator knows them. -/
structure Grants where
  fe : Bool
  q : Doubly
  entry : ℕ → reclock
  live : List ℕ

namespace Grants

variable (s : Grants)

def setEntry (p : ℕ) (r : reclock) : Grants := { s with entry := Function.update s.entry p r }

/-- `insert_le(fp, insrtp, a)`. -/
def insert_le (insrtp a : ℕ) : Grants := { s with q := s.q.insert insrtp a, live := a :: s.live }

/-- `delete_le(fp, a)`, and `release_le(a)` unless it goes back into the list. -/
def delete_le (a : ℕ) : Grants := { s with q := s.q.delete a, live := s.live.erase a }

/-- The walk of `find_insert`: "find a in the proper order". -/
def findInsert (a : reclock) : ℕ → ℕ → ℕ → Option ℕ
  | 0, _, _ => none
  | fuel + 1, nl, insrtp =>
    if nl ≠ 0 ∧ (s.entry nl).lck.lb < a.lck.ub then
      if (s.entry nl).lck.lb < a.lck.lb then findInsert a fuel (s.q.nxt nl) nl else some nl
    else some insrtp

/-- `find_insert(fp, a)`. -/
def find_insert (a : ℕ) : Option Grants :=
  (s.findInsert (s.entry a) (s.live.length + 1) s.q.head 0).map fun insrtp => s.insert_le insrtp a

/-! ## Blocked locks -/

/-- A lock of another process that is in the way of `a`. -/
def inTheWay (nl a : reclock) : Bool :=
  ¬ same_proc nl a ∧ a.lck.lb < nl.lck.ub ∧ (nl.lck.op &&& LOCK_EX ≠ 0 ∨ a.lck.op &&& LOCK_EX ≠ 0)

/-- "set up initial insrtp value": whether `a` is blocked, `insrtp`, and where the walk stopped. -/
def blockedBelow (a : reclock) : ℕ → ℕ → ℕ → Option (Bool × ℕ × ℕ)
  | 0, _, _ => none
  | fuel + 1, nl, insrtp =>
    if nl ≠ 0 ∧ (s.entry nl).lck.lb ≤ a.lck.lb then
      if same_proc (s.entry nl) a ∧ a.lck.lb ≤ (s.entry nl).lck.ub then some (false, nl, nl)
      else if inTheWay (s.entry nl) a then some (true, nl, nl)
      else blockedBelow a fuel (s.q.nxt nl) nl
    else some (false, insrtp, nl)

/-- The second walk of `blocked`. -/
def blockedAbove (a : reclock) : ℕ → ℕ → ℕ → Option (Bool × ℕ)
  | 0, _, _ => none
  | fuel + 1, nl, insrtp =>
    if nl ≠ 0 ∧ (s.entry nl).lck.lb < a.lck.ub then
      if inTheWay (s.entry nl) a then some (true, nl)
      else blockedAbove a fuel (s.q.nxt nl) insrtp
    else some (false, insrtp)

/-- `blocked(fp, insrtp, a)`, with what it stores in `*insrtp`. -/
def blocked (a : reclock) : Option (Bool × ℕ) :=
  if ¬ s.fe then some (false, 0)
  else do
    let (stop, insrtp, nl) ← s.blockedBelow a (s.live.length + 1) s.q.head 0
    if stop then some (true, insrtp) else s.blockedAbove a (s.live.length + 1) nl insrtp

end Grants

/-! ## Deleting -/

/-- The variables of `delete_reclock`. -/
structure Deletion where
  s : Grants
  insrtp : ℕ
  pre_le : ℕ
  lock_ex : ℕ
  lock_sh : ℕ

namespace Deletion

variable (d : Deletion) (a : reclock) (nl : ℕ)

/-- An exclusive or a shared lock is counted. -/
def count : Deletion :=
  if (d.s.entry nl).lck.op &&& LOCK_EX ≠ 0 then { d with lock_ex := d.lock_ex + 1 }
  else { d with lock_sh := d.lock_sh + 1 }

/-- `if(nl == *insrtp) *insrtp = (*insrtp)->prev`, and `delete_le(fp, nl)`. -/
def remove : Deletion :=
  { d with
    insrtp := if nl = d.insrtp then d.s.q.prev nl else d.insrtp
    s := d.s.delete_le nl }

/-- "break into half"; nothing when it aborts for want of an entry. -/
def breakInHalf : Option Deletion :=
  if d.pre_le = 0 then none
  else
    let e := d.s.entry nl
    let n := d.s.entry d.pre_le
    let s := d.s.setEntry nl (adj_len { e with lck := { e.lck with ub := a.lck.lb } })
    let s := s.setEntry d.pre_le (adj_len { n with
      block := e.block
      exclusive := e.exclusive
      lck := { n.lck with ub := e.lck.ub, l_offset := a.lck.ub, op := e.lck.op } })
    (s.find_insert d.pre_le).map fun s => { d with s := s, pre_le := 0 }

/-- "first half remains". -/
def firstHalf : Deletion :=
  let e := d.s.entry nl
  { d with s := d.s.setEntry nl (adj_len { e with lck := { e.lck with ub := a.lck.lb } }) }

/-- "second half remains". -/
def secondHalf : Option Deletion :=
  let e := d.s.entry nl
  let s := d.s.setEntry nl (adj_len { e with lck := { e.lck with l_offset := a.lck.ub } })
  let d := remove { d with s := s } nl
  (d.s.find_insert nl).map fun s => { d with s := s }

/-- What `delete_reclock` does at one lock. -/
def visit : Option Deletion :=
  let e := d.s.entry nl
  if same_proc e a ∧ e.lck.ub > a.lck.lb then
    let d := d.count nl
    if inside e a then some (d.remove nl)
    else if e.lck.ub > a.lck.ub ∧ e.lck.lb < a.lck.lb then d.breakInHalf a nl
    else if a.lck.lb > e.lck.lb then some (d.firstHalf a nl)
    else if a.lck.ub < e.lck.ub then d.secondHalf a nl
    else some d
  else some d

/-- The loop of `delete_reclock`. -/
def walk (a : reclock) : ℕ → ℕ → Deletion → Option Deletion
  | 0, _, _ => none
  | fuel + 1, nl, d =>
    if nl ≠ 0 ∧ (d.s.entry nl).lck.lb < a.lck.ub then
      (d.visit a nl).bind (walk a fuel (d.s.q.nxt nl))
    else some d

end Deletion

namespace Grants

variable (s : Grants)

/-- `delete_reclock(fp, insrtp, a)`. -/
def delete_reclock (insrtp pre_le : ℕ) (a : reclock) : Option Deletion :=
  Deletion.walk a (s.live.length + 1) (if insrtp = 0 then s.q.head else insrtp)
    { s := s, insrtp := insrtp, pre_le := pre_le, lock_ex := 0, lock_sh := 0 }

/-! ## Adding -/

/-- "check to see if a'lower bound is connected with *insrtp". -/
def connectBelow (insrtp a : ℕ) : Grants × ℕ :=
  let nl := s.entry insrtp
  let r := s.entry a
  if insrtp ≠ 0 ∧ same_proc nl r ∧ same_op nl r ∧ nl.lck.ub = r.lck.lb then
    ((s.setEntry a
        (adj_len { r with lck := { r.lck with l_offset := nl.lck.lb } })).delete_le insrtp,
      s.q.prev insrtp)
  else (s, insrtp)

/-- "check to see if a's upper bound is connected to another lock". -/
def connectAbove (a : ℕ) : ℕ → ℕ → Option Grants
  | 0, _ => none
  | fuel + 1, p =>
    let nl := s.entry p
    let r := s.entry a
    if p ≠ 0 ∧ nl.lck.lb ≤ r.lck.ub then
      if same_proc nl r ∧ same_op nl r ∧ nl.lck.lb = r.lck.ub then
        some ((s.setEntry a (adj_len { r with lck := { r.lck with ub := nl.lck.ub } })).delete_le p)
      else connectAbove a fuel (s.q.nxt p)
    else some s

/-- `add_reclock(fp, insrtp, a)`; nothing when it aborts.  `pre_fe` says whether there is an entry
for the file. -/
def add_reclock (insrtp a pre_le : ℕ) (pre_fe : Bool) : Option Grants :=
  let r := s.entry a
  let nl := s.entry insrtp
  if ¬ s.fe then
    if ¬ pre_fe then none else some ({ s with fe := true }.insert_le insrtp a)
  else if insrtp ≠ 0 ∧ same_proc nl r ∧ same_op nl r ∧ inside r nl then some s
  else do
    let d ← s.delete_reclock insrtp pre_le r
    let (s1, insrtp) := d.s.connectBelow d.insrtp a
    let s2 ← s1.connectAbove a (s1.live.length + 1) s1.q.head
    some (s2.insert_le insrtp a)

/-! ## Requests -/

/-- `copy_le(b)`; "callername is not copied". -/
def copy_le (b : reclock) : reclock :=
  { b with
    reclaim := false, rel := false, w_flag := false
    lck := { b.lck with caller_name := b.lck.clnt_name } }

/-- `local_lock(a)`, with the status it replies; the request is at `a`. -/
def local_lock (a pre_le : ℕ) (pre_fe : Bool) : Option (Grants × ℕ) := do
  let (stop, insrtp) ← s.blocked (s.entry a)
  if stop then
    some (s, if (s.entry a).lck.op &&& LOCK_NB ≠ 0 then nlm_denied else blocking)
  else
    let s ← s.add_reclock insrtp a pre_le pre_fe
    some (s, nlm_granted)

/-- `local_unlock(a)`. -/
def local_unlock (a : reclock) (pre_le : ℕ) : Option (Grants × ℕ) :=
  if s.fe then (s.delete_reclock 0 pre_le a).map fun d => (d.s, nlm_granted)
  else some (s, nlm_granted)

/-- A request as it comes in: how it is mapped, and the addresses of the entries got for it, its own
and that of the copy.  An emptied file loses its `struct fs_rlck` later. -/
inductive Request
  | lock (m : Mapping) (r : reclock) (a pre_le : ℕ)
  | unlock (m : Mapping) (r : reclock) (pre_le : ℕ)
  | release_fe

/-- A request is served.  One that cannot be mapped is dropped. -/
def serve : Request → Option (Grants × ℕ)
  | .lock m r a pre_le =>
    match m.map r with
    | none => some (s, nlm_denied)
    | some r => ((s.setEntry a r).setEntry pre_le (copy_le r)).local_lock a pre_le true
  | .unlock m r pre_le =>
    match m.map r with
    | none => some (s, nlm_denied)
    | some r => (s.setEntry pre_le (copy_le r)).local_unlock r pre_le
  | .release_fe => some ({ s with fe := if s.q.head = 0 then false else s.fe }, nlm_granted)

def run : Grants → List Request → Option Grants
  | s, [] => some s
  | s, r :: rs => (s.serve r).bind fun s' => run s'.1 rs

/-- A file without locks. -/
def empty (entry : ℕ → reclock) : Grants where
  fe := false
  q := { head := 0, nxt := fun _ => 0, prev := fun _ => 0 }
  entry := entry
  live := []

end Grants

end Lockd
