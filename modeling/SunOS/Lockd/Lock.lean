/-
# Lock requests (`rpc.lockd/prot_lock.h`, `prot_libr.c`)

A request covers the bytes `[l_offset, ub)` of a file.  `map_kernel_klm` makes the upper bound of a
request of the kernel and `map_klm_nlm` that of another lock manager; both compute in unsigned
words. The links of a request are left to those who use them.
-/
import SunOS.Lib.Bytes

namespace Lockd

def LOCK_SH : BitVec 32 := 1

def LOCK_EX : BitVec 32 := 2

def LOCK_NB : BitVec 32 := 4

/-- `(1<< 31 -1)`, where the subtraction comes first. -/
def MAXLEN : UInt32 := (1 : UInt32) <<< (31 - 1 : UInt32)

/-- What is locked, and by whom; strings are without their final zero. -/
structure lock where
  server_name : List UInt8
  fh : List UInt8
  pid : UInt32
  l_offset : UInt32
  l_len : UInt32
  caller_name : List UInt8
  oh : List UInt8
  svid : UInt32
  clnt_name : List UInt8
  ub : UInt32
  op : BitVec 32
  deriving DecidableEq, Repr

structure reclock where
  cookie : List UInt8
  block : Bool
  exclusive : Bool
  lck : lock
  reclaim : Bool
  rel : Bool
  w_flag : Bool
  deriving DecidableEq, Repr

def lock.lb (l : lock) : UInt32 := l.l_offset

/-! ## The mapping of requests -/

def NLM_GRANTED : ℕ := 5

def NLM_GRANTED_MSG : ℕ := 10

/-- "generate op". -/
def genop (a : reclock) : BitVec 32 :=
  (if a.exclusive then LOCK_EX else LOCK_SH) ||| (if a.block then 0 else LOCK_NB)

/-- "generate upper bound". -/
def genub (l : lock) : UInt32 := if l.l_len = 0 then MAXLEN else l.l_offset + l.l_len

/-- `map_kernel_klm(a)`, nothing when it returns -1; `xmalloc` says which of its calls succeed. -/
def map_kernel_klm (hostname : List UInt8) (cookie : UInt32) (xmalloc : ℕ → Bool) (a : reclock) :
    Option reclock :=
  let l := { a.lck with op := genop a, ub := genub a.lck }
  let l := if l.l_len > MAXLEN then { l with l_len := MAXLEN } else l
  let l := { l with svid := l.pid }
  if ¬ xmalloc 0 then none
  else
    let l := { l with oh := hostname ++ Bytes.htonl l.pid }
    if ¬ xmalloc 1 then none
    else
      let a := { a with cookie := Bytes.htonl (cookie + 1) }
      if ¬ xmalloc 2 then none
      else some { a with lck := { l with clnt_name := hostname, caller_name := hostname } }

/-- `map_klm_nlm(a, choice)`, nothing when it returns -1. -/
def map_klm_nlm (hostname : List UInt8) (choice : ℕ) (xmalloc : ℕ → Bool) (a : reclock) :
    Option reclock :=
  let granted : Bool := choice = NLM_GRANTED ∨ choice = NLM_GRANTED_MSG
  let a := if granted then { a with block := true } else a
  let l := { a.lck with op := genop a, ub := genub a.lck }
  if ¬ xmalloc 0 then none
  else
    some { a with
      lck :=
        if granted then { l with clnt_name := hostname, server_name := l.caller_name }
        else { l with server_name := hostname, clnt_name := l.caller_name } }

/-- Where a request comes from, and what its mapping depends on. -/
inductive Mapping
  | kernel (hostname : List UInt8) (cookie : UInt32) (xmalloc : ℕ → Bool)
  | nlm (hostname : List UInt8) (choice : ℕ) (xmalloc : ℕ → Bool)

def Mapping.map : Mapping → reclock → Option reclock
  | kernel hostname cookie xmalloc => map_kernel_klm hostname cookie xmalloc
  | nlm hostname choice xmalloc => map_klm_nlm hostname choice xmalloc

/-- Either way the bounds are those of the request. -/
theorem Mapping.bounds {m : Mapping} {a b : reclock} (h : m.map a = some b) :
    b.lck.l_offset = a.lck.l_offset ∧ b.lck.ub = genub a.lck := by
  cases m with
  | kernel hostname cookie xmalloc =>
    simp only [map, map_kernel_klm] at h
    split_ifs at h <;> obtain rfl := Option.some.inj h <;> exact ⟨rfl, rfl⟩
  | nlm hostname choice xmalloc =>
    simp only [map, map_klm_nlm] at h
    split_ifs at h <;> obtain rfl := Option.some.inj h <;> exact ⟨rfl, rfl⟩

/-! ## Comparisons of locks (`prot_lock.c`) -/

/-- `same_proc(x, y)`: they have the same owner handle. -/
def same_proc (x y : reclock) : Bool := x.lck.oh = y.lck.oh

/-- `inside(nl, a)`. -/
def inside (nl a : reclock) : Bool := a.lck.lb ≤ nl.lck.lb ∧ a.lck.ub ≥ nl.lck.ub

/-- `overlap(nl, a)`. -/
def overlap (nl a : reclock) : Bool := ¬ (nl.lck.ub ≤ a.lck.lb ∨ nl.lck.lb ≥ a.lck.ub)

def same_bound (a b : reclock) : Bool := a.lck.lb = b.lck.lb ∧ a.lck.ub = b.lck.ub

def same_op (a b : reclock) : Bool :=
  (a.lck.op &&& LOCK_EX ≠ 0 ∧ b.lck.op &&& LOCK_EX ≠ 0) ∨
    (a.lck.op &&& LOCK_SH ≠ 0 ∧ b.lck.op &&& LOCK_SH ≠ 0)

def same_lock (a b : reclock) : Bool := same_proc a b ∧ same_op a b ∧ same_bound a b

def simi_lock (a b : reclock) : Bool := same_proc a b ∧ same_op a b ∧ inside b a

/-- `adj_len(a)`: "l_len field, since lb or ub has changed". -/
def adj_len (a : reclock) : reclock :=
  { a with
    lck := { a.lck with l_len := if a.lck.ub = MAXLEN then 0 else a.lck.ub - a.lck.l_offset } }

end Lockd
