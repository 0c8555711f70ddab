/-
# The cache of duplicate requests

The routines at the end of `svc_kudp.c`.  An entry is known by its address, and 0 is a null
pointer; `kmem_alloc` gives a new address each time.  A loop down a hash chain gets a bound on the
number of entries it looks at, and has no answer when the bound is reached.
-/
import Mathlib.Data.Nat.Notation
import Mathlib.Logic.Function.Basic

namespace Nfs

open Function (update)

/-- `struct sockaddr_in`. -/
structure sockaddr_in where
  sin_family : BitVec 16
  sin_port : BitVec 16
  sin_addr : BitVec 32
  sin_zero : BitVec 64
  deriving DecidableEq

/-- What tells one request from another: the transaction id, the sender's address and the
procedure. -/
structure transaction where
  xid : BitVec 32
  addr : sockaddr_in
  proc : BitVec 32
  vers : BitVec 32
  prog : BitVec 32
  deriving DecidableEq

/-- `MAXDUPREQS`: the number of cached items. -/
def MAXDUPREQS : ℕ := 400

/-- `XIDHASH(xid)`: the low bits, for a table of `DRHASHSZ` 32. -/
def XIDHASH (xid : BitVec 32) : BitVec 5 := xid.setWidth 5

/-- The entries, their links and the hash table. -/
structure DupCache where
  ndupreqs : ℕ
  /-- What each entry is about: `dr_xid`, `dr_addr`, `dr_proc`, `dr_vers` and `dr_prog`. -/
  dr : ℕ → transaction
  dr_next : ℕ → ℕ
  dr_chain : ℕ → ℕ
  drhashtbl : BitVec 5 → ℕ
  drmru : ℕ

namespace DupCache

/-- No entries: all is zero. -/
def empty : DupCache where
  ndupreqs := 0
  dr _ := ⟨0, ⟨0, 0, 0, 0⟩, 0, 0, 0⟩
  dr_next _ := 0
  dr_chain _ := 0
  drhashtbl _ := 0
  drmru := 0

/-- `DRHASH(dr)`. -/
def DRHASH (c : DupCache) (a : ℕ) : BitVec 5 := XIDHASH (c.dr a).xid

/-- The loop of `unhash(dr)`. -/
def unhashloop (c : DupCache) (a : ℕ) : ℕ → ℕ → ℕ → Option DupCache
  | 0, _, _ => none
  | fuel + 1, drt, drtprev =>
    if drt = 0 then some c
    else if drt = a then
      if drtprev = 0 then
        some { c with drhashtbl := update c.drhashtbl (c.DRHASH a) (c.dr_chain drt) }
      else some { c with dr_chain := update c.dr_chain drtprev (c.dr_chain drt) }
    else unhashloop c a fuel (c.dr_chain drt) drt

/-- `unhash(dr)`. -/
def unhash (c : DupCache) (a : ℕ) : Option DupCache :=
  c.unhashloop a (c.ndupreqs + 1) (c.drhashtbl (c.DRHASH a)) 0

/-- A new entry, which goes into the ring after `drmru`. -/
def newentry (c : DupCache) : DupCache × ℕ :=
  let a := c.ndupreqs + 1
  let next := if c.drmru ≠ 0 then
      update (update c.dr_next a (c.dr_next c.drmru)) c.drmru a
    else update c.dr_next a a
  ({ c with ndupreqs := c.ndupreqs + 1, dr_next := next }, a)

/-- The entry `a` becomes `drmru`, is filled in and goes on its chain. -/
def fill (c : DupCache) (a : ℕ) (req : transaction) : DupCache :=
  let h := XIDHASH req.xid
  { c with
    drmru := a
    dr := update c.dr a req
    dr_chain := update c.dr_chain a (c.drhashtbl h)
    drhashtbl := update c.drhashtbl h a }

/-- `svckudp_dupsave(req)`. -/
def dupsave (c : DupCache) (req : transaction) : Option DupCache :=
  if c.ndupreqs < MAXDUPREQS then
    let (c, a) := c.newentry
    some (c.fill a req)
  else
    let a := c.dr_next c.drmru
    (c.unhash a).map fun c => c.fill a req

/-- The loop of `svckudp_dup(req)`. -/
def duploop (c : DupCache) (req : transaction) : ℕ → ℕ → Option Bool
  | 0, _ => none
  | fuel + 1, a =>
    if a = 0 then some false
    else if c.dr a ≠ req then duploop c req fuel (c.dr_chain a)
    else some true

/-- `svckudp_dup(req)`. -/
def dup (c : DupCache) (req : transaction) : Option Bool :=
  c.duploop req (c.ndupreqs + 1) (c.drhashtbl (XIDHASH req.xid))

end DupCache

end Nfs
