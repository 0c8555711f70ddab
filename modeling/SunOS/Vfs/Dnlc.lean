/-
# The directory name lookup cache (`vfs_dnlc.c`)

A slot of the cache holds a directory vnode `dp`, a name, the vnode `vp` the name refers to
and the credentials it was found with.  All slots are on the LRU list; a slot in use is also
on the hash chain of its directory and name, and has a reference to both vnodes and to the
credentials.

A vnode and a `ucred` are natural numbers, `none` the null pointer.  A result `none` is a
panic, a null pointer followed or a loop that does not end.  `v_count` and `cr_ref` are
`u_short`s in the source and have no bound here: the cache has `ncsize` slots, a few hundred,
and the other tables with references are no larger, so that they stay far below `2 ^ 16`.  The
counters of `ncstats` are left out, and so is what `VOP_INACTIVE` does to a vnode without
references.
-/
import SunOS.Lib.Que
import Mathlib.Data.List.Range

namespace Dnlc

open Function (update)

abbrev vnode := ℕ

abbrev ucred := ℕ

/-- A name: a string with at least one character. -/
structure Name where
  chars : List ℤ
  nonempty : chars ≠ []
  deriving DecidableEq

/-- `NC_HASH_SIZE` -/
def NC_HASH_SIZE : ℕ := 8

/-- `NC_NAMLEN`, the longest name that is cached. -/
def NC_NAMLEN : ℕ := 15

/-- `NC_HASH(namep, namlen, vp)` -/
def NC_HASH (name : List ℤ) (vp : vnode) : ℕ :=
  ((name.headD 0 + name.getLastD 0 + name.length + vp) % NC_HASH_SIZE).toNat

/-- The credentials of a search: `ANYCRED`, or some, of which null is `NOCRED`. -/
inductive searchcred
  | ANYCRED
  | the (cred : Option ucred)
  deriving DecidableEq

/-- `struct ncache` without its links; `name` is its first `namlen` characters. -/
structure ncache where
  dp : Option vnode
  vp : Option vnode
  name : List ℤ
  cred : Option ucred
  deriving DecidableEq

/-- A node of the hash chains: a slot or a chain's head. -/
inductive hnode
  | slot (i : ℕ)
  | head (hash : ℕ)
  deriving DecidableEq

/-- A node of the LRU list: a slot or `nc_lru`. -/
inductive lnode
  | slot (i : ℕ)
  | nc_lru
  deriving DecidableEq

/-- The cache, and the reference counts it works on. -/
structure dnlc where
  doingcache : Bool
  ncsize : ℕ
  nc : ℕ → ncache
  hash : Que hnode
  lru : Que lnode
  v_count : vnode → ℕ
  cr_ref : ucred → ℤ

/-! ## References -/

/-- `VN_HOLD(vp)` -/
def VN_HOLD (s : dnlc) (vp : vnode) : dnlc :=
  { s with v_count := update s.v_count vp (s.v_count vp + 1) }

/-- `VN_RELE(vp)`, which panics when there is no reference to give back. -/
def VN_RELE (s : dnlc) : Option vnode → Option dnlc
  | none => none
  | some vp =>
      if s.v_count vp = 0 then none
      else some { s with v_count := update s.v_count vp (s.v_count vp - 1) }

/-- `crhold(cred)` -/
def crhold (s : dnlc) (cred : ucred) : dnlc :=
  { s with cr_ref := update s.cr_ref cred (s.cr_ref cred + 1) }

/-- `crfree(cred)` -/
def crfree (s : dnlc) (cred : ucred) : dnlc :=
  { s with cr_ref := update s.cr_ref cred (s.cr_ref cred - 1) }

/-- What is written to a slot. -/
def dnlc.set (s : dnlc) (i : ℕ) (c : ncache) : dnlc := { s with nc := update s.nc i c }

/-! ## dnlc_init -/

/-- A slot in the first loop of `dnlc_init`. -/
def initslot (s : dnlc) (i : ℕ) : dnlc :=
  { s with
    lru := s.lru.insque (.slot i) .nc_lru
    hash := s.hash.lone (.slot i)
    nc := update s.nc i { s.nc i with dp := none, vp := none } }

/-- A chain in the second loop. -/
def inithash (s : dnlc) (j : ℕ) : dnlc := { s with hash := s.hash.lone (.head j) }

/-- `dnlc_init()`, on memory with anything in it. -/
def dnlc_init (s : dnlc) : dnlc :=
  let s := { s with lru := s.lru.lone .nc_lru }
  let s := (List.range s.ncsize).foldl initslot s
  (List.range NC_HASH_SIZE).foldl inithash s

/-! ## dnlc_search -/

/-- Whether a slot has what is searched for. -/
def matching (c : ncache) (dp : vnode) (name : List ℤ) (cred : searchcred) : Bool :=
  c.dp = some dp ∧ c.name.length = name.length ∧ (cred = .ANYCRED ∨ cred = .the c.cred) ∧
    c.name.head? = name.head? ∧ c.name = name

/-- `dnlc_search(dp, name, namlen, hash, cred)` -/
def dnlc_search (s : dnlc) (dp : vnode) (name : List ℤ) (hash : ℕ) (cred : searchcred) :
    Option (Option ℕ) := do
  let found ← s.hash.find
    (fun ncp => match ncp with
      | .slot i => matching (s.nc i) dp name cred
      | .head _ => false)
    (.head hash) (s.ncsize + 1) (s.hash.next (.head hash))
  match found with
  | some (.slot i) => some (some i)
  | some (.head _) => none
  | none => some none

/-! ## dnlc_rm -/

/-- `dnlc_rm(ncp)` -/
def dnlc_rm (s : dnlc) (i : ℕ) : Option dnlc := do
  let s := { s with lru := s.lru.remque (.slot i), hash := s.hash.remque (.slot i) }
  let s ← VN_RELE s (s.nc i).dp
  let s := s.set i { s.nc i with dp := none }
  let s ← VN_RELE s (s.nc i).vp
  let s := s.set i { s.nc i with vp := none }
  let s := match (s.nc i).cred with
    | some cred => (crfree s cred).set i { s.nc i with cred := none }
    | none => s
  let s := { s with lru := s.lru.insque (.slot i) .nc_lru }
  some { s with hash := s.hash.lone (.slot i) }

/-- Slots are removed as long as one is found. -/
def rmloop (search : dnlc → Option (Option ℕ)) : ℕ → dnlc → Option dnlc
  | 0, _ => none
  | fuel + 1, s => do
      match ← search s with
      | none => some s
      | some i =>
          let s ← dnlc_rm s i
          rmloop search fuel s

/-! ## dnlc_enter, dnlc_lookup -/

/-- `dnlc_enter(dp, name, vp, cred)` -/
def dnlc_enter (s : dnlc) (dp : vnode) (name : List ℤ) (vp : vnode) (cred : Option ucred) :
    Option dnlc := do
  if ¬ s.doingcache then some s
  else if NC_NAMLEN < name.length then some s
  else
    let hash := NC_HASH name dp
    match ← dnlc_search s dp name hash (.the cred) with
    | some _ => some s
    | none =>
        match s.lru.next .nc_lru with
        | .nc_lru => some s
        | .slot i =>
            let s := { s with lru := s.lru.remque (.slot i), hash := s.hash.remque (.slot i) }
            let s ← match (s.nc i).dp with
              | some old => VN_RELE s (some old)
              | none => some s
            let s ← match (s.nc i).vp with
              | some old => VN_RELE s (some old)
              | none => some s
            -- the credentials of the old entry are not given back
            let s := VN_HOLD s dp
            let s := VN_HOLD s vp
            let s := s.set i ⟨some dp, some vp, name, cred⟩
            let s := match cred with
              | some cred => crhold s cred
              | none => s
            let s := { s with lru := s.lru.insque (.slot i) (s.lru.prev .nc_lru) }
            some { s with hash := s.hash.insque (.slot i) (.head hash) }

/-- `dnlc_lookup(dp, name, cred)` -/
def dnlc_lookup (s : dnlc) (dp : vnode) (name : List ℤ) (cred : searchcred) :
    Option (Option vnode × dnlc) := do
  if ¬ s.doingcache then some (none, s)
  else if NC_NAMLEN < name.length then some (none, s)
  else
    let hash := NC_HASH name dp
    match ← dnlc_search s dp name hash cred with
    | none => some (none, s)
    | some i =>
        let s := { s with lru := s.lru.remque (.slot i) }
        let s := { s with lru := s.lru.insque (.slot i) (s.lru.prev .nc_lru) }
        if s.hash.prev (.slot i) ≠ .head hash then
          let q := s.hash.remque (.slot i)
          let s := { s with hash := q.insque (.slot i) (q.prev (q.prev (.slot i))) }
          some ((s.nc i).vp, s)
        else some ((s.nc i).vp, s)

/-! ## Removing and purging -/

/-- `dnlc_remove(dp, name)` -/
def dnlc_remove (s : dnlc) (dp : vnode) (name : List ℤ) : Option dnlc :=
  if NC_NAMLEN < name.length then some s
  else rmloop (fun s => dnlc_search s dp name (NC_HASH name dp) .ANYCRED) (s.ncsize + 1) s

/-- The slot a round of `dnlc_purge` removes: the first of the first chain that has one. -/
def purgefirst (s : dnlc) : Option (Option ℕ) :=
  match (List.range NC_HASH_SIZE).find? fun j => s.hash.next (.head j) ≠ .head j with
  | none => some none
  | some j =>
      match s.hash.next (.head j) with
      | .head _ => none
      | .slot i => if (s.nc i).dp = none ∨ (s.nc i).vp = none then none else some (some i)

/-- `dnlc_purge()` -/
def dnlc_purge (s : dnlc) : Option dnlc := rmloop purgefirst (s.ncsize + 1) s

/-- The first slot on the LRU list with `p`. -/
def lrufirst (p : ncache → Bool) (s : dnlc) : Option (Option ℕ) := do
  let found ← s.lru.find
    (fun ncp => match ncp with
      | .slot i => p (s.nc i)
      | .nc_lru => false)
    .nc_lru (s.ncsize + 1) (s.lru.next .nc_lru)
  match found with
  | some (.slot i) => some (some i)
  | some .nc_lru => none
  | none => some none

/-- `dnlc_purge_vp(vp)` -/
def dnlc_purge_vp (s : dnlc) (vp : vnode) : Option dnlc :=
  rmloop (lrufirst fun c => c.dp = some vp ∨ c.vp = some vp) (s.ncsize + 1) s

/-- `dnlc_purge1()`, and whether there was an entry to purge. -/
def dnlc_purge1 (s : dnlc) : Option (Bool × dnlc) := do
  match ← lrufirst (fun c => c.dp.isSome) s with
  | some i =>
      let s ← dnlc_rm s i
      some (true, s)
  | none => some (false, s)

/-! ## Calls -/

/-- A call of the rest of the kernel. -/
inductive Call
  | enter (dp : vnode) (name : Name) (vp : vnode) (cred : Option ucred)
  | lookup (dp : vnode) (name : Name) (cred : searchcred)
  | remove (dp : vnode) (name : Name)
  | purge
  | purge_vp (vp : vnode)
  | purge1

/-- What a call leaves. -/
def dnlc.call (s : dnlc) : Call → Option dnlc
  | .enter dp name vp cred => dnlc_enter s dp name.chars vp cred
  | .lookup dp name cred => (dnlc_lookup s dp name.chars cred).map Prod.snd
  | .remove dp name => dnlc_remove s dp name.chars
  | .purge => dnlc_purge s
  | .purge_vp vp => dnlc_purge_vp s vp
  | .purge1 => (dnlc_purge1 s).map Prod.snd

/-- What a sequence of calls leaves. -/
def dnlc.calls (s : dnlc) (cs : List Call) : Option dnlc := cs.foldlM dnlc.call s

end Dnlc
