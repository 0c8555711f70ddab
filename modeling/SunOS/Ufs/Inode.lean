/-
# Inodes, quotas and the allocation of blocks to files
(`ufs/ufs_alloc.c`, `ufs/quota_ufs.c`)

`alloc` and `realloccg` get blocks and fragments for an inode, `ialloc` gets an
inode; they charge the owner's quota (`chkdq`, `chkiq`) and sweep the cylinder
groups (`hashalloc`).  The outer `Option` of a result is `none` for a panic, the
inner one is the `NULL` a function returns.
-/
import SunOS.Ufs.Alloc
import SunOS.Lib.Word

namespace Ufs

inductive Errno
  | EDQUOT
  | ENOSPC
  | EIO
  | EFBIG
deriving DecidableEq

/-- `btodb(bytes)`: device blocks of 512 bytes. -/
def btodb (bytes : ℕ) : ℕ := bytes >>> 9

def IFMT : ℕ := 0o170000
def IFDIR : ℕ := 0o040000

/-- Limits and usage of one user on the file system. -/
structure dquot where
  dq_blks : Bool
  dq_files : Bool
  dq_bhardlimit : ℤ
  dq_bsoftlimit : ℤ
  dq_curblocks : ℤ
  dq_fhardlimit : ℤ
  dq_fsoftlimit : ℤ
  dq_curfiles : ℤ
  dq_btimelimit : ℤ
  dq_ftimelimit : ℤ

/-- The caller, the clock and the time limits of the mounted file system. -/
structure user where
  u_uid : ℕ
  u_ruid : ℕ
  tv_sec : ℤ
  m_btimelimit : ℤ
  m_ftimelimit : ℤ

structure inode where
  i_number : ℕ
  i_mode : ℕ
  i_uid : ℕ
  i_size : ℕ
  i_db : ℕ → ℕ
  i_ib : ℕ → ℕ
  i_blocks : ℤ
  i_dquot : Option ℕ

/-- The kernel state of one inode of the file system.  `blk` holds the bytes of the
fragments, `bap` the same blocks seen as block addresses; `blkerr` says which
buffers come back with `B_ERROR`, `igeterr` whether the next `iget` fails.  A quota
record is found by its user, when quotas are on for that user; `fs_cgrotor` is the
group `blkpref` searched last. -/
structure Kern where
  fsys : State
  fs_cgrotor : ℕ
  dquots : ℕ → dquot
  quotaon : ℕ → Bool
  ip : inode
  blk : ℕ → ℕ → UInt8
  bap : ℕ → ℕ → ℕ
  blkerr : ℕ → Bool
  igeterr : Bool
  imode : ℕ → ℕ
  iblocks : ℕ → ℤ
  u_error : Option Errno

open Errno

variable (fs : Ufs.fs) (u : user)

def Kern.setquot (k : Kern) (uid : ℕ) (dq : dquot) : Kern :=
  { k with dquots := Function.update k.dquots uid dq }

/-! ## Quotas -/

/-- Update disk usage, and take corrective action. -/
def chkdq (change : ℤ) (force : Bool) (k : Kern) : Option Errno × Kern :=
  if change = 0 then (none, k)
  else
    match k.ip.i_dquot with
    | none => (none, k)
    | some uid =>
      let dq := k.dquots uid
      if change < 0 then
        let cur := if int32 dq.dq_curblocks + change ≥ 0 then dq.dq_curblocks + change else 0
        (none, k.setquot uid { dq with dq_curblocks := cur, dq_blks := false })
      else
        let ncurblocks := uint32 (dq.dq_curblocks + change)
        if u.u_uid = 0 then (none, k.setquot uid { dq with dq_curblocks := ncurblocks })
        else
          let mine := k.ip.i_uid = u.u_ruid
          -- over the hard limit
          let hard : Bool := ncurblocks ≥ dq.dq_bhardlimit && dq.dq_bhardlimit ≠ 0 && !force
          -- over the soft limit: the clock starts, or has run out
          let soft : Bool := ncurblocks ≥ dq.dq_bsoftlimit && dq.dq_bsoftlimit ≠ 0
          let start : Bool := dq.dq_curblocks < dq.dq_bsoftlimit || dq.dq_btimelimit = 0
          let late : Bool := soft && !start && u.tv_sec > dq.dq_btimelimit && !force
          let dq := if hard ∧ mine then { dq with dq_blks := true } else dq
          let dq := if soft && start then
              { dq with dq_btimelimit := uint32 (u.tv_sec + u.m_btimelimit) } else dq
          let dq := if late ∧ mine then { dq with dq_blks := true } else dq
          if hard || late then (some .EDQUOT, k.setquot uid dq)
          else (none, k.setquot uid { dq with dq_curblocks := ncurblocks })

/-- `chkiq` for an allocation: the inode limit of user `uid`. -/
def chkiq (uid : ℕ) (force : Bool) (k : Kern) : Option Errno × Kern :=
  if !k.quotaon uid then (none, k)
  else
    let dq := k.dquots uid
    if dq.dq_fsoftlimit = 0 ∧ dq.dq_fhardlimit = 0 then (none, k)
    else if u.u_uid = 0 then
      (none, k.setquot uid { dq with dq_curfiles := uint32 (dq.dq_curfiles + 1) })
    else
      let ncurfiles := uint32 (dq.dq_curfiles + 1)
      let mine := uid = u.u_ruid
      let hard : Bool := ncurfiles ≥ dq.dq_fhardlimit && dq.dq_fhardlimit ≠ 0 && !force
      let soft : Bool := !hard && ncurfiles ≥ dq.dq_fsoftlimit && dq.dq_fsoftlimit ≠ 0
      let start : Bool := ncurfiles = dq.dq_fsoftlimit || dq.dq_ftimelimit = 0
      let late : Bool := soft && !start && u.tv_sec > dq.dq_ftimelimit && !force
      let dq := if soft && start then
          { dq with dq_ftimelimit := uint32 (u.tv_sec + u.m_ftimelimit) } else dq
      let dq := if (hard || late) ∧ mine then { dq with dq_files := true } else dq
      if hard || late then (some .EDQUOT, k.setquot uid dq)
      else (none, k.setquot uid { dq with dq_curfiles := uint32 (dq.dq_curfiles + 1) })

/-! ## Inodes of a group -/

/-- The first clear bit of a byte, from bit `i` on; `n` bits are left. -/
def firstclr (map : BitVec 8) : ℕ → ℕ → Option ℕ
  | 0, _ => none
  | n + 1, i => if map.getLsbD i then firstclr map n (i + 1) else some i

/-- The search of the inode map behind the rotor: the inode and the rotor's new place. -/
def isearch (cgp : cg) : Option ℕ :=
  let start := cgp.cg_irotor / NBBY
  let len := howmany (fs.fs_ipg - cgp.cg_irotor) NBBY
  let loc := skpc cgp.cg_iused len start
  let found : Option ℕ :=
    if loc ≠ 0 then some (start + len - loc)
    else
      let loc := skpc cgp.cg_iused (start + 1) 0
      -- `panic("ialloccg: map corrupted")`
      if loc ≠ 0 then some (start + 1 - loc) else none
  match found with
  | none => none
  | some i =>
    -- `panic("ialloccg: block not in map")`
    match firstclr (cgp.cg_iused i) NBBY 0 with
    | none => none
    | some b => some (i * NBBY + b)

/-- The label `gotit` of `ialloccg`. -/
def igotit (cg ipref mode : ℕ) (cgp : Ufs.cg) (s : State) : ℕ × State :=
  let cgp := { cgp with cg_iused := setbit cgp.cg_iused ipref }.addnifree (-1)
  let s := addnifree s cg (-1)
  let dir := mode &&& IFMT = IFDIR
  let cgp := if dir then cgp.addndir 1 else cgp
  let s := if dir then addndir s cg 1 else s
  (cg * fs.fs_ipg + ipref, bdwritecg s cg cgp)

/-- Determine whether an inode can be allocated. -/
def ialloccg (cg ipref mode : ℕ) (s : State) : Option (ℕ × State) :=
  if (s.fs_cs cg).cs_nifree = 0 then some (0, s)
  else
    match breadcg s cg with
    | none => some (0, s)
    | some cgp =>
      if cgp.cg_cs.cs_nifree = 0 then some (0, s)
      else if ipref ≠ 0 ∧ isset cgp.cg_iused (ipref % fs.fs_ipg) = false then
        some (igotit fs cg (ipref % fs.fs_ipg) mode cgp s)
      else
        match isearch fs cgp with
        | none => none
        | some ipref => some (igotit fs cg ipref mode { cgp with cg_irotor := ipref } s)

/-- Free an inode. -/
def ifree (ino mode : ℕ) (s : State) : Option State :=
  -- `panic("ifree: range")`
  if ino ≥ fs.fs_ipg * fs.fs_ncg then none
  else
    let cg := itog fs ino
    match breadcg s cg with
    | none => some s
    | some cgp =>
      let ino := ino % fs.fs_ipg
      -- `panic("ifree: freeing free inode")`
      if isset cgp.cg_iused ino = false then none
      else
        let cgp := { cgp with cg_iused := clrbit cgp.cg_iused ino }
        let cgp := if ino < cgp.cg_irotor then { cgp with cg_irotor := ino } else cgp
        let cgp := cgp.addnifree 1
        let s := addnifree s cg 1
        let dir := mode &&& IFMT = IFDIR
        let cgp := if dir then cgp.addndir (-1) else cgp
        let s := if dir then addndir s cg (-1) else s
        some (bdwritecg s cg cgp)

/-! ## The cylinder overflow algorithm -/

/-- An allocator of a group: `(cg, pref, size)`. -/
abbrev Allocator := ℕ → ℕ → ℕ → State → Option (ℕ × State)

/-- Quadratic rehash.  The fuel bounds the doublings of `i`. -/
def rehash (allocator : Allocator) (size : ℕ) : ℕ → ℕ → ℕ → State → Option (ℕ × State)
  | 0, _, _, s => some (0, s)
  | n + 1, cg, i, s =>
    if i < fs.fs_ncg then
      let cg := cg + i
      let cg := if cg ≥ fs.fs_ncg then cg - fs.fs_ncg else cg
      match allocator cg 0 size s with
      | none => none
      | some (result, s) =>
        if result ≠ 0 then some (result, s) else rehash allocator size n cg (i * 2) s
    else some (0, s)

/-- Brute force search; `n` groups are left. -/
def bruteforce (allocator : Allocator) (size : ℕ) : ℕ → ℕ → State → Option (ℕ × State)
  | 0, _, s => some (0, s)
  | n + 1, cg, s =>
    match allocator cg 0 size s with
    | none => none
    | some (result, s) =>
      if result ≠ 0 then some (result, s)
      else bruteforce allocator size n (if cg + 1 = fs.fs_ncg then 0 else cg + 1) s

/-- Implement the cylinder overflow algorithm: the preferred cylinder group, quadratic
rehash, brute force search. -/
def hashalloc (allocator : Allocator) (cg pref size : ℕ) (s : State) : Option (ℕ × State) :=
  match allocator cg pref size s with
  | none => none
  | some (result, s) =>
    if result ≠ 0 then some (result, s)
    else
      match rehash fs allocator size fs.fs_ncg cg 1 s with
      | none => none
      | some (result, s) =>
        if result ≠ 0 then some (result, s)
        else bruteforce fs allocator size (fs.fs_ncg - 2) ((cg + 2) % fs.fs_ncg) s

/-! ## Blocks of a file -/

/-- The label `nospace`: `u.u_error = ENOSPC; return (NULL)`. -/
def nospace (k : Kern) : Option ℕ × Kern := (none, { k with u_error := some .ENOSPC })

/-- The fragments `[bno, bno + n)` are cleared (`clrbuf`, `bzero`). -/
def Kern.clrfrags (k : Kern) (bno n : ℕ) : Kern :=
  { k with
    blk := fun b => if bno ≤ b ∧ b < bno + n then fun _ => 0 else k.blk b
    bap := fun b => if bno ≤ b ∧ b < bno + n then fun _ => 0 else k.bap b }

/-- `bcopy` of the `n` fragments at `src` to `dst`. -/
def Kern.copyfrags (k : Kern) (src dst n : ℕ) : Kern :=
  { k with blk := fun b => if dst ≤ b ∧ b < dst + n then k.blk (src + (b - dst)) else k.blk b }

def Kern.addblocks (k : Kern) (n : ℤ) : Kern :=
  { k with ip := { k.ip with i_blocks := k.ip.i_blocks + n } }

/-- Allocate a block in the file system. -/
def alloc (bpref size : ℕ) (k : Kern) : Option (Option ℕ × Kern) :=
  -- `panic("alloc: bad size")`
  if size > fs.fs_bsize ∨ fragoff fs size ≠ 0 then none
  else if size = fs.fs_bsize ∧ k.fsys.fs_cstotal.cs_nbfree = 0 then some (nospace k)
  else if u.u_uid ≠ 0 ∧ freespace fs k.fsys.fs_cstotal fs.fs_minfree ≤ 0 then some (nospace k)
  else
    match chkdq u (btodb size) false k with
    | (some e, k) => some (none, { k with u_error := some e })
    | (none, k) =>
      let k := { k with u_error := none }
      let bpref := if bpref ≥ fs.fs_size then 0 else bpref
      let cg := if bpref = 0 then itog fs k.ip.i_number else dtog fs bpref
      match hashalloc fs (alloccg fs) cg bpref size k.fsys with
      | none => none
      | some (bno, s) =>
        let k := { k with fsys := s }
        if bno = 0 then some (nospace k)
        else some (some bno, (k.addblocks (btodb size)).clrfrags bno (numfrags fs size))

/-- Reallocate a fragment to a bigger size: extend the original block, or else copy it
to a new one. -/
def realloccg (bprev bpref osize nsize : ℕ) (k : Kern) : Option (Option ℕ × Kern) :=
  -- `panic("realloccg: bad size")`
  if (osize > fs.fs_bsize ∨ fragoff fs osize ≠ 0) ∨ nsize > fs.fs_bsize ∨ fragoff fs nsize ≠ 0
  then none
  else if u.u_uid ≠ 0 ∧ freespace fs k.fsys.fs_cstotal fs.fs_minfree ≤ 0 then some (nospace k)
  -- `panic("realloccg: bad bprev")`
  else if bprev = 0 then none
  else
    match chkdq u (btodb (nsize - osize)) false k with
    | (some e, k) => some (none, { k with u_error := some e })
    | (none, k) =>
      let k := { k with u_error := none }
      let cg := dtog fs bprev
      let ofrags := numfrags fs osize
      let frags := numfrags fs nsize
      match fragextend fs cg bprev osize nsize k.fsys with
      | none => none
      | some (bno, s) =>
        let k := { k with fsys := s }
        if bno ≠ 0 then
          if k.blkerr bno then some (none, { k with u_error := some EIO })
          else
            some (some bno,
              (k.clrfrags (bno + ofrags) (frags - ofrags)).addblocks (btodb (nsize - osize)))
        else
          let bpref := if bpref ≥ fs.fs_size then 0 else bpref
          match hashalloc fs (alloccg fs) cg bpref nsize k.fsys with
          | none => none
          | some (bno, s) =>
            let k := { k with fsys := s }
            if bno > 0 then
              if k.blkerr bprev then some (none, { k with u_error := some EIO })
              else
                some (some bno,
                  ((k.copyfrags bprev bno ofrags).clrfrags (bno + ofrags)
                    (frags - ofrags)).addblocks
                    (btodb (nsize - osize)))
            else some (nospace k)

/-- Allocate an inode in the file system. -/
def ialloc (ipref mode : ℕ) (k : Kern) : Option (Option ℕ × Kern) :=
  if k.fsys.fs_cstotal.cs_nifree = 0 then some (nospace k)
  else
    match chkiq u u.u_uid false k with
    | (some e, k) => some (none, { k with u_error := some e })
    | (none, k) =>
      let k := { k with u_error := none }
      let ipref := if ipref ≥ fs.fs_ncg * fs.fs_ipg then 0 else ipref
      match hashalloc fs (ialloccg fs) (itog fs ipref) ipref mode k.fsys with
      | none => none
      | some (ino, s) =>
        let k := { k with fsys := s }
        if ino = 0 then some (nospace k)
        else if k.igeterr then
          match ifree fs ino 0 k.fsys with
          | none => none
          | some s => some (none, { k with fsys := s, u_error := some EIO })
        -- `panic("ialloc: dup alloc")`
        else if k.imode ino ≠ 0 then none
        else some (some ino, { k with iblocks := Function.update k.iblocks ino 0 })

end Ufs
