/-
# The block map of a file (`ufs/ufs_bmap.c`, `blkpref` of `ufs/ufs_alloc.c`)

`bmap` finds the address of logical block `bn`, for `B_WRITE` after allocating it and
the indirect blocks on the way to it.  It returns -1 for a hole and for a failed
allocation, and 0 for an error.  The hints for read-ahead and the order of the writes
are left out: a block is seen in the buffer cache as soon as it is released.
-/
import SunOS.Ufs.Inode

namespace Ufs

open Errno

def NDADDR : ℕ := 12
def NIADDR : ℕ := 3

inductive rw
  | B_READ
  | B_WRITE
deriving DecidableEq

variable (fs : Ufs.fs) (u : user)

/-- Size of logical block `lbn` of the file. -/
def blksize (ip : inode) (lbn : ℕ) : ℕ :=
  if lbn ≥ NDADDR ∨ ip.i_size ≥ (lbn + 1) * fs.fs_bsize then fs.fs_bsize
  else fragroundup fs (blkoff fs ip.i_size)

def roundup (x y : ℕ) : ℕ := (x + (y - 1)) / y * y

/-- The first of the `n` groups from `cg` on with at least `avgbfree` free blocks. -/
def findcg (s : State) (avgbfree : ℤ) : ℕ → ℕ → Option ℕ
  | 0, _ => none
  | n + 1, cg =>
    if (s.fs_cs cg).cs_nbfree ≥ avgbfree then some cg else findcg s avgbfree n (cg + 1)

/-- Select the desired position for the next block in a file. -/
def blkpref (lbn indx : ℕ) (bap : ℕ → ℕ) (k : Kern) : ℕ × Kern :=
  if indx % fs.fs_maxbpg = 0 ∨ bap (indx - 1) = 0 then
    if lbn < NDADDR then (fs.fs_fpg * itog fs k.ip.i_number + fs.fs_frag, k)
    else
      let avgbfree := k.fsys.fs_cstotal.cs_nbfree.tdiv fs.fs_ncg
      let next := k.fs_cgrotor + 1
      match findcg k.fsys avgbfree (fs.fs_ncg - next) next with
      | some cg => (fs.fs_fpg * cg + fs.fs_frag, { k with fs_cgrotor := cg })
      | none =>
        match findcg k.fsys avgbfree next 0 with
        | some cg => (fs.fs_fpg * cg + fs.fs_frag, { k with fs_cgrotor := cg })
        | none => (0, k)
  else
    let nextblk := bap (indx - 1) + fs.fs_frag
    if indx > fs.fs_maxcontig ∧
        bap (indx - fs.fs_maxcontig) + blkstofrags fs fs.fs_maxcontig ≠ nextblk then (nextblk, k)
    else if fs.fs_rotdelay ≠ 0 then
      (nextblk + roundup (fs.fs_rotdelay * fs.fs_rps * fs.fs_nsect / (NSPF fs * 1000))
        fs.fs_frag, k)
    else (nextblk, k)

namespace Kern

def setsize (k : Kern) (size : ℕ) : Kern := { k with ip := { k.ip with i_size := size } }

def setdb (k : Kern) (i b : ℕ) : Kern :=
  { k with ip := { k.ip with i_db := Function.update k.ip.i_db i b } }

def setib (k : Kern) (i b : ℕ) : Kern :=
  { k with ip := { k.ip with i_ib := Function.update k.ip.i_ib i b } }

/-- `bap[i] = b` in the buffer of block `nb`. -/
def setbap (k : Kern) (nb i b : ℕ) : Kern :=
  { k with bap := Function.update k.bap nb (Function.update (k.bap nb) i b) }

end Kern

/-- `free` of `size` bytes at `bno`. -/
def Kern.free (k : Kern) (bno size : ℕ) : Option Kern :=
  (Ufs.free fs bno size k.fsys).map fun s => { k with fsys := s }

/-- The piece `ob` of direct block `bn` grows from `osize` to `nsize` bytes, and is freed
when it had to move.  `NULL` when that fails. -/
def growdb (bn osize nsize : ℕ) (k : Kern) : Option (Option ℕ × Kern) :=
  let ob := k.ip.i_db bn
  let (pref, k) := blkpref fs bn bn k.ip.i_db k
  match realloccg fs u ob pref osize nsize k with
  | none => none
  | some (none, k) => some (none, k)
  | some (some nb, k) =>
    let k := k.setdb bn nb
    if nb ≠ ob then (k.free fs ob osize).map fun k => (some nb, k) else some (some nb, k)

/-- If the next write will extend the file into a new block, and the file is currently
composed of a fragment, this fragment has to be extended to be a full block.  `false`
when that fails. -/
def growlast (bn : ℕ) (k : Kern) : Option (Bool × Kern) :=
  let lbn := lblkno fs k.ip.i_size
  if lbn < NDADDR ∧ lbn < bn then
    let osize := blksize fs k.ip lbn
    if osize < fs.fs_bsize ∧ osize > 0 then
      match growdb fs u lbn osize fs.fs_bsize k with
      | none => none
      | some (none, k) => some (false, k)
      | some (some _, k) => some (true, k.setsize ((lbn + 1) * fs.fs_bsize))
    else some (true, k)
  else some (true, k)

/-- The first `NDADDR` blocks are direct blocks. -/
def bmapdirect (bn : ℕ) (rwflg : rw) (size : ℕ) (k : Kern) : Option (ℤ × Kern) :=
  let nb := k.ip.i_db bn
  if rwflg = .B_READ then
    if nb = 0 then some (-1, k) else some (nb, k)
  else if nb = 0 ∨ k.ip.i_size < (bn + 1) * fs.fs_bsize then
    if nb ≠ 0 then
      -- consider need to reallocate a frag
      let osize := fragroundup fs (blkoff fs k.ip.i_size)
      let nsize := fragroundup fs size
      if nsize ≤ osize then some (nb, k)
      else
        match growdb fs u bn osize nsize k with
        | none => none
        | some (none, k) => some (-1, k)
        | some (some nb, k) => some (nb, k)
    else
      let nsize := if k.ip.i_size < (bn + 1) * fs.fs_bsize then fragroundup fs size
        else fs.fs_bsize
      let (pref, k) := blkpref fs bn bn k.ip.i_db k
      match alloc fs u pref nsize k with
      | none => none
      | some (none, k) => some (-1, k)
      | some (some nb, k) => some (nb, k.setdb bn nb)
  else some (nb, k)

/-- Determine how many levels of indirection, counted down from `NIADDR`: the level
`j`, the number of blocks `sh` behind its pointer in the inode, and the place of the
block among these. -/
def levels : ℕ → ℤ → ℤ → ℕ × ℤ × ℤ
  | 0, sh, bn => (0, sh, bn)
  | j + 1, sh, bn =>
    let sh := int32 (sh * NINDIR fs)
    if bn < sh then (j + 1, sh, bn) else levels j sh (bn - sh)

/-- Fetch through the indirect blocks; `n` of them are left, the next one is `nb`. -/
def bmapfetch (rwflg : rw) (lbn : ℕ) (bn : ℤ) : ℕ → ℕ → ℤ → ℕ → Kern → Option (ℤ × Kern)
  | 0, nb, _, _, k => some (nb, k)
  | n + 1, nb, sh, pref, k =>
    if k.blkerr nb then some (0, { k with u_error := some EIO })
    else
      let sh := sh / NINDIR fs
      let i := (bn / sh % NINDIR fs).toNat
      if k.bap nb i ≠ 0 then bmapfetch rwflg lbn bn n (k.bap nb i) sh pref k
      else if rwflg = .B_READ then some (-1, k)
      else
        let (pref, k) :=
          if pref = 0 then
            if n ≠ 0 then blkpref fs lbn 0 (fun _ => 0) k else blkpref fs lbn i (k.bap nb) k
          else (pref, k)
        match alloc fs u pref fs.fs_bsize k with
        | none => none
        | some (none, k) => some (-1, k)
        | some (some b, k) => bmapfetch rwflg lbn bn n b sh pref (k.setbap nb i b)

/-- The blocks behind level `j`, from its pointer in the inode. -/
def bmaplevel (lbn : ℕ) (rwflg : rw) (j : ℕ) (sh bn : ℤ) (k : Kern) : Option (ℤ × Kern) :=
  if j = 0 then some (0, { k with u_error := some EFBIG })
  else
    -- fetch the first indirect block
    let nb := k.ip.i_ib (NIADDR - j)
    if nb ≠ 0 then bmapfetch fs u rwflg lbn bn (NIADDR + 1 - j) nb sh 0 k
    else if rwflg = .B_READ then some (-1, k)
    else
      let (pref, k) := blkpref fs lbn 0 (fun _ => 0) k
      match alloc fs u pref fs.fs_bsize k with
      | none => none
      | some (none, k) => some (-1, k)
      | some (some nb, k) =>
        bmapfetch fs u rwflg lbn bn (NIADDR + 1 - j) nb sh pref (k.setib (NIADDR - j) nb)

/-- The blocks behind the direct ones. -/
def bmapindir (lbn : ℕ) (rwflg : rw) (k : Kern) : Option (ℤ × Kern) :=
  let l := levels fs NIADDR 1 (lbn - NDADDR)
  bmaplevel fs u lbn rwflg l.1 l.2.1 l.2.2 k

/-- The physical block number on the device, given the inode and the logical block
number in the file; `size` is supplied only for `B_WRITE`. -/
def bmap (bn : ℤ) (rwflg : rw) (size : ℕ) (k : Kern) : Option (ℤ × Kern) :=
  if bn < 0 then some (0, { k with u_error := some EFBIG })
  else
    match (if rwflg = .B_WRITE then growlast fs u bn.toNat k else some (true, k)) with
    | none => none
    | some (false, k) => some (-1, k)
    | some (true, k) =>
      if bn < NDADDR then bmapdirect fs u bn.toNat rwflg size k
      else bmapindir fs u bn.toNat rwflg k

end Ufs
